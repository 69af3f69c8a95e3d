import ContractCompiler.Domain.Annotation
import ContractCompiler.Domain.Key
import Mathlib.Data.List.TakeWhile

/-!
# Canonical texts

The canonical text of a key gives back its namespace and key, and keys of a table carry the hashes
of their texts.

- `IsNamespace`: the texts that name namespaces;
- `canonicalKey_inj`: keys with the same canonical text are the same;
- `DomainKey.Regular`: a key whose parts fit together;
- `DomainKey.Made`: a key as accesses and annotations make it;
- `Hashing.InjectiveOn`: no two of some texts have the same hash;
- `KeyTable.Extends`, `KeyTable.intern_spec`: numbering a key keeps the keys that have numbers.
-/

namespace ContractCompiler

/-! ## Namespaces -/

/-- A text that names a namespace. -/
structure IsNamespace (ns : String) : Prop where
  ne_empty : ns ≠ ""
  plain : ∀ c ∈ ns.toList, c ≠ ':' ∧ c ≠ '*' ∧ c ≠ '.'

theorem eq_of_append_separator {α : Type} {c : α} {xs' rest rest' : List α} :
    ∀ {xs : List α}, c ∉ xs → c ∉ xs' → xs ++ c :: rest = xs' ++ c :: rest' → xs = xs' ∧
      rest = rest' := by
  induction xs' with
  | nil =>
    intro xs hxs _ h
    cases xs with
    | nil => exact ⟨rfl, (List.cons.inj h).2⟩
    | cons x xs => exact absurd (List.cons.inj h).1 fun heq => hxs (heq ▸ List.mem_cons_self)
  | cons x' xs' ih =>
    intro xs hxs hxs' h
    cases xs with
    | nil => exact absurd (List.cons.inj h).1 fun heq => hxs' (heq ▸ List.mem_cons_self)
    | cons x xs =>
      obtain ⟨rfl, htail⟩ := List.cons.inj h
      obtain ⟨rfl, hrest⟩ := ih (fun hmem => hxs (List.mem_cons_of_mem _ hmem))
        (fun hmem => hxs' (List.mem_cons_of_mem _ hmem)) htail
      exact ⟨rfl, hrest⟩

/-- The canonical text determines the namespace and the key, if namespaces do not contain the
separator. -/
theorem canonicalKey_split {unit ns ns' key key' : String} (hns : ':' ∉ ns.toList)
    (hns' : ':' ∉ ns'.toList) (h : canonicalKey unit ns key = canonicalKey unit ns' key') :
    ns = ns' ∧ key = key' := by
  have hlist := congrArg String.toList h
  simp only [canonicalKey, String.toList_append, List.append_assoc] at hlist
  have hcolon : ":".toList = [':'] := by decide
  rw [hcolon, List.append_cancel_left_eq, List.append_cancel_left_eq] at hlist
  simp only [List.singleton_append] at hlist
  obtain ⟨h₁, h₂⟩ := eq_of_append_separator hns hns' hlist
  exact ⟨String.toList_inj.mp h₁, String.toList_inj.mp h₂⟩

theorem IsNamespace.not_mem_separator {ns : String} (hns : IsNamespace ns) : ':' ∉ ns.toList :=
  fun hmem => (hns.plain ':' hmem).1 rfl

/-- The canonical text determines the namespace and the key. -/
theorem canonicalKey_inj {unit ns ns' key key' : String} (hns : IsNamespace ns)
    (hns' : IsNamespace ns') (h : canonicalKey unit ns key = canonicalKey unit ns' key') :
    ns = ns' ∧ key = key' :=
  canonicalKey_split hns.not_mem_separator hns'.not_mem_separator h

/-- The namespace of a declared key is one. -/
theorem isNamespace_declaredKey {text : String} {k : DeclaredKey}
    (h : Annotation.declaredKey text = .ok k) : IsNamespace k.ns := by
  unfold Annotation.declaredKey at h
  dsimp only at h
  split at h
  · cases h
  · rename_i hne
    split at h
    · cases h
    · rename_i hchars
      have hns : k.ns = String.ofList (text.toList.takeWhile (· != ':')) := by
        split at h
        · cases h
          rfl
        · split at h
          · cases h
            rfl
          · split at h
            · cases h
            · split at h
              · cases h
              · cases h
                rfl
      rw [hns]
      refine ⟨fun hempty => hne ?_, fun c hc => ?_⟩
      · have := congrArg String.toList hempty
        simpa using this
      · rw [String.toList_ofList] at hc
        have hcolon : c ≠ ':' := by simpa using List.mem_takeWhile_imp hc
        simp only [List.any_eq_true, not_exists, not_and] at hchars
        have := hchars c hc
        simp only [Bool.or_eq_true, decide_eq_true_eq, not_or] at this
        exact ⟨hcolon, this⟩

/-! ## Hashes -/

section Hashed

variable [Hashing]

/-- No two of some texts have the same hash. -/
def Hashing.InjectiveOn (texts : List String) : Prop :=
  ∀ a ∈ texts, ∀ b ∈ texts, Hashing.digestText a = Hashing.digestText b → a = b

/-- A key whose canonical text and hashes are those of its namespace. -/
structure DomainKey.Regular (unit : String) (k : DomainKey) : Prop where
  isNamespace : IsNamespace k.ns
  canonical_eq : ∃ text, k.canonical = canonicalKey unit k.ns text
  hash_eq : k.hash = Hashing.digestText k.canonical
  scope_eq : k.scope = Hashing.digestText (canonicalWildcard unit k.ns)

theorem DomainKey.regular_exact {unit ns : String} (hns : IsNamespace ns) (key : String) :
    (DomainKey.exact unit ns key).Regular unit :=
  ⟨hns, ⟨key, rfl⟩, rfl, rfl⟩

theorem DomainKey.regular_all {unit ns : String} (hns : IsNamespace ns) :
    (DomainKey.all unit ns).Regular unit :=
  ⟨hns, ⟨"*", rfl⟩, rfl, rfl⟩

/-- A key of a namespace by a text that does not stand for all keys, or all keys of a namespace. -/
inductive DomainKey.Made (unit : String) : DomainKey → Prop where
  | exact {ns key : String} (hns : IsNamespace ns) (hkey : key ≠ "*") :
      Made unit (.exact unit ns key)
  | all {ns : String} (hns : IsNamespace ns) : Made unit (.all unit ns)

theorem DomainKey.Made.regular {unit : String} {k : DomainKey} (h : k.Made unit) :
    k.Regular unit := by
  cases h with
  | exact hns => exact regular_exact hns _
  | all hns => exact regular_all hns

/-- Keys that are made are the same if their canonical texts are. -/
theorem DomainKey.Made.eq_of_canonical {unit : String} {k k' : DomainKey} (h : k.Made unit)
    (h' : k'.Made unit) (heq : k.canonical = k'.canonical) : k = k' := by
  cases h with
  | exact hns hkey =>
    cases h' with
    | exact hns' =>
      obtain ⟨rfl, rfl⟩ := canonicalKey_inj hns hns' heq
      rfl
    | all hns' => exact absurd (canonicalKey_inj hns hns' heq).2 hkey
  | all hns =>
    cases h' with
    | exact hns' hkey => exact absurd (canonicalKey_inj hns hns' heq).2.symm hkey
    | all hns' =>
      obtain ⟨rfl, -⟩ := canonicalKey_inj hns hns' heq
      rfl

/-- A key of a namespace by its text is in that namespace. -/
theorem DomainKey.Regular.ns_eq {unit ns text : String} {k : DomainKey} (h : k.Regular unit)
    (hns : IsNamespace ns) (hk : k.canonical = canonicalKey unit ns text) : k.ns = ns := by
  obtain ⟨text', htext'⟩ := h.canonical_eq
  exact (canonicalKey_inj h.isNamespace hns (htext'.symm.trans hk)).1

end Hashed

/-! ## Tables -/

namespace KeyTable

/-- A table that has the keys of another under the same numbers. -/
def Extends (t t' : KeyTable) : Prop := ∀ id k, t.get? id = some k → t'.get? id = some k

theorem Extends.refl (t : KeyTable) : Extends t t := fun _ _ h => h

theorem Extends.trans {t t' t'' : KeyTable} (h : Extends t t') (h' : Extends t' t'') :
    Extends t t'' :=
  fun id k hk => h' id k (h id k hk)

/-- A number in a table stands for a canonical text. -/
def Names (t : KeyTable) (id : Nat) (canonical : String) : Prop :=
  ∃ k, t.get? id = some k ∧ k.canonical = canonical

theorem Names.mono {t t' : KeyTable} (h : Extends t t') {id : Nat} {canonical : String}
    (hid : t.Names id canonical) : t'.Names id canonical := by
  obtain ⟨k, hk, hcanonical⟩ := hid
  exact ⟨k, h id k hk, hcanonical⟩

theorem Names.lt_size {t : KeyTable} {id : Nat} {canonical : String} (h : t.Names id canonical) :
    id < t.keys.size := by
  obtain ⟨k, hk, -⟩ := h
  exact (Array.getElem?_eq_some_iff.mp hk).1

theorem Extends.size_le {t t' : KeyTable} (h : Extends t t') : t.keys.size ≤ t'.keys.size := by
  by_contra hlt
  have hlt : t'.keys.size < t.keys.size := Nat.lt_of_not_le hlt
  have hget := h t'.keys.size t.keys[t'.keys.size] (Array.getElem?_eq_getElem hlt)
  exact absurd (Array.getElem?_eq_some_iff.mp hget).1 (Nat.lt_irrefl _)

/-- Numbering a key keeps the table and yields a number of its text; a key that is added is the
given one. -/
theorem intern_spec (t : KeyTable) (k : DomainKey) :
    Extends t (t.intern k).2 ∧ (t.intern k).2.Names (t.intern k).1 k.canonical ∧
      ∀ id k', (t.intern k).2.get? id = some k' → t.get? id = some k' ∨ k' = k := by
  unfold intern
  split
  · rename_i id hid
    obtain ⟨i, hi, rfl⟩ := Option.map_eq_some_iff.mp hid
    have hfound := (Array.findFinIdx?_eq_some_iff.mp hi).1
    refine ⟨.refl t, ⟨t.keys[i], Array.getElem?_eq_getElem i.isLt, beq_iff_eq.mp hfound⟩, ?_⟩
    exact fun _ _ h => .inl h
  · refine ⟨fun id k' hk => ?_, ⟨k, Array.getElem?_push_size, rfl⟩, fun id k' hk => ?_⟩
    · obtain ⟨hlt, hget⟩ := Array.getElem?_eq_some_iff.mp hk
      show (t.keys.push k)[id]? = some k'
      rw [Array.getElem?_push_lt hlt, hget]
    · have hk : (t.keys.push k)[id]? = some k' := hk
      rw [Array.getElem?_push] at hk
      split at hk
      · exact .inr (Option.some.inj hk).symm
      · exact .inl hk

end KeyTable

end ContractCompiler
