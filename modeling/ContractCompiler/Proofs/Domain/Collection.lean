import ContractCompiler.Proofs.Domain.Aggregation
import ContractCompiler.Proofs.Domain.Annotation
import Mathlib.Data.List.Forall2

/-!
# Accesses of a function's own code

What `collectFunctions` enters for a function: the keys that its annotations declare, and for every
access of its code the possible keys of the access or the wildcard of its namespace.

- `KeyTable.Lists`: numbers in a table stand for some keys;
- `StateAccess.keys`: the keys that an access is entered by;
- `Collector.Advances`: the table of keys only grows, and only by keys that accesses and annotations
  make;
- `FunctionDomains.Gains`: entering accesses adds some keys, and nothing else;
- `FunctionDomains.Collected`, `collectFunctions_spec`: what is collected for each function.
-/

namespace ContractCompiler

/-! ## Numbered keys -/

/-- Numbers in a table stand for the keys with a property, each of them. -/
structure KeyTable.Lists (keys : KeyTable) (set : List KeyId) (P : DomainKey → Prop) : Prop where
  named : ∀ n ∈ set, ∃ k, keys.get? n = some k ∧ P k
  complete : ∀ k, P k → ∃ n ∈ set, keys.get? n = some k

namespace KeyTable.Lists

variable {keys keys' : KeyTable} {set set' : List KeyId} {P Q : DomainKey → Prop}

theorem mono (h : keys.Lists set P) (hkeys : keys.Extends keys') : keys'.Lists set P := by
  refine ⟨fun id hid => ?_, fun k hk => ?_⟩
  · obtain ⟨k, hget, hk⟩ := h.named id hid
    exact ⟨k, hkeys id k hget, hk⟩
  · obtain ⟨id, hid, hget⟩ := h.complete k hk
    exact ⟨id, hid, hkeys id k hget⟩

theorem congr (h : keys.Lists set P) (hPQ : ∀ k, P k ↔ Q k) : keys.Lists set Q := by
  obtain rfl : P = Q := funext fun k => propext (hPQ k)
  exact h

theorem nil (keys : KeyTable) (hP : ∀ k, ¬P k) : keys.Lists [] P :=
  ⟨fun _ h => absurd h List.not_mem_nil, fun k hk => absurd hk (hP k)⟩

theorem union (h : keys.Lists set P) (h' : keys.Lists set' Q) :
    keys.Lists (KeySet.union set set') fun k => P k ∨ Q k := by
  refine ⟨fun id hid => ?_, fun k hk => ?_⟩
  · rcases KeySet.mem_union.mp hid with hid | hid
    · obtain ⟨k, hget, hk⟩ := h.named id hid
      exact ⟨k, hget, .inl hk⟩
    · obtain ⟨k, hget, hk⟩ := h'.named id hid
      exact ⟨k, hget, .inr hk⟩
  · rcases hk with hk | hk
    · obtain ⟨id, hid, hget⟩ := h.complete k hk
      exact ⟨id, KeySet.mem_union.mpr (.inl hid), hget⟩
    · obtain ⟨id, hid, hget⟩ := h'.complete k hk
      exact ⟨id, KeySet.mem_union.mpr (.inr hid), hget⟩

theorem lt_size (h : keys.Lists set P) {id : KeyId} (hid : id ∈ set) : id < keys.keys.size := by
  obtain ⟨k, hget, -⟩ := h.named id hid
  exact (Array.getElem?_eq_some_iff.mp hget).1

end KeyTable.Lists

/-! ## Entering accesses -/

/-- Entering accesses adds some keys to the sets of a function's own code, and nothing else. -/
structure FunctionDomains.Gains (keys keys' : KeyTable) (entered : Bool → DomainKey → Prop)
    (d d' : FunctionDomains) : Prop where
  source_eq : d'.source = d.source
  declares_eq : ∀ write, d'.declares write = d.declares write
  visible_eq : ∀ write, d'.visible write = d.visible write
  increasing : ∀ write, KeySet.Increasing (d.own write) → KeySet.Increasing (d'.own write)
  own : ∀ write P, keys.Lists (d.own write) P → keys'.Lists (d'.own write) fun k => P k ∨
      entered write k
  rejected : d.rejected = true → d'.rejected = true

namespace FunctionDomains

variable {keys keys' keys'' : KeyTable} {entered entered' : Bool → DomainKey → Prop}
  {d d' d'' : FunctionDomains}

theorem Gains.refl (keys : KeyTable) (d : FunctionDomains) :
    Gains keys keys (fun _ _ => False) d d where
  source_eq := rfl
  declares_eq _ := rfl
  visible_eq _ := rfl
  increasing _ h := h
  own _ _ h := h.congr fun _ => (iff_of_eq (or_false _)).symm
  rejected h := h

theorem Gains.trans (h : Gains keys keys' entered d d') (h' : Gains keys' keys'' entered' d' d'') :
    Gains keys keys'' (fun write k => entered write k ∨ entered' write k) d d'' where
  source_eq := h'.source_eq.trans h.source_eq
  declares_eq w := (h'.declares_eq w).trans (h.declares_eq w)
  visible_eq w := (h'.visible_eq w).trans (h.visible_eq w)
  increasing w hinc := h'.increasing w (h.increasing w hinc)
  own w _ hP := (h'.own w _ (h.own w _ hP)).congr fun _ => or_assoc
  rejected hr := h'.rejected (h.rejected hr)

theorem Gains.congr (h : Gains keys keys' entered d d')
    (heq : ∀ write k, entered write k ↔ entered' write k) :
    Gains keys keys' entered' d d' := by
  obtain rfl : entered = entered' := funext fun write => funext fun k => propext (heq write k)
  exact h

theorem own_addAccesses (d : FunctionDomains) (isWrite : Bool) (span : Span) (ids : List KeyId)
    (write : Bool) : (d.addAccesses isWrite span ids).own write
      = if write = isWrite then KeySet.union (d.own write) ids else d.own write := by
  cases isWrite <;> cases write <;> rfl

theorem gains_addAccesses (d : FunctionDomains) (isWrite : Bool) (span : Span) {ids : List KeyId}
    (hkeys : keys.Extends keys') {P : DomainKey → Prop} (hids : keys'.Lists ids P) :
    Gains keys keys' (fun write k => write = isWrite ∧ P k) d (d.addAccesses isWrite span ids) where
  source_eq := rfl
  declares_eq w := by cases w <;> rfl
  visible_eq w := by cases w <;> rfl
  increasing w hinc := by
    rw [own_addAccesses]
    split
    · exact hinc.union ids
    · exact hinc
  own w Q hQ := by
    rw [own_addAccesses]
    by_cases hw : w = isWrite
    · rw [if_pos hw]
      exact ((hQ.mono hkeys).union hids).congr fun k => by simp [hw]
    · rw [if_neg hw]
      exact (hQ.mono hkeys).congr fun k => by simp [hw]
  rejected h := h

/-- What is not among the sets of a function's own code does not count. -/
theorem Gains.of_eq (keys : KeyTable) (hsource : d'.source = d.source)
    (hdeclares : ∀ write, d'.declares write = d.declares write)
    (hvisible : ∀ write, d'.visible write = d.visible write)
    (hown : ∀ write, d'.own write = d.own write)
    (hrejected : d.rejected = true → d'.rejected = true) :
    Gains keys keys (fun _ _ => False) d d' where
  source_eq := hsource
  declares_eq := hdeclares
  visible_eq := hvisible
  increasing w hinc := by
    rw [hown]
    exact hinc
  own w P hP := by
    rw [hown]
    exact hP.congr fun _ => (iff_of_eq (or_false _)).symm
  rejected := hrejected

end FunctionDomains

/-! ## The keys of accesses -/

theorem toString_nat_ne (n : Nat) : toString n ≠ "*" := by
  intro h
  have hchars : Nat.toDigits 10 n = ['*'] := by
    rw [← String.toList_ofList (l := Nat.toDigits 10 n)]
    exact congrArg String.toList h
  have hmem : '*' ∈ Nat.toDigits 10 n := by
    rw [hchars]
    exact List.mem_cons_self
  cases Nat.isDigit_of_mem_toDigits (by decide) (by decide) hmem

theorem toString_int_ne (i : Int) : toString i ≠ "*" := by
  cases i with
  | ofNat n => exact toString_nat_ne n
  | negSucc n =>
    intro h
    have hchars : ("-" ++ Nat.repr (n + 1)).toList = ['*'] := congrArg String.toList h
    rw [String.toList_append] at hchars
    cases (List.cons.inj hchars).1

theorem ofNat_toNat_ne {b : UInt8} (hb : isPlainKeyByte b = true) : Char.ofNat b.toNat ≠ '*' := by
  intro h
  have hvalid : b.toNat.isValidChar := .inl (Nat.lt_of_lt_of_le b.toNat_lt (by decide))
  have hnat : b.toNat = 42 := by
    have hchar := congrArg Char.toNat h
    rw [Char.ofNat, dif_pos hvalid] at hchar
    exact hchar
  obtain rfl : b = 42 := UInt8.toNat_inj.mp hnat
  cases hb

theorem renderBytesKey_ne (bs : Bytes) : renderBytesKey bs ≠ "*" := by
  intro h
  have hchars := congrArg String.toList h
  unfold renderBytesKey at hchars
  split at hchars
  · rename_i hplain
    rw [String.toList_ofList] at hchars
    cases bs with
    | nil => cases hchars
    | cons b bs =>
      have hall := (Bool.and_eq_true_iff.mp hplain).2
      rw [List.all_cons, Bool.and_eq_true] at hall
      exact ofNat_toNat_ne hall.1 (List.cons.inj hchars).1
  · rw [String.toList_append] at hchars
    cases (List.cons.inj hchars).1

/-- The text of a constant does not stand for all keys. -/
theorem Ssa.KeyConst.text_ne (k : KeyConst) (signed : Bool) : k.text signed ≠ "*" := by
  cases k with
  | bytes b => exact renderBytesKey_ne b
  | word w =>
    show renderIntKey w signed ≠ "*"
    unfold renderIntKey
    split
    · exact toString_int_ne _
    · exact toString_nat_ne _

/-- The signedness of a key. -/
def Ssa.KeySearch.keySigned (search : Ssa.KeySearch) (key : Ssa.ValueId) : Bool :=
  (search.types.intKind (search.module.valueType key)).signed

/-- The search for the keys of a function's accesses. -/
def keySearch (m : Ssa.Module) (types : TypePool) (maxKeys : Nat) (f : Ssa.Function) :
    Ssa.KeySearch where
  module := m
  types
  preds := (m.cfg f).predecessors
  maxKeys

section Hashed

variable [Hashing] {unit : String}

/-- The keys that an access is entered by: those that it may have, or the wildcard of its namespace
if these are not known. -/
def StateAccess.keys (a : StateAccess) (unit : String) (search : Ssa.KeySearch)
    (policy : WildcardPolicy) :
    List DomainKey :=
  match search.resolve a.key with
  | some consts => consts.map fun k => .exact unit a.ns (k.text (search.keySigned a.key))
  | none => if policy = .coarsen then [.all unit a.ns] else []

theorem StateAccess.made_keys {a : StateAccess} (hns : IsNamespace a.ns) (search : Ssa.KeySearch)
    (policy : WildcardPolicy) : ∀ k ∈ a.keys unit search policy, k.Made unit := by
  intro k hk
  unfold StateAccess.keys at hk
  split at hk
  · obtain ⟨const, -, rfl⟩ := List.mem_map.mp hk
    exact .exact hns (const.text_ne _)
  · split at hk
    · obtain rfl := List.mem_singleton.mp hk
      exact .all hns
    · cases hk

/-- The keys that the annotations of a function declare it to write, or to read. -/
def Ssa.Function.declaredKeys (f : Ssa.Function) (unit : String) (write : Bool) : List DomainKey :=
  if (parseAnnotations f.attrs).annotations.noState then []
  else (((parseAnnotations f.attrs).annotations.declared write).getD []).map (·.toDomainKey unit)

theorem Ssa.Function.declaredKeys_eq_nil {f : Ssa.Function} {write : Bool}
    (h : (!(parseAnnotations f.attrs).annotations.noState &&
      ((parseAnnotations f.attrs).annotations.declared write).isSome) = false) :
    f.declaredKeys unit write = [] := by
  unfold declaredKeys
  cases hno : (parseAnnotations f.attrs).annotations.noState with
  | true => rfl
  | false =>
    rw [hno, Bool.not_false, Bool.true_and, Option.isSome_eq_false_iff,
      Option.isNone_iff_eq_none] at h
    rw [h]
    rfl

/-- A key is one that an access of a function's code is entered by. -/
def Ssa.Function.Enters (f : Ssa.Function) (m : Ssa.Module) (types : TypePool) (unit : String)
    (opt : DomainOptions) (write : Bool) (k : DomainKey) : Prop :=
  f.excluded = false ∧ (parseAnnotations f.attrs).annotations.noState = false ∧
    ∃ inst ∈ m.instsOf f, ∃ a, inst.data.stateAccess? = some a ∧ write = a.isWrite ∧
      k ∈ a.keys unit (keySearch m types opt.maxEnumeratedKeys f) opt.wildcardPolicy

/-! ## The table of keys -/

/-- All keys of a table are made by accesses and annotations. -/
def KeyTable.Made (unit : String) (t : KeyTable) : Prop := ∀ id k, t.get? id = some k → k.Made unit

/-- The table of keys grows, by keys that accesses and annotations make. -/
structure Collector.Advances (unit : String) (c c' : Collector) : Prop where
  keys : c.keys.Extends c'.keys
  made : c.keys.Made unit → c'.keys.Made unit

namespace Collector.Advances

theorem refl (c : Collector) : Advances unit c c := ⟨.refl _, id⟩

theorem trans {c c' c'' : Collector} (h : Advances unit c c') (h' : Advances unit c' c'') :
    Advances unit c c'' :=
  ⟨h.keys.trans h'.keys, fun hc => h'.made (h.made hc)⟩

/-- What does not change the table. -/
theorem of_keys_eq {c c' : Collector} (h : c'.keys = c.keys) : Advances unit c c' :=
  ⟨h ▸ .refl _, fun hc => h ▸ hc⟩

end Collector.Advances

variable {c : Collector}

theorem intern_advances (hc : c.keys.Made unit) {k : DomainKey} (hk : k.Made unit) :
    Collector.Advances unit c ((Collect.intern k).run c).2 ∧
      ((Collect.intern k).run c).2.keys.get? ((Collect.intern k).run c).1 = some k := by
  obtain ⟨hext, ⟨k', hget, hcanonical⟩, hnew⟩ := c.keys.intern_spec k
  have hmade : ((c.keys.intern k).2).Made unit := by
    intro id k' hk'
    rcases hnew id k' hk' with hold | rfl
    · exact hc id k' hold
    · exact hk
  obtain rfl := (hmade _ k' hget).eq_of_canonical hk hcanonical
  exact ⟨⟨hext, fun _ => hmade⟩, hget⟩

theorem internAll_advances {ks : List DomainKey} (hc : c.keys.Made unit)
    (hks : ∀ k ∈ ks, k.Made unit) :
    Collector.Advances unit c ((Collect.internAll ks).run c).2 ∧
      ((Collect.internAll ks).run c).2.keys.Lists ((Collect.internAll ks).run c).1 (· ∈ ks) := by
  induction ks generalizing c with
  | nil => exact ⟨.refl c, .nil _ fun k => List.not_mem_nil⟩
  | cons k ks ih =>
    obtain ⟨hadv, hget⟩ := intern_advances hc (hks k List.mem_cons_self)
    obtain ⟨hadv', hlists⟩ := ih (hadv.made hc) fun k' hk' => hks k' (List.mem_cons_of_mem _ hk')
    have hfirst := hadv'.keys _ _ hget
    refine ⟨hadv.trans hadv', fun id hid => ?_, fun k' hk' => ?_⟩
    · rcases List.mem_cons.mp hid with rfl | hid
      · exact ⟨k, hfirst, List.mem_cons_self⟩
      · obtain ⟨k', hk', hmem⟩ := hlists.named id hid
        exact ⟨k', hk', List.mem_cons_of_mem _ hmem⟩
    · rcases List.mem_cons.mp hk' with rfl | hk'
      · exact ⟨_, List.mem_cons_self, hfirst⟩
      · obtain ⟨id, hid, hget'⟩ := hlists.complete k' hk'
        exact ⟨id, List.mem_cons_of_mem _ hid, hget'⟩

/-! ## The accesses of a function -/

/-- An access is entered by its keys. It is turned down only if its keys are not known and have to
be. -/
theorem collectAccess_spec (hc : c.keys.Made unit) (search : Ssa.KeySearch)
    (policy : WildcardPolicy) (name : String) (span : Span) {a : StateAccess}
    (hns : IsNamespace a.ns) (d : FunctionDomains) :
    let r := (collectAccess search unit policy name span a d).run c
    Collector.Advances unit c r.2 ∧
      d.Gains c.keys r.2.keys (fun write k => write = a.isWrite ∧
        k ∈ a.keys unit search policy) r.1 ∧
      (r.1.rejected = false → policy = .reject → (search.resolve a.key).isSome = true) := by
  have hmade : ∀ k ∈ a.keys unit search policy, k.Made unit := a.made_keys hns search policy
  unfold StateAccess.keys at hmade ⊢
  unfold collectAccess
  generalize search.resolve a.key = found at hmade ⊢
  cases found with
  | some consts =>
    obtain ⟨hadv, hlists⟩ := internAll_advances (c := { c with accesses := c.accesses + 1 })
      hc hmade
    exact ⟨⟨hadv.keys, hadv.made⟩, FunctionDomains.gains_addAccesses d a.isWrite span hadv.keys
      hlists, fun _ _ => rfl⟩
  | none =>
    cases policy with
    | reject =>
      have hgains : d.Gains c.keys c.keys (fun _ _ => False) { d with rejected := true } := by
        refine .of_eq c.keys rfl ?_ ?_ ?_ fun _ => rfl
        all_goals exact fun w => by cases w <;> rfl
      refine ⟨.of_keys_eq rfl, hgains.congr fun w k => ?_, fun h => Bool.noConfusion h⟩
      simp
    | coarsen =>
      let d₁ : FunctionDomains := { d with fallbacks := d.fallbacks + 1 }
      obtain ⟨hadv, hget⟩ := intern_advances (c := { c with accesses := c.accesses + 1 }) hc
        (k := DomainKey.all unit a.ns) (.all hns)
      have hlists :
          ((Collect.intern (.all unit a.ns)).run { c with accesses := c.accesses + 1 }).2.keys.Lists
          [((Collect.intern (.all unit a.ns)).run { c with accesses := c.accesses + 1 }).1]
          (· ∈ [DomainKey.all unit a.ns]) := by
        refine ⟨fun id hid => ⟨_, ?_, List.mem_cons_self⟩, fun k hk => ⟨_, List.mem_cons_self, ?_⟩⟩
        · rw [List.mem_singleton.mp hid]
          exact hget
        · rw [List.mem_singleton.mp hk]
          exact hget
      have hd₁ : d.Gains c.keys c.keys (fun _ _ => False) d₁ := by
        refine .of_eq c.keys rfl ?_ ?_ ?_ id
        all_goals exact fun w => by cases w <;> rfl
      refine ⟨⟨hadv.keys, hadv.made⟩, (hd₁.trans
        (FunctionDomains.gains_addAccesses d₁ a.isWrite span hadv.keys hlists)).congr fun w k => ?_,
        fun _ h => by cases h⟩
      rw [false_or, if_pos rfl]

theorem collectInsts_spec (search : Ssa.KeySearch) (policy : WildcardPolicy) (name : String)
    {insts : List Ssa.Inst} (hc : c.keys.Made unit) (d : FunctionDomains)
    (hns : ∀ inst ∈ insts, ∀ a, inst.data.stateAccess? = some a → IsNamespace a.ns) :
    let r := (collectInsts search unit policy name insts d).run c
    Collector.Advances unit c r.2 ∧
      d.Gains c.keys r.2.keys (fun write k => ∃ inst ∈ insts, ∃ a, inst.data.stateAccess? = some a ∧
        write = a.isWrite ∧ k ∈ a.keys unit search policy) r.1 ∧
      (r.1.rejected = false → policy = .reject →
        ∀ inst ∈ insts, ∀ a, inst.data.stateAccess? = some a →
        (search.resolve a.key).isSome = true) := by
  induction insts generalizing d c with
  | nil => exact ⟨.refl c, (FunctionDomains.Gains.refl c.keys d).congr (by simp), by simp⟩
  | cons inst rest ih =>
    have hrest := fun inst' hinst' => hns inst' (List.mem_cons_of_mem inst hinst')
    rw [collectInsts]
    cases ha : inst.data.stateAccess? with
    | none =>
      obtain ⟨hadv, hgains, hresolved⟩ := ih hc d hrest
      refine ⟨hadv, hgains.congr fun w k => ?_, fun hrej hpolicy inst' hinst' a' ha' => ?_⟩
      · simp [ha]
      · rcases List.mem_cons.mp hinst' with rfl | hinst'
        · rw [ha] at ha'
          cases ha'
        · exact hresolved hrej hpolicy inst' hinst' a' ha'
    | some a =>
      obtain ⟨hadv₁, hgains₁, hresolved₁⟩ := collectAccess_spec hc search policy name inst.span
        (hns inst List.mem_cons_self a ha) d
      obtain ⟨hadv₂, hgains₂, hresolved₂⟩ := ih (hadv₁.made hc) _ hrest
      refine ⟨hadv₁.trans hadv₂, (hgains₁.trans hgains₂).congr fun w k => ?_,
        fun hrej hpolicy inst' hinst' a' ha' => ?_⟩
      · simp [ha]
      · rcases List.mem_cons.mp hinst' with rfl | hinst'
        · obtain rfl := Option.some.inj (ha.symm.trans ha')
          refine hresolved₁ (Bool.eq_false_iff.mpr fun hrej₁ => ?_) hpolicy
          exact Bool.false_ne_true (hrej.symm.trans (hgains₂.rejected hrej₁))
        · exact hresolved₂ hrej hpolicy inst' hinst' a' ha'

/-- Declared keys become a set of numbers. -/
theorem collectDeclared_spec (hc : c.keys.Made unit) {declared : Option (List DeclaredKey)}
    (hmade : ∀ ks, declared = some ks → ∀ k ∈ ks.map (·.toDomainKey unit), k.Made unit) :
    let r := (collectDeclared unit declared).run c
    Collector.Advances unit c r.2 ∧ KeySet.Increasing r.1 ∧
      r.2.keys.Lists r.1 (· ∈ (declared.getD []).map (·.toDomainKey unit)) := by
  cases declared with
  | none => exact ⟨.refl c, List.Pairwise.nil, .nil _ fun k => List.not_mem_nil⟩
  | some ks =>
    obtain ⟨hadv, hlists⟩ := internAll_advances hc (hmade ks rfl)
    refine ⟨hadv, KeySet.Increasing.union List.Pairwise.nil _, ?_⟩
    exact ((KeyTable.Lists.nil _ fun _ => not_false).union hlists).congr
      fun k => iff_of_eq (false_or _)

/-- What is collected for a function. -/
structure FunctionDomains.Collected (m : Ssa.Module) (types : TypePool) (unit : String)
    (opt : DomainOptions) (keys : KeyTable) (f : Ssa.Function) (d : FunctionDomains)
    (ok : Bool) : Prop where
  source_iff : d.source = .trusted ↔ (parseAnnotations f.attrs).annotations.noState = true
  declares_eq : ∀ write, d.declares write = (!(parseAnnotations f.attrs).annotations.noState &&
    ((parseAnnotations f.attrs).annotations.declared write).isSome)
  increasing_own : ∀ write, KeySet.Increasing (d.own write)
  increasing : ∀ write, KeySet.Increasing (d.visible write)
  own : ∀ write, keys.Lists (d.own write) (f.Enters m types unit opt write)
  visible : ∀ write, keys.Lists (d.visible write) (· ∈ f.declaredKeys unit write)
  /-- No access was turned down. -/
  resolved : ok = true → opt.wildcardPolicy = .reject → f.excluded = false → d.source ≠ .trusted →
    ∀ inst ∈ m.instsOf f, ∀ a, inst.data.stateAccess? = some a →
      ((keySearch m types opt.maxEnumeratedKeys f).resolve a.key).isSome = true

namespace FunctionDomains.Collected

variable {m : Ssa.Module} {types : TypePool} {opt : DomainOptions} {keys keys' : KeyTable}
  {f : Ssa.Function}
  {d : FunctionDomains} {ok : Bool}

theorem mono (h : Collected m types unit opt keys f d ok) (hkeys : keys.Extends keys') :
    Collected m types unit opt keys' f d ok :=
  ⟨h.source_iff, h.declares_eq, h.increasing_own, h.increasing, fun w => (h.own w).mono hkeys,
    fun w => (h.visible w).mono hkeys, h.resolved⟩

/-- A function of which nothing is declared shows nothing at first. -/
theorem visible_nil (h : Collected m types unit opt keys f d ok) {write : Bool}
    (hdecl : d.declares write = false) : d.visible write = [] := by
  rw [h.declares_eq] at hdecl
  refine List.eq_nil_iff_forall_not_mem.mpr fun id hid => ?_
  obtain ⟨k, -, hk⟩ := (h.visible write).named id hid
  rw [Ssa.Function.declaredKeys_eq_nil hdecl] at hk
  cases hk

end FunctionDomains.Collected

section Functions

variable {m : Ssa.Module}

theorem collectFunction_spec (hc : c.keys.Made unit) (types : TypePool) (opt : DomainOptions)
    {f : Ssa.Function}
    (hns : ∀ inst ∈ m.instsOf f, ∀ a, inst.data.stateAccess? = some a → IsNamespace a.ns) :
    let r := (collectFunction m types unit opt f).run c
    Collector.Advances unit c r.2 ∧ r.1.1.Collected m types unit opt r.2.keys f r.1.2 := by
  have hadv₀ :
      Collector.Advances unit c ((Collect.report (parseAnnotations f.attrs).diags).run c).2 :=
    .of_keys_eq rfl
  have hmade : ∀ write ks, (parseAnnotations f.attrs).annotations.declared write = some ks →
      ∀ k ∈ ks.map (·.toDomainKey unit), k.Made unit := fun write ks hks => made_declared unit hks
  unfold collectFunction
  dsimp only
  cases hno : (parseAnnotations f.attrs).annotations.noState with
  | true =>
    -- a function that touches no state enters and declares nothing
    have hown : ∀ write k, ¬f.Enters m types unit opt write k := by
      rintro write k ⟨-, hstate, -⟩
      exact Bool.false_ne_true (hstate.symm.trans hno)
    have hdecl : ∀ write k, k ∉ f.declaredKeys unit write := by
      intro write k hk
      unfold Ssa.Function.declaredKeys at hk
      rw [if_pos hno] at hk
      cases hk
    refine ⟨hadv₀, ⟨iff_of_true rfl hno, fun w => ?_, fun w => ?_, fun w => ?_, fun w => ?_,
      fun w => ?_,
      fun _ _ _ hsource => absurd rfl hsource⟩⟩
    · rw [hno]
      cases w <;> rfl
    · cases w <;> exact List.Pairwise.nil
    · cases w <;> exact List.Pairwise.nil
    · cases w <;> exact .nil _ (hown _)
    · cases w <;> exact .nil _ (hdecl _)
  | false =>
    -- declared keys come first, then those of the accesses
    let ann := (parseAnnotations f.attrs).annotations
    let c₀ := ((Collect.report (parseAnnotations f.attrs).diags).run c).2
    let r₁ := (collectDeclared unit ann.reads).run c₀
    let r₂ := (collectDeclared unit ann.writes).run r₁.2
    have hc₀ : c₀.keys.Made unit := hadv₀.made hc
    obtain ⟨hadv₁, hincr, hreads⟩ : Collector.Advances unit c₀ r₁.2 ∧ KeySet.Increasing r₁.1 ∧ _ :=
      collectDeclared_spec hc₀ (hmade false)
    obtain ⟨hadv₂, hincw, hwrites⟩ : Collector.Advances unit r₁.2 r₂.2 ∧
        KeySet.Increasing r₂.1 ∧ _ :=
      collectDeclared_spec (hadv₁.made hc₀) (hmade true)
    have hdecl := hadv₀.trans (hadv₁.trans hadv₂)
    let d : FunctionDomains :=
      { reads := r₁.1, writes := r₂.1, proofs := ann.proofs
        readsDeclared := ann.reads.isSome, writesDeclared := ann.writes.isSome
        source := if ann.reads.isSome || ann.writes.isSome then .declared else .inferred }
    have hsource : d.source = .trusted ↔ ann.noState = true := by
      refine iff_of_false ?_ (Bool.eq_false_iff.mp hno)
      show (if _ then DomainSource.declared else .inferred) ≠ .trusted
      split <;> exact fun h => by cases h
    have hdeclares : ∀ w, d.declares w = (!ann.noState && (ann.declared w).isSome) := by
      intro w
      rw [show ann.noState = false from hno]
      cases w <;> rfl
    have hinc : ∀ w, KeySet.Increasing (d.visible w) := by
      intro w
      cases w
      · exact hincr
      · exact hincw
    have hvisible : ∀ w, r₂.2.keys.Lists (d.visible w) (· ∈ f.declaredKeys unit w) := by
      intro w
      unfold Ssa.Function.declaredKeys
      rw [hno, if_neg Bool.false_ne_true]
      cases w
      · exact hreads.mono hadv₂.keys
      · exact hwrites
    have hown : ∀ w, d.own w = [] := by
      intro w
      cases w <;> rfl
    cases hexcl : f.excluded with
    | true =>
      -- the code of a function that was left out is not gone through
      show Collector.Advances unit c r₂.2 ∧ d.Collected m types unit opt r₂.2.keys f _
      refine ⟨hdecl, ⟨hsource, hdeclares, fun w => ?_, hinc, fun w => ?_, hvisible,
        fun _ _ hincl => ?_⟩⟩
      · rw [hown w]
        exact List.Pairwise.nil
      · rw [hown w]
        refine .nil _ ?_
        rintro k ⟨hincl, -⟩
        exact Bool.false_ne_true (hincl.symm.trans hexcl)
      · rw [hexcl] at hincl
        cases hincl
    | false =>
      let r₃ := (collectInsts (keySearch m types opt.maxEnumeratedKeys f)
        unit opt.wildcardPolicy f.name (m.instsOf f) d).run r₂.2
      obtain ⟨hadv₃, hgains, hresolved⟩ : Collector.Advances unit r₂.2 r₃.2 ∧
          d.Gains r₂.2.keys r₃.2.keys _ r₃.1 ∧ _ :=
        collectInsts_spec (keySearch m types opt.maxEnumeratedKeys f) opt.wildcardPolicy f.name
          (hdecl.made hc) d hns
      show Collector.Advances unit c r₃.2 ∧ r₃.1.Collected m types unit opt r₃.2.keys f
        (_ && !r₃.1.rejected)
      refine ⟨hdecl.trans hadv₃, ⟨?_, fun w => ?_, fun w => ?_, fun w => ?_, fun w => ?_,
        fun w => ?_,
        fun hok hpolicy _ _ => ?_⟩⟩
      · rw [hgains.source_eq]
        exact hsource
      · rw [hgains.declares_eq]
        exact hdeclares w
      · refine hgains.increasing w ?_
        rw [hown w]
        exact List.Pairwise.nil
      · rw [hgains.visible_eq w]
        exact hinc w
      · have hnil : r₂.2.keys.Lists (d.own w) fun _ => False := by
          rw [hown w]
          exact .nil _ fun _ => not_false
        refine (hgains.own w _ hnil).congr fun k => ?_
        unfold Ssa.Function.Enters
        rw [hexcl, hno]
        simp
      · rw [hgains.visible_eq w]
        exact (hvisible w).mono hadv₃.keys
      · refine hresolved ?_ hpolicy
        have hok := (Bool.and_eq_true_iff.mp hok).2
        simpa using hok

/-- What is collected for functions, one after the other. -/
theorem collectFunctions_spec (types : TypePool) (opt : DomainOptions) {fs : List Ssa.Function}
    (hc : c.keys.Made unit)
    (hns : ∀ f ∈ fs, ∀ inst ∈ m.instsOf f, ∀ a, inst.data.stateAccess? = some a →
      IsNamespace a.ns) :
    let r := (collectFunctions m types unit opt fs).run c
    Collector.Advances unit c r.2 ∧
      List.Forall₂ (fun f d => d.1.Collected m types unit opt r.2.keys f d.2) fs r.1 := by
  induction fs generalizing c with
  | nil => exact ⟨.refl c, .nil⟩
  | cons f fs ih =>
    obtain ⟨hadv₁, hcoll⟩ := collectFunction_spec hc types opt (hns f List.mem_cons_self)
    obtain ⟨hadv₂, hall⟩ := ih (hadv₁.made hc) fun f' hf' => hns f' (List.mem_cons_of_mem _ hf')
    exact ⟨hadv₁.trans hadv₂, .cons (hcoll.mono hadv₂.keys) hall⟩

end Functions

end Hashed

end ContractCompiler
