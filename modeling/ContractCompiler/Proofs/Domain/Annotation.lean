import ContractCompiler.Domain.Analysis
import ContractCompiler.Proofs.Domain.Key

/-!
# What annotations declare

- `Annotations.declared`: the keys that a function is declared to write, or to read;
- `made_declared`: they are keys of namespaces;
- `parseAnnotations_of_not_overrides`: where the annotations of a function do not replace what is
  inferred, nothing is declared or promised.
-/

namespace ContractCompiler

/-! ## Reading annotations -/

/-- What annotations declare that a function writes, or reads, if they do. -/
def Annotations.declared (a : Annotations) (write : Bool) : Option (List DeclaredKey) :=
  if write then a.writes else a.reads

/-- Declared keys are read from texts. -/
def Annotations.Spelled (a : Annotations) : Prop :=
  ∀ write ks, a.declared write = some ks → ∀ k ∈ ks, ∃ text, Annotation.declaredKey text = .ok k

theorem exists_text_of_mapM {texts : List String} {ks : List DeclaredKey}
    (h : texts.mapM Annotation.declaredKey = .ok ks) :
    ∀ k ∈ ks, ∃ text, Annotation.declaredKey text = .ok k := by
  induction texts generalizing ks with
  | nil =>
    cases h
    simp
  | cons text texts ih =>
    rw [List.mapM_cons] at h
    cases hk : Annotation.declaredKey text with
    | error e =>
      rw [hk] at h
      cases h
    | ok k =>
      rw [hk] at h
      cases hrest : texts.mapM Annotation.declaredKey with
      | error e =>
        rw [hrest] at h
        cases h
      | ok ks' =>
        rw [hrest] at h
        cases h
        intro k' hk'
        rcases List.mem_cons.mp hk' with rfl | hk'
        · exact ⟨text, hk⟩
        · exact ih hrest k' hk'

theorem exists_text_of_declareKeys {given : Option (List DeclaredKey)} {args : Option (List String)}
    {ks : List DeclaredKey} (h : Annotation.declareKeys given args = .ok ks) :
    ∀ k ∈ ks, ∃ text, Annotation.declaredKey text = .ok k := by
  unfold Annotation.declareKeys at h
  split at h
  · cases h
  · split at h
    · cases h
    · exact exists_text_of_mapM h

/-- An annotation declares keys that are read from texts, or is of another name and declares
nothing. -/
theorem declared_apply {acc a : Annotations} {name : String} {args : Option (List String)}
    (h : Annotation.apply acc name args = .ok a) (write : Bool) :
    (∃ ks, a.declared write = some ks ∧ ∀ k ∈ ks, ∃ text, Annotation.declaredKey text = .ok k) ∧
        name = (if write then "writes" else "reads") ∨ a.declared write = acc.declared write := by
  unfold Annotation.apply at h
  split at h
  · rename_i hname
    cases hks : Annotation.declareKeys acc.reads args with
    | error e =>
      rw [hks] at h
      cases h
    | ok ks =>
      rw [hks] at h
      cases h
      cases write with
      | false => exact .inl ⟨⟨ks, rfl, exists_text_of_declareKeys hks⟩, hname⟩
      | true => exact .inr rfl
  · split at h
    · rename_i hname
      cases hks : Annotation.declareKeys acc.writes args with
      | error e =>
        rw [hks] at h
        cases h
      | ok ks =>
        rw [hks] at h
        cases h
        cases write with
        | false => exact .inr rfl
        | true => exact .inl ⟨⟨ks, rfl, exists_text_of_declareKeys hks⟩, hname⟩
    · refine .inr ?_
      split at h
      · split at h
        · cases h
        · cases h
          rfl
      · split at h
        · split at h
          · split at h
            · cases h
            · cases h
              rfl
          · cases h
        · cases h
          rfl

theorem noState_apply {acc a : Annotations} {name : String} {args : Option (List String)}
    (h : Annotation.apply acc name args = .ok a) : a.noState = acc.noState ∨ name = "no_state" := by
  unfold Annotation.apply at h
  split at h
  · refine .inl ?_
    cases hks : Annotation.declareKeys acc.reads args with
    | error e =>
      rw [hks] at h
      cases h
    | ok ks =>
      rw [hks] at h
      cases h
      rfl
  · split at h
    · refine .inl ?_
      cases hks : Annotation.declareKeys acc.writes args with
      | error e =>
        rw [hks] at h
        cases h
      | ok ks =>
        rw [hks] at h
        cases h
        rfl
    · split at h
      · rename_i hname
        exact .inr hname
      · refine .inl ?_
        split at h
        · split at h
          · split at h
            · cases h
            · cases h
              rfl
          · cases h
        · cases h
          rfl

/-- Reading an annotation applies what its name says. -/
theorem exists_apply_of_read {acc a : Annotations} {text : String}
    (h : Annotation.read acc text = .ok a) :
    ∃ args, Annotation.apply acc ( Annotation.name ( Annotation.body text)).1 args = .ok a := by
  unfold Annotation.read at h
  dsimp only at h
  split at h
  · cases h
  · split at h
    · rename_i args rest hargs
      split at h
      · exact ⟨args, h⟩
      · cases h
    · cases h

theorem spelled_readAnnotations (attrs : List Attribute) : ∀ {acc : Annotations}, acc.Spelled →
    (readAnnotations acc attrs).1.Spelled := by
  induction attrs with
  | nil => exact fun h => h
  | cons a rest ih =>
    intro acc hacc
    rw [readAnnotations]
    split
    · rename_i acc' hread
      obtain ⟨args, happly⟩ := exists_apply_of_read hread
      refine ih fun write ks hks => ?_
      rcases declared_apply happly write with ⟨⟨ks', hks', hspelled⟩, -⟩ | hsame
      · obtain rfl := Option.some.inj (hks.symm.trans hks')
        exact hspelled
      · exact hacc write ks (hsame.symm.trans hks)
    · exact ih hacc

theorem annotations_parseAnnotations (attrs : List Attribute) :
    (parseAnnotations attrs).annotations = (readAnnotations {} attrs).1 := by
  unfold parseAnnotations
  dsimp only
  split <;> rfl

theorem spelled_parseAnnotations (attrs : List Attribute) :
    (parseAnnotations attrs).annotations.Spelled := by
  rw [annotations_parseAnnotations]
  refine spelled_readAnnotations attrs fun write ks hks => ?_
  cases write <;> cases hks

/-- Annotations of other names leave what is declared and promised as it is. -/
theorem readAnnotations_of_not_overrides {attrs : List Attribute}
    (h : overridesDomains attrs = false) (acc : Annotations) :
    (readAnnotations acc attrs).1.noState = acc.noState ∧
      ∀ write, (readAnnotations acc attrs).1.declared write = acc.declared write := by
  induction attrs generalizing acc with
  | nil => exact ⟨rfl, fun _ => rfl⟩
  | cons a rest ih =>
    unfold overridesDomains at h
    rw [List.any_cons, Bool.or_eq_false_iff] at h
    obtain ⟨hname, hrest⟩ := h
    simp only [Bool.or_eq_false_iff, decide_eq_false_iff_not] at hname
    obtain ⟨⟨hreads, hwrites⟩, hpromise⟩ := hname
    rw [readAnnotations]
    split
    · rename_i acc' hread
      obtain ⟨args, happly⟩ := exists_apply_of_read hread
      obtain ⟨hstate, hdeclared⟩ := ih hrest acc'
      refine ⟨hstate.trans ((noState_apply happly).resolve_right hpromise), fun write => ?_⟩
      refine (hdeclared write).trans ((declared_apply happly write).resolve_left fun hdecl => ?_)
      cases write with
      | false => exact hreads hdecl.2
      | true => exact hwrites hdecl.2
    · exact ih hrest acc

/-- A function whose annotations do not replace what is inferred declares and promises nothing. -/
theorem parseAnnotations_of_not_overrides {attrs : List Attribute}
    (h : overridesDomains attrs = false) :
    (parseAnnotations attrs).annotations.noState = false ∧
      ∀ write, (parseAnnotations attrs).annotations.declared write = none := by
  rw [annotations_parseAnnotations]
  obtain ⟨hstate, hdeclared⟩ := readAnnotations_of_not_overrides h {}
  exact ⟨hstate, fun write => (hdeclared write).trans (by cases write <;> rfl)⟩

/-! ## Declared keys -/

/-- The key of an annotation does not contain the wildcard, which stands for whole namespaces. -/
theorem key_ne_of_declaredKey {text : String} {k : DeclaredKey}
    (h : Annotation.declaredKey text = .ok k) (hexact : k.wildcard = false) : k.key ≠ "*" := by
  unfold Annotation.declaredKey at h
  dsimp only at h
  split at h
  · cases h
  · split at h
    · cases h
    · split at h
      · cases h
        cases hexact
      · split at h
        · cases h
          cases hexact
        · split at h
          · cases h
          · split at h
            · cases h
            · rename_i hstar
              cases h
              intro heq
              have hchars := congrArg String.toList heq
              rw [String.toList_ofList] at hchars
              refine hstar ?_
              rw [hchars]
              rfl

section

variable [Hashing] {attrs : List Attribute} {write : Bool} {ks : List DeclaredKey}

theorem made_toDomainKey (unit : String) {text : String} {k : DeclaredKey}
    (h : Annotation.declaredKey text = .ok k) : (k.toDomainKey unit).Made unit := by
  unfold DeclaredKey.toDomainKey
  split
  · exact .all (isNamespace_declaredKey h)
  · rename_i hexact
    exact .exact (isNamespace_declaredKey h)
      (key_ne_of_declaredKey h (Bool.eq_false_iff.mpr hexact))

/-- The keys that annotations declare are keys of namespaces. -/
theorem made_declared (unit : String)
    (hks : (parseAnnotations attrs).annotations.declared write = some ks) :
    ∀ k ∈ ks.map (·.toDomainKey unit), k.Made unit := by
  intro k hk
  obtain ⟨dk, hdk, rfl⟩ := List.mem_map.mp hk
  obtain ⟨text, htext⟩ := spelled_parseAnnotations attrs write ks hks dk hdk
  exact made_toDomainKey unit htext

end

end ContractCompiler
