import ContractCompiler.Proofs.Types

/-!
# How types nest

The fields of a struct are given after the struct has its name. Whether using a value leaves it
usable is found by following fields and payloads, so it matters that following them comes to an end.

- `TypePool.Wraps`: a type is another one in a number of results;
- `TypePool.Contains`: a struct has a field of another struct, possibly in results;
- `TypePool.Nested`: structs contain only earlier ones, or themselves in a result;
- `TypePool.Ends`: following the parts of a type comes to an end;
- `TypePool.Nested.ends_iff`: where structs nest, it does so from every struct exactly if none
  contains itself.
-/

namespace ContractCompiler.TypePool

/-! ## Parts of types -/

/-- A type is another one in a number of results. -/
inductive Wraps (p : TypePool) : Nat → TypeId → TypeId → Prop where
  | none (t : TypeId) : Wraps p 0 t t
  | result {n : Nat} {base elem t : TypeId} (h : p.shapes[t]? = some (.result elem))
      (helem : Wraps p n base elem) :
      Wraps p (n + 1) base t

/-- A built-in type or a struct, possibly in results. -/
def Named (p : TypePool) (t : TypeId) : Prop :=
  ∃ n base, p.Wraps n base t ∧
    ((∃ b, p.shapes[base]? = some (.builtin b)) ∨ ∃ j, p.shapes[base]? = some (.struct j))

/-- A struct has a field of another struct, possibly in results. Structs are given by their place
among the declarations. -/
def Contains (p : TypePool) (i j : Nat) : Prop :=
  ∃ decl, p.structs[i]? = some decl ∧ ∃ field ∈ decl.fields, ∃ n base,
    p.Wraps n base field.2 ∧ p.shapes[base]? = some (.struct j)

/-- A type that a field of a struct may have: a built-in type or an earlier struct, possibly in
results, or the struct itself in at least one. -/
def Places (p : TypePool) (i : Nat) (t : TypeId) : Prop :=
  ∃ n base, p.Wraps n base t ∧ ((∃ b, p.shapes[base]? = some (.builtin b)) ∨
    ∃ j, p.shapes[base]? = some (.struct j) ∧ (j < i ∨ j = i ∧ 0 < n))

/-- Structs contain only earlier ones, or themselves in a result. -/
structure Nested (p : TypePool) : Prop where
  declared : ∀ (t : TypeId) i, p.shapes[t]? = some (.struct i) → i < p.structs.size
  fields : ∀ (i : Nat) decl, p.structs[i]? = some decl → ∀ field ∈ decl.fields, p.Places i field.2

variable {p p' : TypePool} {t base base' : TypeId} {n n' i j : Nat}

/-- A type that is no result is found in one way only. -/
theorem Wraps.unique (h : p.Wraps n base t) (h' : p.Wraps n' base' t)
    (hbase : ∀ e, p.shapes[base]? ≠ some (.result e))
    (hbase' : ∀ e, p.shapes[base']? ≠ some (.result e)) :
    n = n' ∧ base = base' := by
  induction h generalizing n' with
  | none t =>
    cases h' with
    | none => exact ⟨rfl, rfl⟩
    | result h' => exact absurd h' (hbase _)
  | result h _ ih =>
    cases h' with
    | none => exact absurd h (hbase' _)
    | result h' helem' =>
      cases h.symm.trans h'
      obtain ⟨rfl, rfl⟩ := ih helem' hbase
      exact ⟨rfl, rfl⟩

/-- A struct contains only earlier ones, or itself in a result. -/
theorem Nested.contains (h : p.Nested) (hij : p.Contains i j) : j < i ∨ j = i := by
  obtain ⟨decl, hdecl, field, hfield, n, base, hwraps, hbase⟩ := hij
  obtain ⟨n', base', hwraps', hplace⟩ := h.fields i decl hdecl field hfield
  have hplain : ∀ e, p.shapes[base']? ≠ some (.result e) := by
    intro e he
    rcases hplace with ⟨b, hb⟩ | ⟨j', hj', -⟩
    · cases he.symm.trans hb
    · cases he.symm.trans hj'
  obtain ⟨rfl, rfl⟩ := hwraps.unique hwraps' (fun e he => by cases he.symm.trans hbase) hplain
  rcases hplace with ⟨b, hb⟩ | ⟨j', hj', hlt⟩
  · cases hb.symm.trans hbase
  · cases hj'.symm.trans hbase
    exact hlt.imp_right And.left

/-! ## Growing pools -/

section Grow

variable (hshapes : ∀ (t : TypeId) s, p.shapes[t]? = some s → p'.shapes[t]? = some s)

include hshapes

theorem Wraps.mono (h : p.Wraps n base t) : p'.Wraps n base t := by
  induction h with
  | none t => exact .none t
  | result h _ ih => exact .result (hshapes _ _ h) ih

theorem Places.mono (h : p.Places i t) : p'.Places i t := by
  obtain ⟨n, base, hwraps, hbase⟩ := h
  refine ⟨n, base, hwraps.mono hshapes, ?_⟩
  rcases hbase with ⟨b, hb⟩ | ⟨j, hj, hlt⟩
  · exact .inl ⟨b, hshapes base _ hb⟩
  · exact .inr ⟨j, hshapes base _ hj, hlt⟩

end Grow

theorem Nested.mono (hext : Extends p p') (h : p.Nested) : p'.Nested where
  declared t i hi := by
    rw [hext.structs]
    exact h.declared t i (hext.declared t i hi)
  fields i decl hdecl field hfield := by
    rw [hext.structs] at hdecl
    exact (h.fields i decl hdecl field hfield).mono hext.shapes

theorem nested_default : Nested {} where
  declared t i hi := by
    have hall : ∀ s ∈ ({} : TypePool).shapes, ∀ i, s ≠ .struct i := by
      intro s hs i
      rcases List.mem_cons.mp (List.mem_toArray.mp hs) with rfl | hs
      · exact nofun
      · obtain ⟨b, -, rfl⟩ := List.mem_map.mp hs
        exact nofun
    exact absurd rfl (hall _ (Array.mem_of_getElem? hi) i)
  fields i decl hdecl := by cases hdecl

/-- A declared struct has the next place, a number of its own, and no fields yet. -/
theorem Nested.declareStruct (h : p.Nested) {name : String}
    (hd : p.declareStruct? name = some (t, p')) :
    p'.Nested ∧ p'.structs.size = p.structs.size + 1 ∧
      ∀ t', p'.shapes[t']? = some (.struct p.structs.size) ↔ t' = t := by
  unfold declareStruct? at hd
  split at hd
  · cases hd
  · obtain ⟨rfl, rfl⟩ := Prod.mk.inj (Option.some.inj hd)
    have hnew : ∀ t' i, (p.shapes.push (.struct p.structs.size))[t']? = some (.struct i) →
        t' = p.shapes.size ∧ i = p.structs.size ∨ p.shapes[t']? = some (.struct i) := by
      intro t' i hi
      rw [Array.getElem?_push] at hi
      split at hi
      · rename_i heq
        cases hi
        exact .inl ⟨heq, rfl⟩
      · exact .inr hi
    refine ⟨⟨fun t' i hi => ?_, fun i decl hdecl field hfield => ?_⟩, Array.size_push _,
      fun t' => ⟨fun hi => ?_, ?_⟩⟩
    · show i < (p.structs.push { name }).size
      rw [Array.size_push]
      rcases hnew t' i hi with ⟨-, rfl⟩ | hi
      · exact Nat.lt_succ_self _
      · exact Nat.lt_succ_of_lt (h.declared t' i hi)
    · replace hdecl : (p.structs.push { name })[i]? = some decl := hdecl
      rw [Array.getElem?_push] at hdecl
      split at hdecl
      · cases hdecl
        cases hfield
      · exact Places.mono (p := p) (fun t' s hs => shapes_push hs _)
          (h.fields i decl hdecl field hfield)
    · rcases hnew t' _ hi with ⟨rfl, -⟩ | hi
      · rfl
      · exact absurd (h.declared t' _ hi) (Nat.lt_irrefl _)
    · rintro rfl
      exact Array.getElem?_push_size

theorem Nested.setFields (h : p.Nested) {fields : List (String × TypeId)}
    (hfields : ∀ i, p.shapes[t]? = some (.struct i) → ∀ field ∈ fields, p.Places i field.2) :
    (p.setFields t fields).Nested := by
  unfold TypePool.setFields
  split
  · rename_i i hi
    refine ⟨fun t' i' hi' => ?_, fun i' decl hdecl field hfield => ?_⟩
    · show i' < (p.structs.modify i _).size
      rw [Array.size_modify]
      exact h.declared t' i' hi'
    · refine Places.mono (p := p) (fun _ _ hs => hs) ?_
      replace hdecl : (p.structs.modify i fun d => { d with fields })[i']? = some decl := hdecl
      rw [Array.getElem?_modify] at hdecl
      split at hdecl
      · rename_i heq
        obtain ⟨decl', -, rfl⟩ := Option.map_eq_some_iff.mp hdecl
        exact heq ▸ hfields i hi field hfield
      · exact h.fields i' decl hdecl field hfield
  · exact h

/-- A text names a built-in type or a struct, possibly in results. -/
theorem named_parseChars {text : List Char} (hp : p.Standard)
    (h : p.parseChars? text = some (t, p')) :
    p'.Named t := by
  fun_induction parseChars? p text generalizing t p' with
  | case1 _ b hb =>
    cases h
    refine ⟨0, b.id, .none _, .inl ⟨b, ?_⟩⟩
    have hbuiltin := hp b
    unfold builtin? at hbuiltin
    split at hbuiltin
    · rename_i hs
      rw [hs, Option.some.inj hbuiltin]
    · cases hbuiltin
  | case2 text _ inner _ _ elem p₁ hinner ih =>
    obtain ⟨rfl, rfl⟩ := Prod.mk.inj (Option.some.inj h)
    obtain ⟨n, base, hwraps, hbase⟩ := ih hinner
    have hshapes := (extends_result p₁ elem).shapes
    refine ⟨n + 1, base, .result (shapes_intern p₁ _) (hwraps.mono hshapes), ?_⟩
    rcases hbase with hb | hj
    · obtain ⟨b, hb⟩ := hb
      exact .inl ⟨b, hshapes _ _ hb⟩
    · obtain ⟨j, hj⟩ := hj
      exact .inr ⟨j, hshapes _ _ hj⟩
  | case3 => cases h
  | case4 text =>
    obtain ⟨t', hfound, heq⟩ := Option.map_eq_some_iff.mp h
    cases heq
    refine ⟨0, t, .none _, .inr ?_⟩
    have hdecl := List.find?_some hfound
    unfold structDecl? at hdecl
    split at hdecl
    · rename_i j hj
      exact ⟨j, hj⟩
    · simp at hdecl

/-! ## Following the parts of a type -/

/-- Following the parts of a type comes to an end. -/
inductive Ends (p : TypePool) : TypeId → Prop where
  | leaf {t : TypeId} (hresult : ∀ e, p.shapes[t]? ≠ some (.result e))
      (hstruct : ∀ i decl, p.shapes[t]? = some (.struct i) → p.structs[i]? ≠ some decl) : Ends p t
  | result {t e : TypeId} (h : p.shapes[t]? = some (.result e)) (helem : Ends p e) : Ends p t
  | struct {t : TypeId} {i : Nat} {decl : StructDecl} (h : p.shapes[t]? = some (.struct i))
      (hdecl : p.structs[i]? = some decl) (hfields : ∀ field ∈ decl.fields, Ends p field.2) :
      Ends p t

theorem Wraps.ends (h : p.Wraps n base t) (hbase : p.Ends base) : p.Ends t := by
  induction h with
  | none t => exact hbase
  | result h _ ih => exact .result h (ih hbase)

/-- Where no struct contains itself, containing is well-founded. -/
theorem Nested.wellFounded (h : p.Nested) (hself : ∀ i, ¬ p.Contains i i) :
    WellFounded fun j i => p.Contains i j := by
  refine Subrelation.wf (r := (· < ·)) (fun {j i} hij => ?_) Nat.lt_wfRel.wf
  rcases h.contains hij with hlt | rfl
  · exact hlt
  · exact absurd hij (hself _)

/-- Where no struct contains itself, following the fields of a struct comes to an end. -/
theorem Nested.ends (h : p.Nested) (hself : ∀ i, ¬ p.Contains i i)
    (ht : p.shapes[t]? = some (.struct i)) :
    p.Ends t := by
  induction i using (h.wellFounded hself).induction generalizing t with
  | _ i ih =>
    cases hdecl : p.structs[i]? with
    | none =>
      refine .leaf (fun e he => by cases he.symm.trans ht) fun i' decl hi' hdecl' => ?_
      cases hi'.symm.trans ht
      cases hdecl.symm.trans hdecl'
    | some decl =>
      refine .struct ht hdecl fun field hfield => ?_
      obtain ⟨n, base, hwraps, hplace⟩ := h.fields i decl hdecl field hfield
      refine hwraps.ends ?_
      rcases hplace with ⟨b, hb⟩ | ⟨j, hj, -⟩
      · exact .leaf (fun e he => by cases he.symm.trans hb) fun i' decl hi' => by
          cases hi'.symm.trans hb
      · exact ih j ⟨decl, hdecl, field, hfield, n, base, hwraps, hj⟩ hj

/-- From a struct that contains itself, following fields does not come to an end. -/
theorem Ends.not_contains (h : p.Ends t) (hwraps : p.Wraps n base t)
    (hbase : p.shapes[base]? = some (.struct i)) :
    ¬ p.Contains i i := by
  induction h generalizing n base i with
  | leaf hresult hstruct =>
    rintro ⟨decl, hdecl, -⟩
    cases hwraps with
    | none => exact hstruct i decl hbase hdecl
    | result h => exact hresult _ h
  | result h _ ih =>
    cases hwraps with
    | none => cases h.symm.trans hbase
    | result h' helem =>
      cases h.symm.trans h'
      exact ih helem hbase
  | struct h hdecl _ ih =>
    rintro ⟨decl', hdecl', field, hfield, n', base', hwraps', hbase'⟩
    cases hwraps with
    | result h' => cases h.symm.trans h'
    | none =>
      cases h.symm.trans hbase
      obtain rfl := Option.some.inj (hdecl.symm.trans hdecl')
      exact ih field hfield hwraps' hbase' ⟨_, hdecl, field, hfield, n', base', hwraps', hbase'⟩

/-- Where structs nest, following their fields comes to an end exactly if no struct contains
itself. -/
theorem Nested.ends_iff (h : p.Nested) :
    (∀ t i, p.shapes[t]? = some (.struct i) → p.Ends t) ↔ ∀ i, ¬ p.Contains i i := by
  refine ⟨fun hends i hself => ?_, fun hself t i ht => h.ends hself ht⟩
  obtain ⟨decl, hdecl, field, hfield, n, base, hwraps, hbase⟩ := hself
  exact (hends base i hbase).not_contains (.none base) hbase
    ⟨decl, hdecl, field, hfield, n, base, hwraps, hbase⟩

end ContractCompiler.TypePool
