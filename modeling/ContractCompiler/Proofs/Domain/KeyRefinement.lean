import ContractCompiler.Proofs.Domain.KeyBounds

/-!
# Searches in changed modules

A change to a module takes values to other values. If the definitions of these match, what bounds a
search before the change bounds the search after it.

- `KeySearch.Refines`: the definitions of related values match: the same instruction on related
  values, a constant that is among those possible, or a parameter with no edges but such as there
  were;
- `Refines.within`: bounds of searches are kept.
-/

namespace ContractCompiler.Ssa

/-- Instructions that put values together which searches take out again. -/
def InstData.isMade : InstData → Bool
  | .makeStruct _ | .insert _ _ _ | .makeResult _ _ => true
  | _ => false

namespace KeySearch

/-- Values of a search before a change, related to values of the search after it. -/
structure Refines (s s' : KeySearch) (R : ValueId → ValueId → Prop) : Prop where
  types : s'.types = s.types
  maxKeys : s'.maxKeys = s.maxKeys
  entry : ∀ b, s'.module.IsEntry b → s.module.IsEntry b
  type : ∀ v x n T, R v x → s.Within n v T → s'.module.valueType x = s.module.valueType v
  /-- The definition is the same on related values, or leads to the definition of another value, or
  has become a constant that was possible. -/
  data : ∀ v x data n T, R v x → s.module.dataOf? v = some data → s.Within n v T →
    (∃ ρ, s'.module.dataOf? x = some (data.mapOperands ρ) ∧ ∀ u ∈ data.operands, R u (ρ u)) ∨
    (∃ w, s.lookup? data = some (.same w) ∧ R w x) ∨
    ∃ k, s'.lookupAt? x = some (.constant k) ∧ k ∈ T
  /-- What was put together is put together from related values. -/
  made : ∀ v x data, R v x → s.module.dataOf? v = some data → data.isMade = true →
    ∃ ρ, s'.module.dataOf? x = some (data.mapOperands ρ) ∧ ∀ u ∈ data.operands, R u (ρ u)
  /-- Every edge passes values related to those of an edge that there was. -/
  param : ∀ v x block index, R v x → s.module.siteOf? v = some (.param block index) →
    ¬s.module.IsEntry block → s'.module.siteOf? x = some (.param block index) ∧
      ∀ args', s'.Edge block args' → ∃ args ρ, s.Edge block args ∧ args' = args.map ρ ∧ ρ v = x ∧
        ∀ a ∈ args, R a (ρ a)

namespace Refines

variable {s s' : KeySearch} {R : ValueId → ValueId → Prop} (h : s.Refines s' R)

include h

/-- A field that is found in a struct is related to the one found in the related struct. -/
theorem exists_fieldWithin {index n : Nat} {base base' w : ValueId} (hbase : R base base')
    (hw : s.module.fieldWithin index n base = some w) :
    ∃ w', s'.module.fieldWithin index n base' = some w' ∧ R w w' := by
  induction n generalizing base base' with
  | zero => cases hw
  | succ n ih =>
    have hdata : ∃ data, s.module.dataOf? base = some data := by
      unfold Module.fieldWithin at hw
      split at hw
      · rename_i hdef
        exact ⟨_, by unfold Module.dataOf?; rw [hdef]; rfl⟩
      · rename_i hdef
        exact ⟨_, by unfold Module.dataOf?; rw [hdef]; rfl⟩
      · cases hw
    obtain ⟨data, hdata⟩ := hdata
    obtain ⟨inst, hdef, rfl⟩ := Module.definition?_of_dataOf? hdata
    rw [fieldWithin_succ hdef] at hw
    cases hinst : inst.data with
    | makeStruct fields =>
      rw [hinst] at hw hdata
      obtain ⟨ρ, hdata', hρ⟩ := h.made base base' _ hbase hdata rfl
      obtain ⟨inst', hdef', heq⟩ := Module.definition?_of_dataOf? hdata'
      rw [fieldWithin_succ hdef', heq]
      refine ⟨ρ w, ?_, hρ w (List.mem_of_getElem? hw)⟩
      show (fields.map ρ)[index]? = _
      rw [List.getElem?_map]
      exact congrArg (Option.map ρ) hw
    | insert inner i value =>
      rw [hinst] at hw hdata
      obtain ⟨ρ, hdata', hρ⟩ := h.made base base' _ hbase hdata rfl
      obtain ⟨inst', hdef', heq⟩ := Module.definition?_of_dataOf? hdata'
      rw [fieldWithin_succ hdef', heq]
      dsimp only [InstData.mapOperands] at hw ⊢
      by_cases hi : i = index
      · rw [if_pos hi] at hw ⊢
        cases hw
        exact ⟨ρ w, rfl, hρ w (by simp [InstData.operands])⟩
      · rw [if_neg hi] at hw ⊢
        exact ih (hρ inner (by simp [InstData.operands])) hw
    | _ =>
      rw [hinst] at hw
      cases hw

/-- A payload that is found in a success is related to the one found in the related success. -/
theorem exists_okPayload? {src src' w : ValueId} (hsrc : R src src')
    (hw : s.module.okPayload? src = some w) :
    ∃ w', s'.module.okPayload? src' = some w' ∧ R w w' := by
  have hdata : ∃ effect result span,
      s.module.definition? src = some ⟨.makeResult true (some w), effect, result, span⟩ := by
    unfold Module.okPayload? at hw
    split at hw
    · rename_i effect result span hdef
      subst hw
      exact ⟨effect, result, span, hdef⟩
    · cases hw
  obtain ⟨effect, result, span, hdef⟩ := hdata
  have hdata : s.module.dataOf? src = some (.makeResult true (some w)) := by
    unfold Module.dataOf?
    rw [hdef]
    rfl
  obtain ⟨ρ, hdata', hρ⟩ := h.made src src' _ hsrc hdata rfl
  obtain ⟨inst', hdef', heq⟩ := Module.definition?_of_dataOf? hdata'
  rw [okPayload?_eq hdef', heq]
  exact ⟨ρ w, rfl, hρ w (by simp [InstData.operands])⟩

theorem kind?_eq {v x : ValueId} (htype : s'.module.valueType x = s.module.valueType v) :
    s'.kind? x = s.kind? v := by
  unfold kind?
  rw [h.types, htype]

/-- The same instruction on related values is looked up in the same way. -/
theorem exists_lookup {n : Nat} {T : KeyConsts} {data : InstData} {l : Lookup}
    (hl : s.lookup? data = some l) (hbound : l.Within s.maxKeys (s.Within n) T)
    {ρ : ValueId → ValueId} (hρ : ∀ u ∈ data.operands, R u (ρ u))
    (ih : ∀ w x S, R w x → s.Within n w S → s'.Within n x S) :
    ∃ l', s'.lookup? (data.mapOperands ρ) = some l' ∧ l'.Within s'.maxKeys (s'.Within n) T := by
  rw [h.maxKeys]
  cases data with
  | constInt bits =>
    cases hl
    exact ⟨_, rfl, hbound⟩
  | constBool value =>
    cases hl
    exact ⟨_, rfl, hbound⟩
  | constBytes bytes =>
    cases hl
    exact ⟨_, rfl, hbound⟩
  | cast mode type src =>
    obtain ⟨k, hk, hl⟩ := Option.bind_eq_some_iff.mp hl
    obtain ⟨target, htarget, rfl⟩ := Option.map_eq_some_iff.mp hl
    obtain ⟨S, hS, hrest⟩ := hbound
    have hsrc := hρ src (by simp [InstData.operands])
    refine ⟨.mapped (ρ src) (castWord mode k target), ?_, S, ih src _ S hsrc hS, hrest⟩
    show (s'.kind? (ρ src)).bind _ = _
    rw [h.kind?_eq (h.type src _ n S hsrc hS), hk, Option.bind_some, h.types, htarget]
    rfl
  | unary op mode src =>
    obtain ⟨k, hk, rfl⟩ := Option.map_eq_some_iff.mp hl
    obtain ⟨S, hS, hrest⟩ := hbound
    have hsrc := hρ src (by simp [InstData.operands])
    refine ⟨.mapped (ρ src) (unaryWord op mode k), ?_, S, ih src _ S hsrc hS, hrest⟩
    show (s'.kind? (ρ src)).map _ = _
    rw [h.kind?_eq (h.type src _ n S hsrc hS), hk]
    rfl
  | binary op mode left right =>
    dsimp only [lookup?, InstData.mapOperands] at hl ⊢
    -- a checked operation yields a result, which is no key
    by_cases hmode : mode = .checked
    · rw [if_pos hmode] at hl
      cases hl
    · rw [if_neg hmode] at hl ⊢
      obtain ⟨k, hk, rfl⟩ := Option.map_eq_some_iff.mp hl
      obtain ⟨S, S', hS, hS', hrest⟩ := hbound
      have hleft := hρ left (by simp [InstData.operands])
      have hright := hρ right (by simp [InstData.operands])
      refine ⟨.paired (ρ left) (ρ right) (binaryWord op mode k), ?_, S, S', ih left _ S hleft hS,
        ih right _ S' hright hS', hrest⟩
      rw [h.kind?_eq (h.type left _ n S hleft hS), hk]
      rfl
  | extract base index =>
    obtain ⟨w, hw, rfl⟩ := Option.map_eq_some_iff.mp hl
    obtain ⟨w', hw', hR⟩ := h.exists_fieldWithin (hρ base (by simp [InstData.operands])) hw
    refine ⟨.same w', ?_, ih w w' T hR hbound⟩
    show (s'.module.fieldWithin index maxKeyDepth (ρ base)).map _ = _
    rw [hw']
    rfl
  | resultValue src =>
    obtain ⟨w, hw, rfl⟩ := Option.map_eq_some_iff.mp hl
    obtain ⟨w', hw', hR⟩ := h.exists_okPayload? (hρ src (by simp [InstData.operands])) hw
    refine ⟨.same w', ?_, ih w w' T hR hbound⟩
    show (s'.module.okPayload? (ρ src)).map _ = _
    rw [hw']
    rfl
  | _ => cases hl

/-- What bounds a search for a value bounds the search for the related one. -/
theorem within {n : Nat} {v x : ValueId} {T : KeyConsts} (hR : R v x) (hv : s.Within n v T) :
    s'.Within n x T := by
  induction n generalizing v x T with
  | zero => exact hv
  | succ n ih =>
    rcases hv with ⟨l, hl, hbound⟩ | ⟨block, index, hsite, hinner, hedges⟩
    · obtain ⟨data, hdata, hlookup⟩ := Option.bind_eq_some_iff.mp hl
      rcases h.data v x data (n + 1) T hR hdata (.inl ⟨l, hl, hbound⟩) with
        ⟨ρ, hdata', hρ⟩ | ⟨w, hw, hRw⟩ | ⟨k, hk, hmem⟩
      · obtain ⟨l', hl', hbound'⟩ := h.exists_lookup hlookup hbound hρ fun w x S hR hw => ih hR hw
        refine .inl ⟨l', ?_, hbound'⟩
        unfold lookupAt?
        rw [hdata']
        exact hl'
      · obtain rfl := Option.some.inj (hlookup.symm.trans hw)
        exact (ih hRw hbound).succ
      · exact .inl ⟨_, hk, hmem⟩
    · obtain ⟨hsite', hedges'⟩ := h.param v x block index hR hsite hinner
      refine .inr ⟨block, index, hsite', fun hentry => hinner (h.entry block hentry),
        fun args' hargs' => ?_⟩
      obtain ⟨args, ρ, hargs, rfl, hself, hρ⟩ := hedges' args' hargs'
      obtain ⟨a, ha, hbound⟩ := hedges args hargs
      refine ⟨ρ a, by rw [List.getElem?_map, ha]; rfl, ?_⟩
      rcases hbound with rfl | hbound
      · exact .inl hself
      · exact .inr (ih (hρ a (List.mem_of_getElem? ha)) hbound)

end Refines

end KeySearch

end ContractCompiler.Ssa
