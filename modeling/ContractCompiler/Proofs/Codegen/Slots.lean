import ContractCompiler.Proofs.Codegen.Function
import ContractCompiler.Proofs.Ssa.Verified
import Mathlib.Data.List.Flatten

/-!
# Places of values

What the places that are given to the values of a function without faults are good for: values in
slots have slots that are there, and a value stays on the stack only between the instruction that
makes it and the one that follows, which takes it.

- `homeKinds_cases`: where the kind of the place of a value comes from;
- `getD_useCounts`: how often a value is used;
- `taken_of_stack`: a value on the stack is used only by what follows its definition;
- `linked_slotPlan`: so the code of every block is linked.
-/

namespace ContractCompiler.Codegen

open Ssa (ValueId BlockId Inst Terminator)

variable {m : Ssa.Module} {f : Ssa.Function}

/-- The instructions of a block of a function. -/
def instsOf (m : Ssa.Module) (b : BlockId) : List Inst := (m.blockInsts (m.block b)).map (·.2)

theorem exists_inst_of_mem {b : BlockId} {i : Inst} (hi : i ∈ instsOf m b) :
    ∃ id ∈ (m.block b).insts, m.insts[id]? = some i := by
  obtain ⟨⟨id, i'⟩, hmem, rfl⟩ := List.mem_map.mp hi
  obtain ⟨id', hid', hsome⟩ := List.mem_filterMap.mp hmem
  obtain ⟨i'', hi'', heq⟩ := Option.map_eq_some_iff.mp hsome
  obtain ⟨rfl, rfl⟩ := Prod.mk.inj heq
  exact ⟨_, hid', hi''⟩

/-- The operand that is taken from the stack by what follows an instruction. -/
def takenBy (term : Option Terminator) : List Inst → Option ValueId
  | [] => term.bind (·.stackOperand?)
  | i :: _ => i.data.stackOperand?

/-! ## Kinds of places -/

section Kinds

variable {uses : Array Nat} {v : ValueId}

theorem size_resultKinds (term : Option Terminator) (is : List Inst) (kinds : Array HomeKind) :
    (resultKinds uses term is kinds).size = kinds.size := by
  induction is generalizing kinds with
  | nil => rfl
  | cons i is ih =>
    unfold resultKinds
    split
    · exact ih kinds
    · exact (ih _).trans Array.size_setIfInBounds

theorem size_paramKinds (isEntry : Bool) (params : List ValueId) (kinds : Array HomeKind) :
    (paramKinds uses isEntry params kinds).size = kinds.size := by
  unfold paramKinds
  induction params generalizing kinds with
  | nil => rfl
  | cons p ps ih =>
    rw [List.foldl_cons, ih]
    split
    · exact Array.size_setIfInBounds
    · rfl

theorem getD_setIfInBounds_cases {α : Type} (xs : Array α) (i j : Nat) (x d : α) :
    (xs.setIfInBounds i x).getD j d = xs.getD j d ∨
    (j = i ∧ (xs.setIfInBounds i x).getD j d = x) := by
  simp only [Array.getD_eq_getD_getElem?, Array.getElem?_setIfInBounds]
  split
  · rename_i heq
    split
    · exact .inr ⟨heq.symm, rfl⟩
    · rename_i hlt
      subst heq
      exact .inl (by rw [Array.getElem?_eq_none (Nat.le_of_not_lt hlt)])
  · exact .inl rfl

theorem resultKinds_cons {i : Inst} {r : ValueId} (hr : i.result = some r)
    (term : Option Terminator) (is : List Inst) (kinds : Array HomeKind) :
    resultKinds uses term (i :: is) kinds = resultKinds uses term is (kinds.setIfInBounds r
      (if !i.data.isConst && uses.getD r 0 = 0 then kinds.getD r .none
       else resultKind uses i r (takenBy term is))) := by
  cases is <;> simp only [resultKinds, hr, takenBy]

/-- The kind of a value after a block is the one before, unless it is the result of an
instruction. -/
theorem resultKinds_cases (v : ValueId) (term : Option Terminator) (is : List Inst)
    (kinds : Array HomeKind) :
    (resultKinds uses term is kinds).getD v .none = kinds.getD v .none ∨
      ∃ done i rest, is = done ++ i :: rest ∧ i.result = some v ∧
        (resultKinds uses term is kinds).getD v .none =
          resultKind uses i v (takenBy term rest) := by
  induction is generalizing kinds with
  | nil => exact .inl rfl
  | cons i is ih =>
    cases hr : i.result with
    | none =>
      have heq : resultKinds uses term (i :: is) kinds = resultKinds uses term is kinds := by
        simp only [resultKinds, hr]
      rw [heq]
      refine (ih kinds).imp_right ?_
      rintro ⟨done, j, rest, rfl, hj⟩
      exact ⟨i :: done, j, rest, rfl, hj⟩
    | some r =>
      rw [resultKinds_cons hr]
      generalize hkind : (if !i.data.isConst && uses.getD r 0 = 0 then kinds.getD r .none
        else resultKind uses i r (takenBy term is)) = kind
      rcases ih (kinds.setIfInBounds r kind) with hold | ⟨done, j, rest, rfl, hj⟩
      · rw [hold]
        rcases getD_setIfInBounds_cases kinds r v kind .none with hother | ⟨rfl, hset⟩
        · exact .inl hother
        · rw [hset, ← hkind]
          split
          · exact .inl rfl
          · exact .inr ⟨[], i, is, rfl, hr, rfl⟩
      · exact .inr ⟨i :: done, j, rest, rfl, hj⟩

theorem paramKinds_cases (v : ValueId) (isEntry : Bool) (params : List ValueId)
    (kinds : Array HomeKind) :
    (paramKinds uses isEntry params kinds).getD v .none = kinds.getD v .none ∨
      (v ∈ params ∧ (paramKinds uses isEntry params kinds).getD v .none = .slot) := by
  unfold paramKinds
  induction params generalizing kinds with
  | nil => exact .inl rfl
  | cons p ps ih =>
    rw [List.foldl_cons]
    split
    · rcases ih (kinds.setIfInBounds p .slot) with hold | ⟨hv, hslot⟩
      · rw [hold]
        rcases getD_setIfInBounds_cases kinds p v .slot .none with hother | ⟨rfl, hset⟩
        · exact .inl hother
        · exact .inr ⟨List.mem_cons_self, hset⟩
      · exact .inr ⟨List.mem_cons_of_mem p hv, hslot⟩
    · exact (ih kinds).imp_right fun hv => ⟨List.mem_cons_of_mem p hv.1, hv.2⟩

/-- Where the kind of the place of a value comes from. -/
inductive KindOf (m : Ssa.Module) (f : Ssa.Function) (v : ValueId) : HomeKind → Prop where
  | unused : KindOf m f v .none
  | param {b : BlockId} (block : b ∈ f.blocks) (param : v ∈ (m.block b).params) : KindOf m f v .slot
  | result {b : BlockId} {done rest : List Inst} {i : Inst} (block : b ∈ f.blocks)
      (insts : instsOf m b = done ++ i :: rest) (result : i.result = some v) :
      KindOf m f v (resultKind (useCounts m f) i v (takenBy (m.block b).term rest))

theorem kindOf_homeKinds (v : ValueId) : KindOf m f v ((homeKinds m f).getD v .none) := by
  have hblocks (bs : List BlockId) (hbs : ∀ b ∈ bs, b ∈ f.blocks) (kinds : Array HomeKind)
      (hkinds : KindOf m f v (kinds.getD v .none)) :
      KindOf m f v ((bs.foldl (fun kinds b =>
        resultKinds (useCounts m f) (m.block b).term (instsOf m b)
          (paramKinds (useCounts m f) (f.entry == some b) (m.block b).params kinds))
          kinds).getD v .none) := by
    induction bs generalizing kinds with
    | nil => exact hkinds
    | cons b bs ih =>
      have hb := hbs b List.mem_cons_self
      refine ih (fun c hc => hbs c (List.mem_cons_of_mem b hc)) _ ?_
      rcases resultKinds_cases v (m.block b).term (instsOf m b)
        (paramKinds (useCounts m f) (f.entry == some b) (m.block b).params kinds) with
        hold | ⟨done, i, rest, hinsts, hr, hkind⟩
      · rw [hold]
        rcases paramKinds_cases v (f.entry == some b) (m.block b).params kinds with hold |
          ⟨hv, hslot⟩
        · rw [hold]
          exact hkinds
        · rw [hslot]
          exact .param hb hv
      · rw [hkind]
        exact .result hb hinsts hr
  refine hblocks f.blocks (fun b hb => hb) _ ?_
  rw [Array.getD_eq_getD_getElem?, Array.getElem?_replicate]
  split <;> exact .unused

end Kinds

/-! ## Uses -/

/-- The operands of an instruction, with the one that is taken from the stack. -/
def instUse (i : Inst) : List ValueId × Option ValueId := (i.data.operands, i.data.stackOperand?)

/-- The operands of an ending, with the one that is taken from the stack. -/
def endUse (term : Option Terminator) : List ValueId × Option ValueId :=
  ((term.map (·.operands)).getD [], term.bind (·.stackOperand?))

/-- The operands of what stands in a block. -/
def blockUses (m : Ssa.Module) (b : BlockId) : List (List ValueId × Option ValueId) :=
  (instsOf m b).map instUse ++ [endUse (m.block b).term]

section Uses

variable {v : ValueId}

theorem getD_countUses (vs : List ValueId) {counts : Array Nat} (hv : v < counts.size) :
    (vs.foldl (fun counts v => counts.modify v (· + 1)) counts).getD v 0 =
      counts.getD v 0 + vs.count v := by
  induction vs generalizing counts with
  | nil => rfl
  | cons w vs ih =>
    rw [List.foldl_cons, ih (by rwa [Array.size_modify]), List.count_cons]
    simp only [Array.getD_eq_getD_getElem?, Array.getElem?_modify, Array.getElem?_eq_getElem hv]
    by_cases hw : w = v
    · simp [hw]
      omega
    · simp [hw]

theorem useCounts_eq (m : Ssa.Module) (f : Ssa.Function) :
    useCounts m f = (f.blocks.flatMap fun b => (blockUses m b).flatMap (·.1)).foldl
      (fun counts v => counts.modify v (· + 1)) (Array.replicate m.values.size 0) := by
  unfold useCounts
  rw [List.foldl_flatMap]
  congr 1
  funext counts b
  simp only [blockUses, endUse, instsOf, List.map_map, List.flatMap_append, List.flatMap_map,
    List.foldl_append, List.foldl_flatMap, List.flatMap_cons, List.flatMap_nil, List.append_nil]
  rfl

/-- How often a value is used. -/
theorem getD_useCounts (hv : v < m.values.size) :
    (useCounts m f).getD v 0 = ((f.blocks.flatMap (blockUses m)).map fun u => u.1.count v).sum := by
  rw [useCounts_eq, getD_countUses _ (by simpa using hv), ← List.flatMap_assoc, List.count_flatMap]
  simp [Array.getD_eq_getD_getElem?, hv, Function.comp_def]

theorem mem_instUse {i : Inst} (h : (instUse i).2 = some v) : v ∈ (instUse i).1 := by
  unfold instUse at h ⊢
  cases hd : i.data with
  | binary o mode left right =>
    rcases FunctionContext.stackOperand?_binary o mode left right with hstack | hstack
    · simp_all [Ssa.InstData.operands]
    · simp_all
  | call callee args =>
    rw [hd] at h
    exact List.mem_of_head? h
  | _ => simp_all [Ssa.InstData.stackOperand?, Ssa.InstData.operands]

theorem mem_endUse {term : Option Terminator} (h : (endUse term).2 = some v) :
    v ∈ (endUse term).1 := by
  cases term with
  | none => cases h
  | some t => cases t <;> simp_all [endUse, Terminator.stackOperand?, Terminator.operands]

/-- What follows an instruction has the operand that is taken from the stack. -/
theorem exists_use_of_takenBy {term : Option Terminator} {rest : List Inst}
    (htaken : takenBy term rest = some v) :
    ∃ u us, rest.map instUse ++ [endUse term] = u :: us ∧ u.2 = some v ∧ v ∈ u.1 := by
  cases rest with
  | nil => exact ⟨endUse term, [], rfl, htaken, mem_endUse htaken⟩
  | cons i rest => exact ⟨instUse i, _, rfl, htaken, mem_instUse htaken⟩

end Uses

/-! ## One definition, one use -/

/-- What is there only once among the parts of things is told by having it. -/
theorem eq_of_split_parts {α β : Type} (parts : α → List β) (w : β → Nat)
    {as bs as' bs' : List α} {a a' : α} {xs ys xs' ys' : List β} {x x' : β}
    (hsum : (((as ++ a :: bs).flatMap parts).map w).sum ≤ 1)
    (has : as ++ a :: bs = as' ++ a' :: bs') (hxs : parts a = xs ++ x :: ys)
    (hxs' : parts a' = xs' ++ x' :: ys') (hx : 0 < w x) (hx' : 0 < w x') :
    w x = 1 ∧ a = a' ∧ xs = xs' ∧ x = x' ∧ ys = ys' := by
  have hparts (l : List α) :
      ((l.flatMap parts).map w).sum = (l.map fun a => ((parts a).map w).sum).sum := by
    induction l with
    | nil => rfl
    | cons a l ih => simp [ih]
  have hsum' := has ▸ hsum
  rw [hparts, List.map_append, List.sum_append, List.map_cons, List.sum_cons] at hsum hsum'
  have ha : ((parts a).map w).sum = (xs.map w).sum + (w x + (ys.map w).sum) := by simp [hxs]
  have ha' : ((parts a').map w).sum = (xs'.map w).sum + (w x' + (ys'.map w).sum) := by simp [hxs']
  obtain ⟨-, rfl, -⟩ := eq_of_split (w := fun a => ((parts a).map w).sum) (n := 0) has
    (by omega) (by omega) (by omega) (by omega)
  exact ⟨by omega, rfl, eq_of_split (w := w) (n := 0) (hxs.symm.trans hxs') (by omega) (by omega)
    (by omega) (by omega)⟩

/-- A value is the result of one instruction. -/
theorem eq_of_result (hf : f.Verified m) {v : ValueId} {b b' : BlockId} (hb : b ∈ f.blocks)
    (hb' : b' ∈ f.blocks) {done rest done' rest' : List Inst} {i i' : Inst}
    (hinsts : instsOf m b = done ++ i :: rest) (hinsts' : instsOf m b' = done' ++ i' :: rest')
    (hr : i.result = some v) (hr' : i'.result = some v) :
    b = b' ∧ done = done' ∧ i = i' ∧ rest = rest' := by
  obtain ⟨bs₁, bs₂, hbs⟩ := List.append_of_mem hb
  obtain ⟨bs₁', bs₂', hbs'⟩ := List.append_of_mem hb'
  refine (eq_of_split_parts (instsOf m) (fun i => (i.result == some v).toNat) ?_
    (hbs.symm.trans hbs') hinsts hinsts' (by simp [hr]) (by simp [hr'])).2
  have hresults : ((f.blocks.flatMap (instsOf m)).filterMap (·.result)).Nodup := by
    refine hf.defined_once.sublist ?_
    rw [List.filterMap_flatMap]
    refine List.Sublist.flatMap_right _ fun b _ => ?_
    rw [instsOf, List.filterMap_map]
    exact List.sublist_append_right _ _
  have hcount := List.nodup_iff_count_le_one.mp hresults v
  rwa [List.count_filterMap, countP_eq_sum, hbs] at hcount

/-! ## Places -/

section Plan

variable {v : ValueId}

/-- The values of a function that need slots, in the order of their definitions. -/
def slottedValues (m : Ssa.Module) (f : Ssa.Function) : List ValueId :=
  (f.blocks.flatMap fun b => definitions m (m.block b)).filter
    fun v => (homeKinds m f).getD v .none == .slot

/-- The slots that are given to the values of a function. -/
def slotAssignment (m : Ssa.Module) (f : Ssa.Function) : Assigned :=
  assignSlots
    (SlotInput.conflicts { module := m, function := f, slotted := .ofList (slottedValues m f) })
    (slottedValues m f)
    ((entryParams m f).zipIdx.filter fun x => (homeKinds m f).getD x.1 .none == .slot).reverse

theorem slotPlan_eq (m : Ssa.Module) (f : Ssa.Function) :
    slotPlan m f =
      { homes := (Array.range m.values.size).map fun v =>
          homeOf ((slotAssignment m f).foldr (fun x slots => slots.setIfInBounds x.1 x.2)
            (Array.replicate m.values.size 0)) ((homeKinds m f).getD v .none) v
        numSlots := (slotAssignment m f).foldl (fun n x => max n (x.2 + 1))
          (entryParams m f).length } :=
  rfl

theorem home_slotPlan : (slotPlan m f).home v = .none ∨ (v < m.values.size ∧ (slotPlan m f).home v =
    homeOf ((slotAssignment m f).foldr (fun x slots => slots.setIfInBounds x.1 x.2)
      (Array.replicate m.values.size 0)) ((homeKinds m f).getD v .none) v) := by
  rw [slotPlan_eq]
  unfold SlotPlan.home
  rw [Array.getD_eq_getD_getElem?, Array.getElem?_map]
  by_cases hv : v < m.values.size
  · exact .inr ⟨hv, by simp [hv]⟩
  · exact .inl (by simp [hv])

/-- A value that lives on the stack was left there by an instruction, and is used once, by what
follows. -/
structure OnStack (m : Ssa.Module) (f : Ssa.Function) (v : ValueId) (b : BlockId)
    (done : List Inst) (i : Inst) (rest : List Inst) : Prop where
  value : v < m.values.size
  block : b ∈ f.blocks
  insts : instsOf m b = done ++ i :: rest
  result : i.result = some v
  taken : takenBy (m.block b).term rest = some v
  notConst : i.data.isConst = false
  once : ((f.blocks.flatMap (blockUses m)).map fun u => u.1.count v).sum = 1

theorem exists_onStack (hhome : (slotPlan m f).home v = .stack) :
    ∃ b done i rest, OnStack m f v b done i rest := by
  rcases home_slotPlan (m := m) (f := f) (v := v) with hnone | ⟨hv, hkind⟩
  · rw [hnone] at hhome
    cases hhome
  rw [hkind] at hhome
  have hfrom := kindOf_homeKinds (m := m) (f := f) v
  generalize (homeKinds m f).getD v .none = kind at hhome hfrom
  cases hfrom with
  | unused => cases hhome
  | param => cases hhome
  | @result b done rest i hb hinsts hr =>
    unfold resultKind at hhome
    split at hhome
    · cases hhome
    · rename_i hconst
      split at hhome
      · cases hhome
      · split at hhome
        · rename_i honce
          obtain ⟨hcount, htaken⟩ := Bool.and_eq_true_iff.mp honce
          refine ⟨b, done, i, rest, hv, hb, hinsts, hr, of_decide_eq_true htaken,
            by simpa using hconst, ?_⟩
          rw [← getD_useCounts hv]
          exact of_decide_eq_true hcount
        · cases hhome

/-- A value that lives on the stack is used only by what follows its definition. -/
theorem OnStack.eq_of_use {b : BlockId} {done rest : List Inst} {i : Inst}
    (hv : OnStack m f v b done i rest) {b' : BlockId} (hb' : b' ∈ f.blocks)
    {us us' : List (List ValueId × Option ValueId)} {u : List ValueId × Option ValueId}
    (huses : blockUses m b' = us ++ u :: us') (hu : v ∈ u.1) :
    b' = b ∧ us = (done ++ [i]).map instUse ∧ u.2 = some v ∧ u.1.count v = 1 := by
  obtain ⟨u₀, us₀, hrest, htaken, hmem⟩ := exists_use_of_takenBy hv.taken
  have huses₀ : blockUses m b = (done ++ [i]).map instUse ++ u₀ :: us₀ := by
    rw [blockUses, hv.insts, ← hrest]
    simp
  obtain ⟨bs₁, bs₂, hbs⟩ := List.append_of_mem hv.block
  obtain ⟨bs₁', bs₂', hbs'⟩ := List.append_of_mem hb'
  have hsum := hv.once
  rw [hbs'] at hsum
  obtain ⟨hcount, rfl, hus, rfl, -⟩ := eq_of_split_parts (blockUses m)
    (fun u => u.1.count v) hsum.le
    (hbs'.symm.trans hbs) huses huses₀ (List.count_pos_iff.mpr hu) (List.count_pos_iff.mpr hmem)
  exact ⟨rfl, hus, htaken, hcount⟩

/-! ## Slots -/

theorem assignSlots_ne_nil (conflicts : Array BitSet) {vs : List ValueId} (assigned : Assigned)
    (h : vs ≠ [] ∨ assigned ≠ []) : assignSlots conflicts vs assigned ≠ [] := by
  induction vs generalizing assigned with
  | nil => exact h.resolve_left (fun hne => hne rfl)
  | cons v vs ih =>
    unfold assignSlots
    split
    · rename_i hfound
      refine ih _ (.inr fun hnil => ?_)
      rw [hnil] at hfound
      cases hfound
    · exact ih _ (.inr (List.cons_ne_nil _ _))

theorem getD_setSlots_cases (v : ValueId) (assigned : Assigned) (slots : Array Nat) :
    (assigned.foldr (fun x slots => slots.setIfInBounds x.1 x.2) slots).getD v 0 = slots.getD v 0 ∨
      ∃ x ∈ assigned, (assigned.foldr (fun x slots => slots.setIfInBounds x.1 x.2) slots).getD v 0 =
        x.2 := by
  induction assigned with
  | nil => exact .inl rfl
  | cons x assigned ih =>
    rw [List.foldr_cons]
    rcases getD_setIfInBounds_cases
      (assigned.foldr (fun x slots => slots.setIfInBounds x.1 x.2) slots) x.1 v x.2 0 with hother |
      ⟨-, hset⟩
    · rw [hother]
      refine ih.imp_right ?_
      rintro ⟨y, hy, heq⟩
      exact ⟨y, List.mem_cons_of_mem x hy, heq⟩
    · exact .inr ⟨x, List.mem_cons_self, hset⟩

/-- A value that has a slot is defined in a block. -/
theorem mem_definitions_of_slot (hkind : (homeKinds m f).getD v .none = .slot) :
    ∃ b ∈ f.blocks, v ∈ definitions m (m.block b) := by
  have hfrom := kindOf_homeKinds (m := m) (f := f) v
  generalize (homeKinds m f).getD v .none = kind at hkind hfrom
  cases hfrom with
  | unused => cases hkind
  | @param b hb hv => exact ⟨b, hb, List.mem_append_left _ hv⟩
  | @result b done rest i hb hinsts hr =>
    refine ⟨b, hb, List.mem_append_right _ (List.mem_filterMap.mpr ?_)⟩
    have hi : i ∈ instsOf m b := by simp [hinsts]
    obtain ⟨x, hx, rfl⟩ := List.mem_map.mp hi
    exact ⟨x, hx, hr⟩

/-- The slots of values are there. -/
theorem lt_of_home_slot {n : Nat} (hhome : (slotPlan m f).home v = .slot n) :
    n < (slotPlan m f).numSlots := by
  rcases home_slotPlan (m := m) (f := f) (v := v) with hnone | ⟨hv, hplace⟩
  · rw [hnone] at hhome
    cases hhome
  rw [hplace] at hhome
  cases hkind : (homeKinds m f).getD v .none with
  | slot =>
    rw [hkind] at hhome
    obtain ⟨b, hb, hdefined⟩ := mem_definitions_of_slot hkind
    have hslotted : v ∈ slottedValues m f :=
      List.mem_filter.mpr ⟨List.mem_flatMap.mpr ⟨b, hb, hdefined⟩, by simp [hkind]⟩
    have hbound := (le_foldl_max (fun x : ValueId × Nat => x.2 + 1) (slotAssignment m f)
      (entryParams m f).length).2
    rw [← Home.slot.inj hhome, slotPlan_eq]
    rcases getD_setSlots_cases v (slotAssignment m f) (Array.replicate m.values.size 0) with hzero |
      ⟨x, hx, hslot⟩
    · -- A value without a slot of its own would have the first one, which some value has.
      obtain ⟨x, hx⟩ := List.exists_mem_of_ne_nil _ (assignSlots_ne_nil
        (SlotInput.conflicts { module := m, function := f, slotted := .ofList (slottedValues m f) })
        (((entryParams m f).zipIdx.filter fun x => (homeKinds m f).getD x.1 .none == .slot).reverse)
        (.inl (List.ne_nil_of_mem hslotted)))
      have hfirst : (Array.replicate m.values.size 0).getD v 0 = 0 := by
        simp [Array.getD_eq_getD_getElem?, hv]
      rw [hzero, hfirst]
      exact Nat.lt_of_lt_of_le (Nat.succ_pos x.2) (hbound x hx)
    · rw [hslot]
      exact hbound x hx
  | _ =>
    rw [hkind] at hhome
    cases hhome

/-! ## Linked code -/

variable {cx : FunctionContext} (hplan : cx.plan = slotPlan m f)

include hplan

theorem placed_slotPlan (hmodule : cx.module = m) {E : FlowContext}
    (hslots : (slotPlan m f).numSlots ≤ E.slots) :
    cx.Placed E := by
  refine ⟨fun v n hhome => ?_, fun v hhome => ?_⟩
  · exact FlowContext.hasSlot_of_lt (Nat.lt_of_lt_of_le (lt_of_home_slot (hplan ▸ hhome)) hslots)
  · obtain ⟨b, done, i, rest, hstack⟩ := exists_onStack (hplan ▸ hhome)
    exact hmodule ▸ hstack.value

/-- The operands of what stands in a block are on the stack only if they are taken from there. -/
theorem takes_slotPlan {b : BlockId} (hb : b ∈ f.blocks)
    {us us' : List (List ValueId × Option ValueId)} {u : List ValueId × Option ValueId}
    (huses : blockUses m b = us ++ u :: us') : cx.Takes u.1 u.2 := by
  intro v hv hhome
  obtain ⟨b', done, i, rest, hstack⟩ := exists_onStack (hplan ▸ hhome)
  exact (hstack.eq_of_use hb huses hv).2.2

/-- What is left on the stack is what is taken from there next. -/
theorem heldBy_slotPlan (hf : f.Verified m) {b : BlockId} (hb : b ∈ f.blocks)
    {done rest : List Inst} (hinsts : instsOf m b = done ++ rest) :
    cx.heldBy (done.getLast?.bind (·.result)) = cx.heldBy (takenBy (m.block b).term rest) := by
  -- A value that is taken from the stack is the result of the instruction before.
  have htaken (v : ValueId) (hv : takenBy (m.block b).term rest = some v)
      (hhome : cx.plan.home v = .stack) :
      done.getLast?.bind (·.result) = some v := by
    obtain ⟨b', done', i, rest', hstack⟩ := exists_onStack (hplan ▸ hhome)
    obtain ⟨u, us, hrest, -, hmem⟩ := exists_use_of_takenBy hv
    have huses : blockUses m b = done.map instUse ++ u :: us := by
      rw [blockUses, hinsts, ← hrest, List.map_append, List.append_assoc]
    obtain ⟨rfl, hdone, -⟩ := hstack.eq_of_use hb huses hmem
    have hlength : done.length = (done' ++ [i]).length := by simpa using congrArg List.length hdone
    have hsplit : done ++ rest = (done' ++ [i]) ++ rest' := by
      rw [← hinsts, hstack.insts, List.append_assoc, List.singleton_append]
    obtain ⟨rfl, -⟩ := List.append_inj hsplit hlength
    rw [List.getLast?_concat]
    exact hstack.result
  -- A result that is left on the stack is taken by what follows.
  have hleft (r : ValueId) (hr : done.getLast?.bind (·.result) = some r)
      (hhome : cx.plan.home r = .stack) :
      takenBy (m.block b).term rest = some r := by
    obtain ⟨b', done', i, rest', hstack⟩ := exists_onStack (hplan ▸ hhome)
    obtain ⟨j, hj, hresult⟩ := Option.bind_eq_some_iff.mp hr
    obtain ⟨before, rfl⟩ := List.getLast?_eq_some_iff.mp hj
    rw [List.append_assoc, List.singleton_append] at hinsts
    obtain ⟨rfl, -, -, rfl⟩ := eq_of_result hf hb hstack.block hinsts hstack.insts hresult
      hstack.result
    exact hstack.taken
  by_cases hstack : ∃ v, takenBy (m.block b).term rest = some v ∧ cx.plan.home v = .stack
  · obtain ⟨v, hv, hhome⟩ := hstack
    rw [htaken v hv hhome, hv]
  · rw [FunctionContext.heldBy_eq_zero fun r hr hhome => hstack ⟨r, hleft r hr hhome, hhome⟩,
      FunctionContext.heldBy_eq_zero fun v hv hhome => hstack ⟨v, hv, hhome⟩]

theorem linked_slotPlan (hf : f.Verified m) {b : BlockId} (hb : b ∈ f.blocks)
    {done rest : List Inst} (hinsts : instsOf m b = done ++ rest) :
    cx.Linked (m.block b).term (done.getLast?.bind (·.result)) rest := by
  induction rest generalizing done with
  | nil =>
    intro t ht
    have huses : blockUses m b = done.map instUse ++ [endUse (m.block b).term] := by
      rw [blockUses, hinsts]; simp
    have hheld := heldBy_slotPlan hplan hf hb hinsts
    have htakes := takes_slotPlan hplan hb huses
    rw [ht] at hheld htakes
    exact ⟨hheld, htakes⟩
  | cons i rest ih =>
    have huses : blockUses m b =
        done.map instUse ++ instUse i :: (rest.map instUse ++ [endUse (m.block b).term]) := by
      rw [blockUses, hinsts]
      simp
    have hlinked := @ih (done ++ [i]) (by simp [hinsts])
    rw [List.getLast?_concat] at hlinked
    exact ⟨heldBy_slotPlan hplan hf hb hinsts, takes_slotPlan hplan hb huses, hlinked⟩

/-- The result of a constant is not on the stack. -/
theorem heldBy_const (hf : f.Verified m) {b : BlockId} (hb : b ∈ f.blocks) {i : Inst}
    (hi : i ∈ instsOf m b) (hconst : i.data.isConst = true) : cx.heldBy i.result = 0 := by
  refine FunctionContext.heldBy_eq_zero fun r hr hhome => ?_
  obtain ⟨b', done', i', rest', hstack⟩ := exists_onStack (hplan ▸ hhome)
  obtain ⟨done, rest, hinsts⟩ := List.append_of_mem hi
  obtain ⟨rfl, -, rfl, -⟩ := eq_of_result hf hb hstack.block hinsts hstack.insts hr hstack.result
  rw [hstack.notConst] at hconst
  cases hconst

end Plan

end ContractCompiler.Codegen
