import ContractCompiler.Proofs.Codegen.Flow

/-!
# Flow through arithmetic

Code that pushes values and code for operations on them. A value that lives on the stack was left
there by what stands before, so only the first operand of an instruction can be one.

- `FunctionContext.Placed`: the places of values are there;
- `FunctionContext.flows_push`, `FunctionContext.flows_first`, `FunctionContext.flows_define`:
  operands and results;
- `FunctionContext.flows_binary`, `FunctionContext.flows_unary`, `FunctionContext.flows_cast`: the
  code of operations takes the operand on the stack and leaves the result there.
-/

namespace ContractCompiler.Codegen

open Ssa (ValueId)

namespace FunctionContext

variable {cx : FunctionContext} {E : FlowContext} {h : Nat} {v : ValueId} {is : List Item}
  {k : Option Nat}

/-! ## Values -/

/-- The places of values are there. -/
structure Placed (cx : FunctionContext) (E : FlowContext) : Prop where
  slot : ∀ v n, cx.plan.home v = .slot n → E.HasSlot n
  value : ∀ v, cx.plan.home v = .stack → v < cx.module.values.size

/-- How many words of a value are on the stack before it is used. -/
def held (cx : FunctionContext) (v : ValueId) : Nat := if cx.plan.home v = .stack then 1 else 0

/-- How many words of a value that may be missing are on the stack. -/
def heldBy (cx : FunctionContext) (v : Option ValueId) : Nat := (v.map cx.held).getD 0

@[simp] theorem heldBy_some : cx.heldBy (some v) = cx.held v := rfl

@[simp] theorem heldBy_none : cx.heldBy none = 0 := rfl

theorem heldBy_eq_zero {x : Option ValueId} (hx : ∀ v, x = some v → cx.plan.home v ≠ .stack) :
    cx.heldBy x = 0 := by
  cases x with
  | none => rfl
  | some v => exact if_neg (hx v rfl)

theorem flows_constant :
    Flows E (some h) (cx.constant v ++ is) k ↔ Flows E (some (h + 1)) is k := by
  unfold constant
  split <;> simp [unsupported]

/-- Code pushes a value that does not live on the stack. -/
theorem flows_push (hcx : cx.Placed E) (hv : cx.plan.home v ≠ .stack) :
    Flows E (some h) (cx.push v ++ is) k ↔ Flows E (some (h + 1)) is k := by
  unfold push
  split
  · simp [unsupported]
  · cases hhome : cx.plan.home v with
    | none => simp [unsupported]
    | const => exact flows_constant
    | stack => exact absurd hhome hv
    | slot n => simp [hcx.slot v n hhome]

/-- Code that uses a value first has it on the stack then, wherever it lives. -/
theorem flows_first (hcx : cx.Placed E) :
    Flows E (some (cx.held v)) (cx.push v ++ is) k ↔ Flows E (some 1) is k := by
  unfold held
  by_cases hhome : cx.plan.home v = .stack
  · have hlt := hcx.value v hhome
    have hpush : cx.push v = [] := by simp [push, hhome, Nat.not_le.mpr hlt]
    simp [hpush, hhome]
  · simp [hhome, flows_push hcx]

/-- Code puts a result into its place. -/
theorem flows_define (hcx : cx.Placed E) {r : ValueId} :
    Flows E (some 1) (cx.define (some r)) k ↔ some (cx.held r) = k := by
  unfold define held
  cases hhome : cx.plan.home r with
  | none => simp [hhome]
  | const => simp [hhome]
  | stack => simp [hhome]
  | slot n => simp [hhome, hcx.slot r n hhome]

end FunctionContext

/-! ## Operations -/

/-- The instructions of operations take two words. -/
theorem binary_wordOp {o : BinOp} (ho : o.isCompare = false) (signed : Bool) :
    (wordOp o signed).binary?.isSome = true := by
  cases o <;> cases signed <;> first | rfl | cases ho

theorem binary_compareOp (o : BinOp) (signed : Bool) :
    (compareOp o signed).binary?.isSome = true := by
  cases o <;> cases signed <;> rfl

namespace ArithInput

variable {x : ArithInput} {E : FlowContext} {h slot : Nat} {is : List Item}
  {k : Option Nat} {o : BinOp}

/-- The operands are pushed whenever they are used, and the results have slots. -/
structure Placed (x : ArithInput) (E : FlowContext) : Prop where
  left : ∀ h is k, Flows E (some h) (x.left ++ is) k ↔ Flows E (some (h + 1)) is k
  right : ∀ h is k, Flows E (some h) (x.right ++ is) k ↔ Flows E (some (h + 1)) is k
  result : E.HasSlot x.result
  overflow : E.HasSlot x.overflow

theorem flows_narrow (hx : x.Placed E) (ho : o.isCompare = false) (hslot : E.HasSlot slot) :
    Flows E (some 0) (x.narrow o slot ++ is) k ↔ Flows E (some 0) is k := by
  simp +decide [narrow, hx.left, hx.right, hx.result, hx.overflow, hslot, binary_wordOp ho,
    flows_normalize]

theorem flows_addOverflow (hx : x.Placed E) :
    Flows E (some 0) (x.addOverflow ++ is) k ↔ Flows E (some 1) is k := by
  unfold addOverflow
  split <;> simp +decide [hx.left, hx.right, hx.result]

theorem flows_subOverflow (hx : x.Placed E) :
    Flows E (some 0) (x.subOverflow ++ is) k ↔ Flows E (some 1) is k := by
  unfold subOverflow
  split <;> simp +decide [hx.left, hx.right, hx.result]

theorem flows_setMulOverflow (hx : x.Placed E) :
    Flows E (some 0) (x.setMulOverflow ++ is) k ↔ Flows E (some 0) is k := by
  unfold setMulOverflow
  split <;> simp +decide [hx.left, hx.right, hx.result, hx.overflow, markHeight]

theorem flows_wide (hx : x.Placed E) (ho : o.isCompare = false) :
    Flows E (some 0) (x.wide o ++ is) k ↔ Flows E (some 0) is k := by
  unfold wide
  cases o <;>
    simp +decide [hx.left, hx.right, hx.result, hx.overflow, binary_wordOp, flows_addOverflow hx,
      flows_subOverflow hx, flows_setMulOverflow hx] at ho ⊢

theorem flows_divide (hx : x.Placed E) (ho : o.isCompare = false) (checked : Bool) :
    Flows E (some 0) (x.divide o checked ++ is) k ↔ Flows E (some 0) is k := by
  unfold divide
  cases checked <;> cases o == .div && x.kind.signed <;>
    simp +decide [hx.left, hx.right, hx.result, hx.overflow, binary_wordOp ho, markHeight]

theorem flows_shift (hx : x.Placed E) (ho : o.isCompare = false) :
    Flows E (some 0) (x.shift o ++ is) k ↔ Flows E (some 0) is k := by
  unfold shift shiftMask
  split <;>
    simp +decide [hx.left, hx.right, hx.result, hx.overflow, binary_wordOp ho, flows_normalize]

/-- The first part of an operation leaves nothing on the stack. -/
theorem flows_exactArith (hx : x.Placed E) (ho : o.isCompare = false)
    (hbitwise : o.isBitwise = false) (hslot : 0 < x.exactScratch o → E.HasSlot slot)
    (checked : Bool) :
    Flows E (some 0) (x.exactArith o checked slot ++ is) k ↔ Flows E (some 0) is k := by
  unfold exactArith
  split
  · exact flows_divide hx ho checked
  · exact flows_divide hx ho checked
  · exact flows_shift hx ho
  · exact flows_shift hx ho
  · split
    · rename_i hnarrow
      refine flows_narrow hx ho (hslot ?_)
      cases o <;> simp_all [exactScratch, BinOp.isCompare, BinOp.isBitwise]
    · exact flows_wide hx ho

theorem flows_nearest (hx : x.Placed E) :
    Flows E (some 0) (x.nearest o ++ is) k ↔ Flows E (some 1) is k := by
  unfold nearest
  cases o <;> cases x.kind.signed <;> simp +decide [hx.left, hx.right, flows_select]

/-- The second part of an operation leaves its result. -/
theorem flows_finishArith (hx : x.Placed E) {mode : ArithMode}
    (hslots : mode = .checked → E.HasSlot slot ∧ E.HasSlot (slot + 1)) :
    Flows E (some 0) (x.finishArith o mode slot ++ is) k ↔ Flows E (some 1) is k := by
  unfold finishArith
  cases mode with
  | trap => simp [hx.result, hx.overflow]
  | wrapping => simp [hx.result]
  | saturating =>
    dsimp only
    split
    · simp [hx.result]
    · simp [hx.result, hx.overflow, flows_nearest hx, markHeight]
  | checked =>
    obtain ⟨hslot, hnext⟩ := hslots rfl
    simp +decide [hx.result, hx.overflow, hslot, flows_allocateInto hslot hnext]

/-! ### Marks -/

section Marks

attribute [local simp] Item.markJump? Item.mark? op lit litInt get set tee jump jumpIf
  jumpIfNot failIf

theorem markJumps_exactArith (hleft : markJumps x.left = []) (hright : markJumps x.right = [])
    (checked : Bool) :
    markJumps (x.exactArith o checked slot) ⊆ marks (x.exactArith o checked slot) := by
  unfold exactArith
  split
  · unfold divide
    cases checked <;> cases x.kind.signed <;> simp [hleft, hright]
  · unfold divide
    cases checked <;> simp [hleft, hright]
  · unfold shift
    simp [hleft, hright, shiftMask]
  · unfold shift
    simp [hleft, hright, shiftMask]
  · split
    · simp [narrow, hleft, hright]
    · unfold wide
      cases hs : x.kind.signed <;> split <;>
        simp [addOverflow, subOverflow, setMulOverflow, hleft, hright, hs]

theorem markJumps_finishArith (hleft : markJumps x.left = []) (hright : markJumps x.right = [])
    (mode : ArithMode) :
    markJumps (x.finishArith o mode slot) ⊆ marks (x.finishArith o mode slot) := by
  unfold finishArith
  cases mode with
  | trap => simp
  | wrapping => simp
  | saturating =>
    dsimp only
    split
    · simp
    · cases hs : x.kind.signed <;> cases o <;> simp [nearest, select, hleft, hright, hs]
  | checked => simp

end Marks

end ArithInput

namespace FunctionContext

variable {cx : FunctionContext} {E : FlowContext} {r : ValueId}

section Marks

attribute [local simp] Item.markJump? op lit litInt get set unsupported failIf

@[simp] theorem markJumps_constant (v : ValueId) : markJumps (cx.constant v) = [] := by
  unfold constant
  split <;> simp

@[simp] theorem markJumps_push (v : ValueId) : markJumps (cx.push v) = [] := by
  unfold push
  split
  · simp
  · split <;> simp

@[simp] theorem markJumps_define (r : Option ValueId) : markJumps (cx.define r) = [] := by
  unfold define
  split
  · rfl
  · split <;> simp

theorem markJumps_directArith (o : BinOp) (kind : IntKind) :
    markJumps (directArith o kind) = [] := by
  unfold directArith
  split <;> split <;> simp [ArithInput.shiftMask]

theorem markJumps_castCheck (source target : IntKind) (src : ValueId) :
    markJumps (cx.castCheck source target src) = [] := by
  unfold castCheck
  simp only [markJumps_cons]
  split
  · split <;> simp
  · split <;> simp

end Marks

/-! ## Operations of functions -/

/-- Of the operands of what comes next only the one that it takes from the stack is there, and that
one is used only once. -/
def Takes (cx : FunctionContext) (operands : List ValueId) (taken : Option ValueId) : Prop :=
  ∀ v ∈ operands, cx.plan.home v = .stack → taken = some v ∧ operands.count v = 1

theorem Takes.home_of_none {vs : List ValueId} (h : cx.Takes vs none) {v : ValueId} (hv : v ∈ vs) :
    cx.plan.home v ≠ .stack := by
  intro hhome
  cases (h v hv hhome).1

theorem Takes.home_of_mem {v : ValueId} {vs : List ValueId} (h : cx.Takes (v :: vs) (some v))
    {w : ValueId} (hw : w ∈ vs) : cx.plan.home w ≠ .stack := by
  intro hhome
  obtain ⟨heq, hcount⟩ := h w (List.mem_cons_of_mem v hw) hhome
  obtain rfl := Option.some.inj heq
  have := List.count_pos_iff.mpr hw
  rw [List.count_cons_self] at hcount
  omega

/-- The slots of temporaries are there, as many as given. -/
def Temps (cx : FunctionContext) (E : FlowContext) (n : Nat) : Prop :=
  ∀ k < n, E.HasSlot (cx.temp k)

/-- Code pushes a value wherever it is needed. -/
def Pushes (E : FlowContext) (is : List Item) : Prop :=
  (∀ h is' k, Flows E (some h) (is ++ is') k ↔ Flows E (some (h + 1)) is' k) ∧ markJumps is = []

theorem pushes_push (hcx : cx.Placed E) {v : ValueId} (hv : cx.plan.home v ≠ .stack) :
    Pushes E (cx.push v) :=
  ⟨fun _ _ _ => flows_push hcx hv, markJumps_push v⟩

theorem carries_checkedArith (hcx : cx.Placed E) {o : BinOp} (ho : o.isCompare = false)
    (hbitwise : o.isBitwise = false) (mode : ArithMode) (kind : IntKind) {left right : List Item}
    (hleft : Pushes E left) (hright : Pushes E right)
    (htemps : cx.Temps E (cx.checkedArith o mode kind left right (some r)).scratch) :
    Carries E 0 (cx.checkedArith o mode kind left right (some r)).items (some (cx.held r)) := by
  let x : ArithInput := ⟨kind, left, right, cx.temp 0, cx.temp 1⟩
  have htemps : cx.Temps E
      (if mode = .checked then 2 + x.exactScratch o + 2 else 2 + x.exactScratch o) := htemps
  have hused : ∀ k < 2 + x.exactScratch o, E.HasSlot (cx.temp k) := by
    intro k hk
    refine htemps k ?_
    split <;> omega
  have hx : x.Placed E := ⟨hleft.1, hright.1, hused 0 (by omega), hused 1 (by omega)⟩
  have hslots : mode = .checked →
      E.HasSlot (cx.temp (2 + x.exactScratch o)) ∧
      E.HasSlot (cx.temp (2 + x.exactScratch o) + 1) := by
    intro hmode
    rw [if_pos hmode] at htemps
    exact ⟨htemps _ (by omega), htemps (2 + x.exactScratch o + 1) (by omega)⟩
  show Carries E 0 (x.exactArith o (mode == .checked) (cx.temp 2)
    ++ x.finishArith o mode (cx.temp (2 + x.exactScratch o)) ++ cx.define (some r)) _
  constructor
  · rw [List.append_assoc,
      ArithInput.flows_exactArith hx ho hbitwise (fun h => hused 2 (by omega)) (mode == .checked),
      ArithInput.flows_finishArith hx hslots, flows_define hcx]
  · simp only [markJumps_append, marks_append, markJumps_define, List.append_nil]
    refine List.append_subset.mpr ⟨fun n hn => ?_, fun n hn => ?_⟩
    · have hexact := ArithInput.markJumps_exactArith hleft.2 hright.2 _ hn
      exact List.mem_append_left _ (List.mem_append_left _ hexact)
    · have hfinish := ArithInput.markJumps_finishArith hleft.2 hright.2 mode hn
      exact List.mem_append_left _ (List.mem_append_right _ hfinish)

/-- An operation that cannot fail takes two words and leaves one. -/
theorem flows_directArith {o : BinOp} (ho : o.isCompare = false) (kind : IntKind) {is : List Item}
    {k : Option Nat} : Flows E (some 2) (directArith o kind ++ is) k ↔ Flows E (some 1) is k := by
  unfold directArith ArithInput.shiftMask
  split <;> split <;> simp +decide [binary_wordOp ho, flows_normalize]

theorem stackOperand?_binary (o : BinOp) (mode : ArithMode) (left right : ValueId) :
    (Ssa.InstData.binary o mode left right).stackOperand? = some left ∨
      (Ssa.InstData.binary o mode left right).stackOperand? = none := by
  unfold Ssa.InstData.stackOperand?
  dsimp only
  split_ifs <;> simp

theorem carries_binary (hcx : cx.Placed E) {o : BinOp} {mode : ArithMode} {left right : ValueId}
    (htakes : cx.Takes [left, right] (Ssa.InstData.binary o mode left right).stackOperand?)
    (hok : ∀ f, .fault f ∉ (cx.binary o mode left right (some r)).items)
    (htemps : cx.Temps E (cx.binary o mode left right (some r)).scratch) :
    Carries E (cx.heldBy (Ssa.InstData.binary o mode left right).stackOperand?)
      (cx.binary o mode left right (some r)).items (some (cx.held r)) := by
  -- An operation on the stack takes its first operand from there.
  have hdirect (code : List Item)
      (hcode : ∀ is k, Flows E (some 2) (code ++ is) k ↔ Flows E (some 1) is k)
      (hjumps : markJumps code = [])
      (hstack : (Ssa.InstData.binary o mode left right).stackOperand? = some left) :
      Carries E (cx.heldBy (Ssa.InstData.binary o mode left right).stackOperand?)
        (cx.push left ++ cx.push right ++ code ++ cx.define (some r)) (some (cx.held r)) := by
    rw [hstack] at htakes ⊢
    refine .of_flows ?_ (by simp [hjumps])
    have hright := htakes.home_of_mem (List.mem_singleton_self right)
    rw [List.append_assoc, List.append_assoc, heldBy_some, flows_first hcx,
      flows_push hcx hright, hcode, flows_define hcx]
  have hbits : (cx.kind left).bits ≠ 0 := by
    intro hbits
    exact hok (.unsupported .operandNotInteger) (by simp [binary, hbits, unsupported])
  dsimp only [binary] at htemps ⊢
  rw [if_neg hbits] at htemps ⊢
  by_cases hcompare : o.isCompare = true
  · rw [if_pos hcompare]
    exact hdirect _ (fun _ _ => by simp [binary_compareOp]) (by simp [op, Item.markJump?])
      (by simp [Ssa.InstData.stackOperand?, hcompare])
  rw [if_neg hcompare] at htemps ⊢
  have ho : o.isCompare = false := by simpa using hcompare
  by_cases hbitwise : o.isBitwise = true
  · rw [if_pos hbitwise]
    exact hdirect _ (fun _ _ => by simp [binary_wordOp ho]) (by simp [op, Item.markJump?])
      (by simp [Ssa.InstData.stackOperand?, hbitwise])
  rw [if_neg hbitwise] at htemps ⊢
  rcases stackOperand?_binary o mode left right with hstack | hstack
  · rw [if_pos (by rw [hstack]; rfl)]
    exact hdirect _ (fun _ _ => flows_directArith ho _) (markJumps_directArith o _) hstack
  · rw [hstack] at htakes htemps ⊢
    exact carries_checkedArith hcx ho (by simpa using hbitwise) mode _
      (pushes_push hcx (htakes.home_of_none (by simp)))
        (pushes_push hcx (htakes.home_of_none (by simp))) htemps

theorem carries_unary (hcx : cx.Placed E) {o : UnOp} {mode : ArithMode} {src : ValueId}
    (htakes : cx.Takes [src] (Ssa.InstData.unary o mode src).stackOperand?)
    (htemps : cx.Temps E (cx.unary o mode src (some r)).scratch) :
    Carries E (cx.heldBy (Ssa.InstData.unary o mode src).stackOperand?)
      (cx.unary o mode src (some r)).items (some (cx.held r)) := by
  cases o with
  | not =>
    refine .of_flows ?_ (by simp [unary, op, lit, Item.markJump?])
    show Flows E (some (cx.held src)) (cx.push src ++ [lit 1, op .xor] ++ cx.define (some r)) _
    rw [List.append_assoc, flows_first hcx]
    simp +decide [flows_define hcx]
  | bitNot =>
    refine .of_flows ?_ (by simp [unary, op, litInt, lit, Item.markJump?])
    show Flows E (some (cx.held src))
      (cx.push src ++ [litInt (-1), op .xor] ++ normalize (cx.kind src) ++ cx.define (some r)) _
    rw [List.append_assoc, List.append_assoc, flows_first hcx]
    simp +decide [flows_normalize, flows_define hcx]
  | neg =>
    have hzero : Pushes E [lit 0] := ⟨fun _ _ _ => flows_lit 0, rfl⟩
    exact carries_checkedArith hcx rfl rfl mode (cx.kind src) hzero
      (pushes_push hcx (htakes.home_of_none (List.mem_singleton_self src))) htemps

theorem flows_castCheck (hcx : cx.Placed E) (source target : IntKind) {src : ValueId}
    (hsrc : cx.plan.home src ≠ .stack) {is : List Item} {k : Option Nat} :
    Flows E (some 0) (cx.castCheck source target src ++ is) k ↔ Flows E (some 0) is k := by
  unfold castCheck
  extract_lets negative isWord
  have hnegative (is : List Item) : Flows E (some 0) (negative ++ is) k ↔
      Flows E (some 0) is k := by
    simp +decide [negative, flows_push hcx hsrc]
  rw [List.cons_append, flows_needs]
  cases isWord target <;> cases isWord source <;> cases source.signed <;>
    simp +decide [hnegative, flows_push hcx hsrc, flows_normalize]

theorem carries_cast (hcx : cx.Placed E) {mode : CastMode} {type : TypeId} {src : ValueId}
    (htakes : cx.Takes [src] (Ssa.InstData.cast mode type src).stackOperand?)
    (hok : ∀ f, .fault f ∉ (cx.cast mode type src (some r)).items) :
    Carries E (cx.heldBy (Ssa.InstData.cast mode type src).stackOperand?)
      (cx.cast mode type src (some r)).items (some (cx.held r)) := by
  have hbits : ¬((cx.kind src).bits = 0 ∨ (cx.types.intKind type).bits = 0) := by
    intro hbits
    exact hok (.unsupported .castNotInteger) (by simp [cast, hbits, unsupported])
  dsimp only [cast]
  rw [if_neg hbits]
  cases mode with
  | trap =>
    have hsrc := htakes.home_of_none (List.mem_singleton_self src)
    refine .of_flows ?_ (by simp [markJumps_castCheck])
    simp [Ssa.InstData.stackOperand?, flows_castCheck hcx _ _ hsrc, flows_push hcx hsrc,
      flows_normalize, flows_define hcx]
  | wrapping =>
    refine .of_flows ?_ (by simp)
    simp [Ssa.InstData.stackOperand?, flows_first hcx, flows_normalize, flows_define hcx]

end FunctionContext

end ContractCompiler.Codegen
