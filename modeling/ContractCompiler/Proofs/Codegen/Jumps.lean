import ContractCompiler.Proofs.Codegen.Function
import Mathlib.Data.List.Basic

/-!
# Where code goes

Inside a piece of code control only goes forward: a jump to a mark stands before it. Pieces of
instructions jump nowhere else but to the shared failures, and the ending of a block also to the
blocks after it. When control comes to the end of a block, the code that follows is that of one of
them.

- `Item.isTurn`, `turns`: the elements at which control may not go on to the next one, and marks;
- `Straight`: code goes forward, to shared failures and to given blocks;
- `FunctionContext.straight_inst`, `FunctionContext.straight_terminator`: the code of instructions
  and endings;
- `Closes`, `FunctionContext.closes_terminator`: control leaves an ending, or goes on to a block
  after it.
-/

namespace ContractCompiler.Codegen

open Ssa (ValueId BlockId FuncId)

/-! ## Turns -/

/-- Whether control may not go on from an element to the next one, or may come to it from
elsewhere. -/
def Item.isTurn : Item → Bool
  | .instr i => !i.op.isPlain
  | .jump .. | .mark _ => true
  | .address _ | .call _ | .callHost _ | .reserve .. | .needs _ | .fault _ => false

/-- The jumps, stops and marks of code. -/
def turns (is : List Item) : List Item := is.filter (·.isTurn)

section Elements

variable {is is' : List Item}

@[simp] theorem turns_nil : turns [] = [] := rfl

@[simp] theorem turns_append : turns (is ++ is') = turns is ++ turns is' := List.filter_append ..

@[simp] theorem turns_cons (i : Item) :
    turns (i :: is) = if i.isTurn then i :: turns is else turns is :=
  List.filter_cons

theorem turns_flatMap_nil {α : Type} {xs : List α} {g : α → List Item} (h : ∀ x, turns (g x) = []) :
    turns (xs.flatMap g) = [] := by
  unfold turns
  rw [List.filter_flatMap, List.flatMap_eq_nil_iff]
  exact fun x _ => h x

@[simp] theorem isTurn_op (o : Vm.Op) : (op o).isTurn = !o.isPlain := rfl
@[simp] theorem isTurn_instr (i : Vm.Instr) : (Item.instr i).isTurn = !i.op.isPlain := rfl
@[simp] theorem isTurn_jumpTo (o : Vm.Op) (t : Target) : (Item.jump o t).isTurn = true := rfl
@[simp] theorem isTurn_call (callee : FuncId) : (Item.call callee).isTurn = false := rfl
@[simp] theorem isTurn_callHost (o : HostOp) : (Item.callHost o).isTurn = false := rfl
@[simp] theorem isTurn_address (bs : Bytes) : (Item.address bs).isTurn = false := rfl
@[simp] theorem isTurn_lit (w : UInt64) : (lit w).isTurn = false := rfl
@[simp] theorem isTurn_litInt (v : Int) : (litInt v).isTurn = false := rfl
@[simp] theorem isTurn_get (n : Nat) : (get n).isTurn = false := rfl
@[simp] theorem isTurn_set (n : Nat) : (set n).isTurn = false := rfl
@[simp] theorem isTurn_tee (n : Nat) : (tee n).isTurn = false := rfl
@[simp] theorem isTurn_trap (c : TrapCode) : (trap c).isTurn = true := rfl
@[simp] theorem isTurn_jump (n : Nat) : (jump n).isTurn = true := rfl
@[simp] theorem isTurn_jumpIf (n : Nat) : (jumpIf n).isTurn = true := rfl
@[simp] theorem isTurn_jumpIfNot (n : Nat) : (jumpIfNot n).isTurn = true := rfl
@[simp] theorem isTurn_failIf (f : Failure) : (failIf f).isTurn = true := rfl
@[simp] theorem isTurn_unsupported (u : Unsupported) : (unsupported u).isTurn = false := rfl
@[simp] theorem isTurn_mark (n : Nat) : (Item.mark n).isTurn = true := rfl
@[simp] theorem isTurn_reserve (u : DataUse) (bs : Bytes) (span : Span) :
    (Item.reserve u bs span).isTurn = false := rfl
@[simp] theorem isTurn_needs (f : Failure) : (Item.needs f).isTurn = false := rfl
@[simp] theorem isTurn_fault (f : Fault) : (Item.fault f).isTurn = false := rfl

@[simp high] theorem isTurn_wordOp (o : BinOp) (signed : Bool) :
    (op (wordOp o signed)).isTurn = false := by
  cases o <;> cases signed <;> rfl

@[simp high] theorem isTurn_compareOp (o : BinOp) (signed : Bool) :
    (op (compareOp o signed)).isTurn = false := by
  cases o <;> cases signed <;> rfl

@[simp] theorem mark?_jumpTo (o : Vm.Op) (t : Target) : (Item.jump o t).mark? = none := rfl
@[simp] theorem mark?_mark (n : Nat) : (Item.mark n).mark? = some n := rfl
@[simp] theorem mark?_op (o : Vm.Op) : (op o).mark? = none := rfl
@[simp] theorem mark?_trap (c : TrapCode) : (trap c).mark? = none := rfl
@[simp] theorem mark?_jump (n : Nat) : (jump n).mark? = none := rfl
@[simp] theorem mark?_jumpIf (n : Nat) : (jumpIf n).mark? = none := rfl
@[simp] theorem mark?_jumpIfNot (n : Nat) : (jumpIfNot n).mark? = none := rfl
@[simp] theorem mark?_failIf (f : Failure) : (failIf f).mark? = none := rfl
@[simp] theorem markJump?_label (o : Vm.Op) (l : Label) :
    (Item.jump o (.label l)).markJump? = none := rfl
@[simp] theorem markJump?_mark (n : Nat) : (Item.mark n).markJump? = none := rfl
@[simp] theorem markJump?_op (o : Vm.Op) : (op o).markJump? = none := rfl
@[simp] theorem markJump?_trap (c : TrapCode) : (trap c).markJump? = none := rfl
@[simp] theorem markJump?_jump (n : Nat) : (jump n).markJump? = some n := rfl
@[simp] theorem markJump?_jumpIf (n : Nat) : (jumpIf n).markJump? = some n := rfl
@[simp] theorem markJump?_jumpIfNot (n : Nat) : (jumpIfNot n).markJump? = some n := rfl
@[simp] theorem markJump?_failIf (f : Failure) : (failIf f).markJump? = none := rfl

end Elements

/-! ## Straight code -/

/-- An element sends control to marks, shared failures and given blocks only. -/
def Item.LeadsTo (targets : List BlockId) : Item → Prop
  | .instr i => i.op.isPlain = true ∨ i.op = .ret ∨ i.op = .trap
  | .jump o t => (o = .jmp ∨ o = .jmpIf ∨ o = .jmpIfNot) ∧ ∀ b, t = .label (.block b) → b ∈ targets
  | _ => True

/-- Code that goes forward, to shared failures and to given blocks. The mark of a jump stands after
it, and not before it as well. -/
def Straight (targets : List BlockId) : List Item → Prop
  | [] => True
  | i :: is => i.LeadsTo targets ∧ (∀ n, i.mark? = some n → n ∉ markJumps is) ∧
      (∀ n, i.markJump? = some n → n ∈ marks is) ∧ Straight targets is

section Straight

variable {targets : List BlockId} {is is' : List Item}

@[simp] theorem straight_nil : Straight targets [] := trivial

@[simp] theorem straight_cons {i : Item} : Straight targets (i :: is) ↔ i.LeadsTo targets ∧
    (∀ n, i.mark? = some n → n ∉ markJumps is) ∧ (∀ n, i.markJump? = some n → n ∈ marks is) ∧
      Straight targets is :=
  Iff.rfl

@[simp] theorem leadsTo_mark (n : Nat) : (Item.mark n).LeadsTo targets := trivial

@[simp] theorem leadsTo_trap (c : TrapCode) : (trap c).LeadsTo targets := .inr (.inr rfl)

@[simp] theorem leadsTo_ret : (op .ret).LeadsTo targets := .inr (.inl rfl)

@[simp] theorem leadsTo_jump (n : Nat) : (jump n).LeadsTo targets := ⟨.inl rfl, nofun⟩

@[simp] theorem leadsTo_jumpIf (n : Nat) : (jumpIf n).LeadsTo targets := ⟨.inr (.inl rfl), nofun⟩

@[simp] theorem leadsTo_jumpIfNot (n : Nat) : (jumpIfNot n).LeadsTo targets :=
  ⟨.inr (.inr rfl), nofun⟩

@[simp] theorem leadsTo_failIf (f : Failure) : (failIf f).LeadsTo targets :=
  ⟨.inr (.inl rfl), nofun⟩

@[simp] theorem leadsTo_fail (f : Failure) :
    (Item.jump .jmp (.label (.failure f))).LeadsTo targets :=
  ⟨.inl rfl, nofun⟩

@[simp] theorem leadsTo_goTo {b : BlockId} :
    (Item.jump .jmp (.label (.block b))).LeadsTo targets ↔ b ∈ targets := by
  simp [Item.LeadsTo]

@[simp] theorem leadsTo_goToIf {b : BlockId} :
    (Item.jump .jmpIf (.label (.block b))).LeadsTo targets ↔ b ∈ targets := by
  simp [Item.LeadsTo]

theorem of_not_isTurn {i : Item} (hi : i.isTurn = false) :
    i.LeadsTo targets ∧ i.mark? = none ∧ i.markJump? = none := by
  cases i with
  | instr i => exact ⟨.inl (by simpa using hi), rfl, rfl⟩
  | jump | mark => cases hi
  | _ => exact ⟨trivial, rfl, rfl⟩

theorem marks_turns (is : List Item) :
    marks (turns is) = marks is ∧ markJumps (turns is) = markJumps is := by
  induction is with
  | nil => exact ⟨rfl, rfl⟩
  | cons i is ih =>
    rw [turns_cons]
    cases hturn : i.isTurn with
    | true => simp [ih]
    | false =>
      obtain ⟨-, hmark, hjump⟩ : i.LeadsTo [] ∧ i.mark? = none ∧ i.markJump? = none :=
        of_not_isTurn hturn
      simp [ih, hmark, hjump]

/-- Whether code is straight depends on its turns alone. -/
theorem straight_of_turns (h : Straight targets (turns is)) : Straight targets is := by
  induction is with
  | nil => trivial
  | cons i is ih =>
    rw [turns_cons] at h
    cases hturn : i.isTurn with
    | true =>
      rw [if_pos hturn] at h
      obtain ⟨hleads, hmark, hjump, hrest⟩ := h
      rw [(marks_turns is).2] at hmark
      rw [(marks_turns is).1] at hjump
      exact ⟨hleads, hmark, hjump, ih hrest⟩
    | false =>
      rw [if_neg (by simp [hturn])] at h
      obtain ⟨hleads, hmark, hjump⟩ := of_not_isTurn hturn
      exact ⟨hleads, by simp [hmark], by simp [hjump], ih h⟩

/-- Code without turns is straight. -/
theorem straight_of_turns_nil (h : turns is = []) : Straight targets is :=
  straight_of_turns (h ▸ straight_nil)

/-- Straight code after straight code that has none of the marks that it jumps to. -/
theorem Straight.append (h : Straight targets is) (h' : Straight targets is')
    (hmarks : ∀ n ∈ marks is, n ∉ markJumps is') : Straight targets (is ++ is') := by
  induction is with
  | nil => exact h'
  | cons i is ih =>
    obtain ⟨hleads, hmark, hjump, hrest⟩ := h
    have hlater : ∀ n ∈ marks is, n ∉ markJumps is' := fun n hn => hmarks n (by simp [hn])
    rw [List.cons_append]
    refine ⟨hleads, fun n hn => ?_, fun n hn => ?_, ih hrest hlater⟩
    · rw [markJumps_append, List.mem_append, not_or]
      exact ⟨hmark n hn, hmarks n (by simp [hn])⟩
    · rw [marks_append]
      exact List.mem_append_left _ (hjump n hn)

theorem Straight.mono (h : Straight targets is) {targets' : List BlockId}
    (hsub : targets ⊆ targets') :
    Straight targets' is := by
  induction is with
  | nil => trivial
  | cons i is ih =>
    obtain ⟨hleads, hmark, hjump, hrest⟩ := h
    refine ⟨?_, hmark, hjump, ih hrest⟩
    cases i with
    | jump o t => exact ⟨hleads.1, fun b hb => hsub (hleads.2 b hb)⟩
    | _ => exact hleads

/-- What is known of an element of straight code: the mark that it jumps to is after it only. -/
theorem Straight.element {done todo : List Item} {i : Item}
    (h : Straight targets (done ++ i :: todo)) :
    i.LeadsTo targets ∧ ∀ n, i.markJump? = some n → n ∈ marks todo ∧ n ∉ marks done := by
  induction done with
  | nil => exact ⟨h.1, fun n hn => ⟨h.2.2.1 n hn, List.not_mem_nil⟩⟩
  | cons j done ih =>
    obtain ⟨-, hmark, -, hrest⟩ := h
    obtain ⟨hleads, hjump⟩ := ih hrest
    refine ⟨hleads, fun n hn => ⟨(hjump n hn).1, fun hmem => ?_⟩⟩
    rw [marks_cons, List.mem_append, Option.mem_toList] at hmem
    rcases hmem with hj | hmem
    · exact hmark n hj (by simp [hn])
    · exact (hjump n hn).2 hmem

end Straight

/-! ## Fragments -/

section Fragments

variable {cx : FunctionContext}

@[simp] theorem turns_normalize (k : IntKind) : turns (normalize k) = [] := by
  unfold normalize
  split
  · rfl
  · cases k.signed <;> rfl

@[simp] theorem turns_allocate (slot size : Nat) : turns (allocate slot size) = [] := rfl

@[simp] theorem turns_allocateDynamic (slot size : Nat) :
    turns (allocateDynamic slot size) = [] := rfl

@[simp] theorem turns_allocateInto (slot size : Nat) : turns (allocateInto slot size) = [] := rfl

@[simp] theorem turns_fieldAddress (index : Nat) : turns (fieldAddress index) = [] := rfl

@[simp] theorem turns_escalate (status : Nat) :
    turns (escalate status) = [failIf .hostFailure] := rfl

@[simp] theorem turns_hostCall (o : HostOp) (args : List (List Item)) (status : Option Nat) :
    turns (hostCall o args status) =
      turns args.flatten ++ if hostLeaves o = 0 then [trap .unreachable] else [] := by
  unfold hostCall hostLeaves
  rw [turns_append, turns_cons, isTurn_callHost]
  congr 1
  cases ((HostRef.ofOp? o).map (·.function.noReturn)).getD false with
  | true => rfl
  | false => cases status <;> rfl

@[simp] theorem turns_giveUp (o : HostOp) (message : String) (span : Span) :
    turns (giveUp o message span) = if hostLeaves o = 0 then [trap .unreachable] else [] := by
  simp [giveUp]

@[simp] theorem turns_readBytes (o : HostOp) (args : List (List Item)) (sizeSlot slot : Nat) :
    turns (readBytes o args sizeSlot slot) =
      turns args.flatten ++ (if hostLeaves o = 0 then [trap .unreachable] else []) ++
        [failIf .hostFailure] := by
  simp [readBytes, Vm.Op.isPlain]

namespace FunctionContext

@[simp] theorem turns_constant (v : ValueId) : turns (cx.constant v) = [] := by
  unfold constant
  split <;> simp

@[simp] theorem turns_push (v : ValueId) : turns (cx.push v) = [] := by
  unfold push
  split
  · simp
  · split <;> simp

@[simp] theorem turns_push? (v : Option ValueId) : turns (cx.push? v) = [] := by
  cases v <;> simp [push?]

@[simp] theorem turns_define (r : Option ValueId) : turns (cx.define r) = [] := by
  cases r with
  | none => rfl
  | some r =>
    simp only [define]
    split <;> simp [Vm.Op.isPlain]

@[simp] theorem turns_buffer (v : ValueId) (slot : Nat) : turns (cx.buffer v slot) = [] := by
  unfold buffer
  split <;> simp [Vm.Op.isPlain]

@[simp] theorem turns_bufferArg (v : ValueId) (slot : Nat) : turns (cx.bufferArg v slot) = [] := by
  unfold bufferArg
  split <;> simp

@[simp] theorem turns_storeFields (slot i : Nat) (vs : List ValueId) :
    turns (cx.storeFields slot i vs) = [] := by
  induction vs generalizing i with
  | nil => rfl
  | cons v vs ih =>
    unfold storeFields
    split <;> simp [ih, Vm.Op.isPlain]

@[simp] theorem turns_domainArg [Hashing] (ns : String) (key : ValueId) :
    turns (cx.domainArg ns key) = [] := by
  simp [domainArg]

@[simp] theorem isTurn_reserveDomain [Hashing] (ns : String) (key : ValueId) (span : Span) :
    (cx.reserveDomain ns key span).isTurn = false :=
  rfl

@[simp] theorem turns_addLength (slot : Nat) (v : ValueId) : turns (cx.addLength slot v) = [] := by
  unfold addLength
  split <;> simp [Vm.Op.isPlain]

@[simp] theorem turns_writePayload (cursor length : Nat) (v : ValueId) :
    turns (cx.writePayload cursor length v) = [] := by
  unfold writePayload
  split <;> simp [Vm.Op.isPlain]

@[simp] theorem turns_recoverable (status mark : Nat) :
    turns (recoverable status mark) = [jumpIf mark, .jump .jmp (.label (.failure .hostFailure))] :=
  rfl

end FunctionContext

/-! ### Arithmetic -/

namespace ArithInput

variable {x : ArithInput} (hleft : turns x.left = []) (hright : turns x.right = []) (o : BinOp)

include hleft hright

/-- The first part of an operation goes forward and has none of the marks of the second. -/
theorem turns_exactArith (checked : Bool) (slot : Nat) :
    Straight [] (turns (x.exactArith o checked slot)) ∧
    ∀ n ∈ marks (turns (x.exactArith o checked slot)), n < 3 := by
  have hdivide : Straight [] (turns (x.divide o checked)) ∧
      ∀ n ∈ marks (turns (x.divide o checked)), n < 3 := by
    unfold divide
    cases checked <;> cases (o == BinOp.div && x.kind.signed) <;>
      simp [hleft, hright, Vm.Op.isPlain]
  have hshift : turns (x.shift o) = [] := by
    unfold shift shiftMask
    split <;> simp [hleft, hright, Vm.Op.isPlain]
  have hnarrow : turns (x.narrow o slot) = [] := by
    simp [narrow, hleft, hright, Vm.Op.isPlain]
  have hwide : Straight [] (turns (x.wide o)) ∧ ∀ n ∈ marks (turns (x.wide o)), n < 3 := by
    unfold wide addOverflow subOverflow setMulOverflow
    cases x.kind.signed <;> split <;> simp [hleft, hright, Vm.Op.isPlain]
  unfold exactArith
  split
  · exact hdivide
  · exact hdivide
  · simp [hshift]
  · simp [hshift]
  · split
    · simp [hnarrow]
    · exact hwide

/-- So does the second part, with marks of its own. -/
theorem turns_finishArith (mode : ArithMode) (slot : Nat) :
    Straight [] (turns (x.finishArith o mode slot)) ∧
    ∀ n ∈ markJumps (turns (x.finishArith o mode slot)), 3 ≤ n := by
  have hnearest : turns (x.nearest o) = [] ∨
      turns (x.nearest o) = [jumpIfNot 4, jump 5, .mark 4, .mark 5] := by
    unfold nearest select
    cases x.kind.signed <;> cases o <;> simp [hleft, hright, Vm.Op.isPlain]
  unfold finishArith
  cases mode with
  | trap | wrapping => simp
  | checked => simp [Vm.Op.isPlain]
  | saturating =>
    dsimp only
    split
    · simp
    · rcases hnearest with hnearest | hnearest <;> simp [hnearest]

end ArithInput

namespace FunctionContext

theorem straight_checkedArith (o : BinOp) (mode : ArithMode) (k : IntKind) {left right : List Item}
    (hleft : turns left = []) (hright : turns right = []) (r : Option ValueId) :
    Straight [] (cx.checkedArith o mode k left right r).items := by
  refine straight_of_turns ?_
  unfold checkedArith
  dsimp only
  rw [turns_append, turns_append, turns_define, List.append_nil]
  obtain ⟨hexact, hmarks⟩ := ArithInput.turns_exactArith
    (x := { kind := k, left, right, result := cx.temp 0, overflow := cx.temp 1 }) hleft hright o
      (mode == .checked) (cx.temp 2)
  obtain ⟨hfinish, hjumps⟩ := ArithInput.turns_finishArith
    (x := { kind := k, left, right, result := cx.temp 0, overflow := cx.temp 1 })
      hleft hright o mode _
  exact hexact.append hfinish fun n hn hn' => absurd (hjumps n hn') (Nat.not_le.mpr (hmarks n hn))

theorem straight_binary (o : BinOp) (mode : ArithMode) (left right : ValueId) (r : Option ValueId) :
    Straight [] (cx.binary o mode left right r).items := by
  have hdirect (k : IntKind) : turns (directArith o k) = [] := by
    unfold directArith ArithInput.shiftMask
    split <;> split <;> simp [Vm.Op.isPlain]
  unfold binary
  dsimp only
  split
  · exact straight_of_turns_nil (by simp)
  · split
    · exact straight_of_turns_nil (by simp)
    · split
      · exact straight_of_turns_nil (by simp)
      · split
        · exact straight_of_turns_nil (by simp [hdirect])
        · exact straight_checkedArith o mode _ (turns_push left) (turns_push right) r

theorem straight_unary (o : UnOp) (mode : ArithMode) (src : ValueId) (r : Option ValueId) :
    Straight [] (cx.unary o mode src r).items := by
  cases o with
  | not | bitNot => exact straight_of_turns_nil (by simp [unary, Vm.Op.isPlain])
  | neg => exact straight_checkedArith .sub mode _ (by simp) (turns_push src) r

theorem straight_cast (mode : CastMode) (type : TypeId) (src : ValueId) (r : Option ValueId) :
    Straight [] (cx.cast mode type src r).items := by
  refine straight_of_turns ?_
  have hcheck (source target : IntKind) : Straight [] (turns (cx.castCheck source target src)) := by
    unfold castCheck
    dsimp only
    split <;> split <;> simp [Vm.Op.isPlain]
  unfold cast
  dsimp only
  split
  · simp
  · split
    · simpa using hcheck _ _
    · simp

/-! ## Instructions -/

theorem straight_aggregate (fields : Nat) (span : Span) {is : List Item} (h : turns is = []) :
    Straight [] (cx.aggregate fields span is).items := by
  unfold aggregate
  split
  · exact straight_of_turns_nil (by simp)
  · exact straight_of_turns_nil h

/-- The code of an instruction goes forward, or to a shared failure. -/
theorem straight_inst [Hashing] (i : Ssa.Inst) : Straight [] (cx.inst i).items := by
  unfold inst
  dsimp only
  cases i.data with
  | constInt | constBool => exact straight_nil
  | constBytes bs =>
    refine straight_of_turns_nil ?_
    cases i.result with
    | none => rfl
    | some v =>
      -- What is laid out is no instruction.
      refine List.filter_eq_nil_iff.mpr fun item hitem => ?_
      have hturn : item ∉ turns (cx.constant v) := by simp
      exact fun h => hturn (List.mem_filter.mpr ⟨List.mem_of_mem_filter hitem, h⟩)
  | unary o mode src => exact straight_unary o mode src i.result
  | binary o mode left right => exact straight_binary o mode left right i.result
  | cast mode type src => exact straight_cast mode type src i.result
  | call callee args =>
    refine straight_of_turns_nil ?_
    dsimp only
    unfold call
    split <;> simp [turns_flatMap_nil fun a => cx.turns_push a]
  | makeStruct fields => exact straight_aggregate _ _ (by simp)
  | insert base index value => exact straight_aggregate _ _ (by simp [Vm.Op.isPlain])
  | extract base index =>
    refine straight_of_turns_nil ?_
    dsimp only
    split <;> simp [Vm.Op.isPlain]
  | makeResult ok value =>
    refine straight_of_turns_nil ?_
    unfold makeResult
    cases ok <;> cases value <;> simp [Vm.Op.isPlain]
  | resultIsOk | resultCode | refNew | refLoad | refStore | bytesLength =>
    exact straight_of_turns_nil (by simp [loadFrom, refNew, Vm.Op.isPlain])
  | resultValue src =>
    refine straight_of_turns ?_
    unfold resultValue
    cases i.result <;> simp [Vm.Op.isPlain]
  | stateRead ns key type =>
    refine straight_of_turns ?_
    unfold stateRead
    cases hbytes : cx.types.isBytes type <;> simp +decide [hbytes]
  | stateWrite | stateHas =>
    exact straight_of_turns (by simp +decide [stateWrite, stateHas])
  | context query =>
    refine straight_of_turns ?_
    unfold context
    cases i.result with
    | none => simp
    | some r => cases hbytes : cx.isBytes r <;> simp +decide [hbytes]
  | digest => exact straight_of_turns (by simp +decide [digest])
  | emit topic args =>
    refine straight_of_turns ?_
    simp +decide [emit, turns_flatMap_nil fun a => cx.turns_addLength _ a,
      turns_flatMap_nil fun a => cx.turns_writePayload _ _ a]

/-! ## Endings -/

theorem turns_edgeCopies (target : BlockId) (args : List ValueId) :
    turns (cx.edgeCopies target args) = [] := by
  unfold edgeCopies
  have hsets (moves : List (ValueId × Nat)) : turns (moves.map fun x => set x.2) = [] := by
    induction moves with
    | nil => rfl
    | cons x moves ih => simp [ih]
  rw [turns_append]
  exact List.append_eq_nil_iff.mpr ⟨turns_flatMap_nil fun x => turns_push x.1, hsets _⟩

/-- The code of an ending goes forward, to the blocks after it. -/
theorem straight_terminator (next : Option BlockId) (t : Ssa.Terminator) :
    Straight t.successors (cx.terminator next t) := by
  have hgoTo {b : BlockId} {targets : List BlockId} (hb : b ∈ targets) :
      Straight targets (turns (goTo next b)) := by
    unfold goTo
    split <;> simp [hb]
  refine straight_of_turns ?_
  cases t with
  | jump target args =>
    have htarget : Straight [target] (turns (goTo next target)) :=
      hgoTo (List.mem_singleton_self target)
    simpa [terminator, turns_edgeCopies, Ssa.Terminator.successors] using htarget
  | branch cond t targs e eargs =>
    have he : Straight [t, e] (turns (goTo next e)) := hgoTo (by simp)
    have hmarks : markJumps (turns (goTo next e)) = [] := by rw [(marks_turns _).2, markJumps_goTo]
    simp only [terminator, Ssa.Terminator.successors]
    split <;> simp [turns_edgeCopies, he, hmarks]
  | ret value =>
    unfold terminator
    cases value with
    | none => simp [Vm.Op.isPlain]
    | some v =>
      dsimp only
      split <;> simp [Vm.Op.isPlain]
  | revert | panic => simp +decide [terminator]
  | unreachable => simp [terminator]

end FunctionContext

end Fragments

/-! ## Ends of blocks -/

/-- Whether control does not go on from an element to the next one. -/
def Item.stops : Item → Bool
  | .instr i => i.op == .ret || i.op == .trap
  | .jump o _ => o == .jmp
  | .address _ | .call _ | .callHost _ | .mark _ | .reserve .. | .needs _ | .fault _ => false

/-- Control leaves code before its end, or goes on from there to one of given blocks. -/
def Closes (next : Option BlockId) (targets : List BlockId) (is : List Item) : Prop :=
  (∃ i, is.getLast? = some i ∧ i.stops = true) ∨ ∃ b ∈ targets, next = some b

section Closes

variable {next : Option BlockId} {targets : List BlockId} {is is' : List Item}

theorem Closes.append (h : Closes next targets is') (is : List Item) :
    Closes next targets (is ++ is') := by
  refine h.imp_left fun ⟨i, hlast, hstops⟩ => ⟨i, ?_, hstops⟩
  rw [List.getLast?_append, hlast]
  rfl

/-- The rest of code that is left in the same way. -/
theorem Closes.suffix (h : Closes next targets (is ++ is')) (hne : is' ≠ []) :
    Closes next targets is' := by
  refine h.imp_left fun ⟨i, hlast, hstops⟩ => ⟨i, ?_, hstops⟩
  rwa [List.getLast?_append_of_ne_nil _ hne] at hlast

/-- So is the rest after an element that control passes. -/
theorem Closes.tail {i : Item} (h : Closes next targets (i :: is)) (hi : i.stops = false) :
    Closes next targets is := by
  by_cases hne : is = []
  · subst hne
    refine .inr (h.resolve_left ?_)
    rintro ⟨j, hlast, hstops⟩
    obtain rfl : i = j := by simpa using hlast
    rw [hi] at hstops
    cases hstops
  · exact Closes.suffix (show Closes next targets ([i] ++ is) from h) hne

/-- From the end of code control goes on to one of the blocks. -/
theorem Closes.exists_next (h : Closes next targets is) (hcount : instrCount is = 0) :
    ∃ b ∈ targets, next = some b := by
  refine h.resolve_left ?_
  rintro ⟨i, hlast, hstops⟩
  have hi : i.op?.isSome = true := by
    cases i <;> first | rfl | cases hstops
  have hpos : 0 < instrCount is :=
    List.countP_pos_iff.mpr ⟨i, List.mem_of_getLast? hlast, hi⟩
  omega

end Closes

namespace FunctionContext

variable {cx : FunctionContext}

/-- Control leaves the code of an ending, or goes on to a block after it. -/
theorem closes_terminator (next : Option BlockId) (t : Ssa.Terminator) :
    Closes next t.successors (cx.terminator next t) := by
  have hgoTo {b : BlockId} {targets : List BlockId} (hb : b ∈ targets) :
      Closes next targets (goTo next b) := by
    unfold goTo
    split
    · rename_i hnext
      exact .inr ⟨b, hb, hnext⟩
    · exact .inl ⟨_, rfl, rfl⟩
  have hstop {o : Vm.Op} (ho : o = .ret ∨ o = .trap) (imm : UInt64) {targets : List BlockId} :
      Closes next targets [.instr ⟨o, imm⟩] := by
    refine .inl ⟨_, rfl, ?_⟩
    rcases ho with rfl | rfl <;> rfl
  have hgiveUp {o : HostOp} (ho : hostLeaves o = 0) (message : String) (span : Span)
      {targets : List BlockId} :
      Closes next targets (giveUp o message span) := by
    unfold giveUp hostCall
    unfold hostLeaves at ho
    rw [if_pos (by simpa using ho)]
    refine .inl ⟨trap .unreachable, ?_, rfl⟩
    simp
  cases t with
  | jump target args => exact (hgoTo (List.mem_singleton_self target)).append _
  | branch cond t targs e eargs =>
    have he : Closes next [t, e] (goTo next e) := hgoTo (by simp)
    unfold terminator
    dsimp only
    refine Closes.append ?_ _
    split
    · exact he.append [_]
    · exact he.append _
  | ret value => exact (hstop (.inl rfl) 0).append _
  | revert message => exact hgiveUp rfl _ _
  | panic message => exact hgiveUp rfl _ _
  | unreachable => exact hstop (.inr rfl) _

section Blocks

variable [Hashing] {b : BlockId} {weight : UInt64} {next : Option BlockId}

/-- The code of a block goes forward, to the blocks after it. -/
theorem straight_block {p : Piece} (hp : p ∈ cx.block b weight next) :
    Straight (cx.module.block b).successors p.items := by
  rw [block_eq] at hp
  rcases List.mem_cons.mp hp with rfl | hp
  · exact straight_nil
  · rcases List.mem_append.mp hp with hp | hp
    · obtain ⟨i, -, rfl⟩ := List.mem_map.mp hp
      exact (straight_inst i).mono (List.nil_subset _)
    · obtain rfl := List.mem_singleton.mp hp
      unfold endingPiece Ssa.Block.successors
      cases (cx.module.block b).term with
      | none => exact straight_of_turns (by simp)
      | some t => exact straight_terminator next t

/-- Control leaves the code of a block, or goes on to a block after it. -/
theorem closes_block (cx : FunctionContext) (b : BlockId) (weight : UInt64)
    (next : Option BlockId) :
    Closes next (cx.module.block b).successors ((cx.block b weight next).flatMap (·.items)) := by
  rw [block_eq, List.flatMap_cons, List.flatMap_append, List.flatMap_singleton, ← List.append_assoc]
  refine Closes.append ?_ _
  unfold endingPiece Ssa.Block.successors
  cases (cx.module.block b).term with
  | none => exact .inl ⟨_, rfl, rfl⟩
  | some t => exact closes_terminator next t

end Blocks

end FunctionContext

end ContractCompiler.Codegen
