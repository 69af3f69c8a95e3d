import ContractCompiler.Proofs.Codegen.Function

/-!
# Code names only constant data that it reserves

The address of a byte string stands in the code of a function only where the same function reserves
the byte string: a constant is reserved where its address is pushed, a domain and a topic at the
start of the instruction that passes them to the host, and a message before the host call that gives
up with it.

- `reserved`: the constant data that code reserves;
- `Backed`: code that pushes addresses only of what it has reserved before, or of given byte
  strings;
- `backed_inst`, `backed_terminator`, `backed_lowerFunction`: all code of a function is such code.
-/

namespace ContractCompiler.Codegen

open Ssa (ValueId BlockId)

/-- The byte string that an element reserves. -/
def Item.reserved? : Item → Option Bytes
  | .reserve _ bytes _ => some bytes
  | _ => none

/-- The constant data that code reserves, in order. -/
def reserved (is : List Item) : List Bytes := is.filterMap (·.reserved?)

/-- An element that pushes no address but that of a given byte string. -/
def Item.BackedBy (given : List Bytes) : Item → Prop
  | .address bytes => bytes ∈ given
  | _ => True

/-- Code that pushes addresses only of what it has reserved before, or of given byte strings. -/
def Backed (given : List Bytes) : List Item → Prop
  | [] => True
  | i :: is => i.BackedBy given ∧ Backed (given ++ i.reserved?.toList) is

section Elements

variable {given : List Bytes} {is is' : List Item} {bytes : Bytes}

theorem reserved_cons (i : Item) (is : List Item) :
    reserved (i :: is) = i.reserved?.toList ++ reserved is := by
  cases i <;> rfl

theorem mem_reserved : bytes ∈ reserved is ↔ ∃ use span, .reserve use bytes span ∈ is := by
  simp only [reserved, List.mem_filterMap]
  constructor
  · rintro ⟨i, hi, hbytes⟩
    cases i with
    | reserve use bytes' span =>
      obtain rfl := Option.some.inj hbytes
      exact ⟨use, span, hi⟩
    | _ => cases hbytes
  · rintro ⟨use, span, hi⟩
    exact ⟨_, hi, rfl⟩

@[simp] theorem backed_append_iff :
    Backed given (is ++ is') ↔ Backed given is ∧ Backed (given ++ reserved is) is' := by
  induction is generalizing given with
  | nil => simp [Backed, reserved]
  | cons i is ih => simp only [List.cons_append, Backed, ih, reserved_cons,
      List.append_assoc, and_assoc]

@[simp] theorem backed_ite_iff {c : Prop} [Decidable c] :
    Backed given (if c then is else is') ↔ (c → Backed given is) ∧ (¬c → Backed given is') := by
  split <;> simp_all

theorem backed_flatMap {α : Type} {xs : List α} {g : α → List Item}
    (h : ∀ x ∈ xs, ∀ given, Backed given (g x)) :
    Backed given (xs.flatMap g) := by
  induction xs generalizing given with
  | nil => trivial
  | cons x xs ih =>
    rw [List.flatMap_cons, backed_append_iff]
    exact ⟨h x List.mem_cons_self given, ih fun y hy => h y (List.mem_cons_of_mem x hy)⟩

/-- Each address that such code pushes is that of a given byte string or of one that it reserves. -/
theorem Backed.mem_reserved (h : Backed given is) (hmem : .address bytes ∈ is) :
    bytes ∈ given ∨ bytes ∈ reserved is := by
  induction is generalizing given with
  | nil => cases hmem
  | cons i is ih =>
    rw [reserved_cons, List.mem_append]
    rcases List.mem_cons.mp hmem with rfl | hmem
    · exact .inl h.1
    · rcases ih h.2 hmem with hgiven | hreserved
      · exact (List.mem_append.mp hgiven).imp_right .inl
      · exact .inr (.inr hreserved)

end Elements

attribute [local simp] Backed Item.BackedBy Item.reserved?

attribute [local simp] op lit litInt get set tee trap jump jumpIf jumpIfNot failIf unsupported
  select allocate
  allocateDynamic allocateInto fieldAddress escalate

/-! ## Fragments -/

section Fragments

variable {cx : FunctionContext} {given : List Bytes}

@[simp] theorem backed_normalize (k : IntKind) : Backed given (normalize k) := by
  unfold normalize
  simp

@[simp] theorem backed_hostCall_iff (o : HostOp) (args : List (List Item)) (status : Option Nat) :
    Backed given (hostCall o args status) ↔ Backed given args.flatten := by
  unfold hostCall
  cases status <;> simp

@[simp] theorem backed_giveUp (o : HostOp) (message : String) (span : Span) :
    Backed given (giveUp o message span) := by
  simp [giveUp]

@[simp] theorem backed_readBytes_iff (o : HostOp) (args : List (List Item)) (sizeSlot slot : Nat) :
    Backed given (readBytes o args sizeSlot slot) ↔ Backed given args.flatten := by
  simp [readBytes]

namespace FunctionContext

@[simp] theorem backed_define (r : Option ValueId) : Backed given (cx.define r) := by
  cases r with
  | none => trivial
  | some r =>
    simp only [define]
    split <;> simp

@[simp] theorem backed_bufferArg (v : ValueId) (slot : Nat) :
    Backed given (cx.bufferArg v slot) := by
  unfold bufferArg
  split <;> simp

/-- A constant is reserved where its address is pushed. -/
@[simp] theorem backed_push (v : ValueId) : Backed given (cx.push v) := by
  unfold push constant
  split
  · simp
  · split
    · split <;> simp
    all_goals simp

@[simp] theorem backed_push? (v : Option ValueId) : Backed given (cx.push? v) := by
  cases v <;> simp [push?]

@[simp] theorem backed_buffer (v : ValueId) (slot : Nat) : Backed given (cx.buffer v slot) := by
  simp [buffer]

section Arith

variable {x : ArithInput} (hleft : ∀ given, Backed given x.left)
  (hright : ∀ given, Backed given x.right)

include hleft hright

/-- Arithmetic names only what the code of its operands names. -/
theorem backed_exactArith (o : BinOp) (checked : Bool) (slot : Nat) :
    Backed given (x.exactArith o checked slot) := by
  have hdivide : Backed given (x.divide o checked) := by
    simp [ArithInput.divide, hleft, hright]
  have hshift : Backed given (x.shift o) := by
    simp [ArithInput.shift, ArithInput.shiftMask, hleft, hright]
  have hnarrow : Backed given (x.narrow o slot) := by
    simp [ArithInput.narrow, hleft, hright]
  have hwide : Backed given (x.wide o) := by
    unfold ArithInput.wide
    split <;> simp [ArithInput.addOverflow, ArithInput.subOverflow, ArithInput.setMulOverflow,
      hleft, hright]
  unfold ArithInput.exactArith
  split
  · exact hdivide
  · exact hdivide
  · exact hshift
  · exact hshift
  · exact backed_ite_iff.mpr ⟨fun _ => hnarrow, fun _ => hwide⟩

theorem backed_finishArith (o : BinOp) (mode : ArithMode) (slot : Nat) :
    Backed given (x.finishArith o mode slot) := by
  have hnearest (given : List Bytes) : Backed given (x.nearest o) := by
    cases o <;> simp [ArithInput.nearest, hleft, hright]
  cases mode <;> simp [ArithInput.finishArith, hnearest]

end Arith

theorem backed_checkedArith (o : BinOp) (mode : ArithMode) (k : IntKind) {left right : List Item}
    (hleft : ∀ given, Backed given left) (hright : ∀ given, Backed given right)
    (r : Option ValueId) :
    Backed given (cx.checkedArith o mode k left right r).items := by
  unfold checkedArith
  dsimp only
  rw [backed_append_iff, backed_append_iff]
  exact ⟨⟨backed_exactArith hleft hright o _ _, backed_finishArith hleft hright o mode _⟩,
    backed_define r⟩

theorem backed_binary (o : BinOp) (mode : ArithMode) (left right : ValueId) (r : Option ValueId) :
    Backed given (cx.binary o mode left right r).items := by
  have hdirect (given : List Bytes) (k : IntKind) : Backed given (directArith o k) := by
    simp [directArith, ArithInput.shiftMask]
  unfold binary
  dsimp only
  split
  · simp
  · split
    · simp
    · split
      · simp
      · split
        · simp [hdirect]
        · exact backed_checkedArith o mode _ (fun _ => backed_push left)
            (fun _ => backed_push right) r

theorem backed_unary (o : UnOp) (mode : ArithMode) (src : ValueId) (r : Option ValueId) :
    Backed given (cx.unary o mode src r).items := by
  cases o with
  | not | bitNot => simp [unary]
  | neg => exact backed_checkedArith .sub mode _ (by simp) (fun _ => backed_push src) r

theorem backed_cast (mode : CastMode) (type : TypeId) (src : ValueId) (r : Option ValueId) :
    Backed given (cx.cast mode type src r).items := by
  have hcheck (given : List Bytes) (source target : IntKind) :
      Backed given (cx.castCheck source target src) := by
    simp [castCheck]
  unfold cast
  dsimp only
  split <;> simp [hcheck]

@[simp] theorem backed_storeFields (slot i : Nat) (vs : List ValueId) :
    Backed given (cx.storeFields slot i vs) := by
  induction vs generalizing i given with
  | nil => trivial
  | cons v vs ih => simp [storeFields, ih]

theorem backed_aggregate (fields : Nat) (span : Span) {is : List Item} (h : Backed given is) :
    Backed given (cx.aggregate fields span is).items := by
  unfold aggregate
  split
  · simp
  · exact h

@[simp] theorem backed_addLength (slot : Nat) (v : ValueId) :
    Backed given (cx.addLength slot v) := by
  simp [addLength]

@[simp] theorem backed_writePayload (cursor length : Nat) (v : ValueId) :
    Backed given (cx.writePayload cursor length v) := by
  simp [writePayload]

@[simp] theorem backed_recoverable (status mark : Nat) :
    Backed given (recoverable status mark) := by
  unfold recoverable
  rw [backed_append_iff]
  exact ⟨backed_flatMap fun s _ _ => by simp, by simp⟩

end FunctionContext

end Fragments

/-! ## Functions -/

section Functions

variable [Hashing] {cx : FunctionContext} {given : List Bytes}

namespace FunctionContext

omit [Hashing] in
/-- What is no instruction pushes no address. -/
theorem backed_filter (is : List Item) : Backed given (is.filter fun item => item.op?.isNone) := by
  induction is generalizing given with
  | nil => trivial
  | cons i is ih =>
    cases i with
    | instr | jump | address | call | callHost => exact ih
    | mark | reserve | needs | fault => exact ⟨trivial, ih⟩

theorem backed_inst (i : Ssa.Inst) : Backed given (cx.inst i).items := by
  unfold inst
  dsimp only
  cases hd : i.data with
  | constInt | constBool => trivial
  | constBytes bs =>
    cases i.result with
    | none => trivial
    | some v => exact backed_filter (cx.constant v)
  | unary o mode src => exact backed_unary o mode src i.result
  | binary o mode left right => exact backed_binary o mode left right i.result
  | cast mode type src => exact backed_cast mode type src i.result
  | call callee args =>
    dsimp only
    unfold call
    split
    · simp [backed_flatMap fun a _ _ => cx.backed_push a]
    · simp
  | makeStruct fields => exact backed_aggregate _ _ (by simp)
  | insert base index value => exact backed_aggregate _ _ (by simp)
  | extract base index => simp
  | makeResult ok value =>
    unfold makeResult
    cases ok <;> cases value <;> simp
  | resultIsOk | resultCode | refNew | refLoad | refStore | bytesLength => simp [loadFrom, refNew]
  | resultValue src => simp [resultValue]
  | stateRead ns key type =>
    unfold stateRead
    cases hbytes : cx.types.isBytes type <;> simp [hbytes, reserveDomain, domainArg]
  | stateWrite | stateHas => simp [stateWrite, stateHas, reserveDomain, domainArg]
  | context query =>
    unfold context
    cases i.result with
    | none => trivial
    | some r =>
      dsimp only
      split <;> simp
  | digest => simp [digest]
  | emit topic args =>
    simp [emit, backed_flatMap fun a _ _ => cx.backed_addLength _ a,
      backed_flatMap fun a _ _ => cx.backed_writePayload _ _ a]

omit [Hashing] in
@[simp] theorem backed_edgeCopies (target : BlockId) (args : List ValueId) :
    Backed given (cx.edgeCopies target args) := by
  have hsets (given : List Bytes) (moves : List (ValueId × Nat)) :
      Backed given (moves.map fun x => set x.2) := by
    induction moves generalizing given with
    | nil => trivial
    | cons x moves ih => exact ⟨trivial, ih _⟩
  unfold edgeCopies
  rw [backed_append_iff]
  exact ⟨backed_flatMap fun x _ _ => backed_push x.1, hsets _ _⟩

omit [Hashing] in
theorem backed_terminator (next : Option BlockId) (t : Ssa.Terminator) :
    Backed given (cx.terminator next t) := by
  have hgoTo (given : List Bytes) (target : BlockId) : Backed given (goTo next target) := by
    simp [goTo]
  cases t with
  | jump | branch | revert | panic | unreachable => simp [terminator, hgoTo]
  | ret value => cases value <;> simp [terminator]

theorem backed_block (b : BlockId) (weight : UInt64) (next : Option BlockId) :
    Backed given ((cx.block b weight next).flatMap (·.items)) := by
  rw [block_eq]
  refine backed_flatMap fun p hp given => ?_
  rcases List.mem_cons.mp hp with rfl | hp
  · trivial
  · rcases List.mem_append.mp hp with hp | hp
    · obtain ⟨i, -, rfl⟩ := List.mem_map.mp hp
      exact backed_inst i
    · obtain rfl := List.mem_singleton.mp hp
      unfold endingPiece
      cases (cx.module.block b).term with
      | none => simp
      | some t => exact backed_terminator next t

theorem backed_blocks (depths : Array Nat) (bs : List BlockId) :
    Backed given ((cx.blocks depths bs).flatMap (·.items)) := by
  induction bs generalizing given with
  | nil => trivial
  | cons b bs ih =>
    unfold blocks
    rw [List.flatMap_append, backed_append_iff]
    exact ⟨backed_block b _ _, ih⟩

end FunctionContext

/-- The code of a function pushes addresses only of what it has reserved before. -/
theorem backed_lowerFunction (m : Ssa.Module) (types : TypePool) (unit : String)
    (options : CodegenOptions) (f : Ssa.Function) :
    Backed [] (lowerFunction m types unit options f).items := by
  unfold LoweredFunction.items lowerFunction
  rw [List.flatMap_append, backed_append_iff]
  refine ⟨FunctionContext.backed_blocks _ _, backed_flatMap fun p hp given => ?_⟩
  obtain ⟨fl, -, rfl⟩ := List.mem_map.mp hp
  exact backed_giveUp .panic fl.message f.span

end Functions

end ContractCompiler.Codegen
