import ContractCompiler.Proofs.Codegen.Function
import ContractCompiler.Proofs.Codegen.Slots

/-!
# Calls in the code of functions

The code of an instruction calls what the instruction says, and nothing else does. So the calls in
the code of a function are those of its instructions, in the order of its blocks, followed by the
host calls with which shared failures give up.

- `Item.isCall`, `callItems`: the elements that call a function or the host;
- `instCalls`, `terminatorCalls`, `functionCalls`: what a function of the intermediate form calls;
- `callItems_inst`, `callItems_lowerFunction`: the code calls just that;
- `filter_isCall_assemble`: the instructions that come from these elements.
-/

namespace ContractCompiler.Codegen

open Ssa (ValueId BlockId FuncId)

/-! ## Elements that call -/

/-- Whether an operation calls a function or the host. -/
def isCallOp : Vm.Op → Bool
  | .call | .callHost => true
  | _ => false

/-- Whether an element calls a function or the host. -/
def Item.isCall (i : Item) : Bool := i.op?.any isCallOp

/-- The elements that call a function or the host. -/
def callItems (is : List Item) : List Item := is.filter (·.isCall)

section Elements

variable {is is' : List Item}

@[simp] theorem callItems_nil : callItems [] = [] := rfl

@[simp] theorem callItems_append : callItems (is ++ is') = callItems is ++ callItems is' :=
  List.filter_append ..

@[simp] theorem callItems_cons (i : Item) :
    callItems (i :: is) = if i.isCall then i :: callItems is else callItems is :=
  List.filter_cons

theorem callItems_flatMap {α : Type} (g : α → List Item) (xs : List α) :
    callItems (xs.flatMap g) = xs.flatMap fun x => callItems (g x) :=
  List.filter_flatMap

theorem callItems_flatMap_nil {α : Type} {xs : List α} {g : α → List Item}
    (h : ∀ x, callItems (g x) = []) :
    callItems (xs.flatMap g) = [] := by
  rw [callItems_flatMap, List.flatMap_eq_nil_iff]
  exact fun x _ => h x

@[simp] theorem isCall_op (o : Vm.Op) : (op o).isCall = isCallOp o := rfl
@[simp] theorem isCall_instr (i : Vm.Instr) : (Item.instr i).isCall = isCallOp i.op := rfl
@[simp] theorem isCall_jumpTo (o : Vm.Op) (t : Target) : (Item.jump o t).isCall = isCallOp o := rfl
@[simp] theorem isCall_call (callee : FuncId) : (Item.call callee).isCall = true := rfl
@[simp] theorem isCall_callHost (o : HostOp) : (Item.callHost o).isCall = true := rfl
@[simp] theorem isCall_address (bs : Bytes) : (Item.address bs).isCall = false := rfl
@[simp] theorem isCall_lit (w : UInt64) : (lit w).isCall = false := rfl
@[simp] theorem isCall_litInt (v : Int) : (litInt v).isCall = false := rfl
@[simp] theorem isCall_get (n : Nat) : (get n).isCall = false := rfl
@[simp] theorem isCall_set (n : Nat) : (set n).isCall = false := rfl
@[simp] theorem isCall_tee (n : Nat) : (tee n).isCall = false := rfl
@[simp] theorem isCall_trap (c : TrapCode) : (trap c).isCall = false := rfl
@[simp] theorem isCall_jump (n : Nat) : (jump n).isCall = false := rfl
@[simp] theorem isCall_jumpIf (n : Nat) : (jumpIf n).isCall = false := rfl
@[simp] theorem isCall_jumpIfNot (n : Nat) : (jumpIfNot n).isCall = false := rfl
@[simp] theorem isCall_failIf (f : Failure) : (failIf f).isCall = false := rfl
@[simp] theorem isCall_unsupported (u : Unsupported) : (unsupported u).isCall = false := rfl
@[simp] theorem isCall_mark (n : Nat) : (Item.mark n).isCall = false := rfl
@[simp] theorem isCall_reserve (u : DataUse) (bs : Bytes) (span : Span) :
    (Item.reserve u bs span).isCall = false := rfl
@[simp] theorem isCall_needs (f : Failure) : (Item.needs f).isCall = false := rfl
@[simp] theorem isCall_fault (f : Fault) : (Item.fault f).isCall = false := rfl

@[simp high] theorem isCall_wordOp (o : BinOp) (signed : Bool) :
    (op (wordOp o signed)).isCall = false := by
  cases o <;> cases signed <;> rfl

@[simp high] theorem isCall_compareOp (o : BinOp) (signed : Bool) :
    (op (compareOp o signed)).isCall = false := by
  cases o <;> cases signed <;> rfl

end Elements

/-! ## Fragments -/

section Fragments

variable {cx : FunctionContext}

@[simp] theorem callItems_normalize (k : IntKind) : callItems (normalize k) = [] := by
  unfold normalize
  split
  · rfl
  · cases k.signed <;> rfl

@[simp] theorem callItems_select (mark : Nat) (a b : UInt64) :
    callItems (select mark a b) = [] := rfl

@[simp] theorem callItems_allocate (slot size : Nat) : callItems (allocate slot size) = [] := rfl

@[simp] theorem callItems_allocateDynamic (slot size : Nat) :
    callItems (allocateDynamic slot size) = [] := rfl

@[simp] theorem callItems_allocateInto (slot size : Nat) :
    callItems (allocateInto slot size) = [] := rfl

@[simp] theorem callItems_fieldAddress (index : Nat) : callItems (fieldAddress index) = [] := rfl

@[simp] theorem callItems_escalate (status : Nat) : callItems (escalate status) = [] := rfl

@[simp] theorem callItems_hostCall (o : HostOp) (args : List (List Item)) (status : Option Nat) :
    callItems (hostCall o args status) = callItems args.flatten ++ [.callHost o] := by
  unfold hostCall
  rw [callItems_append, callItems_cons, isCall_callHost, if_pos rfl]
  congr 2
  split
  · rfl
  · cases status <;> rfl

@[simp] theorem callItems_giveUp (o : HostOp) (message : String) (span : Span) :
    callItems (giveUp o message span) = [.callHost o] := by
  simp [giveUp]

@[simp] theorem callItems_readBytes (o : HostOp) (args : List (List Item)) (sizeSlot slot : Nat) :
    callItems (readBytes o args sizeSlot slot) = callItems args.flatten ++ [.callHost o] := by
  simp [readBytes, isCallOp]

namespace FunctionContext

@[simp] theorem callItems_constant (v : ValueId) : callItems (cx.constant v) = [] := by
  unfold constant
  split <;> simp

@[simp] theorem callItems_push (v : ValueId) : callItems (cx.push v) = [] := by
  unfold push
  split
  · simp
  · split <;> simp

@[simp] theorem callItems_push? (v : Option ValueId) : callItems (cx.push? v) = [] := by
  cases v <;> simp [push?]

@[simp] theorem callItems_define (r : Option ValueId) : callItems (cx.define r) = [] := by
  cases r with
  | none => rfl
  | some r =>
    simp only [define]
    split <;> simp [isCallOp]

@[simp] theorem callItems_buffer (v : ValueId) (slot : Nat) :
    callItems (cx.buffer v slot) = [] := by
  unfold buffer
  split <;> simp [isCallOp]

@[simp] theorem callItems_bufferArg (v : ValueId) (slot : Nat) :
    callItems (cx.bufferArg v slot) = [] := by
  unfold bufferArg
  split <;> simp

@[simp] theorem callItems_storeFields (slot i : Nat) (vs : List ValueId) :
    callItems (cx.storeFields slot i vs) = [] := by
  induction vs generalizing i with
  | nil => rfl
  | cons v vs ih =>
    unfold storeFields
    split <;> simp [ih, isCallOp]

@[simp] theorem callItems_domainArg [Hashing] (ns : String) (key : ValueId) :
    callItems (cx.domainArg ns key) = [] := by
  simp [domainArg]

@[simp] theorem isCall_reserveDomain [Hashing] (ns : String) (key : ValueId) (span : Span) :
    (cx.reserveDomain ns key span).isCall = false :=
  rfl

@[simp] theorem callItems_recoverable (status mark : Nat) :
    callItems (recoverable status mark) = [] := by
  unfold recoverable
  rw [callItems_append, callItems_flatMap_nil fun s => by simp [isCallOp]]
  rfl

@[simp] theorem callItems_addLength (slot : Nat) (v : ValueId) :
    callItems (cx.addLength slot v) = [] := by
  unfold addLength
  split <;> simp [isCallOp]

@[simp] theorem callItems_writePayload (cursor length : Nat) (v : ValueId) :
    callItems (cx.writePayload cursor length v) = [] := by
  unfold writePayload
  split <;> simp [isCallOp]

/-- Arithmetic calls nothing. -/
theorem callItems_exactArith {x : ArithInput} (hleft : callItems x.left = [])
    (hright : callItems x.right = []) (o : BinOp) (checked : Bool) (slot : Nat) :
    callItems (x.exactArith o checked slot) = [] := by
  have hdivide : callItems (x.divide o checked) = [] := by
    unfold ArithInput.divide
    cases checked <;> cases (o == BinOp.div && x.kind.signed) <;> simp [hleft, hright, isCallOp]
  have hshift : callItems (x.shift o) = [] := by
    unfold ArithInput.shift ArithInput.shiftMask
    split <;> simp [hleft, hright, isCallOp]
  have hnarrow : callItems (x.narrow o slot) = [] := by
    simp [ArithInput.narrow, hleft, hright, isCallOp]
  have hwide : callItems (x.wide o) = [] := by
    unfold ArithInput.wide ArithInput.addOverflow ArithInput.subOverflow ArithInput.setMulOverflow
    cases x.kind.signed <;> split <;> simp [hleft, hright, isCallOp]
  unfold ArithInput.exactArith
  split
  · exact hdivide
  · exact hdivide
  · exact hshift
  · exact hshift
  · split
    · exact hnarrow
    · exact hwide

theorem callItems_finishArith {x : ArithInput} (hleft : callItems x.left = [])
    (hright : callItems x.right = []) (o : BinOp) (mode : ArithMode) (slot : Nat) :
    callItems (x.finishArith o mode slot) = [] := by
  have hnearest : callItems (x.nearest o) = [] := by
    unfold ArithInput.nearest
    cases x.kind.signed <;> cases o <;> simp [hleft, hright, isCallOp]
  unfold ArithInput.finishArith
  cases mode with
  | trap | wrapping => simp
  | checked => simp [isCallOp]
  | saturating =>
    dsimp only
    split <;> simp [hnearest]

theorem callItems_checkedArith (o : BinOp) (mode : ArithMode) (k : IntKind) {left right : List Item}
    (hleft : callItems left = []) (hright : callItems right = []) (r : Option ValueId) :
    callItems (cx.checkedArith o mode k left right r).items = [] := by
  unfold checkedArith
  dsimp only
  rw [callItems_append, callItems_append, callItems_exactArith hleft hright,
    callItems_finishArith hleft hright, callItems_define]
  rfl

theorem callItems_binary (o : BinOp) (mode : ArithMode) (left right : ValueId)
    (r : Option ValueId) :
    callItems (cx.binary o mode left right r).items = [] := by
  have hdirect (k : IntKind) : callItems (directArith o k) = [] := by
    unfold directArith ArithInput.shiftMask
    split <;> split <;> simp [isCallOp]
  unfold binary
  dsimp only
  split
  · simp
  · split
    · simp
    · split
      · simp
      · split
        · simp [hdirect]
        · exact callItems_checkedArith o mode _ (callItems_push left) (callItems_push right) r

theorem callItems_unary (o : UnOp) (mode : ArithMode) (src : ValueId) (r : Option ValueId) :
    callItems (cx.unary o mode src r).items = [] := by
  cases o with
  | not | bitNot => simp [unary, isCallOp]
  | neg => exact callItems_checkedArith .sub mode _ (by simp) (callItems_push src) r

theorem callItems_cast (mode : CastMode) (type : TypeId) (src : ValueId) (r : Option ValueId) :
    callItems (cx.cast mode type src r).items = [] := by
  have hcheck (source target : IntKind) : callItems (cx.castCheck source target src) = [] := by
    unfold castCheck
    dsimp only
    split <;> split <;> simp [isCallOp]
  unfold cast
  dsimp only
  split
  · simp
  · split <;> simp [hcheck]

theorem callItems_aggregate (fields : Nat) (span : Span) {is : List Item} (h : callItems is = []) :
    callItems (cx.aggregate fields span is).items = [] := by
  unfold aggregate
  split
  · simp
  · exact h

end FunctionContext

end Fragments

/-! ## Instructions -/

/-- What an instruction calls, in the order of the calls. A byte string is read twice: first its
size, then its bytes. -/
def instCalls (m : Ssa.Module) (types : TypePool) (i : Ssa.Inst) : List Item :=
  let twiceIf (bytes : Bool) (o : HostOp) : List Item :=
    if bytes then [.callHost o, .callHost o] else [.callHost o]
  match i.data with
  | .call callee _ => [.call callee]
  | .stateRead _ _ type => twiceIf (types.isBytes type) .stateRead
  | .stateWrite .. => [.callHost .stateWrite]
  | .stateHas .. => [.callHost .stateHas]
  | .context _ =>
    match i.result with
    | none => []
    | some r => twiceIf (types.isBytes (m.valueType r)) .ctxQuery
  | .digest _ => [.callHost .sha256]
  | .emit .. => [.callHost .logEmit]
  | _ => []

/-- What an ending calls. -/
def terminatorCalls : Ssa.Terminator → List Item
  | .revert _ => [.callHost .revert]
  | .panic _ => [.callHost .panic]
  | _ => []

/-- What a block calls, in order. -/
def blockCalls (m : Ssa.Module) (types : TypePool) (b : BlockId) : List Item :=
  (instsOf m b).flatMap (instCalls m types) ++ ((m.block b).term.map terminatorCalls).getD []

/-- What a function calls, in the order of its blocks. -/
def functionCalls (m : Ssa.Module) (types : TypePool) (f : Ssa.Function) : List Item :=
  f.blocks.flatMap (blockCalls m types)

section Functions

variable [Hashing] {cx : FunctionContext} {m : Ssa.Module} {types : TypePool} {unit : String}
  {options : CodegenOptions} {f : Ssa.Function}

namespace FunctionContext

/-- The code of an instruction with which nothing is wrong calls what the instruction calls. -/
theorem callItems_inst {i : Ssa.Inst} (hfault : ∀ fault, .fault fault ∉ (cx.inst i).items) :
    callItems (cx.inst i).items = instCalls cx.module cx.types i := by
  unfold inst instCalls
  dsimp only
  cases hd : i.data with
  | constInt | constBool => rfl
  | constBytes bs =>
    cases hr : i.result with
    | none => rfl
    | some v =>
      -- What is laid out is no instruction, so it calls nothing.
      dsimp only
      unfold callItems
      rw [List.filter_filter, List.filter_eq_nil_iff]
      intro item _
      cases item <;> simp [Item.isCall, Item.op?]
  | unary o mode src => exact callItems_unary o mode src i.result
  | binary o mode left right => exact callItems_binary o mode left right i.result
  | cast mode type src => exact callItems_cast mode type src i.result
  | call callee args =>
    dsimp only
    unfold call
    split
    · simp [callItems_flatMap_nil fun a => cx.callItems_push a]
    · rename_i hnot
      refine absurd ?_ (hfault (.unsupported .excludedCallee))
      unfold inst
      simp only [hd, call]
      exact List.mem_singleton_self _
  | makeStruct fields =>
    exact callItems_aggregate _ _ (by simp)
  | insert base index value =>
    exact callItems_aggregate _ _ (by simp [isCallOp])
  | extract base index =>
    dsimp only
    split <;> simp [isCallOp]
  | makeResult ok value =>
    unfold makeResult
    cases ok <;> cases value <;> simp [isCallOp]
  | resultIsOk | resultCode | refNew | refLoad | refStore | bytesLength =>
    simp [loadFrom, refNew, isCallOp]
  | resultValue src =>
    unfold resultValue
    cases i.result <;> simp [isCallOp]
  | stateRead ns key type =>
    unfold stateRead
    cases hbytes : cx.types.isBytes type <;> simp [hbytes, isCallOp]
  | stateWrite | stateHas => simp [stateWrite, stateHas, isCallOp]
  | context query =>
    unfold context isBytes
    cases i.result with
    | none => rfl
    | some r => cases hbytes : cx.types.isBytes (cx.module.valueType r) <;> simp [hbytes, isCallOp]
  | digest => simp [digest, isCallOp]
  | emit topic args =>
    simp [emit, callItems_flatMap_nil fun a => cx.callItems_addLength _ a,
      callItems_flatMap_nil fun a => cx.callItems_writePayload _ _ a]

omit [Hashing] in
theorem callItems_edgeCopies (target : BlockId) (args : List ValueId) :
    callItems (cx.edgeCopies target args) = [] := by
  unfold edgeCopies
  have hsets (moves : List (ValueId × Nat)) : callItems (moves.map fun x => set x.2) = [] := by
    induction moves with
    | nil => rfl
    | cons x moves ih => simp [ih]
  rw [callItems_append]
  exact List.append_eq_nil_iff.mpr ⟨callItems_flatMap_nil fun x => callItems_push x.1, hsets _⟩

omit [Hashing] in
theorem callItems_terminator (next : Option BlockId) (t : Ssa.Terminator) :
    callItems (cx.terminator next t) = terminatorCalls t := by
  have hgoTo (target : BlockId) : callItems (goTo next target) = [] := by
    unfold goTo
    split
    · rfl
    · rfl
  cases t with
  | jump target args => simp [terminator, terminatorCalls, callItems_edgeCopies, hgoTo]
  | branch cond t targs e eargs =>
    simp only [terminator]
    split <;> simp [terminatorCalls, callItems_edgeCopies, hgoTo, isCallOp]
  | ret value =>
    unfold terminator
    cases value with
    | none => rfl
    | some v =>
      dsimp only
      split <;> simp [terminatorCalls, isCallOp]
  | revert | panic => simp [terminator, terminatorCalls]
  | unreachable => rfl

theorem callItems_block (b : BlockId) (weight : UInt64) (next : Option BlockId)
    (hfault : ∀ fault, .fault fault ∉ (cx.block b weight next).flatMap (·.items)) :
    callItems ((cx.block b weight next).flatMap (·.items)) = blockCalls cx.module cx.types b := by
  rw [block_eq] at hfault ⊢
  have hinsts : ∀ i ∈ instsOf cx.module b, callItems (cx.instPiece weight i).items =
      instCalls cx.module cx.types i := by
    intro i hi
    refine callItems_inst fun fault hmem => hfault fault ?_
    refine List.mem_flatMap.mpr ⟨cx.instPiece weight i, ?_, hmem⟩
    exact List.mem_cons_of_mem _ (List.mem_append_left _ (List.mem_map_of_mem hi))
  have hending : callItems (cx.endingPiece weight next (cx.module.block b).term).items =
      ((cx.module.block b).term.map terminatorCalls).getD [] := by
    unfold endingPiece
    cases (cx.module.block b).term with
    | none => rfl
    | some t => exact callItems_terminator next t
  rw [List.flatMap_cons, List.flatMap_append, List.flatMap_map, List.flatMap_singleton,
    callItems_append, callItems_append, callItems_flatMap, hending]
  exact congrArg (· ++ _) (List.flatMap_congr hinsts)

theorem callItems_blocks (depths : Array Nat) (bs : List BlockId)
    (hfault : ∀ fault, .fault fault ∉ (cx.blocks depths bs).flatMap (·.items)) :
    callItems ((cx.blocks depths bs).flatMap (·.items)) =
      bs.flatMap (blockCalls cx.module cx.types) := by
  induction bs with
  | nil => rfl
  | cons b bs ih =>
    unfold blocks at hfault ⊢
    simp only [List.flatMap_append, List.mem_append, not_or] at hfault
    rw [List.flatMap_append, callItems_append, callItems_block _ _ _ fun fault => (hfault fault).1,
      ih fun fault => (hfault fault).2, List.flatMap_cons]

end FunctionContext

/-- The code of a function with which nothing is wrong calls what the function calls. The host calls
after them are those of the shared failures. -/
theorem callItems_lowerFunction
    (hfault : ∀ fault, .fault fault ∉ (lowerFunction m types unit options f).items) :
    ∃ n, callItems (lowerFunction m types unit options f).items =
      functionCalls m types f ++ List.replicate n (.callHost .panic) := by
  let cx := functionContext m types unit options f
  have hfailures (fs : List Failure) : callItems ((fs.map cx.failure).flatMap (·.items)) =
      List.replicate fs.length (.callHost .panic) := by
    induction fs with
    | nil => rfl
    | cons fl fs ih =>
      rw [List.map_cons, List.flatMap_cons, callItems_append, ih, List.length_cons,
        List.replicate_succ]
      exact congrArg (· ++ _) (callItems_giveUp .panic fl.message f.span)
  have hbody : ∀ fault, .fault fault ∉ (cx.blocks (m.loopDepths f) f.blocks).flatMap (·.items) := by
    intro fault hmem
    refine hfault fault ?_
    unfold LoweredFunction.items lowerFunction
    rw [List.flatMap_append]
    exact List.mem_append_left _ hmem
  refine ⟨(Failure.all.filter (needsFailure (cx.blocks (m.loopDepths f) f.blocks))).length, ?_⟩
  unfold LoweredFunction.items lowerFunction
  rw [List.flatMap_append, callItems_append]
  exact congrArg₂ (· ++ ·) (FunctionContext.callItems_blocks _ _ hbody) (hfailures _)

end Functions

/-! ## Functions and host operations that are called -/

/-- The functions that a function calls, one for each call, in the order of its blocks. -/
def callSites (m : Ssa.Module) (f : Ssa.Function) : List FuncId :=
  f.blocks.flatMap fun b => (instsOf m b).filterMap (·.data.callee?)

/-- The host operations that a function performs, one for each call, in the order of its blocks. -/
def hostSites (m : Ssa.Module) (types : TypePool) (f : Ssa.Function) : List HostOp :=
  (functionCalls m types f).filterMap (·.hostOp?)

theorem callee?_functionCalls (m : Ssa.Module) (types : TypePool) (f : Ssa.Function) :
    (functionCalls m types f).filterMap (·.callee?) = callSites m f := by
  have hinst (i : Ssa.Inst) :
      (instCalls m types i).filterMap (·.callee?) = i.data.callee?.toList := by
    unfold instCalls
    cases hd : i.data with
    | stateRead ns key type => dsimp only; split <;> rfl
    | context query =>
      dsimp only
      cases i.result with
      | none => rfl
      | some r => dsimp only; split <;> rfl
    | _ => rfl
  have hending (t : Option Ssa.Terminator) :
      ((t.map terminatorCalls).getD []).filterMap (·.callee?) = [] := by
    cases t with
    | none => rfl
    | some t => cases t <;> rfl
  unfold functionCalls callSites blockCalls
  simp only [List.filterMap_flatMap, List.filterMap_append, hinst, hending, List.append_nil]
  simp only [List.filterMap_eq_flatMap_toList]

/-- Calls name a function or a host operation. -/
theorem exists_of_mem_functionCalls {m : Ssa.Module} {types : TypePool}
    {f : Ssa.Function} {i : Item} (hi : i ∈ functionCalls m types f) :
    (∃ c, i = .call c) ∨ ∃ o, i = .callHost o := by
  obtain ⟨b, -, hi⟩ := List.mem_flatMap.mp hi
  rcases List.mem_append.mp hi with hi | hi
  · obtain ⟨inst, -, hi⟩ := List.mem_flatMap.mp hi
    unfold instCalls at hi
    cases hd : inst.data <;> simp only [hd] at hi <;> grind
  · cases hterm : (m.block b).term with
    | none => simp [hterm] at hi
    | some t =>
      rw [hterm] at hi
      cases t <;> simp [terminatorCalls] at hi <;> exact .inr ⟨_, hi⟩

/-! ## Instructions of the bytecode -/

theorem isCallOp_encode {link : Linkage} {position : Target → Nat} {i : Item} {ins : Vm.Instr}
    (h : i.encode link position = some ins) : isCallOp ins.op = i.isCall := by
  cases i <;> simp only [Item.encode, Option.some.injEq, reduceCtorEq] at h <;> subst h <;> rfl

/-- The instructions that call are those of the elements that call. -/
theorem filter_isCall_encode (link : Linkage) (position : Target → Nat) (is : List Item) :
    (is.filterMap (·.encode link position)).filter (fun i => isCallOp i.op) =
      (callItems is).filterMap (·.encode link position) := by
  induction is with
  | nil => rfl
  | cons i is ih =>
    cases hi : i.encode link position with
    | none =>
      have hcall : i.isCall = false := by
        cases i <;> first | rfl | cases hi
      rw [List.filterMap_cons_none hi, ih, callItems_cons, hcall, if_neg nofun]
    | some ins =>
      have hop := isCallOp_encode hi
      rw [List.filterMap_cons_some hi]
      cases hcall : i.isCall with
      | false => rw [List.filter_cons_of_neg (by rw [hop, hcall]; nofun), ih, callItems_cons, hcall,
          if_neg nofun]
      | true =>
        rw [List.filter_cons_of_pos (by rw [hop, hcall]), ih, callItems_cons, hcall, if_pos rfl,
          List.filterMap_cons_some hi]

/-- The instructions of a function that call, in order. Their operands do not depend on where they
stand. -/
theorem filter_isCall_assemble (link : Linkage) {pieces : List Piece}
    (h : ∀ i ∈ callItems (pieces.flatMap (·.items)), (∃ c, i = .call c) ∨ ∃ o, i = .callHost o) :
    (assemble link pieces).filter (fun i => isCallOp i.op) =
      (callItems (pieces.flatMap (·.items))).filterMap (·.encode link fun _ => 0) := by
  have hplaced (pieces : List Piece) (start : Nat) : (placed start pieces).map (·.2) = pieces := by
    induction pieces generalizing start with
    | nil => rfl
    | cons p ps ih => exact congrArg (p :: ·) (ih _)
  have hpiece : ∀ x ∈ placed 0 pieces, ((x.2.items.filterMap
      (·.encode link (x.2.position (labelPosition (placed 0 pieces)) x.1))).filter fun i =>
      isCallOp i.op) = (callItems x.2.items).filterMap (·.encode link fun _ => 0) := by
    intro x hx
    rw [filter_isCall_encode]
    refine List.filterMap_congr fun i hi => ?_
    have hmem : i ∈ callItems (pieces.flatMap (·.items)) := by
      rw [callItems_flatMap]
      have hp : x.2 ∈ pieces := by
        rw [← hplaced pieces 0]
        exact List.mem_map_of_mem hx
      exact List.mem_flatMap.mpr ⟨x.2, hp, hi⟩
    obtain ⟨c, rfl⟩ | ⟨o, rfl⟩ := h i hmem <;> rfl
  unfold assemble
  rw [List.filter_flatMap, List.flatMap_congr hpiece, callItems_flatMap, List.filterMap_flatMap]
  conv_rhs => rw [← hplaced pieces 0, List.flatMap_map]

end ContractCompiler.Codegen
