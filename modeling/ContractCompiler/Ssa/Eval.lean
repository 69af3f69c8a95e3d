import ContractCompiler.Execution
import ContractCompiler.Host.Ledger
import ContractCompiler.Ssa.Basic
import Std.Data.HashMap

/-!
# Evaluation of the intermediate form

What a module does, as a small-step machine: a configuration holds the running activation, its
callers, the cells and the host. A step executes one instruction or one ending.

- `Val`: values at run time;
- `evalInst`: what an instruction other than a call computes, and what it does to cells and host;
- `step`, `run`: execution;
- `Module.evalFunction`: a whole call.
-/

namespace ContractCompiler.Ssa

/-- A value at run time. Structs are tuples of their fields, a result is the pair of its status word
and its payload, and a reference is the number of a cell. -/
inductive Val where
  | word (w : UInt64)
  | bytes (b : Bytes)
  | tuple (fields : List Val)
  | cell (id : Nat)
deriving Repr, Inhabited

namespace Val

/-- What stands for the payload of an error, or for a result of type unit. -/
def none : Val := .word 0

/-- The word of an integer or truth value. -/
def toWord : Val → UInt64
  | .word w => w
  | _ => 0

/-- The bytes of a byte string. -/
def toBytes : Val → Bytes
  | .bytes b => b
  | _ => []

/-- The fields of a struct or result. -/
def fields : Val → List Val
  | .tuple fs => fs
  | _ => []

/-- A result with a status and a payload. -/
def result (status : Int) (payload : Val) : Val := .tuple [.word (wordOfInt status), payload]

/-- An error result. -/
def error (status : Int) : Val := result status none

/-- A success. -/
def ok (payload : Val) : Val := result 0 payload

end Val

/-- The values of an activation. -/
abbrev Env := Std.HashMap ValueId Val

/-- What instructions change besides the values of their activation. -/
structure Store where
  cells : Array Val := #[]
  ledger : Ledger
  /-- The last failure that the host reported. -/
  hostStatus : Option HostStatus := none
deriving Inhabited

/-- The program and where it runs. -/
structure EvalContext where
  module : Module
  types : TypePool
  /-- The unit whose state is used. -/
  unit : String
deriving Inhabited

/-- The limits of a run. -/
structure EvalLimits where
  maxSteps : Nat := 1000000
  maxDepth : Nat := 256
deriving DecidableEq, Repr, Inhabited

/-- The execution of one instruction: a stop leaves the store as it is. -/
abbrev Eval := ExceptT Halt (StateM Store)

/-! ## Operands -/

/-- The value of an operand. The lookup of one that has no value escapes. -/
def Env.value (env : Env) (v : ValueId) : Eval Val :=
  match env[v]? with
  | some x => return x
  | none => throw .escaped

/-- The values of operands. -/
def Env.valueList (env : Env) : List ValueId → Eval (List Val)
  | [] => return []
  | v :: vs => do
    let x ← env.value v
    let xs ← env.valueList vs
    return x :: xs

/-- The word of an operand. -/
def Env.word (env : Env) (v : ValueId) : Eval UInt64 := return (← env.value v).toWord

/-- A field of a struct or result, or a stop if there is none. -/
def fieldOf (missing : Halt) (x : Val) (index : Nat) : Eval Val :=
  match x.fields[index]? with
  | some f => return f
  | none => throw missing

/-- The stop at an instruction that names a field that there is not. -/
def noField : Halt := .error "field index out of range"

/-- The contents of a cell. -/
def loadCell (ref : Val) : Eval Val := do
  match ref with
  | .cell id =>
    match (← get).cells[id]? with
    | some x => return x
    | none => throw (.error "use of an undefined cell")
  | _ => throw (.error "use of an undefined cell")

/-- Replaces the contents of a cell. -/
def storeCell (ref value : Val) : Eval Unit :=
  match ref with
  | .cell id => modify fun s => { s with cells := s.cells.setIfInBounds id value }
  | _ => throw (.error "use of an undefined cell")

/-- A new cell. -/
def newCell (value : Val) : Eval Val :=
  modifyGet fun s => (.cell s.cells.size, { s with cells := s.cells.push value })

/-! ## Arithmetic -/

/-- The value of an operation, or its stop. -/
def ofFolded : Folded → Eval Val
  | .value w => return .word w
  | .overflow => throw (.panicked "arithmetic overflow")
  | .divByZero => throw (.trappedBy .divByZero)
  | .checkedErr => return .error arithmeticStatus

/-- The value of an operation in a mode: a checked operation yields a result. -/
def ofArith (mode : ArithMode) (r : Folded) : Eval Val :=
  match mode, r with
  | .checked, .value w => return .ok (.word w)
  | _, r => ofFolded r

/-- A unary operation. -/
def evalUnary (op : UnOp) (mode : ArithMode) (k : IntKind) (a : UInt64) : Eval Val :=
  match op with
  | .not => return .word (a ^^^ 1)
  | .bitNot => return .word (k.normalize (~~~a))
  | .neg => ofArith mode (foldNeg mode k a)

/-- A binary operation; comparisons and bitwise operations have no checked form. -/
def evalBinary (op : BinOp) (mode : ArithMode) (k : IntKind) (a b : UInt64) : Eval Val :=
  let r := foldBinOp op mode k a b
  if op.isCompare || op.isBitwise then ofFolded r else ofArith mode r

/-! ## The host -/

/-- A failure of the host: an error result if the program may handle it, else a stop. -/
def hostFailure (op : HostOp) (status : HostStatus) : Eval Val := do
  modify fun s => { s with hostStatus := some status }
  if (HostRef.ofOp? op).any fun r => r.function.recoverable.contains status then
    return .error status.code
  else throw (.panicked "host call failed")

/-- A state write if the host admits it, which is asked before anything is looked up. -/
def guardWrite (descriptor : Bytes) (write : Eval Val) : Eval Val := do
  if (← get).ledger.allowsWrite descriptor then write
  else hostFailure .stateWrite .domainDenied

namespace EvalContext

variable (c : EvalContext)

/-- Whether a value is a byte string. -/
def isBytes (v : ValueId) : Bool := c.types.isBytes (c.module.valueType v)

/-- Signedness and width of a value. -/
def kindOf (v : ValueId) : IntKind := c.types.intKind (c.module.valueType v)

/-- A value as the host sees it: byte strings as they are, words as eight bytes. -/
def buffer (v : ValueId) (x : Val) : Bytes :=
  if c.isBytes v then x.toBytes else Bytes.littleEndian x.toWord

/-- The text of a key that is a constant of the program; empty for any other. -/
def constKeyText (key : ValueId) : String :=
  match c.module.definition? key with
  | some { data := .constInt bits, .. } => renderIntKey bits (c.kindOf key).signed
  | some { data := .constBytes bytes, .. } => renderBytesKey bytes
  | _ => ""

/-- The payload of an event: words as eight bytes, byte strings with their length in front. -/
def payload : List (ValueId × Val) → Bytes
  | [] => []
  | (v, x) :: rest =>
    (if c.isBytes v then Bytes.littleEndian (UInt64.ofNat x.toBytes.length) ++ x.toBytes
      else Bytes.littleEndian x.toWord) ++ payload rest

variable [Hashing]

/-- A state read. -/
def readState (ns : String) (key : Bytes) (type : TypeId) : Eval Val := do
  match (← get).ledger.read? (scopeOf c.unit ns) key with
  | none => hostFailure .stateRead .notFound
  | some raw =>
    if c.types.isBytes type then return .ok (.bytes raw)
    else return .ok (.word ((c.types.intKind type).normalize (Bytes.wordOfBytes raw)))

/-- A state write. -/
def writeState (ns : String) (key value : Bytes) : Eval Val := do
  modify fun s => { s with ledger := s.ledger.write (scopeOf c.unit ns) key value }
  return .none

/-- What an instruction other than a call computes. -/
def evalInst (inst : Inst) (env : Env) : Eval Val := do
  match inst.data with
  | .constInt bits => return .word bits
  | .constBool value => return .word (wordOfBool value)
  | .constBytes bytes => return .bytes bytes
  | .unary op mode src => evalUnary op mode (c.kindOf src) (← env.word src)
  | .binary op mode left right =>
    let a ← env.word left
    let b ← env.word right
    evalBinary op mode (c.kindOf left) a b
  | .cast mode target src =>
    ofFolded (foldCast mode (c.kindOf src) (c.types.intKind target) (← env.word src))
  | .call _ _ => return .none
  | .makeStruct fields => return .tuple (← env.valueList fields)
  | .extract base index => fieldOf noField (← env.value base) index
  | .insert base index value =>
    let x ← env.value base
    let _ ← fieldOf noField x index
    return .tuple (x.fields.set index (← env.value value))
  | .makeResult true none => return .ok .none
  | .makeResult true (some v) => return .ok (← env.value v)
  | .makeResult false value =>
    let code ← env.word (value.getD invalidId)
    return .tuple [.word code, .none]
  | .resultIsOk src =>
    let status ← fieldOf .escaped (← env.value src) 0
    return .word (wordOfBool (status.toWord == 0))
  | .resultValue src =>
    let x ← env.value src
    let status ← fieldOf .escaped x 0
    if status.toWord == 0 then fieldOf .escaped x 1 else throw (.panicked "unwrap of err result")
  | .resultCode src => fieldOf .escaped (← env.value src) 0
  | .refNew init => newCell (← env.value init)
  | .refLoad ref => loadCell (← env.value ref)
  | .refStore ref value =>
    let r ← env.value ref
    let x ← env.value value
    storeCell r x
    return .none
  | .stateRead ns key type => c.readState ns (c.buffer key (← env.value key)) type
  | .stateWrite ns key value =>
    guardWrite (descriptorOf c.unit ns (c.constKeyText key)) do
      let k ← env.value key
      let x ← env.value value
      c.writeState ns (c.buffer key k) (c.buffer value x)
  | .stateHas ns key =>
    let k ← env.value key
    let ledger := (← get).ledger
    return .word (wordOfBool (ledger.has (scopeOf c.unit ns) (c.buffer key k)))
  | .context query =>
    let raw := (← get).ledger.contextNumber query
    if inst.result.any c.isBytes then return .bytes raw else return .word (Bytes.wordOfBytes raw)
  | .digest src => return .bytes (Hashing.digest (c.buffer src (← env.value src)))
  | .emit topic args =>
    let xs ← env.valueList args
    let payload := c.payload (args.zip xs)
    modify fun s => { s with ledger := s.ledger.emit (Bytes.utf8 topic) payload }
    return .none
  | .bytesLength src => return .word (UInt64.ofNat (← env.value src).toBytes.length)

end EvalContext

/-! ## Steps -/

/-- An activation of a function. -/
structure Frame where
  block : BlockId
  /-- The instructions of the block that are still to be executed. -/
  rest : List InstId
  env : Env := {}
deriving Inhabited

/-- A caller that waits for a result. -/
structure Caller where
  frame : Frame
  /-- The value that the result is for. -/
  result : Option ValueId
deriving Inhabited

/-- The state of a run. -/
structure Config where
  frame : Frame
  /-- The callers, the innermost first. -/
  callers : List Caller := []
  /-- The number of activations. -/
  depth : Nat := 1
  /-- How many instructions have been executed. -/
  steps : Nat := 0
  store : Store
deriving Inhabited

/-- What a step leads to. -/
inductive Progress where
  | next (c : Config)
  | halted (h : Halt) (store : Store)
  | returned (value : Val) (store : Store)
deriving Inhabited

/-- Binds the result of an instruction. -/
def Frame.define (f : Frame) (result : Option ValueId) (x : Val) : Frame :=
  match result with
  | some v =>
    let ⟨block, rest, env⟩ := f
    { block, rest, env := env.insert v x }
  | none => f

/-- Values bound to parameters, one after the other. -/
def bindValues (env : Env) : List (ValueId × Val) → Env
  | [] => env
  | (p, x) :: rest => bindValues (env.insert p x) rest

/-- The activation of a function with its arguments. -/
def activate (m : Module) (entry : BlockId) (args : List Val) : Frame :=
  let b := m.block entry
  { block := entry, rest := b.insts, env := bindValues {} (b.params.zip args) }

/-- Calls a function. -/
def enter (m : Module) (limits : EvalLimits) (c : Config) (callee : FuncId) (args : List Val)
    (result : Option ValueId) : Progress :=
  match m.functions[callee]? with
  | none => .halted (.error "call to unknown function") c.store
  | some f =>
    match f.excluded, f.entry with
    | true, _ | _, none => .halted (.error "call to excluded function") c.store
    | false, some entry =>
      if limits.maxDepth ≤ c.depth then .halted (.error "call depth limit") c.store
      else
        .next { c with
          frame := activate m entry args
          callers := { frame := c.frame, result } :: c.callers
          depth := c.depth + 1 }

/-- Executes an instruction whose turn it is. -/
def stepInst [Hashing] (ctx : EvalContext) (limits : EvalLimits) (c : Config) (inst : Inst) :
    Progress :=
  match inst.data with
  | .call callee args =>
    let (r, _) := (c.frame.env.valueList args).run c.store
    match r with
    | .ok xs => enter ctx.module limits c callee xs inst.result
    | .error h => .halted h c.store
  | _ =>
    let ⟨frame, callers, depth, steps, store⟩ := c
    let (r, store) := (ctx.evalInst inst frame.env).run store
    match r with
    | .ok x => .next { frame := frame.define inst.result x, callers, depth, steps, store }
    | .error h => .halted h store

/-- Goes on at a block, all of its parameters bound at once. -/
def goTo (m : Module) (c : Config) (target : BlockId) (args : List ValueId) : Progress :=
  let b := m.block target
  let params := b.params.zip args
  let ⟨⟨_, _, env⟩, callers, depth, steps, store⟩ := c
  match (env.valueList (params.map (·.2))).run store with
  | (.ok xs, store) =>
    let frame :=
      { block := target, rest := b.insts, env := bindValues env ((params.map (·.1)).zip xs) }
    .next { frame, callers, depth, steps, store }
  | (.error h, store) => .halted h store

/-- Returns to the caller. -/
def leave (c : Config) (x : Val) : Progress :=
  match c.callers with
  | [] => .returned x c.store
  | caller :: callers =>
    .next { c with frame := caller.frame.define caller.result x, callers, depth := c.depth - 1 }

/-- Executes the ending of a block. -/
def stepTerminator (m : Module) (c : Config) : Option Terminator → Progress
  | none | some .unreachable => .halted (.trappedBy .unreachable) c.store
  | some (.jump target args) => goTo m c target args
  | some (.branch cond t targs e eargs) =>
    match (c.frame.env.word cond).run c.store with
    | (.ok w, _) => if w != 0 then goTo m c t targs else goTo m c e eargs
    | (.error h, _) => .halted h c.store
  | some (.ret none) => leave c .none
  | some (.ret (some v)) =>
    match (c.frame.env.value v).run c.store with
    | (.ok x, _) => leave c x
    | (.error h, _) => .halted h c.store
  | some (.revert message) => .halted { exit := .reverted, message := Bytes.utf8 message } c.store
  | some (.panic message) => .halted (.panicked message) c.store

/-- Executes the next instruction, or the ending of the block after its last one. -/
def step [Hashing] (ctx : EvalContext) (limits : EvalLimits) (c : Config) : Progress :=
  let ⟨⟨block, rest, env⟩, callers, depth, steps, store⟩ := c
  match rest with
  | [] =>
    stepTerminator ctx.module ⟨⟨block, [], env⟩, callers, depth, steps, store⟩
      (ctx.module.block block).term
  | i :: rest =>
    if limits.maxSteps ≤ steps then .halted (.error "step limit") store
    else
      match ctx.module.insts[i]? with
      | none => .halted (.error "no such instruction") store
      | some inst =>
        stepInst ctx limits ⟨⟨block, rest, env⟩, callers, depth, steps + 1, store⟩ inst

/-- Takes steps up to a limit, to the stop or return. -/
def run [Hashing] (ctx : EvalContext) (limits : EvalLimits) : Nat → Config → Except Halt Val × Store
  | 0, c => (.error (.error "step limit"), c.store)
  | n + 1, c =>
    match step ctx limits c with
    | .next c => run ctx limits n c
    | .halted h store => (.error h, store)
    | .returned x store => (.ok x, store)

/-! ## Whole calls -/

/-- The arguments of a call from outside: an exclusively passed word is put into a cell. A parameter
without a mode is passed as it is. -/
def prepareArgs : List UInt64 → List Hir.PassMode → Store → List Val × Store
  | [], _, s => ([], s)
  | w :: ws, .exclusive :: modes, s =>
    let (xs, s') := prepareArgs ws modes { s with cells := s.cells.push (.word w) }
    (.cell s.cells.size :: xs, s')
  | w :: ws, modes, s =>
    let (xs, s) := prepareArgs ws modes.tail s
    (.word w :: xs, s)

/-- How many steps a run is given: endings are not counted against its limit, and this many suffice
unless it jumps forever. -/
def EvalLimits.fuel (l : EvalLimits) : Nat := (l.maxSteps + 1) * Nat.pow 2 32

/-- The configuration in which a call starts. -/
def Module.startEval (m : Module) (id : FuncId) (args : List UInt64) (ledger : Ledger)
    (limits : EvalLimits) : Except Halt (Function × Config) :=
  match m.functions[id]? with
  | none => .error (.error "no such function")
  | some f =>
    if args.length ≠ f.paramTypes.length then .error (.error "argument count mismatch")
    else
      match f.excluded, f.entry with
      | true, _ | _, none => .error (.error "call to excluded function")
      | false, some entry =>
        if limits.maxDepth = 0 then .error (.error "call depth limit")
        else
          let (xs, store) := prepareArgs args f.paramModes { ledger }
          .ok (f, { frame := activate m entry xs, store })

/-- Calls a function. -/
def Module.evalFunction [Hashing] (m : Module) (types : TypePool) (id : FuncId) (args : List UInt64)
    (ledger : Ledger) (unit : String) (limits : EvalLimits := {}) : RunResult × Ledger :=
  match m.startEval id args ledger limits with
  | .error h => (h.toResult none, ledger)
  | .ok (f, start) =>
    let (r, store) := run { module := m, types, unit } limits limits.fuel start
    match r with
    | .error h => (h.toResult store.hostStatus, store.ledger)
    | .ok x =>
      ({ exit := .returned
         value := if types.isUnit f.ret then none else some x.toWord
         hostStatus := store.hostStatus }, store.ledger)

end ContractCompiler.Ssa
