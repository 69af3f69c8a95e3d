import ContractCompiler.Execution
import ContractCompiler.Host.Ledger
import ContractCompiler.Vm.Listing
import ContractCompiler.Vm.Memory

/-!
# The bytecode machine

A small-step machine: a configuration holds the running activation, its callers, the operand stack,
memory and the host. `step` executes one instruction; `run` takes steps up to a limit.

- `Op.binary?`: the operations that take two words and leave one;
- `callHost`: what a host call does;
- `step`, `run`: execution;
- `Module.runFunction`, `Module.runExport`: a whole call, memory set up and imports checked.
-/

namespace ContractCompiler.Vm

/-- The limits of a run. -/
structure Limits where
  maxSteps : Nat := 5000000
  maxDepth : Nat := 256
  maxStack : Nat := 65536
deriving DecidableEq, Repr, Inhabited

/-! ## Operations on two words -/

/-- A truth value as a word. -/
def flagWord (b : Bool) : UInt64 := if b then 1 else 0

/-- Signed division; the least number divided by minus one does not fit. -/
def divSigned (a b : UInt64) : Except TrapCode UInt64 :=
  if b = 0 then .error .divByZero
  else if a = 0x8000000000000000 ∧ b = 0xFFFFFFFFFFFFFFFF then .error .integerOverflow
  else .ok (a.toInt64 / b.toInt64).toUInt64

/-- Signed remainder. -/
def remSigned (a b : UInt64) : Except TrapCode UInt64 :=
  if b = 0 then .error .divByZero
  else if b = 0xFFFFFFFFFFFFFFFF then .ok 0
  else .ok (a.toInt64 % b.toInt64).toUInt64

/-- The operation of an operation code that takes two words. -/
def Op.binary? : Op → Option (UInt64 → UInt64 → Except TrapCode UInt64)
  | .add => some fun a b => .ok (a + b)
  | .sub => some fun a b => .ok (a - b)
  | .mul => some fun a b => .ok (a * b)
  | .divS => some divSigned
  | .divU => some fun a b => if b = 0 then .error .divByZero else .ok (a / b)
  | .remS => some remSigned
  | .remU => some fun a b => if b = 0 then .error .divByZero else .ok (a % b)
  | .shl => some fun a b => .ok (a <<< b)
  | .shrS => some fun a b => .ok (a.toInt64 >>> (b &&& 63).toInt64).toUInt64
  | .shrU => some fun a b => .ok (a >>> b)
  | .and => some fun a b => .ok (a &&& b)
  | .or => some fun a b => .ok (a ||| b)
  | .xor => some fun a b => .ok (a ^^^ b)
  | .eq => some fun a b => .ok (flagWord (a == b))
  | .ne => some fun a b => .ok (flagWord (a != b))
  | .ltS => some fun a b => .ok (flagWord (a.toInt64 < b.toInt64))
  | .ltU => some fun a b => .ok (flagWord (a < b))
  | .leS => some fun a b => .ok (flagWord (a.toInt64 ≤ b.toInt64))
  | .leU => some fun a b => .ok (flagWord (a ≤ b))
  | .gtS => some fun a b => .ok (flagWord (b.toInt64 < a.toInt64))
  | .gtU => some fun a b => .ok (flagWord (b < a))
  | .geS => some fun a b => .ok (flagWord (b.toInt64 ≤ a.toInt64))
  | .geU => some fun a b => .ok (flagWord (b ≤ a))
  | _ => none

/-- Sign-extends the low bits of a word; widths outside of 1 to 63 change nothing. -/
def signExtend (bits w : UInt64) : UInt64 :=
  if 0 < bits ∧ bits < 64 then ((w <<< (64 - bits)).toInt64 >>> (64 - bits).toInt64).toUInt64 else w

/-- Keeps the low bits of a word; widths outside of 1 to 63 change nothing. -/
def zeroExtend (bits w : UInt64) : UInt64 :=
  if 0 < bits ∧ bits < 64 then w &&& ((1 <<< bits) - 1) else w

/-! ## Configurations -/

/-- An activation of a function. -/
structure Frame where
  function : Function
  /-- The position of the next instruction. -/
  pc : Nat := 0
  locals : Array UInt64
  /-- The height of the operand stack below the activation. -/
  base : Nat
deriving Inhabited

/-- The state of a run. -/
structure Config where
  frame : Frame
  /-- The callers, the innermost first. -/
  callers : List Frame := []
  stack : OperandStack
  memory : Memory
  ledger : Ledger
  hostStatus : Option HostStatus := none
deriving Inhabited

/-- What a step leads to. -/
inductive Progress where
  | next (c : Config)
  | halted (h : Halt) (c : Config)
  | returned (value : Option UInt64) (c : Config)
deriving Inhabited

namespace Config

/-- The run is given up. -/
def fail (c : Config) (message : String) : Progress := .halted (.error message) c

/-- The machine stops the program. -/
def trap (c : Config) (code : TrapCode) : Progress :=
  .halted (.trappedBy code) c

/-- Whether the activation has left at least a number of words on the stack. -/
def has (c : Config) (n : Nat) : Bool := c.frame.base + n ≤ c.stack.height

/-- Continues with another stack. -/
def withStack (c : Config) (stack : OperandStack) : Config := { c with stack }

/-- Continues at a position of the code. -/
def jump (c : Config) (target : UInt64) : Config :=
  { c with frame := { c.frame with pc := target.toNat } }

end Config

/-! ## Host calls -/

/-- The answer of the host to a call. -/
inductive HostAnswer where
  /-- The call succeeds with a status word. -/
  | status (w : UInt64)
  /-- The call fails. -/
  | failure (s : HostStatus)
  /-- The call ends the execution. -/
  | stop (h : Halt)
deriving DecidableEq, Repr, Inhabited

/-- The status word of a failure. -/
def failureWord (s : HostStatus) : UInt64 := wordOfInt s.code

/-- The state descriptor at an address. -/
def readDescriptor? (memory : Memory) (addr len : UInt64) : Option Bytes :=
  if len.toNat = domainArgLength then memory.read? addr.toNat len.toNat else none

/-- Writes a value into memory; the given status if there is room for it. -/
def putOut (memory : Memory) (addr : UInt64) (value : Bytes) (status : UInt64) :
    HostAnswer × Memory :=
  if memory.inBounds addr.toNat value.length then (.status status, memory.set addr.toNat value)
  else (.failure .invalidArgument, memory)

/-- Hands out a value: it is written if the buffer has room, and its length is the status. -/
def handOut (memory : Memory) (addr cap : UInt64) (value : Bytes) : HostAnswer × Memory :=
  let status := UInt64.ofNat value.length
  if cap.toNat < value.length then (.status status, memory) else putOut memory addr value status

/-- Ends the execution with the message at an address. -/
def stopWith (memory : Memory) (exit : Exit) (addr len : UInt64) : HostAnswer :=
  match memory.read? addr.toNat len.toNat with
  | some message => .stop { exit, message }
  | none => .stop (.trappedBy .outOfBounds)

/-- What the host does with the argument words of an operation. -/
def answer [Hashing] (op : HostOp) (args : List UInt64) (memory : Memory) (ledger : Ledger) :
    HostAnswer × Memory × Ledger :=
  match op, args with
  | .stateRead, [d, dl, k, kl, out, cap] =>
    match readDescriptor? memory d dl, memory.read? k.toNat kl.toNat with
    | some descriptor, some key =>
      match ledger.read? (descriptor.take 32) key with
      | none => (.failure .notFound, memory, ledger)
      | some value =>
        let (status, memory) := handOut memory out cap value
        (status, memory, ledger)
    | _, _ => (.failure .invalidArgument, memory, ledger)
  | .stateWrite, [d, dl, k, kl, v, vl] =>
    match readDescriptor? memory d dl, memory.read? k.toNat kl.toNat,
        memory.read? v.toNat vl.toNat with
    | some descriptor, some key, some value =>
      if ledger.allowsWrite descriptor then
        (.status 0, memory, ledger.write (descriptor.take 32) key value)
      else (.failure .domainDenied, memory, ledger)
    | _, _, _ => (.failure .invalidArgument, memory, ledger)
  | .stateHas, [d, dl, k, kl] =>
    match readDescriptor? memory d dl, memory.read? k.toNat kl.toNat with
    | some descriptor, some key =>
      (.status (flagWord (ledger.has (descriptor.take 32) key)), memory, ledger)
    | _, _ => (.failure .invalidArgument, memory, ledger)
  | .ctxQuery, [q, out, cap] =>
    match ContextQuery.ofNumber? q.toNat with
    | none => (.failure .invalidArgument, memory, ledger)
    | some query =>
      let (status, memory) := handOut memory out cap (ledger.context query)
      (status, memory, ledger)
  | .sha256, [p, l, out] =>
    match memory.read? p.toNat l.toNat with
    | none => (.failure .invalidArgument, memory, ledger)
    | some data =>
      let (status, memory) := putOut memory out (Hashing.digest data) 0
      (status, memory, ledger)
  | .logEmit, [t, tl, p, pl] =>
    match memory.read? t.toNat tl.toNat, memory.read? p.toNat pl.toNat with
    | some topic, some payload => (.status 0, memory, ledger.emit topic payload)
    | _, _ => (.failure .invalidArgument, memory, ledger)
  | .revert, [p, l] => (stopWith memory .reverted p l, memory, ledger)
  | .panic, [p, l] => (stopWith memory .panicked p l, memory, ledger)
  | _, _ => (.failure .invalidArgument, memory, ledger)

/-- Calls an import: takes its argument words from the stack and leaves the status word if it has a
result. -/
def callHost [Hashing] (m : Module) (c : Config) (index : Nat) : Progress :=
  match m.imports[index]? with
  | none => c.fail "bad import index"
  | some im =>
    match im.hostRef? with
    | none => c.fail "bad import index"
    | some ref =>
      if c.stack.height < im.numArgs then c.fail "stack underflow at host call"
      else
        let ⟨frame, callers, stack, memory, ledger, hostStatus⟩ := c
        let args := stack.top im.numArgs
        let rest := stack.drop im.numArgs
        let pushed (w : UInt64) := if im.hasResult then rest.push w else rest
        match answer ref.function.op args memory ledger with
        | (.status w, memory, ledger) =>
          .next { frame, callers, stack := pushed w, memory, ledger, hostStatus }
        | (.failure s, memory, ledger) =>
          .next
            { frame, callers, stack := pushed (failureWord s), memory, ledger
              hostStatus := some s }
        | (.stop h, memory, ledger) =>
          .halted h { frame, callers, stack := rest, memory, ledger, hostStatus }

/-! ## Steps -/

/-- The activation of a function whose arguments are the top words of the stack. -/
def activate (f : Function) (stack : OperandStack) : Frame × OperandStack :=
  let args := stack.top f.numParams
  let rest := stack.drop f.numParams
  ({ function := f
     locals := args.toArray ++ Array.replicate (f.numLocals - f.numParams) 0
     base := rest.height }, rest)

/-- Calls a function of the module. -/
def enter (m : Module) (limits : Limits) (c : Config) (index : Nat) : Progress :=
  match m.functions[index]? with
  | none => c.fail "bad function index"
  | some f =>
    if limits.maxDepth ≤ c.callers.length + 1 then c.fail "call depth limit"
    else if c.stack.height < f.numParams then c.fail "stack underflow at call"
    else
      let (frame, stack) := activate f c.stack
      .next { c with frame, callers := c.frame :: c.callers, stack }

/-- Returns from the running activation. -/
def leave (c : Config) : Progress :=
  let f := c.frame.function
  if f.hasResult && !c.has 1 then c.fail "missing return value"
  else
    let value := if f.hasResult then c.stack.words.head? else none
    let below := c.stack.resize c.frame.base
    let stack := match value with
      | some w => below.push w
      | none => below
    match c.callers with
    | [] => .returned value { c with stack }
    | frame :: callers => .next { c with frame, callers, stack }

/-- Stores a word in a local slot. -/
def setLocal (c : Config) (slot : UInt64) (w : UInt64) (stack : OperandStack) : Config :=
  let ⟨⟨function, pc, locals, base⟩, callers, _, memory, ledger, hostStatus⟩ := c
  let frame := { function, pc, locals := locals.setIfInBounds slot.toNat w, base }
  { frame, callers, stack, memory, ledger, hostStatus }

/-- Applies an operation to the word on top. -/
def unary (c : Config) (f : UInt64 → UInt64) : Progress :=
  match c.has 1, c.stack.words with
  | true, w :: _ => .next (c.withStack ((c.stack.drop 1).push (f w)))
  | _, _ => c.fail "stack underflow"

/-- Executes one instruction; the position is already that of the next one. -/
def execute [Hashing] (m : Module) (limits : Limits) (c : Config) (i : Instr) : Progress :=
  match i.op with
  | .nop => .next c
  | .const => .next (c.withStack (c.stack.push i.imm))
  | .localGet =>
    match c.frame.locals[i.imm.toNat]? with
    | some w => .next (c.withStack (c.stack.push w))
    | none => c.fail "bad local"
  | .localSet =>
    match decide (i.imm.toNat < c.frame.locals.size) && c.has 1, c.stack.words with
    | true, w :: _ =>
      let stack := c.stack.drop 1
      .next (setLocal c i.imm w stack)
    | _, _ => c.fail "bad local"
  | .localTee =>
    match decide (i.imm.toNat < c.frame.locals.size) && c.has 1, c.stack.words with
    | true, w :: _ =>
      let stack := c.stack
      .next (setLocal c i.imm w stack)
    | _, _ => c.fail "bad local"
  | .drop => if c.has 1 then .next (c.withStack (c.stack.drop 1)) else c.fail "stack underflow"
  | .eqz => unary c fun w => flagWord (w == 0)
  | .sext => unary c (signExtend i.imm)
  | .zext => unary c (zeroExtend i.imm)
  | .load =>
    match c.has 1, c.stack.words with
    | true, addr :: _ =>
      match c.memory.read? addr.toNat 8 with
      | some bs => .next (c.withStack ((c.stack.drop 1).push (Bytes.wordOfBytes bs)))
      | none => c.trap .outOfBounds
    | _, _ => c.fail "stack underflow"
  | .store =>
    match c.has 2, c.stack.words with
    | true, w :: addr :: _ =>
      let ⟨frame, callers, stack, memory, ledger, hostStatus⟩ := c
      let stack := stack.drop 2
      if memory.inBounds addr.toNat 8 then
        let memory := memory.set addr.toNat (Bytes.littleEndian w)
        .next { frame, callers, stack, memory, ledger, hostStatus }
      else Config.trap { frame, callers, stack, memory, ledger, hostStatus } .outOfBounds
    | _, _ => c.fail "stack underflow"
  | .memCopy =>
    match c.has 3, c.stack.words with
    | true, len :: src :: dst :: _ =>
      let ⟨frame, callers, stack, memory, ledger, hostStatus⟩ := c
      let stack := stack.drop 3
      if memory.inBounds src.toNat len.toNat && memory.inBounds dst.toNat len.toNat then
        let bs := memory.bytes src.toNat len.toNat
        let memory := memory.set dst.toNat bs
        .next { frame, callers, stack, memory, ledger, hostStatus }
      else Config.trap { frame, callers, stack, memory, ledger, hostStatus } .outOfBounds
    | _, _ => c.fail "stack underflow"
  | .jmp => .next (c.jump i.imm)
  | .jmpIf =>
    match c.has 1, c.stack.words with
    | true, w :: _ =>
      let c := c.withStack (c.stack.drop 1)
      .next (if w != 0 then c.jump i.imm else c)
    | _, _ => c.fail "stack underflow"
  | .jmpIfNot =>
    match c.has 1, c.stack.words with
    | true, w :: _ =>
      let c := c.withStack (c.stack.drop 1)
      .next (if w == 0 then c.jump i.imm else c)
    | _, _ => c.fail "stack underflow"
  | .call => enter m limits c i.imm.toNat
  | .callHost => callHost m c i.imm.toUInt32.toNat
  | .ret => leave c
  | .trap => .halted (.trapped i.imm.toUInt32) c
  | op =>
    match op.binary? with
    | none => c.fail s!"unexpected op {op.name}"
    | some f =>
      match c.has 2, c.stack.words with
      | true, b :: a :: _ =>
        match f a b with
        | .ok w => .next (c.withStack ((c.stack.drop 2).push w))
        | .error code => c.trap code
      | _, _ => c.fail "stack underflow"

/-- Moves to the next instruction. -/
def advance (c : Config) : Config := { c with frame := { c.frame with pc := c.frame.pc + 1 } }

/-- Executes the next instruction of a configuration. -/
def step [Hashing] (m : Module) (limits : Limits) (c : Config) : Progress :=
  match c.frame.function.code[c.frame.pc]? with
  | none => c.fail "fell off the end of function code"
  | some i =>
    if limits.maxStack < c.stack.height then c.fail "stack limit"
    else execute m limits (advance c) i

/-- The end of a run: the stop or return, and the configuration it was reached in. -/
def run [Hashing] (m : Module) (limits : Limits) : Nat → Config → RunResult × Ledger
  | 0, c =>
    let message :=
      if c.frame.pc < c.frame.function.code.size then "step limit"
      else "fell off the end of function code"
    ((Halt.error message).toResult c.hostStatus, c.ledger)
  | n + 1, c =>
    match step m limits c with
    | .next c => run m limits n c
    | .halted h c => (h.toResult c.hostStatus, c.ledger)
    | .returned value c => ({ exit := .returned, value, hostStatus := c.hostStatus }, c.ledger)

/-! ## Whole calls -/

/-- Memory with the data segments in place. -/
def loadData (memory : Memory) : List DataSegment → Except Halt Memory
  | [] => .ok memory
  | d :: rest =>
    match memory.write? d.offset.toNat d.bytes with
    | some memory => loadData memory rest
    | none => .error (.error "data segment out of bounds")

/-- Checks that the host has the function an import names, with as many argument words. -/
def checkImport (im : Import) : Except Halt Unit :=
  match im.hostRef? with
  | none =>
    .error { exit := .error
             message := Bytes.utf8 "unresolved import " ++ im.module ++ Bytes.utf8 "." ++ im.name }
  | some ref =>
    if ref.function.arity ≠ im.numArgs then
      .error { exit := .error, message := Bytes.utf8 "import arity mismatch for " ++ im.name }
    else .ok ()

/-- The memory of a module before its first instruction. -/
def Module.load (m : Module) : Except Halt Memory := do
  let memory ← loadData { size := m.memoryPages * pageSize } m.data.toList
  m.imports.toList.forM checkImport
  return memory

/-- The configuration in which a call of a function starts. -/
def Module.start (m : Module) (index : Nat) (args : List UInt64) (ledger : Ledger)
    (limits : Limits) :
    Except Halt Config := do
  let memory ← m.load
  match m.functions[index]? with
  | none => throw (.error "no such function")
  | some f =>
    if args.length ≠ f.numParams then throw (.error "argument count mismatch")
    else if limits.maxDepth = 0 then throw (.error "call depth limit")
    else
      let (frame, stack) := activate f (.ofList args)
      return { frame, stack, memory, ledger }

/-- Calls a function by its index. -/
def Module.runFunction [Hashing] (m : Module) (index : Nat) (args : List UInt64) (ledger : Ledger)
    (limits : Limits := {}) : RunResult × Ledger :=
  match m.start index args ledger limits with
  | .error h => (h.toResult none, ledger)
  | .ok c => run m limits limits.maxSteps c

/-- Calls a function by the name of an export. -/
def Module.runExport [Hashing] (m : Module) (name : Bytes) (args : List UInt64) (ledger : Ledger)
    (limits : Limits := {}) : RunResult × Ledger :=
  match m.exports.find? (·.name == name) with
  | some e => m.runFunction e.function args ledger limits
  | none =>
    ({ exit := .error, message := Bytes.utf8 "no export named '" ++ name ++ Bytes.utf8 "'" },
      ledger)

end ContractCompiler.Vm
