import ContractCompiler.Codegen.Assembly
import ContractCompiler.Codegen.Slots
import ContractCompiler.Domain.Key
import ContractCompiler.Execution

/-!
# Code fragments

What the code of all instructions is made of: pushing values, putting results into their places,
allocating memory and calling the host. Memory is allocated by moving up the word at address zero,
which holds the end of the heap.

- `FunctionContext`: what the code of a function depends on;
- `Fragment`: the code of one instruction, with the number of slots it uses for itself;
- `FunctionContext.push`, `FunctionContext.define`: operands and results;
- `allocate`, `allocateDynamic`: memory;
- `hostCall`, `escalate`, `giveUp`: the host.
-/

namespace ContractCompiler

/-- Options of the code generator. -/
structure CodegenOptions where
  maxLocals : Nat := 1024
  maxAggregateFields : Nat := 64
  maxDataBytes : UInt64 := 65536
  memoryPages : Nat := 16
  /-- The unit in names and canonical keys; if empty, that of the module. -/
  unit : String := ""
  gas : GasTable := {}
deriving DecidableEq, Repr, Inhabited

namespace Codegen

open Ssa (ValueId)

/-- What the code of a function depends on. -/
structure FunctionContext where
  module : Ssa.Module
  types : TypePool
  function : Ssa.Function
  /-- The unit in canonical keys. -/
  unit : String
  plan : SlotPlan
  options : CodegenOptions

/-- The code of one instruction. -/
structure Fragment where
  /-- How many slots the code uses for itself. -/
  scratch : Nat := 0
  items : List Item := []
deriving DecidableEq, Repr, Inhabited

/-! ## Instructions -/

/-- An instruction without an operand. -/
def op (o : Vm.Op) : Item := .instr { op := o }

/-- Pushes a word. -/
def lit (w : UInt64) : Item := .instr { op := .const, imm := w }

/-- Pushes a number. -/
def litInt (v : Int) : Item := lit (wordOfInt v)

/-- Pushes what a slot holds. -/
def get (slot : Nat) : Item := .instr { op := .localGet, imm := UInt64.ofNat slot }

/-- Pops a word into a slot. -/
def set (slot : Nat) : Item := .instr { op := .localSet, imm := UInt64.ofNat slot }

/-- Copies the top word into a slot. -/
def tee (slot : Nat) : Item := .instr { op := .localTee, imm := UInt64.ofNat slot }

/-- Stops the execution. -/
def trap (code : TrapCode) : Item := .instr { op := .trap, imm := UInt64.ofNat code.number }

/-- Goes to a mark. -/
def jump (mark : Nat) : Item := .jump .jmp (.mark mark)

/-- Goes to a mark if the popped word is not zero. -/
def jumpIf (mark : Nat) : Item := .jump .jmpIf (.mark mark)

/-- Goes to a mark if the popped word is zero. -/
def jumpIfNot (mark : Nat) : Item := .jump .jmpIfNot (.mark mark)

/-- Gives up if the popped word is not zero. -/
def failIf (f : Failure) : Item := .jump .jmpIf (.label (.failure f))

/-- No code, for what no code can be made for. -/
def unsupported (what : Unsupported) : Item := .fault (.unsupported what)

/-- Brings the top word into the form of an integer type of fewer than 64 bits. -/
def normalize (k : IntKind) : List Item :=
  if k.bits = 0 ∨ 64 ≤ k.bits then []
  else [.instr { op := if k.signed then .sext else .zext, imm := UInt64.ofNat k.bits }]

/-- Replaces a truth value by one of two words, using two marks. -/
def select (mark : Nat) (ifTrue ifFalse : UInt64) : List Item :=
  [jumpIfNot mark, lit ifTrue, jump (mark + 1), .mark mark, lit ifFalse, .mark (mark + 1)]

/-! ## Memory -/

/-- The next multiple of eight. -/
def align8 (n : Nat) : Nat := (n + 7) / 8 * 8

/-- Pushes the address of new memory of a size, using one slot. -/
def allocate (slot : Nat) (size : Nat) : List Item :=
  [lit 0, op .load, set slot, lit 0, get slot,
    lit (UInt64.ofNat (align8 (if size = 0 then 8 else size))), op .add, op .store, get slot]

/-- Pushes the address of new memory of the size that a slot holds, using one slot. -/
def allocateDynamic (slot sizeSlot : Nat) : List Item :=
  [lit 0, op .load, set slot, lit 0, get slot, get sizeSlot, lit 7, op .add, litInt (-8), op .and,
   op .add, op .store, get slot]

/-- Puts the address of new memory into a slot, using the slot after it. -/
def allocateInto (slot : Nat) (size : Nat) : List Item := allocate (slot + 1) size ++ [set slot]

/-- Replaces an address by the address of a field. -/
def fieldAddress (index : Nat) : List Item := [lit (UInt64.ofNat (8 * index)), op .add]

/-- The bytes of a byte string in memory: its length as a word, then its bytes. -/
def lengthPrefixed (bs : Bytes) : Bytes := Bytes.littleEndian (UInt64.ofNat bs.length) ++ bs

/-! ## The host -/

/-- Calls the host with arguments, each given by the code that pushes its words. The status goes
into a slot or is dropped; an operation that ends the execution has none. -/
def hostCall (op : HostOp) (args : List (List Item)) (status : Option Nat) : List Item :=
  args.flatten ++ .callHost op ::
    if ((HostRef.ofOp? op).map (·.function.noReturn)).getD false then [trap .unreachable]
    else
      match status with
      | some slot => [set slot]
      | none => [Codegen.op .drop]

/-- Gives up if the status in a slot is a failure. -/
def escalate (status : Nat) : List Item := [get status, lit 0, op .ltS, failIf .hostFailure]

/-- Ends the execution with a message. -/
def giveUp (op : HostOp) (message : String) (span : Span) : List Item :=
  let text := Bytes.utf8 message
  .reserve .message text span ::
    hostCall op [[.address text, lit (UInt64.ofNat text.length)]] none

/-- Reads a byte string of the size that a slot holds by a host operation, of which all arguments
but the buffer are given. Uses five slots; the second of them then holds the address of the byte
string. -/
def readBytes (op : HostOp) (args : List (List Item)) (sizeSlot : Nat) (slot : Nat) : List Item :=
  let total := slot
  let result := slot + 1
  let buffer := slot + 3
  let status := slot + 4
  [get sizeSlot, lit 8, Codegen.op .add, set total]
    ++ allocateDynamic (slot + 2) total
    ++ [set result, get result, get sizeSlot, Codegen.op .store]
    ++ [get result, lit 8, Codegen.op .add, set buffer]
    ++ hostCall op (args ++ [[get buffer, get sizeSlot]]) (some status)
    ++ escalate status

namespace FunctionContext

/-! ## Values -/

/-- The slot of a number among those that an instruction uses for itself. -/
def temp (cx : FunctionContext) (n : Nat) : Nat := cx.plan.numSlots + n

/-- Signedness and width of the type of a value. -/
def kind (cx : FunctionContext) (v : ValueId) : IntKind := cx.types.intKind (cx.module.valueType v)

/-- Whether a value is a byte string. -/
def isBytes (cx : FunctionContext) (v : ValueId) : Bool := cx.types.isBytes (cx.module.valueType v)

/-- Pushes a constant. Byte strings are constant data. -/
def constant (cx : FunctionContext) (v : ValueId) : List Item :=
  match cx.module.definition? v with
  | some { data := .constInt bits, .. } => [lit bits]
  | some { data := .constBool value, .. } => [lit (wordOfBool value)]
  | some { data := .constBytes bytes, span, .. } =>
    [.reserve .bytesConstant (lengthPrefixed bytes) span, .address (lengthPrefixed bytes)]
  | _ => [unsupported .notConstant, lit 0]

/-- Pushes a value. One that lives on the stack is there already. -/
def push (cx : FunctionContext) (v : ValueId) : List Item :=
  if cx.module.values.size ≤ v then [unsupported .invalidOperand, lit 0]
  else
    match cx.plan.home v with
    | .const => cx.constant v
    | .stack => []
    | .slot n => [get n]
    | .none => [unsupported .operandWithoutHome, lit 0]

/-- Pushes a value that may be missing. -/
def push? (cx : FunctionContext) : Option ValueId → List Item
  | some v => cx.push v
  | none => [unsupported .invalidOperand, lit 0]

/-- Puts the top word into the place of a result. -/
def define (cx : FunctionContext) : Option ValueId → List Item
  | none => []
  | some r =>
    match cx.plan.home r with
    | .stack => []
    | .slot n => [set n]
    | .none | .const => [op .drop]

/-! ## Arguments of the host -/

/-- The text of a constant state key. -/
def constKey? (cx : FunctionContext) (key : ValueId) : Option String :=
  if cx.plan.home key ≠ .const then none
  else
    match cx.module.definition? key with
    | some { data := .constInt bits, .. } => some (renderIntKey bits (cx.kind key).signed)
    | some { data := .constBytes bytes, .. } => some (renderBytesKey bytes)
    | _ => none

/-- The descriptor of the domain of a state access: the hash of the namespace, then that of the
exact key if it is constant, else zeros. -/
def domainDescriptor [Hashing] (cx : FunctionContext) (ns : String) (key : ValueId) : Bytes :=
  let scope := (DomainKey.all cx.unit ns).hash
  match cx.constKey? key with
  | some text => scope ++ (DomainKey.exact cx.unit ns text).hash
  | none => scope ++ List.replicate (domainArgLength - scope.length) 0

/-- Makes the buffer of a key or value, using two slots: byte strings are passed as they are, words
are stored first. -/
def buffer (cx : FunctionContext) (v : ValueId) (slot : Nat) : List Item :=
  if cx.isBytes v then
    cx.push v ++ [lit 8, op .add, set slot] ++ cx.push v ++ [op .load, set (slot + 1)]
  else allocateInto slot 8 ++ [get slot] ++ cx.push v ++ [op .store]

/-- Pushes the address and length of a buffer that `buffer` made. -/
def bufferArg (cx : FunctionContext) (v : ValueId) (slot : Nat) : List Item :=
  [get slot, if cx.isBytes v then get (slot + 1) else lit 8]

end FunctionContext

end Codegen

end ContractCompiler
