import ContractCompiler.Bytes

/-!
# Bytecode modules

The instructions of a stack machine over 64-bit words, and the module that holds compiled functions.
Every value is one word; compound values are addresses in linear memory. Jump targets are positions
in the code of the function.

Memory starts with the word that holds the end of the heap, followed by the data segments; the heap
begins at `Module.heapBase`.
-/

namespace ContractCompiler.Vm

/-- The operation codes. -/
inductive Op where
  | nop | const | localGet | localSet | localTee | drop
  | add | sub | mul | divS | divU | remS | remU | shl | shrS | shrU | and | or | xor
  | eq | ne | ltS | ltU | leS | leU | gtS | gtU | geS | geU | eqz
  | sext | zext
  | load | store | memCopy
  | jmp | jmpIf | jmpIfNot
  | call | callHost | ret | trap
deriving DecidableEq, Repr, Inhabited

namespace Op

/-- All operation codes in the order of their numbers. -/
def all : List Op :=
  [.nop, .const, .localGet, .localSet, .localTee, .drop,
   .add, .sub, .mul, .divS, .divU, .remS, .remU, .shl, .shrS, .shrU, .and, .or, .xor,
   .eq, .ne, .ltS, .ltU, .leS, .leU, .gtS, .gtU, .geS, .geU, .eqz,
   .sext, .zext, .load, .store, .memCopy, .jmp, .jmpIf, .jmpIfNot, .call, .callHost, .ret, .trap]

/-- The number of an operation code. -/
def number (op : Op) : Nat := op.ctorIdx

/-- The operation code of a number. -/
def ofNumber? (n : Nat) : Option Op := all[n]?

/-- The name of an operation code in listings. -/
def name : Op → String
  | .nop => "nop"
  | .const => "const"
  | .localGet => "local.get"
  | .localSet => "local.set"
  | .localTee => "local.tee"
  | .drop => "drop"
  | .add => "add"
  | .sub => "sub"
  | .mul => "mul"
  | .divS => "div_s"
  | .divU => "div_u"
  | .remS => "rem_s"
  | .remU => "rem_u"
  | .shl => "shl"
  | .shrS => "shr_s"
  | .shrU => "shr_u"
  | .and => "and"
  | .or => "or"
  | .xor => "xor"
  | .eq => "eq"
  | .ne => "ne"
  | .ltS => "lt_s"
  | .ltU => "lt_u"
  | .leS => "le_s"
  | .leU => "le_u"
  | .gtS => "gt_s"
  | .gtU => "gt_u"
  | .geS => "ge_s"
  | .geU => "ge_u"
  | .eqz => "eqz"
  | .sext => "sext"
  | .zext => "zext"
  | .load => "load"
  | .store => "store"
  | .memCopy => "memcpy"
  | .jmp => "jmp"
  | .jmpIf => "jmp_if"
  | .jmpIfNot => "jmp_ifnot"
  | .call => "call"
  | .callHost => "call_host"
  | .ret => "ret"
  | .trap => "trap"

/-- Whether an operation code is followed by an immediate operand. -/
def hasImm : Op → Bool
  | .const | .localGet | .localSet | .localTee | .sext | .zext | .jmp | .jmpIf | .jmpIfNot
  | .call | .callHost | .trap => true
  | _ => false

end Op

/-- An instruction; the immediate operand is zero where the operation code takes none. -/
structure Instr where
  op : Op
  imm : UInt64 := 0
deriving DecidableEq, Repr, Inhabited

/-- A host function that the code calls. -/
structure Import where
  module : Bytes
  version : Nat := 0
  name : Bytes
  numArgs : Nat := 0
  hasResult : Bool := false
deriving DecidableEq, Repr, Inhabited

/-- A compiled function. Its parameters are the first of its local slots. The name it is exported
under is empty where it is called from inside the module only. -/
structure Function where
  name : Bytes
  exportName : Bytes := []
  numParams : Nat := 0
  numLocals : Nat := 0
  hasResult : Bool := false
  code : Array Instr := #[]
deriving DecidableEq, Repr, Inhabited

/-- Bytes that memory holds from the start. -/
structure DataSegment where
  offset : UInt64
  bytes : Bytes
deriving DecidableEq, Repr, Inhabited

/-- A name under which a function can be called from outside. -/
structure Export where
  name : Bytes
  function : Nat
deriving DecidableEq, Repr, Inhabited

/-- A bytecode module. -/
structure Module where
  imports : Array Import := #[]
  functions : Array Function := #[]
  exports : Array Export := #[]
  data : Array DataSegment := #[]
  memoryPages : Nat := 1
  heapBase : UInt64 := 8
deriving DecidableEq, Repr, Inhabited

/-- The number of bytes of a memory page. -/
def pageSize : Nat := 64 * 1024

end ContractCompiler.Vm
