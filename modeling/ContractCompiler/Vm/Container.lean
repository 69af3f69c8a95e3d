import ContractCompiler.Leb128
import ContractCompiler.Vm.Module

/-!
# The module container

The serialised form of a bytecode module: a magic word and a version, the size of memory and the
start of the heap, then sections. A section is its number, the length of its payload and the
payload, which is a counted list of entries. Lengths and numbers are LEB128, texts are preceded by
their length.

- `Module.serialize`: the bytes of a module;
- `Module.deserialize`: the module of a byte string, or the first fault met.
-/

namespace ContractCompiler.Vm

/-- The first four bytes of a container. -/
def magic : Bytes := Bytes.utf8 "VLBC"

/-- The version of the format. -/
def formatVersion : Nat := 1

/-! ## Writing -/

/-- A text preceded by its length. -/
def encodeText (s : Bytes) : Bytes := Leb128.encode s.length ++ s

/-- A truth value as a byte. -/
def encodeFlag (b : Bool) : Bytes := [if b then 1 else 0]

/-- A list of entries preceded by their number. -/
def encodeList {α : Type} (entry : α → Bytes) (xs : Array α) : Bytes :=
  Leb128.encode xs.size ++ xs.toList.flatMap entry

/-- An instruction: its operation code and its immediate operand if it has one. -/
def Instr.encode (i : Instr) : Bytes :=
  UInt8.ofNat i.op.number :: if i.op.hasImm then Leb128.encode i.imm.toNat else []

/-- An entry of the import section. -/
def Import.encode (i : Import) : Bytes :=
  encodeText i.module ++ Leb128.encode i.version ++ encodeText i.name ++ Leb128.encode i.numArgs
    ++ encodeFlag i.hasResult

/-- An entry of the function section. -/
def Function.encode (f : Function) : Bytes :=
  encodeText f.name ++ Leb128.encode f.numParams ++ Leb128.encode f.numLocals
    ++ encodeFlag f.hasResult ++ encodeList Instr.encode f.code

/-- An entry of the export section. -/
def Export.encode (e : Export) : Bytes := encodeText e.name ++ Leb128.encode e.function

/-- An entry of the data section. -/
def DataSegment.encode (d : DataSegment) : Bytes :=
  Leb128.encode d.offset.toNat ++ encodeText d.bytes

/-- A section: its number, the length of its payload, its payload. -/
def encodeSection (id : UInt8) (payload : Bytes) : Bytes := id :: encodeText payload

/-- The bytes of a module. -/
def Module.serialize (m : Module) : Bytes :=
  magic ++ [UInt8.ofNat formatVersion, UInt8.ofNat (formatVersion / 256)]
    ++ Leb128.encode m.memoryPages ++ Leb128.encode m.heapBase.toNat
    ++ encodeSection 1 (encodeList Import.encode m.imports)
    ++ encodeSection 2 (encodeList Function.encode m.functions)
    ++ encodeSection 3 (encodeList Export.encode m.exports)
    ++ encodeSection 4 (encodeList DataSegment.encode m.data)

/-! ## Reading -/

/-- Why a byte string is not a container. -/
inductive ContainerFault where
  | notAContainer
  | endOfInput
  | number (fault : Leb128.Fault)
  | outOfRange
  | textPastEnd
  | version (version : Nat)
  | unknownSection (id : Nat)
  | opcode (code : Nat) (function : Bytes)
deriving DecidableEq, Repr, Inhabited

/-- The reason given for a fault; it may quote the name of a function. -/
def ContainerFault.reason : ContainerFault → Bytes
  | .notAContainer => Bytes.utf8 "not a VLBC container"
  | .endOfInput => Bytes.utf8 "unexpected end of input"
  | .number fault => Bytes.utf8 fault.reason
  | .outOfRange => Bytes.utf8 "value out of range"
  | .textPastEnd => Bytes.utf8 "string runs past end of input"
  | .version v => Bytes.utf8 s!"unsupported VLBC version {v}"
  | .unknownSection id => Bytes.utf8 s!"unknown section id {id}"
  | .opcode code function =>
    Bytes.utf8 s!"unknown opcode {code} in function '" ++ function ++ Bytes.utf8 "'"

/-- A reader takes what it needs from the front of a byte string. -/
abbrev Reader (α : Type) := StateT Bytes (Except ContainerFault) α

namespace Reader

/-- One byte. -/
def byte : Reader UInt8 := fun bs =>
  match bs with
  | [] => .error .endOfInput
  | b :: rest => .ok (b, rest)

/-- A 64-bit number. -/
def number : Reader Nat := fun bs =>
  if bs.isEmpty then .error .endOfInput
  else
    match Leb128.decode bs with
    | .ok r => .ok r
    | .error fault => .error (.number fault)

/-- A 32-bit number. -/
def number32 : Reader Nat := do
  let n ← number
  if Nat.pow 2 32 ≤ n then throw .outOfRange else return n

/-- A given number of bytes; the fault if there are fewer. -/
def take (n : Nat) (fault : ContainerFault) : Reader Bytes := fun bs =>
  let taken := bs.take n
  if taken.length < n then .error fault else .ok (taken, bs.drop n)

/-- A text preceded by its length. -/
def text : Reader Bytes := do
  let n ← number
  take n .textPastEnd

/-- A truth value: any byte but zero is true. -/
def flag : Reader Bool := do
  let b ← byte
  return b != 0

/-- A given number of entries. -/
def times {α : Type} (entry : Reader α) : Nat → Array α → Reader (Array α)
  | 0, acc => return acc
  | n + 1, acc => do
    let x ← entry
    times entry n (acc.push x)

/-- A counted list of entries. -/
def list {α : Type} (entry : Reader α) : Reader (Array α) := do
  let n ← number32
  times entry n #[]

/-- An instruction of the function of a name. -/
def instr (function : Bytes) : Reader Instr := do
  let code ← byte
  match Op.ofNumber? code.toNat with
  | none => throw (.opcode code.toNat function)
  | some op =>
    if op.hasImm then
      let imm ← number
      return { op, imm := UInt64.ofNat imm }
    else return { op }

/-- An entry of the import section. -/
def importEntry : Reader Import := do
  let module ← text
  let version ← number32
  let name ← text
  let numArgs ← number32
  let hasResult ← flag
  return { module, version, name, numArgs, hasResult }

/-- An entry of the function section. -/
def functionEntry : Reader Function := do
  let name ← text
  let numParams ← number32
  let numLocals ← number32
  let hasResult ← flag
  let code ← list (instr name)
  return { name, numParams, numLocals, hasResult, code }

/-- An entry of the export section. -/
def exportEntry : Reader Export := do
  let name ← text
  let function ← number32
  return { name, function }

/-- An entry of the data section. -/
def dataEntry : Reader DataSegment := do
  let offset ← number
  let bytes ← text
  return { offset := UInt64.ofNat offset, bytes }

/-- Reads a section's payload into a module; what follows the counted entries is passed over. -/
def sectionInto (m : Module) (id : UInt8) (payload : Bytes) : Except ContainerFault Module :=
  if id = 1 then
    (list importEntry payload).map fun r => { m with imports := m.imports ++ r.1 }
  else if id = 2 then
    (list functionEntry payload).map fun r => { m with functions := m.functions ++ r.1 }
  else if id = 3 then
    (list exportEntry payload).map fun r => { m with exports := m.exports ++ r.1 }
  else if id = 4 then
    (list dataEntry payload).map fun r => { m with data := m.data ++ r.1 }
  else .error (.unknownSection id.toNat)

/-- One section after the number and the length that introduce it. -/
def sectionFrame : Reader (UInt8 × Bytes) := do
  let id ← byte
  let size ← number
  let payload ← take size .endOfInput
  return (id, payload)

/-- Sections up to the end of the input. A section takes at least a byte, so the length of the input
bounds their number. -/
def sections : Nat → Module → Bytes → Except ContainerFault Module
  | _, m, [] => .ok m
  | 0, m, _ => .ok m
  | fuel + 1, m, bs => do
    let ((id, payload), rest) ← sectionFrame bs
    let m ← sectionInto m id payload
    sections fuel m rest

/-- What stands before the sections. -/
def header : Reader Module := do
  let word ← take 4 .notAContainer
  if word ≠ magic then throw .notAContainer
  else
    let version ← take 2 .endOfInput
    let version := version.foldr (fun b n => b.toNat + 256 * n) 0
    if version ≠ formatVersion then throw (.version version)
    else
      let memoryPages ← number32
      let heapBase ← number
      return { memoryPages, heapBase := UInt64.ofNat heapBase }

end Reader

/-- The module of a byte string. -/
def Module.deserialize (bs : Bytes) : Except ContainerFault Module := do
  let (m, rest) ← Reader.header bs
  Reader.sections rest.length m rest

end ContractCompiler.Vm
