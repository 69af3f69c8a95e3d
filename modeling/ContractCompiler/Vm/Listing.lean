import ContractCompiler.Host.Interface
import ContractCompiler.Vm.Container

/-!
# Listings of bytecode

`Module.listing` is the text of a module for human readers. Names come from the module as byte
strings, so the listing is one as well.
-/

namespace ContractCompiler.Vm

open Bytes (utf8)

/-- The entry of the host's table that an import names; names that are no text name nothing. -/
def Import.hostRef? (i : Import) : Option HostRef := do
  let module ← Bytes.text? i.module
  let name ← Bytes.text? i.name
  HostRef.find? module i.version name

/-- The line of an import. -/
def Import.listing (i : Import) (index : Nat) : Bytes :=
  let module := match i.hostRef? with
    | some ref => utf8 ref.module.qualifiedName
    | none => i.module ++ utf8 s!"@{i.version} (unknown)"
  utf8 s!"  import #{index} " ++ module ++ utf8 "." ++ i.name
    ++ utf8 s!" args={i.numArgs}" ++ utf8 (if i.hasResult then " -> status\n" else "\n")

/-- The line of a data segment. -/
def DataSegment.listing (d : DataSegment) : Bytes :=
  utf8 s!"  data @{d.offset.toNat} len={d.bytes.length}\n"

/-- The line of an export. -/
def Export.listing (e : Export) : Bytes :=
  utf8 "  export " ++ e.name ++ utf8 s!" = fn#{e.function}\n"

/-- What a call refers to. -/
def Module.target (m : Module) (i : Instr) : Bytes :=
  match i.op with
  | .callHost =>
    match m.imports[i.imm.toNat]? with
    | some im => utf8 " ; " ++ im.module ++ utf8 "." ++ im.name
    | none => []
  | .call =>
    match m.functions[i.imm.toNat]? with
    | some f => utf8 " ; " ++ f.name
    | none => []
  | _ => []

/-- An immediate operand as text; constants are shown as signed numbers. -/
def Instr.operand (i : Instr) : String :=
  if !i.op.hasImm then ""
  else if i.op = .const then s!" {i.imm.toInt64.toInt}"
  else s!" {i.imm.toNat}"

/-- The line of an instruction. -/
def Module.instrListing (m : Module) (i : Instr) (pc : Nat) : Bytes :=
  utf8 s!"    {pc}: {i.op.name}{i.operand}" ++ m.target i ++ utf8 "\n"

/-- The lines of a function. -/
def Module.functionListing (m : Module) (f : Function) (index : Nat) : Bytes :=
  utf8 s!"\n  fn #{index} " ++ f.name
    ++ utf8 s!" params={f.numParams} locals={f.numLocals}"
    ++ utf8 (if f.hasResult then " -> word\n" else "\n")
    ++ f.code.toList.zipIdx.flatMap fun (i, pc) => m.instrListing i pc

/-- The text of a module. -/
def Module.listing (m : Module) : Bytes :=
  utf8 s!"VLBC v{formatVersion} pages={m.memoryPages} heap_base={m.heapBase.toNat}\n"
    ++ m.imports.toList.zipIdx.flatMap (fun (i, n) => i.listing n)
    ++ m.data.toList.flatMap DataSegment.listing
    ++ m.exports.toList.flatMap Export.listing
    ++ m.functions.toList.zipIdx.flatMap (fun (f, n) => m.functionListing f n)

end ContractCompiler.Vm
