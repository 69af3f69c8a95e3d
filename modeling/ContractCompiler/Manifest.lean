import ContractCompiler.Codegen.Program
import ContractCompiler.Domain.Analysis
import ContractCompiler.Json.Printer

/-!
# Manifests

What schedulers need to know of a compiled unit: for every compiled function, under its export name,
what it may read and write and what it is expected to cost, and the host functions that the unit
imports.

- `manifest`: the manifest of a unit as a document;
- `manifestText`: its text.
-/

namespace ContractCompiler

/-- A key of a table as an object. -/
def DomainKey.toJson (k : DomainKey) : Json :=
  Json.ofFields
    [("hash", .string (Bytes.hex k.hash)),
     ("scope", .string (Bytes.hex k.scope)),
     ("key", .string k.canonical),
     ("wildcard", .bool k.wildcard)]

/-- The keys of a set as objects. -/
def KeyTable.setToJson (keys : KeyTable) (set : KeySet) : Json :=
  .array (set.filterMap fun id => (keys.get? id).map (·.toJson))

/-- The entry of a function. Gas is written as a signed number. -/
def CompiledFunction.toJson (c : CompiledFunction) (f : Ssa.Function) (keys : KeyTable)
    (d : FunctionDomains) : Json :=
  Json.ofFields
    [("name", .string f.name),
     ("exported", .bool c.exported),
     ("payable", .bool f.isPayable),
     ("gas", .int (signedValue c.gas)),
     ("reads", keys.setToJson d.reads),
     ("writes", keys.setToJson d.writes),
     ("domain_source", .string d.source.name),
     ("proof_obligations", .array (d.proofs.map .string))]

/-- An import as an object. Names that are no text are left empty. -/
def Vm.Import.toJson (i : Vm.Import) : Json :=
  Json.ofFields
    [("module", .string ((Bytes.text? i.module).getD "")),
     ("version", .nat i.version),
     ("name", .string ((Bytes.text? i.name).getD ""))]

/-- The format that manifests name. -/
def manifestFormat : String := "vellum-manifest"

/-- The version of the format. -/
def manifestVersion : Nat := 1

/-- The entries of the compiled functions under their export names. -/
def manifestFunctions (m : Ssa.Module) (domains : DomainAnalysis) (compiled : CompiledModule) :
    List (String × Json) :=
  ((m.functions.toList.zip compiled.functions.toList).zipIdx.filter fun ((_, c), _) => c.ok).map
    fun ((f, c), id) => (c.name, c.toJson f domains.keys (domains.functions.getD id {}))

/-- The manifest of a unit. -/
def manifest (m : Ssa.Module) (domains : DomainAnalysis) (compiled : CompiledModule)
    (unit : String) :
    Json :=
  Json.ofFields
    [("format", .string manifestFormat),
     ("version", .nat manifestVersion),
     ("unit", .string unit),
     ("functions", .ofFields (manifestFunctions m domains compiled)),
     ("imports", .array (compiled.module.imports.toList.map (·.toJson)))]

/-- The text of a manifest. -/
def manifestText (v : Json) : String := v.pretty

end ContractCompiler
