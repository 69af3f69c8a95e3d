import ContractCompiler.Hir.Ownership
import ContractCompiler.Hir.Reader.Module
import ContractCompiler.Manifest
import ContractCompiler.Options
import ContractCompiler.Ssa.Build
import ContractCompiler.Ssa.Exclude
import ContractCompiler.Ssa.Verify

/-!
# Compilation

The way of a document through all stages: reading, ownership, the intermediate form, its passes,
domains and code. A function in which a stage finds something wrong is left out of the stages that
follow, as are its callers; the others go on. Only a document that cannot be read or an intermediate
form that is not well formed stops a compilation.

- `Compilation`: what the stages have made so far;
- `compileDocument`: all stages.
-/

namespace ContractCompiler

/-- What the stages of a compilation have made. -/
structure Compilation where
  sources : Sources := {}
  bag : Bag := {}
  types : TypePool := {}
  hir : Hir.Module := {}
  /-- The unit that is compiled. -/
  unit : String := ""
  ownership : Hir.OwnershipResult := {}
  ssa : Ssa.Module := {}
  domains : DomainAnalysis := {}
  compiled : CompiledModule := {}
  /-- The manifest, once code has been made. -/
  manifest : Option Json := none
deriving Inhabited

namespace Compilation

/-- Whether code has been made. -/
def reachedCode (c : Compilation) : Bool := c.manifest.isSome

/-- Whether code has been made and nothing was wrong. -/
def ok (c : Compilation) : Bool := c.reachedCode && !c.bag.hasError

/-- Adds findings. -/
def report (c : Compilation) (diags : List Diagnostic) : Compilation :=
  { c with bag := c.bag.addAll diags }

/-- Leaves out the callers of functions that are left out. -/
def excludeCallers (c : Compilation) : Compilation :=
  let r := c.ssa.excludeCallers "calls excluded function"
  { c with ssa := r.module }.report r.notes

/-- Reads a document. -/
def read [Json.Library] (text name : String) : Compilation :=
  let r := Hir.readDocument text name {} {}
  { sources := r.sources, types := r.types, hir := r.module : Compilation }.report r.faults

/-- Checks ownership. -/
def checkOwnership (c : Compilation) (countDrops : Bool) : Compilation :=
  let r := Hir.checkOwnership c.hir c.types countDrops
  { c with ownership := r }.report r.violations

/-- Builds the intermediate form of the functions that keep to ownership. -/
def buildSsa (c : Compilation) : Compilation :=
  let r := Ssa.buildModule c.hir c.types fun f => !(c.ownership.functionOk.getD f true)
  { c with ssa := { r.module with unit := c.unit }, types := r.types }.excludeCallers

/-- The finding that the intermediate form is not well formed after a stage. -/
def verifyDiagnostic (stage : String) (f : Ssa.Fault) : Diagnostic where
  severity := .fatal
  cause := .ssaVerifyFailed
  args := [stage, f.message]

/-- Goes on if the intermediate form is well formed. -/
def verified (c : Compilation) (stage : String) (requireReachable : Bool)
    (next : Compilation → Compilation) : Compilation :=
  let faults := c.ssa.verify requireReachable
  if faults.isEmpty then next c else c.report (faults.map (verifyDiagnostic stage))

/-- Runs the passes. -/
def optimize (c : Compilation) (options : PassOptions) : Compilation :=
  { c with ssa := c.ssa.optimize c.types options }

section Hashed

variable [Hashing]

/-- Analyses domains and leaves out the functions whose domains are not known. -/
def analyzeDomains (c : Compilation) (options : DomainOptions) : Compilation :=
  let options := if options.unit.isEmpty then { options with unit := c.unit } else options
  let r := c.ssa.analyzeDomains c.types options
  let c := { c with domains := r }.report r.diags
  let failed := c.ssa.excludeFailed
      (fun f => r.functionOk.getD f false) "conflict domain analysis failed"
  ({ c with ssa := failed.module }.report failed.notes).excludeCallers

/-- Makes code and the manifest. -/
def generate (c : Compilation) (options : CodegenOptions) : Compilation :=
  let options := if options.unit.isEmpty then { options with unit := c.unit } else options
  let compiled := c.ssa.compile c.types options
  let manifest := ContractCompiler.manifest c.ssa c.domains compiled c.unit
  { c with compiled, manifest := some manifest }.report compiled.diags

/-- The stages after reading. -/
def stages (c : Compilation) (o : Options) : Compilation :=
  let c := { c with unit := if o.unit.isEmpty then c.hir.unit else o.unit }
  let c := (c.checkOwnership o.countDrops).buildSsa
  c.verified "ssa-build" false fun c =>
    (c.optimize o.pass).verified "ssa-opt" true fun c =>
      (c.analyzeDomains o.domain).generate o.codegen

end Hashed

end Compilation

/-- Compiles a document. -/
def compileDocument [Json.Library] [Hashing] (text name : String) (o : Options) : Compilation :=
  let c := Compilation.read text name
  if c.bag.diags.isEmpty then c.stages o else c

end ContractCompiler
