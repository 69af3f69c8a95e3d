import ContractCompiler.Codegen.Listing
import ContractCompiler.Compilation
import ContractCompiler.Diagnostic.Render
import ContractCompiler.Directory
import ContractCompiler.Domain.Listing
import ContractCompiler.Hir.Listing
import ContractCompiler.Ssa.Listing

/-!
# The program

What the command line program does: it reads its options, compiles a document, shows the listings
that were asked for and what it found, and writes the outputs.

- `Compilation.listings`, `Compilation.diagnosticText`: what is shown;
- `runProgram`: a run of the program, with files reached through `FileAccess`.
-/

namespace ContractCompiler

/-- What a run of the program leaves: the exit code and what it printed. -/
structure Outcome where
  exitCode : Nat := 0
  out : Bytes := []
  err : Bytes := []
deriving DecidableEq, Repr, Inhabited

namespace Outcome

/-- Prints more. -/
def print (o : Outcome) (text : String) : Outcome := { o with out := o.out ++ Bytes.utf8 text }

/-- Prints an error and fails. -/
def fail (o : Outcome) (text : String) : Outcome :=
  { o with exitCode := 1, err := o.err ++ Bytes.utf8 ("error: " ++ text ++ "\n") }

end Outcome

namespace Compilation

/-- The listings that are asked for, as far as there is something to list. -/
def listings (c : Compilation) (dumps : DumpOptions) : Bytes :=
  (if dumps.hir && !c.hir.functions.isEmpty then
    Bytes.utf8 (c.hir.listing c.types c.ownership.accesses) else [])
  ++ (if dumps.ssa && !c.ssa.functions.isEmpty then Bytes.utf8 (c.ssa.listing c.types) else [])
  ++ (if dumps.domains && c.reachedCode then Bytes.utf8 (c.domains.listing c.ssa) else [])
  ++ (if dumps.bytecode && c.reachedCode then c.compiled.listing else [])

/-- Findings as text. The first error beyond a limit is replaced by one that says so, and ends the
list. -/
def cappedText (c : Compilation) (lang : Language) : Nat → List Diagnostic → String
  | _, [] => ""
  | limit, d :: ds =>
    if d.severity = .error ∨ d.severity = .fatal then
      match limit with
      | 0 => ({ cause := .tooManyErrors : Diagnostic }).render lang c.sources ++ "\n"
      | limit + 1 => d.render lang c.sources ++ "\n" ++ c.cappedText lang limit ds
    else d.render lang c.sources ++ "\n" ++ c.cappedText lang limit ds

/-- What was found, in the chosen form. -/
def diagnosticText (c : Compilation) (o : Options) : String :=
  if c.bag.diags.isEmpty then ""
  else
    match o.diagFormat with
    | .json => c.bag.renderJson o.lang c.sources ++ "\n"
    | .text => c.cappedText o.lang o.maxErrors c.bag.diags.toList

/-- The line that sums up a compilation. -/
def summary (c : Compilation) : String :=
  s!"vellumc: {c.unit}: {c.compiled.functions.countP (·.ok)} function(s), "
    ++ s!"{c.compiled.module.imports.size} import(s), {c.bag.warningCount} warning(s)\n"

/-- The files that are asked for: the serialised module and the manifest. -/
def outputs (c : Compilation) (o : Options) : List (String × Bytes) :=
  (if o.bytecodePath.isEmpty then [] else [(o.bytecodePath, c.compiled.module.serialize)])
    ++ (if o.manifestPath.isEmpty then []
        else [(o.manifestPath, Bytes.utf8 (manifestText (c.manifest.getD .null) ++ "\n"))])

end Compilation

section Run

variable {m : Type → Type} [Monad m]

/-- Writes files in order and reports those that cannot be written. -/
def writeFiles (fs : FileAccess m) : List (String × Bytes) → Outcome → m Outcome
  | [], r => return r
  | (path, bytes) :: rest, r => do
    match ← fs.write path bytes with
    | .ok _ => writeFiles fs rest r
    | .error e => writeFiles fs rest (r.fail s!"cannot write '{path}': {e.message}")

/-- Compiles the document at a path. Bytes that are no text are no document either. -/
def compileFile [Json.Library] [Hashing] (fs : FileAccess m) (path : String) (o : Options) :
    m Outcome := do
  match ← fs.read path with
  | .error e => return ({} : Outcome).fail s!"cannot open '{path}': {e.message}"
  | .ok bytes =>
    let c := compileDocument ((Bytes.text? bytes).getD "") path o
    let r : Outcome :=
      { exitCode := if c.bag.hasError || !c.reachedCode then 1 else 0
        out := c.listings o.dumps
        err := Bytes.utf8 (c.diagnosticText o) }
    if c.reachedCode then
      let r ← writeFiles fs (c.outputs o) r
      return if r.exitCode = 0 then r.print c.summary else r
    else return r

/-- A run of the program with arguments. -/
def runProgram [Json.Library] [Hashing] (fs : FileAccess m) (args : List String) : m Outcome := do
  if args.isEmpty then return { out := Bytes.utf8 (versionText ++ "\n" ++ usage) }
  let parsed := Options.parse args
  match parsed.fault with
  | some fault =>
    let r := ({} : Outcome).fail fault.message
    return { r with err := r.err ++ Bytes.utf8 usage }
  | none =>
    match parsed.options.mode, parsed.options.inputs with
    | .version, _ => return { out := Bytes.utf8 (versionText ++ "\n") }
    | .usage, _ => return { out := Bytes.utf8 usage }
    | .compile, [] => return ({} : Outcome).fail "no input file"
    | .compile, path :: _ => compileFile fs path parsed.options

end Run

end ContractCompiler
