import ContractCompiler.Codegen.Program
import ContractCompiler.Domain.Analysis
import ContractCompiler.Ssa.Optimize

/-!
# Options

The options of the stages of a compilation, and the command line that sets them.

- `DomainOptions`, `PassOptions`, `CodegenOptions`: what the stages can be told;
- `Options.parse`: reads the arguments of the command line, or says what is wrong with them;
- `usage`: the help text.
-/

namespace ContractCompiler

/-- What the program is asked to do. -/
inductive Mode where
  | usage | version | compile
deriving DecidableEq, Repr, Inhabited

/-- How diagnostics are listed. -/
inductive DiagFormat where
  | text | json
deriving DecidableEq, Repr, Inhabited

/-- The listings of intermediate forms that can be asked for. -/
structure DumpOptions where
  hir : Bool := false
  ssa : Bool := false
  domains : Bool := false
  bytecode : Bool := false
deriving DecidableEq, Repr, Inhabited

/-- The options of a run of the program. -/
structure Options where
  mode : Mode := .usage
  inputs : List String := []
  bytecodePath : String := ""
  manifestPath : String := ""
  /-- The unit that replaces the one of the document, unless empty. -/
  unit : String := ""
  diagFormat : DiagFormat := .text
  /-- Whether any developer option was given. -/
  developer : Bool := false
  dumps : DumpOptions := {}
  lang : Language := .english
  maxErrors : Nat := 64
  /-- Whether the values that functions drop are counted. -/
  countDrops : Bool := true
  pass : PassOptions := {}
  domain : DomainOptions := {}
  codegen : CodegenOptions := {}
deriving DecidableEq, Repr, Inhabited

/-- What is wrong with a command line. -/
inductive OptionFault where
  | valueMissing (option : String)
  | badLanguage
  | badDiagFormat (value : String)
  | badWildcardPolicy (value : String)
  | badNumber (option : String)
  | badMaxErrors
  | developerValueMissing
  | unknownDeveloperOption (value : String)
  | developerOnly (option : String)
  | unknownOption (option : String)
  | noInput
  | manyInputs
  | noMemory
  | noLocals
deriving DecidableEq, Repr, Inhabited

/-- The text for a faulty command line. -/
def OptionFault.message : OptionFault → String
  | .valueMissing option => option ++ " requires a value"
  | .badLanguage => "--lang requires en or ko"
  | .badDiagFormat value => "unsupported --diag-format value: " ++ value
  | .badWildcardPolicy value => "unsupported --wildcard-policy value: " ++ value
  | .badNumber option => option ++ " requires a valid number"
  | .badMaxErrors => "-fmax-errors requires a number"
  | .developerValueMissing => "-Xvellum requires one internal argument"
  | .unknownDeveloperOption value => "unknown -Xvellum argument: " ++ value
  | .developerOnly option => option ++ " must be passed through -Xvellum"
  | .unknownOption option => "unknown option: " ++ option
  | .noInput => "no input file"
  | .manyInputs => "multiple input files are not supported"
  | .noMemory => "--memory-pages must be at least 1"
  | .noLocals => "--max-locals must be at least 1"

/-- The outcome of reading a command line: the options as far as they were read, and what is
wrong. -/
structure ParsedOptions where
  options : Options
  fault : Option OptionFault := none
deriving DecidableEq, Repr, Inhabited

namespace Options

/-! ## Values of options -/

/-- A decimal number below `2 ^ 64`. -/
def number? (s : String) : Option Nat :=
  let cs := s.toList
  if cs.isEmpty || !cs.all Char.isDigit then none
  else
    let n := cs.foldl (fun n c => 10 * n + (c.toNat - '0'.toNat)) 0
    if n < Nat.pow 2 64 then some n else none

/-- What becomes of an option that takes a value. -/
inductive Taken where
  /-- The argument is another option. -/
  | other
  | value (v : String) (rest : List String)
  | missing

/-- Reads `--name value` or `--name=value` at the front of the arguments. -/
def takeValue (name : String) (arg : String) (rest : List String) : Taken :=
  if arg = name then
    match rest with
    | v :: rest => if v.isEmpty then .missing else .value v rest
    | [] => .missing
  else
    let opening := name.toList ++ ['=']
    if opening.isPrefixOf arg.toList then
      let v := String.ofList (arg.toList.drop opening.length)
      if v.isEmpty then .missing else .value v rest
    else .other

/-- An option that takes a value, and what the value does. -/
structure ValueOption where
  name : String
  apply : Options → String → Except OptionFault Options

/-- An option whose value is a number of 32 bits. -/
def limit (name : String) (set : Options → Nat → Options) : ValueOption where
  name := name
  apply := fun o v =>
    match number? v with
    | some n => if n < Nat.pow 2 32 then .ok (set o n) else .error (.badNumber name)
    | none => .error (.badNumber name)

/-- The options that take a value, in the order they are tried. -/
def valueOptions : List ValueOption :=
  [{ name := "--emit-bytecode", apply := fun o v => .ok { o with bytecodePath := v } },
   { name := "--emit-manifest", apply := fun o v => .ok { o with manifestPath := v } },
   { name := "--unit", apply := fun o v => .ok { o with unit := v } },
   { name := "--lang"
     apply := fun o v =>
      if v = "ko" then .ok { o with lang := .korean }
      else if v = "en" then .ok { o with lang := .english }
      else .error .badLanguage },
   { name := "--diag-format"
     apply := fun o v =>
      if v = "text" then .ok { o with diagFormat := .text }
      else if v = "json" then .ok { o with diagFormat := .json }
      else .error (.badDiagFormat v) },
   { name := "--wildcard-policy"
     apply := fun o v =>
      if v = "coarsen" then .ok { o with domain.wildcardPolicy := .coarsen }
      else if v = "reject" then .ok { o with domain.wildcardPolicy := .reject }
      else .error (.badWildcardPolicy v) },
   limit "--max-locals" fun o n => { o with codegen.maxLocals := n },
   limit "--max-fields" fun o n => { o with codegen.maxAggregateFields := n },
   limit "--memory-pages" fun o n => { o with codegen.memoryPages := n },
   limit "--max-enumerated-keys" fun o n => { o with domain.maxEnumeratedKeys := n },
   limit "--inline-max-insts" fun o n => { o with pass.inlineMaxInsts := n }]

/-- Sets the listing that a developer option asks for. -/
def developerOption? (o : Options) (arg : String) : Option Options :=
  if arg = "-hir-dump" then some { o with dumps.hir := true }
  else if arg = "-ssa-dump" then some { o with dumps.ssa := true }
  else if arg = "-domain-dump" then some { o with dumps.domains := true }
  else if arg = "-bytecode-dump" then some { o with dumps.bytecode := true }
  else none

/-- Reads `-O` and a digit; levels above one are level one. -/
def optLevel? (arg : String) : Option Nat :=
  match arg.toList with
  | ['-', 'O', d] => if d.isDigit then some (min 1 (d.toNat - '0'.toNat)) else none
  | _ => none

/-- The text after `-fmax-errors=`. -/
def maxErrorsText? (arg : String) : Option String :=
  let opening := "-fmax-errors=".toList
  if opening.isPrefixOf arg.toList then
    some (String.ofList (arg.toList.drop opening.length))
  else none

/-! ## Arguments -/

/-- What reading one argument leads to. -/
inductive Step where
  | next (o : Options) (rest : List String)
  | stop (p : ParsedOptions)

/-- Reads an option that takes a value, if the argument is one. -/
def stepValue (o : Options) (arg : String) (rest : List String) : List ValueOption → Option Step
  | [] => none
  | opt :: opts =>
    match takeValue opt.name arg rest with
    | .other => stepValue o arg rest opts
    | .missing => some (.stop { options := o, fault := some (.valueMissing opt.name) })
    | .value v rest =>
      match opt.apply o v with
      | .ok o => some (.next o rest)
      | .error fault => some (.stop { options := o, fault := some fault })

/-- Reads an argument that is no option with a value. -/
def stepOther (o : Options) (arg : String) (rest : List String) : Step :=
  if arg = "-Xvellum" then
    match rest with
    | [] => .stop { options := o, fault := some .developerValueMissing }
    | v :: rest =>
      let o := { o with developer := true }
      match developerOption? o v with
      | some o => .next o rest
      | none => .stop { options := o, fault := some (.unknownDeveloperOption v) }
  else if (developerOption? o arg).isSome then
    .stop { options := o, fault := some (.developerOnly arg) }
  else
    match optLevel? arg with
    | some level => .next { o with pass.optLevel := level } rest
    | none =>
      match maxErrorsText? arg with
      | some text =>
        match number? text with
        | some n => .next { o with maxErrors := min (max 1 n) (Nat.pow 2 32 - 1) } rest
        | none => .stop { options := o, fault := some .badMaxErrors }
      | none =>
        if arg.toList.head? = some '-' then .stop
          { options := o, fault := some (.unknownOption arg) }
        else .next { o with inputs := o.inputs ++ [arg] } rest

/-- Reads one argument. -/
def step (o : Options) (arg : String) (rest : List String) : Step :=
  if arg = "-h" ∨ arg = "--help" then .stop { options := { o with mode := .usage } }
  else if arg = "--version" then .stop { options := { o with mode := .version } }
  else (stepValue o arg rest valueOptions).getD (stepOther o arg rest)

/-- Checks the options that all arguments together gave. -/
def finish (o : Options) : ParsedOptions :=
  match o.inputs with
  | [] => { options := o, fault := some .noInput }
  | _ :: _ :: _ => { options := o, fault := some .manyInputs }
  | [_] =>
    let o := if o.unit.isEmpty then o else { o with domain.unit := o.unit, codegen.unit := o.unit }
    if o.codegen.memoryPages = 0 then { options := o, fault := some .noMemory }
    else if o.codegen.maxLocals = 0 then { options := o, fault := some .noLocals }
    else { options := o }

/-- Reads arguments in order. Every step takes at least one, so their number bounds the steps. -/
def parseFrom : Nat → Options → List String → ParsedOptions
  | _, o, [] => finish o
  | 0, o, _ => finish o
  | fuel + 1, o, arg :: rest =>
    match step o arg rest with
    | .next o rest => parseFrom fuel o rest
    | .stop p => p

/-- Reads the arguments of the command line. Without any, the help text is asked for. -/
def parse (args : List String) : ParsedOptions :=
  if args.isEmpty then { options := {} }
  else parseFrom args.length { mode := .compile } args

end Options

/-- The help text. -/
def usage : String :=
  String.join
    ["vellumc [options] <input.hir.json>\n",
     "  vellumc token.hir.json --emit-bytecode token.vlbc --emit-manifest token.manifest.json\n",
     "  vellumc --version\n",
     "\n",
     "General options:\n",
     "  -h, --help\n",
     "  --version\n",
     "  --emit-bytecode <path>     Write the serialized bytecode module\n",
     "  --emit-manifest <path>     Write the domain/gas manifest (JSON)\n",
     "  --unit <id>                Override the compilation unit id\n",
     "  --diag-format text|json\n",
     "  -O0|-O1                    Optimization level\n",
     "  --lang en|ko               Diagnostic language\n",
     "  -fmax-errors=<N>\n",
     "\n",
     "Domain analysis:\n",
     "  --wildcard-policy coarsen|reject\n",
     "  --max-enumerated-keys <N>\n",
     "\n",
     "Backend limits:\n",
     "  --max-locals <N>\n",
     "  --max-fields <N>\n",
     "  --memory-pages <N>\n",
     "  --inline-max-insts <N>\n",
     "\n",
     "Developer-only options (must be passed through -Xvellum):\n",
     "  -Xvellum -hir-dump\n",
     "  -Xvellum -ssa-dump\n",
     "  -Xvellum -domain-dump\n",
     "  -Xvellum -bytecode-dump\n"]

/-- The version text. -/
def versionText : String := "vellumc v0.1.0"

end ContractCompiler
