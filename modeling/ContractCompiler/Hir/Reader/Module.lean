import ContractCompiler.Hir.Reader.Stmt

/-!
# Reading documents

A document holds the unit, the structs and the functions of a contract, and possibly the source text
that spans refer to. Signatures are read before bodies, so that functions can be called before they
stand.

`readDocument` reads a document into a `Module`, as far as it can be read, and collects its faults;
a document is accepted if it has none.
-/

namespace ContractCompiler.Hir

variable [Json.Library]

open Read

/-! ## Declarations -/

/-- The fields of a struct, each a name and a type declared before. -/
def readFields (st : TypeId) (span : Span) : List Json → Read (List (String × TypeId))
  | [] => return []
  | .array [.string name, .string type] :: rest => do
    let t ← parseType type span
    let pool ← types
    if t = st || pool.isUnit t then failMalformed span .fieldType
    else
      let fields ← readFields st span rest
      return (name, t) :: fields
  | _ :: _ => failMalformed span .fieldShape

/-- A struct. A struct whose fields cannot be read stays declared, without fields. -/
def readStruct (file : UInt32) (v : Json) : Read Unit := do
  let span := spanOf file v
  match v with
  | .object _ =>
    match textField? v "name", arrayField? v "fields" with
    | some name, some items =>
      match (← types).declareStruct? name with
      | none => failWith .duplicateName span [name]
      | some (st, pool) =>
        modify fun s => { s with types := pool }
        let fields ← readFields st span items
        modify fun s => { s with types := s.types.setFields st fields }
    | _, _ => failMalformed span .structIncomplete
  | _ => failMalformed span .structNotAnObject

/-- Name, type and pass mode of a parameter, given as a list or as an object. -/
def paramParts (file : UInt32) (fnSpan : Span) (v : Json) :
    Span × Option String × Option String × Option String :=
  match v with
  | .array (name :: type :: rest) =>
    (fnSpan, name.string?, type.string?, rest.head?.bind Json.string?)
  | .object _ => (spanOf file v, textField? v "name", textField? v "type", textField? v "pass")
  | _ => (fnSpan, none, none, none)

/-- The pass mode of a word, and whether the parameter may be assigned to. -/
def passMode? : String → Option (PassMode × Bool)
  | "own" => some (.owned, false)
  | "var" => some (.owned, true)
  | "ref" => some (.shared, false)
  | "mut" => some (.exclusive, true)
  | _ => none

/-- A parameter. An unknown type is taken for the error type. -/
def readParam (file : UInt32) (fnSpan : Span) (v : Json) : Read Param := do
  match paramParts file fnSpan v with
  | (span, some name, some type, mode) =>
    let t ← attempt (parseType type span)
    let t := t.getD TypePool.error
    let pool ← types
    if pool.isUnit t then malformed span .paramUnit
    let (pass, mutable) ← match mode with
      | none => pure (.owned, false)
      | some word =>
        match passMode? word with
        | some p => pure p
        | none => do
          malformed span .paramPass
          pure (.owned, false)
    return { name, type := t, pass, mutable, span }
  | (span, _, _, _) => failMalformed span .paramShape

/-- The parameters that can be read. -/
def readParams (file : UInt32) (fnSpan : Span) : List Json → Read (List Param)
  | [] => return []
  | v :: vs => do
    let p ← attempt (readParam file fnSpan v)
    let ps ← readParams file fnSpan vs
    return p.toList ++ ps

/-- The annotations of a function. -/
def readAttrs (span : Span) : List Json → Read (List Attribute)
  | [] => return []
  | .string text :: rest => do
    let attrs ← readAttrs span rest
    return { text, span } :: attrs
  | _ :: rest => do
    malformed span .annotationNotAString
    readAttrs span rest

/-- The signature of a function; faults in it are reported but do not keep it from being
declared. -/
def readSignature (file : UInt32) (functions : Array Function) (o : Json) : Read Function := do
  let span := spanOf file o
  let name ← match textField? o "name" with
    | some name => pure name
    | none => do
      malformed span .functionName
      pure "<anonymous>"
  if (findFunction? functions name).isSome then report .duplicateName span [name]
  let ret ← match textField? o "ret" with
    | some text => do
      let t ← attempt (parseType text span)
      pure (t.getD Builtin.unit.id)
    | none => pure Builtin.unit.id
  let attrs ← readAttrs span ((arrayField? o "attrs").getD [])
  let params ← readParams file span ((arrayField? o "params").getD [])
  return { name, span, ret, attrs, params
           isPublic := (boolField? o "pub").getD false
           isPayable := (boolField? o "payable").getD false }

/-- The signatures of the functions, each with the object that holds its body. -/
def readSignatures (file : UInt32) (functions : Array Function) :
    List Json → Read (List (Function × Json))
  | [] => return []
  | v :: vs => do
    match v with
    | .object _ =>
      let f ← readSignature file functions v
      let fs ← readSignatures file (functions.push f) vs
      return (f, v) :: fs
    | _ =>
      malformed { file } .functionNotAnObject
      readSignatures file functions vs

/-! ## Bodies -/

/-- Binds the parameters of a function. -/
def bindParams : List Param → Read (List Param)
  | [] => return []
  | p :: ps => do
    let sym ← declare
      { name := p.name, type := p.type, mutable := p.mutable, pass := some p.pass,
        declSpan := p.span }
    let ps ← bindParams ps
    return { p with sym } :: ps

/-- The body of a function. -/
def readBody (fuel : Nat) (ctx : ReadContext) (f : Function) (o : Json) : Read Function :=
  inScope do
    let params ← bindParams f.params
    match arrayField? o "body" with
    | none =>
      malformed f.span .functionBody
      return { f with params }
    | some items =>
      let body ← readBlock fuel { ctx with ret := f.ret } items
      return { f with params, body }

/-- The bodies of the functions, in order. -/
def readBodies (fuel : Nat) (ctx : ReadContext) : List (Function × Json) → Read (List Function)
  | [] => return []
  | (f, o) :: rest => do
    let f ← readBody fuel ctx f o
    let fs ← readBodies fuel ctx rest
    return f :: fs

/-! ## Documents -/

/-- Reads all of a list, leaving out what cannot be read. -/
def readEach (read : Json → Read Unit) : List Json → Read Unit
  | [] => return ()
  | v :: vs => do
    let _ ← attempt (read v)
    readEach read vs

mutual

/-- How deep values nest. -/
def nesting : Json → Nat
  | .array items => nestingOfItems items + 1
  | .object fields => nestingOfFields fields + 1
  | _ => 1

/-- How deep the items of an array nest. -/
def nestingOfItems : List Json → Nat
  | [] => 0
  | v :: vs => max (nesting v) (nestingOfItems vs)

/-- How deep the fields of an object nest. -/
def nestingOfFields : List (String × Json) → Nat
  | [] => 0
  | (_, v) :: fs => max (nesting v) (nestingOfFields fs)

end

/-- The functions of a document, as far as they can be read. -/
def readFunctions (file : UInt32) (root : Json) (items : List Json) : Read (List Function) := do
  let signatures ← readSignatures file #[] items
  let ctx : ReadContext := { file, functions := (signatures.map (·.1)).toArray }
  readBodies (nesting root + 1) ctx signatures

/-- The contract that an object describes, as far as it can be read. -/
def readModule (file : UInt32) (root : Json) : Read Module := do
  match textField? root "unit" with
  | none =>
    malformed { file } .missingUnit
    return {}
  | some unit =>
    readEach (readStruct file) ((arrayField? root "structs").getD [])
    match arrayField? root "fns" with
    | none =>
      malformed { file } .missingFunctions
      return { unit }
    | some items =>
      let functions ← readFunctions file root items
      let s ← get
      return { unit, functions := functions.toArray, symbols := s.symbols
               stmtCount := s.stmtCount, exprCount := s.nextExpr }

/-- The source text that the spans of a document refer to: its own, or an empty one with the
document's name. -/
def sourceOf (docName : String) (root : Json) : String × String :=
  match root.field? "source" with
  | some src => ((textField? src "name").getD docName, (textField? src "text").getD "")
  | none => (docName, "")

/-- What reading a document leads to. -/
structure ReadOutcome where
  /-- The contract, as far as it could be read. -/
  module : Module
  types : TypePool
  sources : Sources
  /-- The file that spans refer to. -/
  file : UInt32
  faults : List Diagnostic
deriving Inhabited

/-- Whether the document was accepted. -/
def ReadOutcome.ok (r : ReadOutcome) : Bool := r.faults.isEmpty

/-- A document that is no object at all. -/
def unreadable (text docName : String) (types : TypePool) (sources : Sources)
    (what : Malformation) :
    ReadOutcome :=
  let (file, sources) := sources.add docName text
  { module := {}, types, sources, file
    faults := [{ cause := .malformed, span := { file }, args := [what.detail] }] }

/-- Reads a document. -/
def readDocument (text docName : String) (types : TypePool) (sources : Sources) : ReadOutcome :=
  match Json.Library.parse? text with
  | none => unreadable text docName types sources .syntaxError
  | some root =>
    match root with
    | .object _ =>
      let (name, content) := sourceOf docName root
      let (file, sources) := sources.add name content
      let (module, state) := (readModule file root).run { types }
      { module := module.getD {}
        types := state.types, sources, file, faults := state.faults.toList }
    | _ => unreadable text docName types sources .notAnObject

end ContractCompiler.Hir
