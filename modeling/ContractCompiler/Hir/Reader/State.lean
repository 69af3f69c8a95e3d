import ContractCompiler.Hir.Basic
import ContractCompiler.Json.Basic

/-!
# Reading programs: faults and state

Reading goes on after a fault, so that all faults of a document are reported. A part that cannot be
read yields nothing; what was learned before (types, bindings, faults) is kept.

- `Malformation`: the ways in which a document can be malformed;
- `Read`: a step of reading, with the state it works on;
- `report`, `failWith`, `attempt`: reporting and recovering.
-/

namespace ContractCompiler.Hir

/-- The ways in which a document can be malformed. -/
inductive Malformation where
  | syntaxError
  | notAnObject
  | missingUnit
  | missingFunctions
  | functionNotAnObject
  | structNotAnObject
  | structIncomplete
  | fieldShape
  | fieldType
  | functionName
  | annotationNotAString
  | paramShape
  | paramUnit
  | paramPass
  | functionBody
  | missingBlock (key : String)
  | stmtNotAnObject
  | bindingIncomplete
  | bindingUnit
  | setWithoutValue
  | setFieldOfNonStruct
  | jumpOutsideLoop
  | intRange (type : String)
  | intSpelling (text : String)
  | intForm
  | exprForm
  | missingOperand (key : String)
  | arithMode
  | stateKey
  | namespaceEmpty
  | namespaceChars
  | binaryOperator (op : String)
  | compareOperands
  | compareMode
  | arithOperands
  | bitwiseMode
  | negOperand
  | notOperand
  | castTarget
  | castMode
  | castOperands
  | fieldName
  | fieldOfNonStruct
  | stateValue
  | contextQuery (query : String)
  | eventPayload
  | resultOperand
  | errType
  | unknownExpr
deriving DecidableEq, Repr, Inhabited

/-- The description of a malformation. -/
def Malformation.detail : Malformation → String
  | .syntaxError => "<json syntax error>"
  | .notAnObject => "top level must be an object"
  | .missingUnit => "missing 'unit'"
  | .missingFunctions => "missing 'fns'"
  | .functionNotAnObject => "function entry must be an object"
  | .structNotAnObject => "struct entry must be an object"
  | .structIncomplete => "struct requires 'name' and 'fields'"
  | .fieldShape => "struct field must be [name, type]"
  | .fieldType => "struct field type must be a value type declared earlier"
  | .functionName => "function requires 'name'"
  | .annotationNotAString => "annotation must be a string"
  | .paramShape => "parameter must be [name, type(, pass)]"
  | .paramUnit => "parameter type cannot be unit"
  | .paramPass => "parameter pass mode must be own|var|ref|mut"
  | .functionBody => "function requires 'body'"
  | .missingBlock key => s!"statement requires '{key}' block"
  | .stmtNotAnObject => "statement must be an object"
  | .bindingIncomplete => "binding requires a name and 'init'"
  | .bindingUnit => "cannot bind a unit value"
  | .setWithoutValue => "'set' requires 'value'"
  | .setFieldOfNonStruct => "field assignment on a non-struct binding"
  | .jumpOutsideLoop => "break/continue outside of a loop"
  | .intRange type => s!"integer literal out of range for {type}"
  | .intSpelling text => s!"invalid integer literal '{text}'"
  | .intForm => "integer literal must be a number or decimal string"
  | .exprForm => "unsupported expression form"
  | .missingOperand key => s!"expression requires '{key}'"
  | .arithMode => "arithmetic mode must be trap|wrap|sat|checked"
  | .stateKey => "state key must be an integer or bytes"
  | .namespaceEmpty => "state namespace must be a non-empty string"
  | .namespaceChars => "state namespace must not contain ':', '*' or '.'"
  | .binaryOperator op => s!"unknown binary operator '{op}'"
  | .compareOperands => "comparison requires integer (or bool for ==/!=) operands"
  | .compareMode => "comparison does not take an arithmetic mode"
  | .arithOperands => "arithmetic requires integer operands"
  | .bitwiseMode => "bitwise operators do not take an arithmetic mode"
  | .negOperand => "negation requires an integer operand"
  | .notOperand => "'not' requires a bool or integer operand"
  | .castTarget => "cast requires 'to'"
  | .castMode => "cast mode must be trap or wrap"
  | .castOperands => "cast requires integer source and target"
  | .fieldName => "field access requires 'name'"
  | .fieldOfNonStruct => "field access on a non-struct value"
  | .stateValue => "state value type must be an integer, bool or bytes"
  | .contextQuery query => s!"unknown context query '{query}'"
  | .eventPayload => "event payload must be integers, bools or bytes"
  | .resultOperand => "operand must be a result value"
  | .errType => "'err' requires a result type"
  | .unknownExpr => "unknown expression form"

/-- What has been learned so far. -/
structure ReadState where
  types : TypePool := {}
  symbols : Array Symbol := #[]
  /-- The bindings in sight, the innermost first. -/
  scope : List (String × SymbolId) := []
  /-- The number of the next expression. -/
  nextExpr : ExprId := 0
  /-- How many statements have been read. -/
  stmtCount : Nat := 0
  /-- The faults in the order they were met. -/
  faults : Array Diagnostic := #[]
deriving Inhabited

/-- What holds throughout the body of a function. -/
structure ReadContext where
  /-- The file that spans refer to. -/
  file : UInt32 := 0
  /-- The functions that can be called; their bodies may not be there yet. -/
  functions : Array Function := #[]
  /-- The result type of the function being read. -/
  ret : TypeId := TypeId.invalid
  /-- In how many loops the statement being read stands. -/
  loopDepth : Nat := 0
deriving Inhabited

/-- A step of reading: it may yield nothing, and keeps what was learned in either case. -/
abbrev Read (α : Type) := OptionT (StateM ReadState) α

namespace Read

/-- Reports a fault and goes on. -/
def report (cause : Cause) (span : Span) (args : List String) : Read Unit :=
  modify fun s => { s with faults := s.faults.push { cause, span, args } }

/-- Reports a fault and yields nothing. -/
def failWith {α : Type} (cause : Cause) (span : Span) (args : List String) : Read α := do
  report cause span args
  failure

/-- Reports a malformation and goes on. -/
def malformed (span : Span) (what : Malformation) : Read Unit :=
  report .malformed span [what.detail]

/-- Reports a malformation and yields nothing. -/
def failMalformed {α : Type} (span : Span) (what : Malformation) : Read α := do
  malformed span what
  failure

/-- Takes a step and tells whether it yielded something. -/
def attempt {α : Type} (r : Read α) : Read (Option α) :=
  OptionT.mk do
    let a? ← r.run
    return some a?

/-- The types known so far. -/
def types : Read TypePool := do return (← get).types

/-- Uses and extends the types known so far. -/
def withTypes {α : Type} (f : TypePool → α × TypePool) : Read α :=
  modifyGet fun s =>
    let (a, types) := f s.types
    (a, { s with types })

/-- The type that a text names. -/
def parseType (text : String) (span : Span) : Read TypeId := do
  match (← types).parse? text with
  | some (t, pool) =>
    modify fun s => { s with types := pool }
    return t
  | none => failWith .unknownType span [text]

/-- Reports that a type was found where another one is needed. -/
def mismatch {α : Type} (span : Span) (want got : TypeId) : Read α := do
  let pool ← types
  failWith .typeMismatch span [pool.typeName want, pool.typeName got]

/-- Checks the type of an expression. -/
def expectType (e : Expr) (want : TypeId) (span : Span) : Read Unit :=
  if e.type = want then return () else mismatch span want e.type

/-- Completes an expression: gives it the next number. -/
def complete (span : Span) (type : TypeId) (make : ExprInfo → Expr) : Read Expr :=
  modifyGet fun s =>
    (make { id := s.nextExpr, span, type }, { s with nextExpr := s.nextExpr + 1 })

/-- The innermost binding of a name. -/
def lookup (name : String) (span : Span) : Read SymbolId := do
  match (← get).scope.lookup name with
  | some sym => return sym
  | none => failWith .unknownName span [name]

/-- Introduces a binding, in sight until the end of the block. -/
def declare (symbol : Symbol) : Read SymbolId :=
  modifyGet fun s =>
    let sym := s.symbols.size
    (sym, { s with symbols := s.symbols.push symbol, scope := (symbol.name, sym) :: s.scope })

/-- The binding of a number. -/
def symbol (sym : SymbolId) : Read Symbol := do return (← get).symbols.getD sym default

/-- Takes a step and forgets the bindings it brought into sight. -/
def inScope {α : Type} (r : Read α) : Read α :=
  OptionT.mk do
    let scope := (← get).scope
    let a? ← r.run
    modify fun s => { s with scope }
    return a?

end Read

/-! ## Document access -/

/-- The text of a field, if it is a text. -/
def textField? (o : Json) (key : String) : Option String := (o.field? key).bind Json.string?

/-- The items of a field, if it is an array. -/
def arrayField? (o : Json) (key : String) : Option (List Json) := (o.field? key).bind Json.array?

/-- The truth value of a field, if it is one. -/
def boolField? (o : Json) (key : String) : Option Bool := (o.field? key).bind Json.bool?

/-- The span of an object: two offsets in order. Anything else stands for the start of the file. -/
def spanOf [Json.Library] (file : UInt32) (o : Json) : Span :=
  match arrayField? o "span" with
  | some [lo, hi] =>
    match lo.int64?, hi.int64? with
    | some lo, some hi =>
      if lo < 0 ∨ hi < lo then { file }
      else { lo := .ofInt lo, hi := .ofInt hi, file }
    | _, _ => { file }
  | _ => { file }

end ContractCompiler.Hir
