import ContractCompiler.Hir.Reader.State

/-!
# Reading expressions

An expression is a number, a truth value, a name, or an object whose form is told by the first of
the known keys that it has. Literals without a type take the type that their place suggests, the
hint.

Each form has its own reader, which is given the reader of sub-expressions. `readExpr` ties them
together with a fuel of one unit a level of nesting.
-/

namespace ContractCompiler.Hir

variable [Json.Library]

/-- The type that a place suggests to an expression, if any. -/
abbrev Hint := Option TypeId

/-- The reader of sub-expressions. -/
abbrev SubReader := Json → Hint → Read Expr

/-- An object being read as an expression. -/
structure ExprForm where
  /-- The object itself. -/
  object : Json
  /-- The value of the key that told the form. -/
  value : Json
  span : Span
  hint : Hint

namespace ExprForm

open Read

/-! ## Integers -/

/-- Whether a value is an integer literal that does not say its type. -/
def isUntypedLiteral : Json → Bool
  | .number _ => true
  | j => (j.field? "int").isSome && (j.field? "type").isNone

/-- The magnitude that decimal digits spell, below `2 ^ 64`. -/
def magnitude? (cs : List Char) : Option Nat :=
  if cs.isEmpty || !cs.all Char.isDigit then none
  else
    let n := cs.foldl (fun n c => 10 * n + (c.toNat - '0'.toNat)) 0
    if n < Nat.pow 2 64 then some n else none

/-- The value that a literal spells: a whole number, or decimal digits with an optional sign. -/
def literalValue (v : Json) : Except Malformation Int :=
  match v.int64?, v with
  | some n, _ => .ok n
  | none, .string text =>
    match text.toList with
    | '-' :: cs =>
      match magnitude? cs with
      | some n => .ok (-(n : Int))
      | none => .error (.intSpelling text)
    | cs =>
      match magnitude? cs with
      | some n => .ok n
      | none => .error (.intSpelling text)
  | none, _ => .error .intForm

/-- The word of a value in a type, if the type has it. -/
def wordInKind? (k : IntKind) (v : Int) : Option UInt64 :=
  if v < -(Nat.pow 2 63) then none
  else
    let source : IntKind := { signed := decide (v < 0), bits := 64 }
    let out := source.cast k (wordOfInt v)
    if out.overflow then none else some out.value

/-- An integer literal of the suggested type, or of type `i64` if no integer type is suggested. -/
def readIntValue (v : Json) (hint : Hint) (span : Span) : Read Expr := do
  let pool ← types
  let type := match hint with
    | some t => if pool.isInteger t then t else Builtin.i64.id
    | none => Builtin.i64.id
  match literalValue v with
  | .error what => failMalformed span what
  | .ok n =>
    match wordInKind? (pool.intKind type) n with
    | some bits => complete span type fun i => .int i bits
    | none => failMalformed span (.intRange (pool.typeName type))

/-! ## Parts of forms -/

/-- The value of a key that the form needs. -/
def need (f : ExprForm) (key : String) : Read Json :=
  match f.object.field? key with
  | some v => return v
  | none => failMalformed f.span (.missingOperand key)

/-- The values of two keys that the form needs; both are reported if both are missing. -/
def need2 (f : ExprForm) (key₁ key₂ : String) : Read (Json × Json) := do
  let v₁ ← attempt (f.need key₁)
  let v₂ ← attempt (f.need key₂)
  match v₁, v₂ with
  | some v₁, some v₂ => return (v₁, v₂)
  | _, _ => failure

/-- The arithmetic mode. -/
def mode (f : ExprForm) : Read ArithMode :=
  match textField? f.object "mode" with
  | none | some "trap" => return .trap
  | some "wrap" => return .wrapping
  | some "sat" => return .saturating
  | some "checked" => return .checked
  | some _ => failMalformed f.span .arithMode

/-- The payload type of the suggested type, if that is a result type. -/
def hintElem (f : ExprForm) : Read Hint := do
  let pool ← types
  return f.hint.bind pool.resultElem?

/-- What is suggested to the operand of an operation whose checked form yields a result. -/
def operandHint (f : ExprForm) (mode : ArithMode) (otherwise : Hint) : Read Hint := do
  match mode, ← f.hintElem with
  | .checked, some elem => return some elem
  | _, _ => return otherwise

/-- The type of an operation on a type in a mode. -/
def modeType (mode : ArithMode) (t : TypeId) : Read TypeId :=
  match mode with
  | .checked => withTypes fun pool => pool.result t
  | _ => return t

/-- The namespace of a state access. -/
def stateNamespace (f : ExprForm) : Read String :=
  match f.value.string? with
  | none => failMalformed f.span .namespaceEmpty
  | some ns =>
    if ns.isEmpty then failMalformed f.span .namespaceEmpty
    else if ns.toList.any fun c => c = ':' || c = '*' || c = '.' then
      failMalformed f.span .namespaceChars
    else return ns

/-- The key of a state access: an integer or a byte string. -/
def stateKey (f : ExprForm) (sub : SubReader) : Read Expr := do
  let v ← f.need "key"
  let key ← sub v (some Builtin.u64.id)
  let pool ← types
  if pool.isInteger key.type || pool.isBytes key.type then return key
  else failMalformed f.span .stateKey

/-- Two values of one type, the second of which is read for the type of the first. If only the first
is a literal without a type, the roles are exchanged. -/
def pair (sub : SubReader) (l r : Json) (hint : Hint) : Read (Expr × Expr) := do
  if isUntypedLiteral l && !isUntypedLiteral r then
    let b ← attempt (sub r hint)
    let a ← attempt (sub l (b.map (·.type)))
    match a, b with
    | some a, some b => return (a, b)
    | _, _ => failure
  else
    let a ← attempt (sub l hint)
    let b ← attempt (sub r (a.map (·.type)))
    match a, b with
    | some a, some b => return (a, b)
    | _, _ => failure

/-- Expressions for the types suggested to them; all are read even if one yields nothing. -/
def each (sub : SubReader) : List Json → List TypeId → Read (List Expr)
  | [], _ => return []
  | v :: vs, hints => do
    let e ← attempt (sub v hints.head?)
    let es ← attempt (each sub vs hints.tail)
    match e, es with
    | some e, some es => return e :: es
    | _, _ => failure

/-! ## Forms -/

/-- An integer literal. -/
def int (f : ExprForm) : Read Expr := do
  match textField? f.object "type" with
  | some name =>
    let t ← parseType name f.span
    readIntValue f.value (some t) f.span
  | none => readIntValue f.value f.hint f.span

/-- A byte string literal. -/
def bytes (f : ExprForm) : Read Expr :=
  complete f.span Builtin.bytes.id fun i => .bytes i (f.value.string?.getD "")

/-- The unit value. -/
def unit (f : ExprForm) : Read Expr := complete f.span Builtin.unit.id .unit

/-- The use of a binding. -/
def useOf (name : String) (span : Span) : Read Expr := do
  let sym ← lookup name span
  let s ← symbol sym
  complete span s.type fun i => .local i sym

/-- The use of a binding. -/
def «local» (f : ExprForm) : Read Expr := useOf (f.value.string?.getD "") f.span

/-- The spellings of the binary operators. -/
def binarySpellings : List (String × BinOp) :=
  [("+", .add), ("-", .sub), ("*", .mul), ("/", .div), ("%", .rem), ("<<", .shl), (">>", .shr),
   ("&", .and), ("|", .or), ("^", .xor), ("==", .eq), ("!=", .ne), ("<", .lt), ("<=", .le),
   (">", .gt), (">=", .ge)]

/-- A conjunction or disjunction. -/
def logical (f : ExprForm) (sub : SubReader) (isAnd : Bool) : Read Expr := do
  let (l, r) ← f.need2 "l" "r"
  let _ ← f.mode
  let a ← attempt (sub l (some Builtin.bool.id))
  let b ← attempt (sub r (some Builtin.bool.id))
  match a with
  | none => failure
  | some a =>
    expectType a Builtin.bool.id f.span
    match b with
    | none => failure
    | some b =>
      expectType b Builtin.bool.id f.span
      complete f.span Builtin.bool.id fun i => .logical i isAnd a b

/-- Checks the operand type and the mode of a comparison. -/
def checkCompare (f : ExprForm) (op : BinOp) (mode : ArithMode) (t : TypeId) : Read Unit := do
  let pool ← types
  let onBool := (op = .eq || op = .ne) && pool.isBool t
  if !pool.isInteger t && !onBool then failMalformed f.span .compareOperands
  else if mode ≠ .trap then failMalformed f.span .compareMode
  else return ()

/-- Checks the operand type and the mode of an arithmetic or bitwise operation. -/
def checkArith (f : ExprForm) (op : BinOp) (mode : ArithMode) (t : TypeId) : Read Unit := do
  let pool ← types
  if !pool.isInteger t then failMalformed f.span .arithOperands
  else if op.isBitwise && mode ≠ .trap then failMalformed f.span .bitwiseMode
  else return ()

/-- A binary operation on operands of one type. -/
def arithmetic (f : ExprForm) (sub : SubReader) (op : BinOp) : Read Expr := do
  let (l, r) ← f.need2 "l" "r"
  let mode ← f.mode
  let hint ← f.operandHint mode (if op.isCompare then none else f.hint)
  let (a, b) ← pair sub l r hint
  expectType b a.type f.span
  if op.isCompare then
    f.checkCompare op mode a.type
    complete f.span Builtin.bool.id fun i => .binary i op mode a b
  else
    f.checkArith op mode a.type
    let t ← modeType mode a.type
    complete f.span t fun i => .binary i op mode a b

/-- A binary operation. -/
def binary (f : ExprForm) (sub : SubReader) : Read Expr :=
  let op := f.value.string?.getD ""
  if op = "&&" then f.logical sub true
  else if op = "||" then f.logical sub false
  else
    match binarySpellings.lookup op with
    | some op => f.arithmetic sub op
    | none => failMalformed f.span (.binaryOperator op)

/-- An arithmetic negation. -/
def neg (f : ExprForm) (sub : SubReader) : Read Expr := do
  let mode ← f.mode
  let hint ← f.operandHint mode f.hint
  let a ← sub f.value hint
  let pool ← types
  if !pool.isInteger a.type then failMalformed f.span .negOperand
  else
    let t ← modeType mode a.type
    complete f.span t fun i => .unary i .neg mode a

/-- A negation of a truth value, or the complement of an integer. -/
def not (f : ExprForm) (sub : SubReader) : Read Expr := do
  let a ← sub f.value f.hint
  let pool ← types
  if pool.isBool a.type then complete f.span a.type fun i => .unary i .not .trap a
  else if pool.isInteger a.type then complete f.span a.type fun i => .unary i .bitNot .trap a
  else failMalformed f.span .notOperand

/-- A conversion. -/
def cast (f : ExprForm) (sub : SubReader) : Read Expr := do
  match textField? f.object "to" with
  | none => failMalformed f.span .castTarget
  | some name =>
    let target ← attempt (parseType name f.span)
    let mode ← attempt f.mode
    match target, mode with
    | some target, some mode =>
      let castMode ← match mode with
        | .trap => pure CastMode.trap
        | .wrapping => pure CastMode.wrapping
        | _ => failMalformed f.span .castMode
      let a ← sub f.value none
      let pool ← types
      if !pool.isInteger a.type || !pool.isInteger target then failMalformed f.span .castOperands
      else complete f.span target fun i => .cast i castMode a
    | _, _ => failure

/-- Checks the arguments of a call against the parameters, one after the other. -/
def checkArgs (f : ExprForm) : List Expr → List Param → Read Unit
  | a :: args, p :: params => do
    expectType a p.type f.span
    if p.pass = .exclusive ∧ a.local? = none then failWith .notAPlace a.span [p.name]
    else checkArgs f args params
  | _, _ => return ()

/-- A call. -/
def call (f : ExprForm) (sub : SubReader) (ctx : ReadContext) : Read Expr := do
  let name := f.value.string?.getD ""
  match findFunction? ctx.functions name with
  | none => failWith .unknownName f.span [name]
  | some fid =>
    let callee := ctx.functions.getD fid default
    let items := (arrayField? f.object "args").getD []
    if items.length ≠ callee.params.length then
      failWith .argCountMismatch f.span
        [callee.name, toString callee.params.length, toString items.length]
    else
      let args ← each sub items (callee.params.map (·.type))
      f.checkArgs args callee.params
      complete f.span callee.ret fun i => .call i fid args

/-- An access to a field. -/
def field (f : ExprForm) (sub : SubReader) : Read Expr := do
  match textField? f.object "name" with
  | none => failMalformed f.span .fieldName
  | some name =>
    let base ← sub f.value none
    let pool ← types
    match pool.structDecl? base.type with
    | none => failMalformed f.span .fieldOfNonStruct
    | some decl =>
      match decl.fields.zipIdx.find? (·.1.1 == name) with
      | some ((_, t), index) => complete f.span t fun i => .field i name index base
      | none => failWith .unknownName f.span [name]

/-- Checks expressions against types, one after the other. -/
def checkTypes (f : ExprForm) : List Expr → List TypeId → Read Unit
  | e :: es, t :: ts => do
    expectType e t f.span
    checkTypes f es ts
  | _, _ => return ()

/-- A struct value. -/
def struct (f : ExprForm) (sub : SubReader) : Read Expr := do
  let name := f.value.string?.getD ""
  let pool ← types
  match pool.findStruct? name with
  | none => failWith .unknownType f.span [name]
  | some st =>
    let fields := ((pool.structDecl? st).map (·.fields)).getD []
    let items := (arrayField? f.object "fields").getD []
    if items.length ≠ fields.length then
      failWith .argCountMismatch f.span [name, toString fields.length, toString items.length]
    else
      let types := fields.map (·.2)
      let es ← each sub items types
      f.checkTypes es types
      complete f.span st fun i => .struct i es

/-- A choice between two values. -/
def select (f : ExprForm) (sub : SubReader) : Read Expr := do
  let (t, e) ← f.need2 "then" "else"
  let cond ← sub f.value (some Builtin.bool.id)
  expectType cond Builtin.bool.id f.span
  let (a, b) ← pair sub t e f.hint
  expectType b a.type f.span
  complete f.span a.type fun i => .select i cond a b

/-- The type of the value that a state access yields. -/
def stateValueType (f : ExprForm) : Read TypeId := do
  let type ← match textField? f.object "type" with
    | some name => do
      let t ← parseType name f.span
      pure (some t)
    | none => f.hintElem
  let pool ← types
  match type with
  | some t => if pool.isStateValue t then return t else failMalformed f.span .stateValue
  | none => failMalformed f.span .stateValue

/-- A read of state. -/
def stateGet (f : ExprForm) (sub : SubReader) : Read Expr := do
  let ns ← f.stateNamespace
  let type ← f.stateValueType
  let key ← f.stateKey sub
  let t ← withTypes fun pool => pool.result type
  complete f.span t fun i => .stateGet i ns key

/-- A write of state. -/
def statePut (f : ExprForm) (sub : SubReader) : Read Expr := do
  let ns ← f.stateNamespace
  let v ← f.need "value"
  let key ← f.stateKey sub
  let value ← sub v none
  let pool ← types
  if !pool.isStateValue value.type then failMalformed f.span .stateValue
  else complete f.span Builtin.unit.id fun i => .statePut i ns key value

/-- A test for state. -/
def stateHas (f : ExprForm) (sub : SubReader) : Read Expr := do
  let ns ← f.stateNamespace
  let key ← f.stateKey sub
  complete f.span Builtin.bool.id fun i => .stateHas i ns key

/-- The names of the context queries, with the types of their answers. -/
def contextQueries : List (String × ContextQuery × Builtin) :=
  [("caller", .caller, .bytes), ("self", .self, .bytes), ("block_height", .blockHeight, .u64),
   ("timestamp", .timestamp, .u64), ("call_value", .callValue, .u64)]

/-- A context query. -/
def context (f : ExprForm) : Read Expr :=
  let name := f.value.string?.getD ""
  match contextQueries.lookup name with
  | some (query, type) => complete f.span type.id fun i => .context i query
  | none => failMalformed f.span (.contextQuery name)

/-- The digest of a byte string. -/
def digest (f : ExprForm) (sub : SubReader) : Read Expr := do
  let a ← sub f.value (some Builtin.bytes.id)
  expectType a Builtin.bytes.id f.span
  complete f.span Builtin.bytes.id fun i => .digest i a

/-- The length of a byte string. -/
def length (f : ExprForm) (sub : SubReader) : Read Expr := do
  let a ← sub f.value (some Builtin.bytes.id)
  expectType a Builtin.bytes.id f.span
  complete f.span Builtin.u64.id fun i => .length i a

/-- The emission of an event. -/
def emit (f : ExprForm) (sub : SubReader) : Read Expr := do
  let args ← each sub ((arrayField? f.object "args").getD []) []
  let pool ← types
  if !args.all fun a => pool.isStateValue a.type then failMalformed f.span .eventPayload
  else complete f.span Builtin.unit.id fun i => .emit i (f.value.string?.getD "") args

/-- An operation on a result. -/
def result (f : ExprForm) (sub : SubReader) (op : ResultOp) : Read Expr := do
  let a ← sub f.value none
  let pool ← types
  match pool.resultElem? a.type with
  | none => failMalformed f.span .resultOperand
  | some elem =>
    let type := match op with
      | .isOk => Builtin.bool.id
      | .unwrap => elem
      | .code => Builtin.i32.id
    complete f.span type fun i => .result i op a

/-- A successful result. -/
def ok (f : ExprForm) (sub : SubReader) : Read Expr := do
  let a ← sub f.value (← f.hintElem)
  let t ← withTypes fun pool => pool.result a.type
  complete f.span t fun i => .ok i a

/-- An error result. -/
def err (f : ExprForm) (sub : SubReader) : Read Expr := do
  let type ← match textField? f.object "type" with
    | some name => do
      let t ← parseType name f.span
      let r ← withTypes fun pool => pool.result t
      pure (some r)
    | none => pure f.hint
  let pool ← types
  match type with
  | none => failMalformed f.span .errType
  | some t =>
    if (pool.resultElem? t).isNone then failMalformed f.span .errType
    else
      let a ← sub f.value (some Builtin.i32.id)
      expectType a Builtin.i32.id f.span
      complete f.span t fun i => .err i a

/-! ## All forms -/

/-- A form of expressions: the key that tells it, whether the key's value has to be a text, and its
reader. -/
structure Rule where
  key : String
  needsText : Bool := false
  read : ReadContext → SubReader → ExprForm → Read Expr

/-- The forms in the order in which their keys are looked for. -/
def rules : List Rule :=
  [{ key := "int", read := fun _ _ f => f.int },
   { key := "bytes", needsText := true, read := fun _ _ f => f.bytes },
   { key := "unit", read := fun _ _ f => f.unit },
   { key := "local", needsText := true, read := fun _ _ f => f.local },
   { key := "bin", needsText := true, read := fun _ sub f => f.binary sub },
   { key := "neg", read := fun _ sub f => f.neg sub },
   { key := "not", read := fun _ sub f => f.not sub },
   { key := "cast", read := fun _ sub f => f.cast sub },
   { key := "call", needsText := true, read := fun ctx sub f => f.call sub ctx },
   { key := "field", read := fun _ sub f => f.field sub },
   { key := "struct", needsText := true, read := fun _ sub f => f.struct sub },
   { key := "select", read := fun _ sub f => f.select sub },
   { key := "get", read := fun _ sub f => f.stateGet sub },
   { key := "put", read := fun _ sub f => f.statePut sub },
   { key := "has", read := fun _ sub f => f.stateHas sub },
   { key := "ctx", needsText := true, read := fun _ _ f => f.context },
   { key := "digest", read := fun _ sub f => f.digest sub },
   { key := "len", read := fun _ sub f => f.length sub },
   { key := "emit", needsText := true, read := fun _ sub f => f.emit sub },
   { key := "is_ok", read := fun _ sub f => f.result sub .isOk },
   { key := "unwrap", read := fun _ sub f => f.result sub .unwrap },
   { key := "code", read := fun _ sub f => f.result sub .code },
   { key := "ok", read := fun _ sub f => f.ok sub },
   { key := "err", read := fun _ sub f => f.err sub }]

/-- The value of a rule's key, if the rule applies to an object. -/
def Rule.value? (r : Rule) (o : Json) : Option Json :=
  (o.field? r.key).filter fun v => !r.needsText || v.string?.isSome

/-- Reads an object by the first rule that applies to it. -/
def readObject (ctx : ReadContext) (sub : SubReader) (o : Json) (hint : Hint) : Read Expr :=
  let span := spanOf ctx.file o
  match rules.findSome? fun r => (r.value? o).map fun v => (r, v) with
  | some (r, value) => r.read ctx sub { object := o, value, span, hint }
  | none => failMalformed span .unknownExpr

end ExprForm

open Read ExprForm in
/-- Reads an expression; the fuel bounds the nesting. -/
def readExpr (ctx : ReadContext) : Nat → Json → Hint → Read Expr
  | 0, _, _ => failure
  | fuel + 1, v, hint =>
    let start : Span := { file := ctx.file }
    match v with
    | .number _ => readIntValue v hint start
    | .bool b => complete start Builtin.bool.id fun i => .bool i b
    | .string name => useOf name start
    | .object _ => readObject ctx (readExpr ctx fuel) v hint
    | _ => failMalformed start .exprForm

end ContractCompiler.Hir
