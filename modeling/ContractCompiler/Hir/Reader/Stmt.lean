import ContractCompiler.Hir.Reader.Expr

/-!
# Reading statements

A statement is an object whose form is told by the first of the known keys that it has; an object
with none of them is read as an expression. A statement that cannot be read is left out of its
block, after its fault has been reported.
-/

namespace ContractCompiler.Hir

variable [Json.Library]

/-- An object being read as a statement. -/
structure StmtForm where
  object : Json
  span : Span

/-- The readers of what a statement is made of. -/
structure StmtParts where
  ctx : ReadContext
  expr : SubReader
  /-- Reads a block in a context. -/
  block : ReadContext → List Json → Read (List Stmt)

namespace StmtForm

open Read

/-- A binding. -/
def bind (f : StmtForm) (parts : StmtParts) : Read Stmt := do
  let mutable := (f.object.field? "var").isSome
  match textField? f.object (if mutable then "var" else "let"), f.object.field? "init" with
  | some name, some init =>
    let declared ← match textField? f.object "type" with
      | some text => do
        let t ← parseType text f.span
        pure (some t)
      | none => pure none
    let e ← parts.expr init declared
    match declared with
    | some t => expectType e t f.span
    | none => pure ()
    let pool ← types
    if pool.isUnit e.type then failMalformed f.span .bindingUnit
    else
      let sym ← declare { name, type := e.type, mutable, declSpan := f.span }
      return .bind f.span sym e
  | _, _ => failMalformed f.span .bindingIncomplete

/-- The field that an assignment names, with its type. -/
def assignedField (f : StmtForm) (type : TypeId) : Read (Option Nat × TypeId) :=
  match textField? f.object "field" with
  | none => return (none, type)
  | some name => do
    let pool ← types
    match pool.structDecl? type with
    | none => failMalformed f.span .setFieldOfNonStruct
    | some decl =>
      match decl.fields.zipIdx.find? (·.1.1 == name) with
      | some ((_, t), index) => return (some index, t)
      | none => failWith .unknownName f.span [name]

/-- An assignment to the binding of a name. -/
def assign (f : StmtForm) (parts : StmtParts) (name : String) : Read Stmt := do
  let sym ← lookup name f.span
  match f.object.field? "value" with
  | none => failMalformed f.span .setWithoutValue
  | some value =>
    let s ← symbol sym
    let (field, type) ← f.assignedField s.type
    let e ← parts.expr value (some type)
    expectType e type f.span
    return .assign f.span sym field e

/-- A condition. -/
def condition (f : StmtForm) (parts : StmtParts) (v : Json) : Read Expr := do
  let e ← parts.expr v (some Builtin.bool.id)
  expectType e Builtin.bool.id f.span
  return e

/-- A block that the statement needs. -/
def childBlock (f : StmtForm) (parts : StmtParts) (ctx : ReadContext) (key : String) :
    Read (List Stmt) :=
  match arrayField? f.object key with
  | some items => parts.block ctx items
  | none => failMalformed f.span (.missingBlock key)

/-- A branch. The second block is read even if the first one is missing. -/
def ite (f : StmtForm) (parts : StmtParts) (v : Json) : Read Stmt := do
  let cond ← f.condition parts v
  let thenBody ← attempt (f.childBlock parts parts.ctx "then")
  let elseBody ← match arrayField? f.object "else" with
    | some items => do
      let b ← parts.block parts.ctx items
      pure (some b)
    | none => pure none
  match thenBody with
  | some thenBody => return .ite f.span cond thenBody elseBody.isSome (elseBody.getD [])
  | none => failure

/-- A loop. -/
def loop (f : StmtForm) (parts : StmtParts) (v : Json) : Read Stmt := do
  let cond ← f.condition parts v
  let inside := { parts.ctx with loopDepth := parts.ctx.loopDepth + 1 }
  let body ← f.childBlock parts inside "body"
  return .loop f.span cond body

/-- A return, with a value unless there is none to return. -/
def ret (f : StmtForm) (parts : StmtParts) (v : Json) : Read Stmt := do
  match v with
  | .null =>
    let pool ← types
    if pool.isUnit parts.ctx.ret then return .ret f.span none
    else mismatch f.span parts.ctx.ret Builtin.unit.id
  | v =>
    let e ← parts.expr v (some parts.ctx.ret)
    expectType e parts.ctx.ret f.span
    return .ret f.span (some e)

/-- The end of a loop or of one round of it. -/
def jump (f : StmtForm) (parts : StmtParts) : Read Stmt :=
  if parts.ctx.loopDepth = 0 then failMalformed f.span .jumpOutsideLoop
  else if (f.object.field? "break").isSome then return .stop f.span
  else return .next f.span

/-- A requirement. -/
def require (f : StmtForm) (parts : StmtParts) (v : Json) : Read Stmt := do
  let cond ← f.condition parts v
  return .require f.span cond ((textField? f.object "msg").getD "requirement failed")

/-- The end of the execution. -/
def abort (f : StmtForm) : Read Stmt :=
  if (f.object.field? "panic").isSome then
    return .panic f.span ((textField? f.object "panic").getD "")
  else return .revert f.span ((textField? f.object "revert").getD "")

/-- Whether a key is there. -/
def has (f : StmtForm) (key : String) : Bool := (f.object.field? key).isSome

/-- Reads an object by the first form that applies to it. -/
def read (f : StmtForm) (parts : StmtParts) : Read Stmt := do
  if f.has "let" || f.has "var" then f.bind parts
  else if let some name := textField? f.object "set" then f.assign parts name
  else if let some v := f.object.field? "if" then f.ite parts v
  else if let some v := f.object.field? "while" then f.loop parts v
  else if let some v := f.object.field? "return" then f.ret parts v
  else if f.has "break" || f.has "continue" then f.jump parts
  else if let some v := f.object.field? "require" then f.require parts v
  else if f.has "revert" || f.has "panic" then f.abort
  else
    let e ← parts.expr ((f.object.field? "do").getD f.object) none
    return .expr f.span e

end StmtForm

open Read in
/-- Reads the statements of a block, leaving out those that cannot be read. -/
def readStmts (read : Json → Read Stmt) : List Json → Read (List Stmt)
  | [] => return []
  | v :: vs => do
    let s ← attempt (read v)
    modify fun state => { state with stmtCount := state.stmtCount + s.toList.length }
    let ss ← readStmts read vs
    return s.toList ++ ss

open Read in
/-- Reads a statement; the fuel bounds the nesting. What a block binds is out of sight after it. -/
def readStmt : Nat → ReadContext → Json → Read Stmt
  | 0, _, _ => failure
  | fuel + 1, ctx, v =>
    match v with
    | .object _ =>
      let form : StmtForm := { object := v, span := spanOf ctx.file v }
      form.read
        { ctx
          expr := readExpr ctx (fuel + 1)
          block := fun ctx items => inScope (readStmts (readStmt fuel ctx) items) }
    | _ => failMalformed { file := ctx.file } .stmtNotAnObject

/-- Reads a block. -/
def readBlock (fuel : Nat) (ctx : ReadContext) (items : List Json) : Read (List Stmt) :=
  Read.inScope (readStmts (readStmt fuel ctx) items)

end ContractCompiler.Hir
