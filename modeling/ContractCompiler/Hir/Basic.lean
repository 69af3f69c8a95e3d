import ContractCompiler.Domain.Annotation
import ContractCompiler.Host.Interface
import ContractCompiler.Operator
import ContractCompiler.Types

/-!
# Typed programs

The high-level form of a contract: functions whose bodies are trees of statements and expressions.
Names are resolved to symbols and every expression carries its type.

- `Expr`, `Stmt`: expressions and statements;
- `Function`, `Module`: functions and the contract they make up;
- `AccessKind`: how a use of a binding accesses it, recorded by the ownership check.
-/

namespace ContractCompiler.Hir

/-- The number of a binding among all bindings of a module. -/
abbrev SymbolId := Nat

/-- The number of a function in a module. -/
abbrev FuncId := Nat

/-- The number of an expression, counted in the order in which expressions were completed. -/
abbrev ExprId := Nat

/-- How an argument is passed. -/
inductive PassMode where
  /-- By value. -/
  | owned
  /-- As a read-only borrow. -/
  | shared
  /-- As an exclusive borrow. -/
  | exclusive
deriving DecidableEq, Repr, Inhabited

/-- The word for a pass mode. -/
def PassMode.name : PassMode → String
  | .owned => "own"
  | .shared => "ref"
  | .exclusive => "mut"

/-- How a use of a binding accesses it. -/
inductive AccessKind where
  | none | copy | move | shared | exclusive
deriving DecidableEq, Repr, Inhabited

/-- The word for an access. -/
def AccessKind.name : AccessKind → String
  | .none => "none"
  | .copy => "copy"
  | .move => "move"
  | .shared => "shared"
  | .exclusive => "exclusive"

/-- What every expression carries. -/
structure ExprInfo where
  id : ExprId
  span : Span
  type : TypeId
deriving DecidableEq, Repr, Inhabited

/-- The operators that take one operand and neither fail by themselves nor touch the host. -/
inductive ResultOp where
  /-- Whether a result is a success. -/
  | isOk
  /-- The payload of a success; an error stops the execution. -/
  | unwrap
  /-- The status code of a result. -/
  | code
deriving DecidableEq, Repr, Inhabited

/-- Expressions. -/
inductive Expr where
  | int (info : ExprInfo) (bits : UInt64)
  | bool (info : ExprInfo) (value : Bool)
  | bytes (info : ExprInfo) (value : String)
  | unit (info : ExprInfo)
  | «local» (info : ExprInfo) (sym : SymbolId)
  | unary (info : ExprInfo) (op : UnOp) (mode : ArithMode) (operand : Expr)
  | binary (info : ExprInfo) (op : BinOp) (mode : ArithMode) (left right : Expr)
  /-- Conjunction or disjunction; the right operand is evaluated only if the left one leaves it
  open. -/
  | logical (info : ExprInfo) (isAnd : Bool) (left right : Expr)
  | cast (info : ExprInfo) (mode : CastMode) (operand : Expr)
  | call (info : ExprInfo) (callee : FuncId) (args : List Expr)
  | field (info : ExprInfo) (name : String) (index : Nat) (base : Expr)
  | struct (info : ExprInfo) (fields : List Expr)
  | select (info : ExprInfo) (cond onTrue onFalse : Expr)
  | ok (info : ExprInfo) (payload : Expr)
  | err (info : ExprInfo) (code : Expr)
  | result (info : ExprInfo) (op : ResultOp) (operand : Expr)
  | length (info : ExprInfo) (operand : Expr)
  | stateGet (info : ExprInfo) (ns : String) (key : Expr)
  | statePut (info : ExprInfo) (ns : String) (key value : Expr)
  | stateHas (info : ExprInfo) (ns : String) (key : Expr)
  | context (info : ExprInfo) (query : ContextQuery)
  | digest (info : ExprInfo) (operand : Expr)
  | emit (info : ExprInfo) (topic : String) (args : List Expr)
deriving Inhabited

namespace Expr

/-- What an expression carries. -/
def info : Expr → ExprInfo
  | .int i _ | .bool i _ | .bytes i _ | .unit i | .local i _ | .unary i _ _ _ | .binary i _ _ _ _
  | .logical i _ _ _ | .cast i _ _ | .call i _ _ | .field i _ _ _ | .struct i _ | .select i _ _ _
  | .ok i _ | .err i _ | .result i _ _ | .length i _ | .stateGet i _ _ | .statePut i _ _ _
  | .stateHas i _ _ | .context i _ | .digest i _ | .emit i _ _ => i

/-- The number of an expression. -/
def id (e : Expr) : ExprId := e.info.id

/-- The place of an expression. -/
def span (e : Expr) : Span := e.info.span

/-- The type of an expression. -/
def type (e : Expr) : TypeId := e.info.type

/-- The binding that an expression names, if it is a name. -/
def local? : Expr → Option SymbolId
  | .local _ sym => some sym
  | _ => none

end Expr

/-- Statements. -/
inductive Stmt where
  | expr (span : Span) (e : Expr)
  /-- Introduces a binding. -/
  | bind (span : Span) (sym : SymbolId) (init : Expr)
  /-- Assigns to a binding, or to one field of it. -/
  | assign (span : Span) (sym : SymbolId) (field : Option Nat) (value : Expr)
  | ite (span : Span) (cond : Expr) (thenBody : List Stmt) (hasElse : Bool) (elseBody : List Stmt)
  | loop (span : Span) (cond : Expr) (body : List Stmt)
  | ret (span : Span) (value : Option Expr)
  | stop (span : Span)
  | next (span : Span)
  /-- Turns the call down unless a condition holds. -/
  | require (span : Span) (cond : Expr) (message : String)
  /-- Turns the call down. -/
  | revert (span : Span) (message : String)
  /-- Gives up. -/
  | panic (span : Span) (message : String)
deriving Inhabited

/-- A binding. -/
structure Symbol where
  name : String
  type : TypeId
  mutable : Bool := false
  /-- How the binding was passed, if it is a parameter. -/
  pass : Option PassMode := none
  declSpan : Span := {}
deriving DecidableEq, Repr, Inhabited

/-- A parameter. -/
structure Param where
  name : String
  type : TypeId
  pass : PassMode := .owned
  mutable : Bool := false
  /-- The binding of the parameter in the body. -/
  sym : SymbolId := 0
  span : Span := {}
deriving DecidableEq, Repr, Inhabited

/-- A function. -/
structure Function where
  name : String
  span : Span := {}
  ret : TypeId
  isPublic : Bool := false
  isPayable : Bool := false
  attrs : List Attribute := []
  params : List Param := []
  body : List Stmt := []
deriving Inhabited

/-- A contract. -/
structure Module where
  unit : String := ""
  functions : Array Function := #[]
  symbols : Array Symbol := #[]
  /-- How many statements were read. -/
  stmtCount : Nat := 0
  /-- How many expressions were read. -/
  exprCount : Nat := 0
deriving Inhabited

/-- The number of the first function of a name. -/
def findFunction? (functions : Array Function) (name : String) : Option FuncId :=
  (functions.findFinIdx? (·.name == name)).map (·.val)

/-! ## Traversals -/

mutual

/-- The uses of bindings in an expression, in the order of the text. -/
def Expr.uses : Expr → List (ExprId × SymbolId)
  | .int _ _ | .bool _ _ | .bytes _ _ | .unit _ | .context _ _ => []
  | .local i sym => [(i.id, sym)]
  | .unary _ _ _ a | .cast _ _ a | .field _ _ _ a | .ok _ a | .err _ a | .result _ _ a | .length _ a
  | .stateGet _ _ a | .stateHas _ _ a | .digest _ a => a.uses
  | .binary _ _ _ a b | .logical _ _ a b | .statePut _ _ a b => a.uses ++ b.uses
  | .select _ c t e => c.uses ++ t.uses ++ e.uses
  | .call _ _ args | .struct _ args | .emit _ _ args => usesOfExprs args

/-- The uses of bindings in a list of expressions. -/
def usesOfExprs : List Expr → List (ExprId × SymbolId)
  | [] => []
  | e :: es => e.uses ++ usesOfExprs es

end

mutual

/-- The uses of bindings in a statement, in the order of the text. -/
def Stmt.uses : Stmt → List (ExprId × SymbolId)
  | .expr _ e | .bind _ _ e | .assign _ _ _ e | .require _ e _ => e.uses
  | .ite _ c t _ e => c.uses ++ usesOfStmts t ++ usesOfStmts e
  | .loop _ c body => c.uses ++ usesOfStmts body
  | .ret _ (some e) => e.uses
  | .ret _ none | .stop _ | .next _ | .revert _ _ | .panic _ _ => []

/-- The uses of bindings in a block. -/
def usesOfStmts : List Stmt → List (ExprId × SymbolId)
  | [] => []
  | s :: ss => s.uses ++ usesOfStmts ss

end

namespace Module

/-- All uses of bindings in the order of the expressions' numbers. -/
def uses (m : Module) : List (ExprId × SymbolId) :=
  (m.functions.toList.flatMap fun f => usesOfStmts f.body).mergeSort fun a b => a.1 ≤ b.1

/-- The name of a binding. -/
def symbolName (m : Module) (sym : SymbolId) : String := (m.symbols[sym]?.map (·.name)).getD ""

/-- The type of a binding. -/
def symbolType (m : Module) (sym : SymbolId) : TypeId :=
  (m.symbols[sym]?.map (·.type)).getD TypeId.invalid

end Module

end ContractCompiler.Hir
