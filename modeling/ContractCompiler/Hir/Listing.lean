import ContractCompiler.Hir.Basic

/-!
# Listings of typed programs

`Module.listing` shows functions with their statements, one a line, indented by nesting. An access
recorded for the expression of a statement is shown beside it.
-/

namespace ContractCompiler.Hir

/-- The accesses recorded for expressions, by the expression's number. -/
abbrev Accesses := Array AccessKind

/-- The access recorded for an expression. -/
def Accesses.of (a : Accesses) (id : ExprId) : AccessKind := a.getD id .none

/-- Two spaces for every level. -/
def indentation (level : Nat) : String := String.ofList (List.replicate (2 * level) ' ')

variable (m : Module) (types : TypePool) (accesses : Accesses)

/-- The expression of a statement. -/
def exprListing (e : Expr) : String :=
  let access := accesses.of e.id
  s!" expr#{e.id} ty={types.typeName e.type}"
    ++ if access = .none then "" else s!" access={access.name}"

/-- The binding of a statement. -/
def symbolListing (sym : SymbolId) : String :=
  match m.symbols[sym]? with
  | some s => s!" {s.name}: {types.typeName s.type}" ++ if s.mutable then " mut" else ""
  | none => ""

/-- The message of a statement. -/
def messageListing (message : String) : String :=
  if message.isEmpty then "" else s!" msg=\"{message}\""

mutual

/-- The lines of a statement. -/
def stmtListing (level : Nat) : Stmt → String
  | .expr _ e => indentation level ++ "expr" ++ exprListing types accesses e ++ "\n"
  | .bind _ sym e =>
    indentation level ++ "let" ++ symbolListing m types sym ++ exprListing types accesses e ++ "\n"
  | .assign _ sym _ e =>
    indentation level ++ "set" ++ symbolListing m types sym ++ exprListing types accesses e ++ "\n"
  | .ite _ c t hasElse e =>
    indentation level ++ "if" ++ exprListing types accesses c ++ "\n" ++ blockListing (level + 1) t
      ++ if hasElse then indentation level ++ "else\n" ++ blockListing (level + 1) e else ""
  | .loop _ c body =>
    indentation level ++ "while" ++ exprListing types accesses c ++ "\n"
      ++ blockListing (level + 1) body
  | .ret _ value =>
    indentation level ++ "return" ++ (value.map (exprListing types accesses)).getD "" ++ "\n"
  | .stop _ => indentation level ++ "break\n"
  | .next _ => indentation level ++ "continue\n"
  | .require _ c message =>
    indentation level ++ "require" ++ exprListing types accesses c ++ messageListing message ++ "\n"
  | .revert _ message => indentation level ++ "revert" ++ messageListing message ++ "\n"
  | .panic _ message => indentation level ++ "panic" ++ messageListing message ++ "\n"

/-- The lines of a block. -/
def blockListing (level : Nat) : List Stmt → String
  | [] => ""
  | s :: ss => stmtListing level s ++ blockListing level ss

end

/-- A parameter. -/
def paramListing (p : Param) : String :=
  s!"{p.name}: {types.typeName p.type}" ++ if p.pass = .owned then "" else " " ++ p.pass.name

/-- The lines of a function. -/
def functionListing (f : Function) (index : Nat) : String :=
  let params := String.intercalate ", " (f.params.map (paramListing types))
  s!"\n  fn #{index} {f.name}({params}) -> {types.typeName f.ret}"
    ++ (if f.isPublic then " pub" else "") ++ (if f.isPayable then " payable" else "") ++ "\n"
    ++ String.join (f.attrs.map fun a => s!"    #[{a.text}]\n")
    ++ blockListing m types accesses 2 f.body

/-- The text of a module. -/
def Module.listing : String :=
  s!"\nHIR unit={m.unit} funcs={m.functions.size} stmts={m.stmtCount} exprs={m.exprCount}\n"
    ++ String.join (m.functions.toList.zipIdx.map fun (f, i) =>
      functionListing m types accesses f i)

end ContractCompiler.Hir
