import ContractCompiler.Hir.Basic

/-!
# The calls of a program

- `Expr.calls`: the calls in an expression;
- `Stmt.ends`: nothing follows a statement;
- `Stmt.calls`, `callsOfBlock`: the calls in statements that can be reached.
-/

namespace ContractCompiler.Hir

mutual

/-- The calls in an expression, each with its arguments. -/
def Expr.calls : Expr → List (FuncId × List Expr)
  | .int _ _ | .bool _ _ | .bytes _ _ | .unit _ | .local _ _ | .context _ _ => []
  | .unary _ _ _ a | .cast _ _ a | .field _ _ _ a | .ok _ a | .err _ a | .result _ _ a | .length _ a
  | .stateGet _ _ a | .stateHas _ _ a | .digest _ a => a.calls
  | .binary _ _ _ a b | .logical _ _ a b | .statePut _ _ a b => a.calls ++ b.calls
  | .select _ c t e => c.calls ++ t.calls ++ e.calls
  | .call _ callee args => (callee, args) :: callsOfExprs args
  | .struct _ args | .emit _ _ args => callsOfExprs args

/-- The calls in a list of expressions. -/
def callsOfExprs : List Expr → List (FuncId × List Expr)
  | [] => []
  | e :: es => e.calls ++ callsOfExprs es

end

mutual

/-- Whether control does not get past a statement. -/
def Stmt.ends : Stmt → Bool
  | .expr _ _ | .bind _ _ _ | .assign _ _ _ _ | .loop _ _ _ | .require _ _ _ => false
  | .ite _ _ t hasElse e => hasElse && blockEnds t && blockEnds e
  | .ret _ _ | .stop _ | .next _ | .revert _ _ | .panic _ _ => true

/-- Whether control does not get to the end of a block. -/
def blockEnds : List Stmt → Bool
  | [] => false
  | s :: ss => s.ends || blockEnds ss

end

mutual

/-- The calls in a statement. -/
def Stmt.calls : Stmt → List (FuncId × List Expr)
  | .expr _ e | .bind _ _ e | .assign _ _ _ e | .require _ e _ => e.calls
  | .ite _ c t hasElse e => c.calls ++ callsOfBlock t ++ if hasElse then callsOfBlock e else []
  | .loop _ c body => c.calls ++ callsOfBlock body
  | .ret _ (some e) => e.calls
  | .ret _ none | .stop _ | .next _ | .revert _ _ | .panic _ _ => []

/-- The calls in the statements of a block that control gets to. -/
def callsOfBlock : List Stmt → List (FuncId × List Expr)
  | [] => []
  | s :: ss => s.calls ++ if s.ends then [] else callsOfBlock ss

end

end ContractCompiler.Hir
