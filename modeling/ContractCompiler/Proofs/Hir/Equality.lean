import ContractCompiler.Hir.Basic

/-!
# Equality of programs

Whether two programs are the same can be computed: they are compared from the outside to the inside.
With this, what is read of a document can be compared with a program that is written down.

- `Expr.same`, `Stmt.same`: the comparison of expressions and of statements;
- `Expr.eq_of_same`, `Stmt.eq_of_same`: only what is the same is taken for the same.
-/

namespace ContractCompiler.Hir

/-! ## Expressions -/

mutual

/-- Whether two expressions are the same. -/
def Expr.same : Expr → Expr → Bool
  | .int i x, .int j y => i == j && x == y
  | .bool i x, .bool j y => i == j && x == y
  | .bytes i x, .bytes j y => i == j && x == y
  | .unit i, .unit j => i == j
  | .local i x, .local j y => i == j && x == y
  | .unary i op mode a, .unary j op' mode' a' =>
    i == j && op == op' && mode == mode' && a.same a'
  | .binary i op mode a b, .binary j op' mode' a' b' =>
    i == j && op == op' && mode == mode' && a.same a' && b.same b'
  | .logical i x a b, .logical j y a' b' => i == j && x == y && a.same a' && b.same b'
  | .cast i mode a, .cast j mode' a' => i == j && mode == mode' && a.same a'
  | .call i f as, .call j g bs => i == j && f == g && sameExprs as bs
  | .field i n k a, .field j n' k' a' => i == j && n == n' && k == k' && a.same a'
  | .struct i as, .struct j bs => i == j && sameExprs as bs
  | .select i c t e, .select j c' t' e' => i == j && c.same c' && t.same t' && e.same e'
  | .ok i a, .ok j a' => i == j && a.same a'
  | .err i a, .err j a' => i == j && a.same a'
  | .result i op a, .result j op' a' => i == j && op == op' && a.same a'
  | .length i a, .length j a' => i == j && a.same a'
  | .stateGet i ns k, .stateGet j ns' k' => i == j && ns == ns' && k.same k'
  | .statePut i ns k v, .statePut j ns' k' v' => i == j && ns == ns' && k.same k' && v.same v'
  | .stateHas i ns k, .stateHas j ns' k' => i == j && ns == ns' && k.same k'
  | .context i q, .context j q' => i == j && q == q'
  | .digest i a, .digest j a' => i == j && a.same a'
  | .emit i t as, .emit j t' bs => i == j && t == t' && sameExprs as bs
  | _, _ => false

/-- Whether two lists of expressions are the same. -/
def sameExprs : List Expr → List Expr → Bool
  | [], [] => true
  | a :: as, b :: bs => a.same b && sameExprs as bs
  | _, _ => false

end

theorem Expr.eq_of_same {a b : Expr} (h : a.same b = true) : a = b := by
  induction a, b using Expr.same.induct
    (motive_2 := fun as bs => sameExprs as bs = true → as = bs) <;>
    simp_all [Expr.same, sameExprs]

theorem Expr.same_self (a : Expr) : a.same a = true := by
  induction a using Expr.rec (motive_2 := fun as => sameExprs as as = true) <;>
    simp_all [Expr.same, sameExprs]

instance : DecidableEq Expr := fun a b =>
  decidable_of_iff (a.same b = true) ⟨Expr.eq_of_same, fun h => h ▸ a.same_self⟩

/-! ## Statements -/

mutual

/-- Whether two statements are the same. -/
def Stmt.same : Stmt → Stmt → Bool
  | .expr s e, .expr s' e' => s == s' && e == e'
  | .bind s x e, .bind s' x' e' => s == s' && x == x' && e == e'
  | .assign s x f e, .assign s' x' f' e' => s == s' && x == x' && f == f' && e == e'
  | .ite s c t x e, .ite s' c' t' x' e' =>
    s == s' && c == c' && sameStmts t t' && x == x' && sameStmts e e'
  | .loop s c b, .loop s' c' b' => s == s' && c == c' && sameStmts b b'
  | .ret s e, .ret s' e' => s == s' && e == e'
  | .stop s, .stop s' => s == s'
  | .next s, .next s' => s == s'
  | .require s c text, .require s' c' text' => s == s' && c == c' && text == text'
  | .revert s text, .revert s' text' => s == s' && text == text'
  | .panic s text, .panic s' text' => s == s' && text == text'
  | _, _ => false

/-- Whether two lists of statements are the same. -/
def sameStmts : List Stmt → List Stmt → Bool
  | [], [] => true
  | a :: as, b :: bs => a.same b && sameStmts as bs
  | _, _ => false

end

theorem Stmt.eq_of_same {a b : Stmt} (h : a.same b = true) : a = b := by
  induction a, b using Stmt.same.induct
    (motive_2 := fun as bs => sameStmts as bs = true → as = bs) <;>
    simp_all [Stmt.same, sameStmts]

theorem Stmt.same_self (a : Stmt) : a.same a = true := by
  induction a using Stmt.rec (motive_2 := fun as => sameStmts as as = true) <;>
    simp_all [Stmt.same, sameStmts]

instance : DecidableEq Stmt := fun a b =>
  decidable_of_iff (a.same b = true) ⟨Stmt.eq_of_same, fun h => h ▸ a.same_self⟩

/-! ## Programs -/

deriving instance DecidableEq for Function

deriving instance DecidableEq for Module

deriving instance DecidableEq for TypePool

end ContractCompiler.Hir
