import ContractCompiler.Hir.Ownership

/-!
# The ownership check

What the steps of the check of a function leave alone, and what is known when there is no violation.

- `Checker.useExpr_of_failed`, `Checker.checkStmts_of_failed`: nothing is checked after a violation;
- `Checker.checkStmt_loop`: the two rounds of the check of a loop;
- `checkFunctions_at`: the outcome for a module is that of the checks of its functions.
-/

namespace ContractCompiler.Hir

namespace Checker

variable {m : Module} {types : TypePool} {c : Checker}

/-! ## Violations -/

@[simp] theorem failed_report (c : Checker) (m : Module) (cause : Cause) (span : Span)
    (sym : SymbolId) (details : List String) (related : Span) :
    (c.report m cause span sym details related).failed = true := by
  unfold report
  extract_lets d
  split
  · assumption
  · rfl

@[simp] theorem failed_record (c : Checker) (id : ExprId) (a : AccessKind) :
    (c.record id a).failed = c.failed := rfl

@[simp] theorem flow_record (c : Checker) (id : ExprId) (a : AccessKind) :
    (c.record id a).flow = c.flow := rfl

@[simp] theorem loops_record (c : Checker) (id : ExprId) (a : AccessKind) :
    (c.record id a).loops = c.loops := rfl

/-- Nothing is checked after a violation. -/
theorem useExpr_of_failed (h : c.failed = true) (e : Expr) (use : Use) :
    useExpr m types e use c = c := by
  unfold useExpr
  rw [if_pos h]

theorem useEach_of_failed (h : c.failed = true) (es : List Expr) (use : Use) :
    useEach m types es use c = c := by
  induction es with
  | nil => rfl
  | cons e es ih =>
    unfold useEach
    rw [useExpr_of_failed h, ih]

theorem useArgs_of_failed (h : c.failed = true) (args : List Expr) (params : List Param) :
    useArgs m types args params c = c := by
  unfold useArgs
  split
  · rw [if_pos h]
  · rfl

theorem not_failed_of_useExpr {e : Expr} {use : Use}
    (h : (useExpr m types e use c).failed = false) :
    c.failed = false := by
  refine Bool.eq_false_iff.mpr fun hfailed => ?_
  rw [useExpr_of_failed hfailed, hfailed] at h
  cases h

/-! ## What steps leave alone -/

section Frame

variable (c : Checker) (syms : List SymbolId) (scopes : List (List SymbolId)) (sym : SymbolId)
  (flow : Flow)

@[simp] theorem failed_openScope : (c.openScope syms).failed = c.failed := rfl
@[simp] theorem flow_openScope : (c.openScope syms).flow = c.flow := rfl
@[simp] theorem loops_openScope : (c.openScope syms).loops = c.loops := rfl
@[simp] theorem failed_closeScope : c.closeScope.failed = c.failed := rfl
@[simp] theorem flow_closeScope : c.closeScope.flow = c.flow := rfl
@[simp] theorem loops_closeScope : c.closeScope.loops = c.loops := rfl
@[simp] theorem failed_withFlow : (c.withFlow flow).failed = c.failed := rfl
@[simp] theorem flow_withFlow : (c.withFlow flow).flow = flow := rfl
@[simp] theorem loops_withFlow : (c.withFlow flow).loops = c.loops := rfl

@[simp] theorem failed_countDrops : (c.countDrops scopes).failed = c.failed := by
  unfold countDrops
  split <;> rfl

@[simp] theorem flow_countDrops : (c.countDrops scopes).flow = c.flow := by
  unfold countDrops
  split <;> rfl

@[simp] theorem loops_countDrops : (c.countDrops scopes).loops = c.loops := by
  unfold countDrops
  split <;> rfl

@[simp] theorem failed_own : (c.own sym).failed = c.failed := by
  unfold own
  split <;> rfl

@[simp] theorem flow_own : (c.own sym).flow = c.flow := by
  unfold own
  split <;> rfl

@[simp] theorem loops_own : (c.own sym).loops = c.loops := by
  unfold own
  split <;> rfl

end Frame

theorem loops_hold (c : Checker) (lasting : Bool) (b : Borrow) :
    (c.hold lasting b).loops = c.loops := by
  unfold hold
  split <;> rfl

theorem flow_hold (c : Checker) (lasting : Bool) (b : Borrow) :
    (c.hold lasting b).flow = c.flow := by
  unfold hold
  split <;> rfl

/-! ## Statements -/

theorem checkStmts_of_failed (h : c.failed = true) (ss : List Stmt) :
    checkStmts m types ss c = c := by
  unfold checkStmts
  split
  · rfl
  · rw [if_pos (by rw [h, Bool.true_or])]

/-- A block has a scope of its own, which has no part in what was moved. -/
theorem checkBlock_eq (ss : List Stmt) (c : Checker) :
    (checkBlock m types ss c).failed = (checkStmts m types ss (c.openScope [])).failed ∧
      (checkBlock m types ss c).flow = (checkStmts m types ss (c.openScope [])).flow ∧
      (checkBlock m types ss c).loops = (checkStmts m types ss (c.openScope [])).loops := by
  unfold checkBlock
  dsimp only
  split <;> simp

theorem not_failed_of_checkBlock {ss : List Stmt} (h : (checkBlock m types ss c).failed = false) :
    c.failed = false := by
  refine Bool.eq_false_iff.mpr fun hfailed => ?_
  replace hfailed : (c.openScope []).failed = true := hfailed
  rw [(checkBlock_eq ss c).1, checkStmts_of_failed hfailed, hfailed] at h
  cases h

/-- The two rounds of the check of a loop that has no violation. -/
theorem checkStmt_loop {span : Span} {cond : Expr} {body : List Stmt}
    (h : (checkStmt m types (.loop span cond body) c).failed = false) :
    ∃ c₁ c₂ exits₁ d₁ c₃ c₄ exits₂ d₂,
      useExpr m types cond .value { c with counting := false } = c₁ ∧
      checkBlock m types body { c₁ with loops := {} :: c₁.loops } = c₂ ∧
      c₂.leaveLoop = (exits₁, d₁) ∧ d₁.failed = false ∧
      useExpr m types cond .value
        { d₁ with counting := c.counting,
                  flow := c.flow.merge (exits₁.nexts.foldl Flow.merge d₁.flow) } = c₃ ∧
      checkBlock m types body { c₃ with loops := {} :: c₃.loops } = c₄ ∧
      c₄.leaveLoop = (exits₂, d₂) ∧ d₂.failed = false ∧
      checkStmt m types (.loop span cond body) c =
        d₂.withFlow (exits₂.stops.foldl Flow.merge c₃.flow) := by
  generalize hresult : checkStmt m types (.loop span cond body) c = result at h
  unfold checkStmt at hresult
  extract_lets before counting c₁ afterCond₁ c₂ at hresult
  split at hresult
  · rename_i hfailed
    subst hresult
    exact absurd (hfailed.symm.trans h) Bool.noConfusion
  split at hresult
  rename_i exits₁ d₁ hleave₁
  split at hresult
  · rename_i hfailed
    subst hresult
    exact absurd (hfailed.symm.trans h) Bool.noConfusion
  rename_i hd₁
  extract_lets back exit c₃ afterCond₂ c₄ at hresult
  split at hresult
  · rename_i hfailed
    subst hresult
    exact absurd (hfailed.symm.trans h) Bool.noConfusion
  split at hresult
  rename_i exits₂ d₂ hleave₂
  split at hresult
  · rename_i hfailed
    subst hresult
    exact absurd (hfailed.symm.trans h) Bool.noConfusion
  rename_i hd₂
  exact ⟨c₁, c₂, exits₁, d₁, c₃, c₄, exits₂, d₂, rfl, rfl, hleave₁,
    Bool.eq_false_iff.mpr hd₁, rfl, rfl,
    hleave₂, Bool.eq_false_iff.mpr hd₂, hresult.symm⟩

theorem leaveLoop_eq {exits : LoopExits} {rest : List LoopExits} (h : c.loops = exits :: rest) :
    c.leaveLoop = (exits, { c with loops := rest }) := by
  unfold leaveLoop
  rw [h]

theorem failed_leaveLoop (c : Checker) : c.leaveLoop.2.failed = c.failed := by
  unfold leaveLoop
  split <;> rfl

end Checker

/-! ## Functions -/

section Functions

variable {m : Module} {types : TypePool} {counting : Bool}

/-- One function adds its outcome. -/
theorem checkFunctions_cons (f : Function) (fs : List Function) (r : OwnershipResult) :
    ∃ r', checkFunctions m types counting (f :: fs) r = checkFunctions m types counting fs r' ∧
      r'.functionOk = r.functionOk.push
        (!(Checker.checkFunction m types f r.accesses counting).failed) ∧
      r'.drops = r.drops.push (Checker.checkFunction m types f r.accesses counting).drops :=
  ⟨_, rfl, rfl, rfl⟩

/-- Later functions do not change what was found about earlier ones. -/
theorem checkFunctions_of_lt {fs : List Function} {r : OwnershipResult} {i j : Nat}
    (hi : i < r.functionOk.size) (hj : j < r.drops.size) :
    (checkFunctions m types counting fs r).functionOk[i]? = r.functionOk[i]? ∧
      (checkFunctions m types counting fs r).drops[j]? = r.drops[j]? := by
  induction fs generalizing r with
  | nil => exact ⟨rfl, rfl⟩
  | cons f fs ih =>
    obtain ⟨r', heq, hok, hdrops⟩ := @checkFunctions_cons m types counting f fs r
    obtain ⟨ihok, ihdrops⟩ := @ih r' (by rw [hok, Array.size_push]; omega)
      (by rw [hdrops, Array.size_push]; omega)
    rw [heq, ihok, ihdrops, hok, hdrops, Array.getElem?_push_lt hi, Array.getElem?_push_lt hj]
    exact ⟨(Array.getElem?_eq_getElem hi).symm, (Array.getElem?_eq_getElem hj).symm⟩

/-- The outcome for a function is that of its own check. -/
theorem checkFunctions_at {fs : List Function} {r : OwnershipResult} {i : Nat} {f : Function}
    (hf : fs[i]? = some f) :
    ∃ accesses,
      (checkFunctions m types counting fs r).functionOk[r.functionOk.size + i]? =
          some (!(Checker.checkFunction m types f accesses counting).failed) ∧
        (checkFunctions m types counting fs r).drops[r.drops.size + i]? =
          some (Checker.checkFunction m types f accesses counting).drops := by
  induction fs generalizing r i with
  | nil => cases hf
  | cons f' fs ih =>
    obtain ⟨r', heq, hok, hdrops⟩ := @checkFunctions_cons m types counting f' fs r
    rw [heq]
    cases i with
    | zero =>
      obtain rfl : f' = f := Option.some.inj hf
      obtain ⟨hlast, hlast'⟩ := @checkFunctions_of_lt m types counting fs r' r.functionOk.size
        r.drops.size (by rw [hok, Array.size_push]; omega) (by rw [hdrops, Array.size_push]; omega)
      rw [Nat.add_zero, Nat.add_zero, hlast, hlast', hok, hdrops]
      exact ⟨r.accesses, Array.getElem?_push_size, Array.getElem?_push_size⟩
    | succ i =>
      obtain ⟨accesses, hat, hat'⟩ := @ih r' i hf
      rw [hok, Array.size_push, Nat.add_right_comm] at hat
      rw [hdrops, Array.size_push, Nat.add_right_comm] at hat'
      exact ⟨accesses, hat, hat'⟩

theorem functionOk_checkFunctions {fs : List Function} {r : OwnershipResult} {i : Nat}
    {f : Function} (hf : fs[i]? = some f)
    (hok : (checkFunctions m types counting fs r).functionOk[r.functionOk.size + i]? = some true) :
    ∃ accesses, (Checker.checkFunction m types f accesses counting).failed = false := by
  obtain ⟨accesses, hat, -⟩ := @checkFunctions_at m types counting fs r i f hf
  exact ⟨accesses, by simpa using hat.symm.trans hok⟩

end Functions

end ContractCompiler.Hir
