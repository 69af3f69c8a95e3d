import ContractCompiler.Proofs.Hir.Lending
import Mathlib.Algebra.Order.Group.Nat

/-!
# The drops that are counted

Scopes are left at the end of a block, at a return, which leaves all of them, and at a jump out of a
loop or to its next round, which leaves those inside the loop. What a scope still owns where it is
left is dropped there. A function that passes the ownership check counts one drop for each value
owned at a block's end or a return that is reached, once however deep it stands in loops: of the
rounds through which a loop is checked, the last one counts. Jumps count nothing, so the values
owned there are missing from the count.

- `ScopeExit`, `ScopeExit.owned`: where scopes are left, and what they own there;
- `Checker.blockExits`: the points where scopes are left in a block, as the check reaches them;
- `Checker.KeepsDrops`, `Checker.keepsDrops_useExpr`: expressions drop nothing;
- `Checker.Drops`, `Checker.drops_checkBlock`: what a block adds to the count;
- `drops_checkOwnership`: what is counted for each function without a violation;
- `drops_bindAndStop`: a value that is owned at a jump, and is not counted.
-/

namespace ContractCompiler.Hir

/-- A point where scopes are left. -/
structure ScopeExit where
  /-- The bindings declared so far in the scopes that are left. -/
  scopes : List (List SymbolId)
  flow : Flow
  /-- Whether it is a jump out of a loop or to its next round. -/
  jump : Bool := false

/-- The bindings of the scopes left at a point that still own a value there. -/
def ScopeExit.owned (x : ScopeExit) : List SymbolId :=
  x.scopes.flatten.filter fun sym => (x.flow.movedAt? sym).isNone

/-- What is dropped at several points, one by one. -/
def droppedAt (exits : List ScopeExit) : List SymbolId := exits.flatMap ScopeExit.owned

/-- The ends of blocks and the returns among points where scopes are left. -/
def endsAndReturns (exits : List ScopeExit) : List ScopeExit := exits.filter fun x => !x.jump

namespace Checker

section Exits

variable (m : Module) (types : TypePool)

/-- The state in which the last round of a loop enters the body. -/
def lastRound (cond : Expr) (body : List Stmt) (c : Checker) : Checker :=
  let c₁ := useExpr m types cond .value { c with counting := false }
  let (exits, d) := (checkBlock m types body { c₁ with loops := {} :: c₁.loops }).leaveLoop
  let back := exits.nexts.foldl Flow.merge d.flow
  let c₂ := useExpr m types cond .value { d with counting := c.counting, flow := c.flow.merge back }
  { c₂ with loops := {} :: c₂.loops }

mutual

/-- The points where a statement leaves scopes; so many scopes were opened inside the innermost
loop. -/
def stmtExits (inner : Nat) (s : Stmt) (c : Checker) : List ScopeExit :=
  match s with
  | .ite _ cond t _ e =>
    let c := useExpr m types cond .value c
    blockExits inner t c ++ blockExits inner e ((checkBlock m types t c).withFlow c.flow)
  | .loop _ cond body => blockExits 0 body (lastRound m types cond body c)
  | .ret _ value =>
    let c := match value with
      | some e => useExpr m types e .value c
      | none => c
    [{ scopes := c.scopes, flow := c.flow }]
  | .stop _ | .next _ => [{ scopes := c.scopes.take inner, flow := c.flow, jump := true }]
  | _ => []
termination_by (sizeOf s, 0)

/-- The points where statements leave scopes, up to the end of the flow. -/
def stmtsExits (inner : Nat) (ss : List Stmt) (c : Checker) : List ScopeExit :=
  match ss with
  | [] => []
  | s :: ss =>
    if c.flow.diverged then [] else stmtExits inner s c ++ stmtsExits inner ss
      (checkStmt m types s c)
termination_by (sizeOf ss, 0)

/-- The points where a block leaves scopes, its end among them if it is reached. -/
def blockExits (inner : Nat) (ss : List Stmt) (c : Checker) : List ScopeExit :=
  let last := checkStmts m types ss (c.openScope [])
  stmtsExits (inner + 1) ss (c.openScope []) ++
    if last.flow.diverged then [] else [{ scopes := last.scopes.take 1, flow := last.flow }]
termination_by (sizeOf ss, 1)

end

/-- The state in which a function is entered. Its parameters have a scope of their own. -/
def functionEntry (f : Function) (accesses : Accesses) : Checker :=
  { accesses, scopes := [(f.params.filter fun p => p.pass == .owned && !types.isCopy p.type).map
      (·.sym)] }

/-- The points where a function leaves scopes. -/
def functionExits (f : Function) (accesses : Accesses) : List ScopeExit :=
  let last := checkBlock m types f.body (functionEntry types f accesses)
  blockExits m types 0 f.body (functionEntry types f accesses) ++
    if last.flow.diverged then [] else [{ scopes := last.scopes.take 1, flow := last.flow }]

end Exits

variable {m : Module} {types : TypePool} {c c' c'' : Checker}

/-! ## Expressions -/

/-- Nothing is dropped, and the scopes stay as they are. -/
structure KeepsDrops (c c' : Checker) : Prop where
  drops : c'.drops = c.drops
  counting : c'.counting = c.counting
  scopes : c'.scopes = c.scopes

theorem KeepsDrops.refl (c : Checker) : KeepsDrops c c := ⟨rfl, rfl, rfl⟩

theorem KeepsDrops.trans (h : KeepsDrops c c') (h' : KeepsDrops c' c'') : KeepsDrops c c'' :=
  ⟨h'.drops.trans h.drops, h'.counting.trans h.counting, h'.scopes.trans h.scopes⟩

theorem keepsDrops_report (c : Checker) (m : Module) (cause : Cause) (span : Span) (sym : SymbolId)
    (details : List String) (related : Span) :
    KeepsDrops c (c.report m cause span sym details related) := by
  unfold report
  extract_lets d
  split
  · exact .refl c
  · exact ⟨rfl, rfl, rfl⟩

theorem keepsDrops_hold (c : Checker) (lasting : Bool) (b : Borrow) :
    KeepsDrops c (c.hold lasting b) := by
  unfold hold
  split
  · exact ⟨rfl, rfl, rfl⟩
  · exact .refl c

theorem keepsDrops_record (c : Checker) (id : ExprId) (a : AccessKind) :
    KeepsDrops c (c.record id a) :=
  ⟨rfl, rfl, rfl⟩

theorem keepsDrops_useLocal (info : ExprInfo) (sym : SymbolId) (use : Use) (lasting : Bool) :
    KeepsDrops c (c.useLocal m types info sym use lasting) := by
  have hrecord (a : AccessKind) : KeepsDrops c (c.record info.id a) := keepsDrops_record c info.id a
  have hreport (a : AccessKind) (cause : Cause) (details : List String) (related : Span) :
      KeepsDrops c ((c.record info.id a).report m cause info.span sym details related) :=
    (hrecord a).trans (keepsDrops_report _ m cause info.span sym details related)
  unfold useLocal
  split
  · exact hreport ..
  · cases use with
    | value =>
      dsimp only
      unfold useValue
      dsimp only
      split
      · split
        · exact hreport ..
        · exact hrecord _
      · split
        · exact hreport ..
        · split
          · exact hreport ..
          · exact ⟨rfl, rfl, rfl⟩
    | shared =>
      dsimp only
      unfold useShared
      dsimp only
      split
      · exact hreport ..
      · exact (hrecord _).trans (keepsDrops_hold _ lasting _)
    | exclusive =>
      dsimp only
      unfold useExclusive
      dsimp only
      split
      · exact hreport ..
      · split
        · exact hreport ..
        · exact (hrecord _).trans (keepsDrops_hold _ lasting _)

theorem keepsDrops_afterArg {a : Expr} (p : Param)
    (ha : ∀ use, KeepsDrops c (useExpr m types a use c)) :
    KeepsDrops c (afterArg m types a p c) := by
  unfold afterArg
  split
  · exact keepsDrops_useLocal ..
  · exact keepsDrops_useLocal ..
  · exact ha .shared
  · exact ha .value

mutual

/-- Expressions drop nothing. -/
theorem keepsDrops_useExpr (e : Expr) (use : Use) (c : Checker) :
    KeepsDrops c (useExpr m types e use c) := by
  unfold useExpr
  split
  · exact .refl c
  · cases e with
    | int | bool | bytes | unit | context => exact .refl c
    | «local» info sym => exact keepsDrops_useLocal info sym use false
    | unary _ _ _ a | cast _ _ a | ok _ a | err _ a => exact keepsDrops_useExpr a .value c
    | binary _ _ _ a b =>
      exact (keepsDrops_useExpr a .value c).trans (keepsDrops_useExpr b .value _)
    | logical _ _ a b =>
      have hboth := (keepsDrops_useExpr a .value c).trans (keepsDrops_useExpr b .value _)
      exact ⟨hboth.drops, hboth.counting, hboth.scopes⟩
    | call _ callee args =>
      have hargs := keepsDrops_useArgs args (((m.functions[callee]?).map (·.params)).getD []) c
      exact ⟨hargs.drops, hargs.counting, hargs.scopes⟩
    | field _ _ _ a => exact keepsDrops_useExpr a _ c
    | struct _ es => exact keepsDrops_useEach es .value c
    | select _ cond t e =>
      have hcond := keepsDrops_useExpr cond .value c
      dsimp only
      split
      · exact hcond
      · have ht := hcond.trans (keepsDrops_useExpr t use _)
        have he := keepsDrops_useExpr e use
          ((useExpr m types t use (useExpr m types cond .value c)).withFlow
            (useExpr m types cond .value c).flow)
        exact ⟨he.drops.trans ht.drops, he.counting.trans ht.counting, he.scopes.trans ht.scopes⟩
    | result _ op a => cases op <;> exact keepsDrops_useExpr a _ c
    | length _ a | digest _ a | stateGet _ _ a | stateHas _ _ a =>
      exact keepsDrops_useExpr a .shared c
    | statePut _ _ key value =>
      exact (keepsDrops_useExpr key .shared c).trans (keepsDrops_useExpr value .shared _)
    | emit _ _ es => exact keepsDrops_useEach es .shared c

theorem keepsDrops_useEach (es : List Expr) (use : Use) (c : Checker) :
    KeepsDrops c (useEach m types es use c) := by
  unfold useEach
  cases es with
  | nil => exact .refl c
  | cons e es => exact (keepsDrops_useExpr e use c).trans (keepsDrops_useEach es use _)

theorem keepsDrops_useArgs (args : List Expr) (params : List Param) (c : Checker) :
    KeepsDrops c (useArgs m types args params c) := by
  unfold useArgs
  cases args with
  | nil => exact .refl c
  | cons a args =>
    cases params with
    | nil => exact .refl c
    | cons p params =>
      dsimp only
      split
      · exact .refl c
      · have harg := @keepsDrops_afterArg m types c a p fun use => keepsDrops_useExpr a use c
        exact harg.trans (keepsDrops_useArgs args params (afterArg m types a p c))

end

/-! ## Statements -/

theorem droppedAt_append (exits exits' : List ScopeExit) :
    droppedAt (exits ++ exits') = droppedAt exits ++ droppedAt exits' := List.flatMap_append

theorem endsAndReturns_append (exits exits' : List ScopeExit) :
    endsAndReturns (exits ++ exits') = endsAndReturns exits ++ endsAndReturns exits' :=
  List.filter_append ..

/-- The check has gone past such points, and counted what is dropped at those that are no jumps. -/
structure Drops (c c' : Checker) (exits : List ScopeExit) : Prop where
  drops : c'.drops = c.drops + if c.counting then (droppedAt (endsAndReturns exits)).length else 0
  counting : c'.counting = c.counting
  scopes : c'.scopes.tail = c.scopes.tail

theorem Drops.nil (hdrops : c'.drops = c.drops) (hcounting : c'.counting = c.counting)
    (hscopes : c'.scopes.tail = c.scopes.tail) : Drops c c' [] :=
  ⟨by rw [hdrops]; exact (ite_self 0).symm ▸ rfl, hcounting, hscopes⟩

theorem KeepsDrops.toDrops (h : KeepsDrops c c') : Drops c c' [] :=
  .nil h.drops h.counting (congrArg List.tail h.scopes)

theorem Drops.trans {exits exits' : List ScopeExit} (h : Drops c c' exits)
    (h' : Drops c' c'' exits') :
    Drops c c'' (exits ++ exits') := by
  refine ⟨?_, h'.counting.trans h.counting, h'.scopes.trans h.scopes⟩
  rw [h'.drops, h.drops, h.counting, endsAndReturns_append, droppedAt_append, List.length_append]
  split <;> omega

theorem KeepsDrops.drops_trans {exits : List ScopeExit} (h : KeepsDrops c c')
    (h' : Drops c' c'' exits) :
    Drops c c'' exits := h.toDrops.trans h'

theorem Drops.keep {exits : List ScopeExit} (h : Drops c c' exits) (h' : KeepsDrops c' c'') :
    Drops c c'' exits :=
  List.append_nil exits ▸ h.trans h'.toDrops

/-- What is counted where scopes are left. -/
theorem drops_countDrops (c : Checker) (scopes : List (List SymbolId)) :
    Drops c (c.countDrops scopes) [{ scopes, flow := c.flow }] := by
  have howned : (scopes.map c.owned).foldl (· + ·) 0 =
      (ScopeExit.owned { scopes, flow := c.flow }).length := by
    unfold ScopeExit.owned
    rw [← List.sum_eq_foldl_nat, ← List.countP_eq_length_filter, List.countP_flatten]
    rfl
  unfold countDrops
  split
  · rename_i hcounting
    refine ⟨?_, rfl, rfl⟩
    rw [if_pos hcounting]
    show c.drops + _ = _
    rw [howned]
    simp [droppedAt, endsAndReturns]
  · rename_i hcounting
    exact ⟨by rw [if_neg hcounting]; rfl, rfl, rfl⟩

theorem drops_own (c : Checker) (sym : SymbolId) : Drops c (c.own sym) [] := by
  unfold own
  split
  · exact (KeepsDrops.refl c).toDrops
  · rename_i hscopes
    exact .nil rfl rfl (by rw [hscopes]; rfl)

theorem keepsDrops_leaveLoop (c : Checker) : KeepsDrops c c.leaveLoop.2 := by
  unfold leaveLoop
  split
  · exact .refl c
  · exact ⟨rfl, rfl, rfl⟩

theorem keepsDrops_checkAssign (span : Span) (sym : SymbolId) (field : Option Nat) :
    KeepsDrops c (c.checkAssign m span sym field) := by
  unfold checkAssign
  dsimp only
  split
  · exact keepsDrops_report ..
  · split
    · exact keepsDrops_report ..
    · exact .refl c
    · exact ⟨rfl, rfl, rfl⟩

/-- A jump counts nothing. -/
theorem drops_leaveRound (inner : Nat) (add : LoopExits → Flow → LoopExits) :
    Drops c (c.leaveRound add) [{ scopes := c.scopes.take inner, flow := c.flow, jump := true }] :=
  ⟨(ite_self 0).symm ▸ rfl, rfl, rfl⟩

/-- A return counts what is owned in all scopes. -/
theorem drops_return (c : Checker) :
    Drops c ((c.countDrops c.scopes).withFlow
      { (c.countDrops c.scopes).flow with diverged := true })
      [{ scopes := c.scopes, flow := c.flow }] :=
  (drops_countDrops c c.scopes).keep ⟨rfl, rfl, rfl⟩

/-- A block adds what its statements add and, if its end is reached, what it owns there. -/
theorem drops_block {inner : Nat} {ss : List Stmt}
    (hss : Drops (c.openScope []) (checkStmts m types ss (c.openScope []))
      (stmtsExits m types (inner + 1) ss (c.openScope [])))
    (h : (checkBlock m types ss c).failed = false) :
    Drops c (checkBlock m types ss c) (blockExits m types inner ss c) ∧
      (checkBlock m types ss c).scopes = c.scopes := by
  have hfailed : (checkStmts m types ss (c.openScope [])).failed = false :=
    (checkBlock_eq ss c).1 ▸ h
  unfold checkBlock blockExits
  dsimp only
  rw [hfailed, Bool.false_or]
  split
  · rw [List.append_nil]
    exact ⟨⟨hss.drops, hss.counting, congrArg List.tail hss.scopes⟩, hss.scopes⟩
  · have hend := hss.trans
        (drops_countDrops _ ((checkStmts m types ss (c.openScope [])).scopes.take 1))
    exact ⟨⟨hend.drops, hend.counting, congrArg List.tail hend.scopes⟩, hend.scopes⟩

/-- A loop adds what the last round of its body adds. -/
theorem drops_loop {span : Span} {cond : Expr} {body : List Stmt}
    (hbody : ∀ c, (checkBlock m types body c).failed = false →
      Drops c (checkBlock m types body c) (blockExits m types 0 body c) ∧
        (checkBlock m types body c).scopes = c.scopes)
    (h : (checkStmt m types (.loop span cond body) c).failed = false) :
    Drops c (checkStmt m types (.loop span cond body) c)
      (blockExits m types 0 body (lastRound m types cond body c)) := by
  obtain ⟨c₁, c₂, exits₁, d₁, c₃, c₄, exits₂, d₂, hc₁, hc₂, hleave₁, hd₁, hc₃, hc₄, hleave₂,
      hd₂, heq⟩ :=
    checkStmt_loop h
  have hlast : lastRound m types cond body c = { c₃ with loops := {} :: c₃.loops } := by
    unfold lastRound
    simp only [hc₁, hc₂, hleave₁, hc₃]
  have hkeep₁ : KeepsDrops c₂ d₁ := by simpa only [hleave₁] using keepsDrops_leaveLoop c₂
  have hkeep₂ : KeepsDrops c₄ d₂ := by simpa only [hleave₂] using keepsDrops_leaveLoop c₄
  -- nothing is counted in the first round
  obtain ⟨hround, hscopes⟩ := hc₂ ▸ hbody { c₁ with loops := {} :: c₁.loops }
    (by rw [hc₂, ← failed_leaveLoop, hleave₁, hd₁])
  have hcond₁ := hc₁ ▸ @keepsDrops_useExpr m types cond .value { c with counting := false }
  have hfirst : KeepsDrops c { d₁ with
      counting := c.counting, flow := c.flow.merge (exits₁.nexts.foldl Flow.merge d₁.flow) } := by
    refine ⟨?_, rfl, hkeep₁.scopes.trans (hscopes.trans hcond₁.scopes)⟩
    refine hkeep₁.drops.trans (hround.drops.trans ?_)
    rw [if_neg (by show ¬c₁.counting = true; rw [hcond₁.counting]; exact Bool.false_ne_true)]
    exact hcond₁.drops
  have hsecond : KeepsDrops c { c₃ with loops := {} :: c₃.loops } :=
    hfirst.trans ((hc₃ ▸ keepsDrops_useExpr cond .value _).trans ⟨rfl, rfl, rfl⟩)
  have hlastRound := (hc₄ ▸ hbody { c₃ with loops := {} :: c₃.loops }
    (by rw [hc₄, ← failed_leaveLoop, hleave₂, hd₂])).1
  rw [hlast, heq]
  exact hsecond.drops_trans (hlastRound.keep (hkeep₂.trans ⟨rfl, rfl, rfl⟩))

mutual

/-- A statement adds to the count what is dropped at the block ends and returns in it. -/
theorem drops_checkStmt (inner : Nat) (s : Stmt) (c : Checker)
    (h : (checkStmt m types s c).failed = false) :
    Drops c (checkStmt m types s c) (stmtExits m types inner s c) := by
  cases s with
  | expr _ e | require _ e _ =>
    unfold checkStmt stmtExits
    exact (keepsDrops_useExpr e .value c).toDrops
  | bind _ sym e =>
    have hvalue (flow : Flow) : KeepsDrops c ((useExpr m types e .value c).withFlow flow) :=
      (keepsDrops_useExpr e .value c).trans ⟨rfl, rfl, rfl⟩
    unfold checkStmt stmtExits
    dsimp only
    split
    · exact (hvalue _).toDrops
    · exact (hvalue _).drops_trans (drops_own _ sym)
  | assign span sym field e =>
    have hvalue := @keepsDrops_useExpr m types e .value c
    unfold checkStmt stmtExits
    dsimp only
    split
    · exact hvalue.toDrops
    · exact (hvalue.trans (keepsDrops_checkAssign span sym field)).toDrops
  | ite _ cond t _ e =>
    have hcond := @keepsDrops_useExpr m types cond .value c
    unfold checkStmt at h ⊢
    unfold stmtExits
    dsimp only at h ⊢
    generalize useExpr m types cond .value c = c₁ at h hcond ⊢
    split at h
    · rename_i hfailed
      rw [hfailed] at h
      cases h
    · rename_i hok
      rw [if_neg hok]
      -- a check that has failed stays failed, so both branches passed it
      have hsecond : (checkBlock m types e ((checkBlock m types t c₁).withFlow c₁.flow)).failed =
        false := h
      have hfirst : (checkBlock m types t c₁).failed = false :=
        not_failed_of_checkBlock (c := (checkBlock m types t c₁).withFlow c₁.flow) hsecond
      have ht : Drops c₁ ((checkBlock m types t c₁).withFlow c₁.flow)
          (blockExits m types inner t c₁) :=
        (drops_checkBlock inner t c₁ hfirst).1.keep ⟨rfl, rfl, rfl⟩
      have he := (drops_checkBlock inner e _ hsecond).1
      exact hcond.drops_trans (ht.trans (he.keep ⟨rfl, rfl, rfl⟩))
  | loop span cond body =>
    unfold stmtExits
    exact drops_loop (drops_checkBlock 0 body) h
  | ret _ value =>
    unfold checkStmt at h ⊢
    unfold stmtExits
    cases value with
    | none =>
      dsimp only at h ⊢
      split at h
      · rename_i hfailed
        rw [hfailed] at h
        cases h
      · rename_i hok
        rw [if_neg hok]
        exact drops_return c
    | some e =>
      dsimp only at h ⊢
      split at h
      · rename_i hfailed
        rw [hfailed] at h
        cases h
      · rename_i hok
        rw [if_neg hok]
        exact (keepsDrops_useExpr e .value c).drops_trans (drops_return _)
  | stop | next =>
    unfold checkStmt stmtExits
    exact drops_leaveRound inner _
  | revert | panic =>
    unfold checkStmt stmtExits
    exact .nil rfl rfl rfl
termination_by (sizeOf s, 0)

/-- Statements in order. -/
theorem drops_checkStmts (inner : Nat) (ss : List Stmt) (c : Checker)
    (h : (checkStmts m types ss c).failed = false) :
    Drops c (checkStmts m types ss c) (stmtsExits m types inner ss c) := by
  cases ss with
  | nil =>
    unfold checkStmts stmtsExits
    exact (KeepsDrops.refl c).toDrops
  | cons s ss =>
    have hc : c.failed = false := by
      refine Bool.eq_false_iff.mpr fun hfailed => ?_
      rw [checkStmts_of_failed hfailed, hfailed] at h
      cases h
    unfold checkStmts stmtsExits at *
    rw [hc, Bool.false_or] at h ⊢
    split
    · exact (KeepsDrops.refl c).toDrops
    · rename_i hdiverged
      rw [if_neg hdiverged] at h
      have hfirst : (checkStmt m types s c).failed = false := by
        refine Bool.eq_false_iff.mpr fun hfailed => ?_
        rw [checkStmts_of_failed hfailed, hfailed] at h
        cases h
      exact (drops_checkStmt inner s c hfirst).trans (drops_checkStmts inner ss _ h)
termination_by (sizeOf ss, 0)

/-- A block adds to the count what is dropped at the block ends and returns in it. -/
theorem drops_checkBlock (inner : Nat) (ss : List Stmt) (c : Checker)
    (h : (checkBlock m types ss c).failed = false) :
    Drops c (checkBlock m types ss c) (blockExits m types inner ss c) ∧
      (checkBlock m types ss c).scopes = c.scopes :=
  drops_block (drops_checkStmts (inner + 1) ss (c.openScope []) ((checkBlock_eq ss c).1 ▸ h)) h
termination_by (sizeOf ss, 1)

end

/-- What is counted for a function without a violation. -/
theorem drops_checkFunction {f : Function} {accesses : Accesses}
    (h : (checkFunction m types f accesses true).failed = false) :
    (checkFunction m types f accesses true).drops =
      (droppedAt (endsAndReturns (functionExits m types f accesses))).length := by
  have heq : checkFunction m types f accesses true =
      let last := checkBlock m types f.body (functionEntry types f accesses)
      (if last.flow.diverged then last else last.countDrops (last.scopes.take 1)).closeScope := rfl
  rw [heq] at h ⊢
  have hlast : (checkBlock m types f.body (functionEntry types f accesses)).failed = false := by
    dsimp only at h
    split at h
    · exact h
    · rwa [failed_closeScope, failed_countDrops] at h
  have hbody := (drops_checkBlock 0 f.body _ hlast).1
  unfold functionExits
  dsimp only
  split
  · rw [List.append_nil]
    exact hbody.drops.trans (Nat.zero_add _)
  · exact (hbody.trans (drops_countDrops _ _)).drops.trans (Nat.zero_add _)

end Checker

/-- What is dropped at all points is dropped at ends of blocks and returns, or else at jumps. -/
theorem length_droppedAt (exits : List ScopeExit) :
    (droppedAt exits).length =
      (droppedAt (endsAndReturns exits)).length + (droppedAt (exits.filter (·.jump))).length := by
  induction exits with
  | nil => rfl
  | cons x exits ih =>
    unfold droppedAt endsAndReturns at ih ⊢
    cases hjump : x.jump with
    | false =>
      simp only [hjump, List.filter_cons, List.flatMap_cons, List.length_append,
        Bool.not_false, if_true, Bool.false_eq_true, if_false]
      omega
    | true =>
      simp only [hjump, List.filter_cons, List.flatMap_cons, List.length_append,
        Bool.not_true, if_true, Bool.false_eq_true, if_false]
      omega

/-- A function without a violation counts what it drops wherever the check leaves scopes, except for
the values that it owns at jumps out of loops and to their next rounds. -/
theorem drops_checkOwnership {m : Module} {types : TypePool} {i : Nat} {f : Function}
    (hf : m.functions[i]? = some f) (hok : (checkOwnership m types).functionOk[i]? = some true) :
    ∃ accesses count, (checkOwnership m types).drops[i]? = some count ∧
      (droppedAt (Checker.functionExits m types f accesses)).length =
        count + (droppedAt ((Checker.functionExits m types f accesses).filter
          (·.jump))).length := by
  obtain ⟨accesses, hat, hdrops⟩ := @checkFunctions_at m types true m.functions.toList
    { accesses := Array.replicate m.exprCount .none } i f (by simpa using hf)
  unfold checkOwnership at hok ⊢
  rw [show (#[] : Array Bool).size + i = i from Nat.zero_add i, hok] at hat
  rw [show (#[] : Array Nat).size + i = i from Nat.zero_add i] at hdrops
  refine ⟨accesses, _, hdrops, ?_⟩
  rw [Checker.drops_checkFunction (by simpa using hat.symm)]
  exact length_droppedAt _

/-- A function whose loop binds a byte string and stops. -/
def bindAndStop : Function where
  name := "f"
  ret := Builtin.unit.id
  params := []
  body := [.loop {} (.bool ⟨0, {}, Builtin.bool.id⟩ true)
    [.bind {} 0 (.bytes ⟨1, {}, Builtin.bytes.id⟩ ""), .stop {}]]

/-- The program of the function. -/
def bindAndStopHir : Module where
  unit := "t"
  functions := #[bindAndStop]
  symbols := #[{ name := "b", type := Builtin.bytes.id }]
  stmtCount := 3
  exprCount := 2

/-- The byte string is still owned at the jump, but nothing is counted. -/
theorem drops_bindAndStop :
    (checkOwnership bindAndStopHir {}).functionOk = #[true] ∧
    (checkOwnership bindAndStopHir {}).drops = #[0] ∧
      droppedAt (Checker.functionExits bindAndStopHir {} bindAndStop #[]) = [0] := by
  unfold bindAndStopHir bindAndStop
  simp -zeta only [checkOwnership, checkFunctions, Checker.checkFunction,
    Checker.functionExits, Checker.blockExits, Checker.stmtsExits, Checker.stmtExits,
    Checker.lastRound, Checker.checkBlock, Checker.checkStmts, Checker.checkStmt]
  decide +kernel

end ContractCompiler.Hir
