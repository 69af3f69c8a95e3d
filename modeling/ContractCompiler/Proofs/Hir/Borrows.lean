import ContractCompiler.Proofs.Hir.Lending
import ContractCompiler.Proofs.Hir.Moves
import ContractCompiler.Proofs.Ssa.ValidExpr

/-!
# The arguments of a call are apart

A call borrows the bindings that it passes by reference until it is over. The check reports a
binding that is borrowed exclusively while it is borrowed already, and one that is read while it is
borrowed exclusively, so the arguments of the calls in a function that passes the check are apart.
In particular, the bindings that a call passes exclusively are different.

- `Checker.Clears`: the check of an expression leaves the borrows as they are, and the arguments of
  the calls in it are apart;
- `Checker.clears_useArgs`: the arguments of a call;
- `Checker.clearsExpr_of_typed`, `Checker.clearsStmt_of_typed`: expressions and statements;
- `apart_of_checkOwnership`, `separate_of_checkOwnership`: the functions that pass the check.
-/

namespace ContractCompiler.Hir

open Ssa (SeparateCall exclusiveOf passModes)

namespace Checker

variable {m : Module} {types : TypePool} {c c' c'' : Checker}

/-! ## Expressions -/

/-- From one state of the check to another, nothing stays borrowed, the flow goes on, and the
arguments of calls are apart. -/
structure Clears (m : Module) (c c' : Checker) (calls : List (FuncId × List Expr)) : Prop where
  holds : Holds c c' []
  apart : ∀ call ∈ calls, CallApart m.functions call

/-- The check of an expression. -/
def ClearsExpr (m : Module) (types : TypePool) (e : Expr) : Prop :=
  ∀ use c, (useExpr m types e use c).failed = false → Clears m c (useExpr m types e use c) e.calls

theorem clears_nothing (hflow : c'.flow.diverged = c.flow.diverged)
    (hborrows : c'.borrows = c.borrows) :
    Clears m c c' [] :=
  ⟨holds_of_eq hflow hborrows, fun _ h => absurd h List.not_mem_nil⟩

theorem Clears.seq {calls calls' : List (FuncId × List Expr)} (h : Clears m c c' calls)
    (h' : Clears m c' c'' calls') : Clears m c c'' (calls ++ calls') :=
  ⟨h.holds.trans h'.holds, fun call hcall => (List.mem_append.mp hcall).elim (h.apart call)
    (h'.apart call)⟩

theorem Clears.congr {calls : List (FuncId × List Expr)} (h : Clears m c c' calls)
    (hflow : c''.flow.diverged = c'.flow.diverged) (hborrows : c''.borrows = c'.borrows) :
    Clears m c c'' calls :=
  ⟨⟨hflow.trans h.holds.1, hborrows.trans h.holds.2⟩, h.apart⟩

theorem clears_useEach {es : List Expr} (hes : ∀ e ∈ es, ClearsExpr m types e) (use : Use)
    (h : (useEach m types es use c).failed = false) :
    Clears m c (useEach m types es use c) (callsOfExprs es) := by
  induction es generalizing c with
  | nil =>
    unfold callsOfExprs useEach
    exact clears_nothing rfl rfl
  | cons e es ih =>
    unfold useEach at h ⊢
    unfold callsOfExprs
    have hfirst : (useExpr m types e use c).failed = false := by
      refine Bool.eq_false_iff.mpr fun hfailed => ?_
      rw [useEach_of_failed hfailed, hfailed] at h
      cases h
    exact (hes e List.mem_cons_self use c hfirst).seq
      (ih (fun e' he' => hes e' (List.mem_cons_of_mem _ he')) h)

/-- The bindings that arguments pass exclusively. -/
def exclusiveSyms (params : List Param) (args : List Expr) : List SymbolId :=
  (exclusiveOf (params.map (·.pass)) args).filterMap (·.local?)

theorem exclusiveSyms_cons (p : Param) (params : List Param) (a : Expr) (args : List Expr) :
    exclusiveSyms (p :: params) (a :: args) =
      (if p.pass = .exclusive then a.local?.toList else []) ++ exclusiveSyms params args := by
  unfold exclusiveSyms exclusiveOf
  rw [List.map_cons, List.zip_cons_cons]
  by_cases hpass : p.pass = .exclusive
  · rw [List.filter_cons_of_pos (by simp [hpass]), if_pos hpass]
    cases hlocal : a.local? <;> simp [hlocal]
  · rw [List.filter_cons_of_neg (by simpa using hpass), if_neg hpass, List.nil_append]

theorem nodup_of_apart {held : List (SymbolId × Bool)} {params : List Param} {args : List Expr}
    (h : Apart held params args) :
    (exclusiveSyms params args).Nodup ∧ ∀ sym ∈ exclusiveSyms params args, ∀ exclusive,
      (sym, exclusive) ∉ held := by
  induction args generalizing params held with
  | nil =>
    have hsyms : exclusiveSyms params [] = [] := by simp [exclusiveSyms, exclusiveOf]
    rw [hsyms]
    exact ⟨.nil, fun _ h => absurd h List.not_mem_nil⟩
  | cons a args ih =>
    cases params with
    | nil => exact ⟨.nil, fun _ h => absurd h List.not_mem_nil⟩
    | cons p params =>
      obtain ⟨hexcl, -, hrest⟩ := h
      obtain ⟨hnodup, hfree⟩ := ih hrest
      rw [exclusiveSyms_cons]
      split
      · rename_i hpass
        cases hlocal : a.local? with
        | none => exact ⟨hnodup, fun sym hsym e hmem =>
            hfree sym hsym e (List.mem_append_left _ hmem)⟩
        | some sym =>
          -- the argument borrows its binding, so later ones do not pass it
          have hnot : sym ∉ exclusiveSyms params args := by
            refine fun hmem => hfree sym hmem true (List.mem_append_right _ ?_)
            unfold Param.holds
            rw [hpass, hlocal]
            exact List.mem_singleton.mpr rfl
          refine ⟨List.nodup_cons.mpr ⟨hnot, hnodup⟩, fun sym' hsym' e hmem => ?_⟩
          rcases List.mem_cons.mp hsym' with rfl | hsym'
          · exact hexcl hpass sym' hlocal e hmem
          · exact hfree sym' hsym' e (List.mem_append_left _ hmem)
      · exact ⟨hnodup, fun sym hsym e hmem => hfree sym hsym e (List.mem_append_left _ hmem)⟩

/-- The bindings that a call with arguments apart passes exclusively are different. -/
theorem separate_of_apart {functions : Array Function} {call : FuncId × List Expr}
    (h : CallApart functions call) : SeparateCall functions call := by
  unfold SeparateCall passModes
  cases hf : functions[call.1]? with
  | none => exact .nil
  | some f => exact (nodup_of_apart (h f hf)).1

/-- An argument is checked like its parameter is passed: it meets what is borrowed, and what it
borrows itself is borrowed from then on. -/
theorem clears_afterArg {a : Expr} {p : Param} (htyped : a.Typed (m.typeContext types))
    (ha : ClearsExpr m types a) (h : (afterArg m types a p c).failed = false) :
    ∃ held, Holds c (afterArg m types a p c) held ∧ (∀ call ∈ a.calls, CallApart m.functions call) ∧
      held.map (fun b => (b.sym, b.exclusive)) = p.holds a ∧
      (p.pass = .exclusive → ∀ sym, a.local? = some sym → ∀ exclusive, (sym, exclusive) ∉ c.held) ∧
      (p.pass = .shared → ∀ sym ∈ a.lends, (sym, true) ∉ c.held) := by
  have hcalls (info : ExprInfo) (sym : SymbolId) :
      ∀ call ∈ (Expr.local info sym).calls, CallApart m.functions call := by
    intro call hcall
    unfold Expr.calls at hcall
    cases hcall
  unfold afterArg at h ⊢
  split at h
  · rename_i info sym hpass
    -- a binding that is lent stays lent until the call ends
    obtain ⟨hfree, hborrows⟩ := useLocal_shared h
    obtain ⟨held, hheld, -⟩ := @holds_useLocal m types c info sym .shared true
    refine ⟨_, ⟨hheld.1, hborrows⟩, hcalls info sym, ?_,
      fun heq => (by cases hpass.symm.trans heq), ?_⟩
    · unfold Param.holds
      rw [hpass]
      rfl
    · intro _ sym' hsym'
      unfold Expr.lends at hsym'
      obtain rfl := List.mem_singleton.mp hsym'
      exact hfree
  · rename_i info sym hpass
    -- a binding that is passed exclusively stays so until the call ends
    obtain ⟨hfree, hborrows⟩ := useLocal_exclusive h
    obtain ⟨held, hheld, -⟩ := @holds_useLocal m types c info sym .exclusive true
    refine ⟨_, ⟨hheld.1, hborrows⟩, hcalls info sym, ?_, ?_,
      fun heq => (by cases hpass.symm.trans heq)⟩
    · unfold Param.holds
      rw [hpass]
      rfl
    · intro _ sym' hsym'
      obtain rfl : sym = sym' := Option.some.inj hsym'
      exact hfree
  · rename_i a _ _ hpass hother
    -- any other expression that is lent borrows for the moment
    have hclears := ha .shared c h
    refine ⟨[], hclears.holds, hclears.apart, ?_, fun heq => (by cases hpass.symm.trans heq),
      fun _ => free_of_lends htyped h⟩
    unfold Param.holds
    rw [hpass, Expr.local?_eq_none hother]
    rfl
  · rename_i a _ _ hshared _ hother
    have hlocal (hpass : p.pass = .exclusive) : a.local? = none :=
      Expr.local?_eq_none fun info sym heq => hother info sym hpass heq
    have hclears := ha .value c h
    refine ⟨[], hclears.holds, hclears.apart, ?_, fun hpass sym hsym => ?_,
      fun hpass => absurd hpass hshared⟩
    · unfold Param.holds
      cases hpass : p.pass with
      | owned => rfl
      | shared => exact absurd hpass hshared
      | exclusive =>
        rw [hlocal hpass]
        rfl
    · cases (hlocal hpass).symm.trans hsym

/-- The arguments of a call are apart, also from what is borrowed already, and so are those of the
calls in the arguments. -/
theorem clears_useArgs {args : List Expr} {params : List Param}
    (htyped : ∀ a ∈ args, a.Typed (m.typeContext types)) (hargs : ∀ a ∈ args, ClearsExpr m types a)
    (hlength : args.length = params.length) (h : (useArgs m types args params c).failed = false) :
    (∃ held, Holds c (useArgs m types args params c) held) ∧
      (∀ call ∈ callsOfExprs args, CallApart m.functions call) ∧ Apart c.held params args := by
  induction args generalizing params c with
  | nil =>
    unfold useArgs callsOfExprs
    exact ⟨⟨[], holds_of_eq rfl rfl⟩, fun _ h => absurd h List.not_mem_nil,
      by cases params <;> exact trivial⟩
  | cons a args ih =>
    cases params with
    | nil => cases hlength
    | cons p params =>
      have hc : c.failed = false := by
        refine Bool.eq_false_iff.mpr fun hfailed => ?_
        rw [useArgs_of_failed hfailed, hfailed] at h
        cases h
      rw [useArgs_cons hc] at h ⊢
      have hfirst : (afterArg m types a p c).failed = false := by
        refine Bool.eq_false_iff.mpr fun hfailed => ?_
        rw [useArgs_of_failed hfailed, hfailed] at h
        cases h
      obtain ⟨held, hholds, hcalls, hheld, hexcl, hshared⟩ :=
        clears_afterArg (htyped a List.mem_cons_self) (hargs a List.mem_cons_self) hfirst
      obtain ⟨⟨held', hholds'⟩, hcalls', hapart⟩ :=
        ih (fun a' ha' => htyped a' (List.mem_cons_of_mem _ ha'))
        (fun a' ha' => hargs a' (List.mem_cons_of_mem _ ha')) (Nat.succ.inj hlength) h
      refine ⟨⟨held ++ held', hholds.trans hholds'⟩, fun call hcall => ?_, hexcl, hshared, ?_⟩
      · unfold callsOfExprs at hcall
        exact (List.mem_append.mp hcall).elim (hcalls call) (hcalls' call)
      · rw [← hheld]
        unfold Checker.held at hapart ⊢
        rwa [hholds.2, List.map_append] at hapart

/-- The check of every typed expression. -/
theorem clearsExpr_of_typed {e : Expr} (he : e.Typed (m.typeContext types)) :
    ClearsExpr m types e := by
  induction he with
    (intro use c h
     have hc := not_failed_of_useExpr h
     unfold useExpr at h ⊢
     unfold Expr.calls
     simp only [hc, Bool.false_eq_true, if_false] at h ⊢)
  | int | bool | bytes | unit | context => exact clears_nothing rfl rfl
  | @«local» i sym =>
    obtain ⟨held, hheld, hnil⟩ := @holds_useLocal m types c i sym use false
    rw [hnil rfl] at hheld
    exact ⟨hheld, fun _ h => absurd h List.not_mem_nil⟩
  | neg _ _ _ ih | not _ _ _ ih | bitNot _ _ _ ih | cast _ _ _ ih | ok _ _ ih | err _ _ _ ih
  | isOk _ _ _ ih | code _ _ _ ih | unwrap _ _ ih | length _ _ _ ih | digest _ _ _ ih
  | stateGet _ _ _ _ _ ih | stateHas _ _ _ _ ih | field _ _ _ ih => exact ih _ _ h
  | compare _ _ _ _ _ _ iha ihb | arith _ _ _ _ _ _ _ iha ihb | statePut _ _ _ _ _ _ iha ihb =>
    exact (iha _ _ (not_failed_of_useExpr h)).seq (ihb _ _ h)
  | logical _ _ _ _ _ iha ihb =>
    have hb : (useExpr m types _ .value (useExpr m types _ .value c)).failed = false := h
    have ha := iha _ _ (not_failed_of_useExpr hb)
    have hboth := ihb _ _ hb
    refine (ha.seq hboth).congr ?_ rfl
    rw [flow_withFlow, Flow.diverged_merge, hboth.holds.1, Bool.and_self]
  | @call i callee args params hcallee hargs htypes hplaces ih =>
    obtain ⟨f, hf, hsig⟩ := Option.map_eq_some_iff.mp hcallee
    obtain ⟨rfl, -⟩ := Prod.mk.inj hsig
    rw [hf] at h ⊢
    have hlength := congrArg List.length htypes
    simp only [List.length_map] at hlength
    obtain ⟨⟨held, hholds⟩, hcalls, hapart⟩ := clears_useArgs hargs ih hlength h
    refine ⟨holds_of_eq hholds.1 ?_, fun call hcall => ?_⟩
    · show (useArgs m types args f.params c).borrows.take c.borrows.length = c.borrows
      rw [hholds.2, List.take_left]
    · rcases List.mem_cons.mp hcall with rfl | hcall
      · intro f' hf'
        obtain rfl := Option.some.inj (hf.symm.trans hf')
        exact hapart.mono (List.nil_subset _)
      · exact hcalls call hcall
  | struct _ _ _ ih | emit _ _ _ ih => exact clears_useEach ih _ h
  | @select _ cond a b _ _ _ _ _ _ ihc iha ihb =>
    split at h
    · rename_i hfailed
      rw [hfailed] at h
      cases h
    · rename_i hok
      rw [if_neg hok]
      generalize hcond : useExpr m types cond .value c = c₁ at h hok ⊢
      have hb : (useExpr m types b use ((useExpr m types a use c₁).withFlow c₁.flow)).failed =
        false := h
      have ha : ((useExpr m types a use c₁).withFlow c₁.flow).failed = false :=
        not_failed_of_useExpr hb
      have hfirst := iha use c₁ ha
      have hsecond := ihb use _ hb
      have hc₁ := ihc .value c (hcond.symm ▸ Bool.eq_false_iff.mpr hok)
      have hback : Clears m c₁ ((useExpr m types a use c₁).withFlow c₁.flow) a.calls :=
        hfirst.congr hfirst.holds.1.symm rfl
      rw [hcond] at hc₁
      rw [List.append_assoc]
      refine (hc₁.seq (hback.seq hsecond)).congr ?_ rfl
      rw [flow_withFlow, Flow.diverged_merge, hfirst.holds.1, hsecond.holds.1, flow_withFlow,
        Bool.and_self]

/-! ## Statements -/

/-- A state of the check that a part of a function leads to: the calls of the part are separate, and
the flow goes on if control may get past the part. -/
structure Passes (m : Module) (c' : Checker) (calls : List (FuncId × List Expr))
    (ends : Bool) : Prop where
  apart : ∀ call ∈ calls, CallApart m.functions call
  goesOn : ends = false → c'.flow.diverged = false

/-- The check of a statement that control gets to. -/
def ClearsStmt (m : Module) (types : TypePool) (s : Stmt) : Prop :=
  ∀ c, c.flow.diverged = false → (checkStmt m types s c).failed = false →
    Passes m (checkStmt m types s c) s.calls s.ends

theorem Clears.passes {calls : List (FuncId × List Expr)} (h : Clears m c c' calls)
    (hc : c.flow.diverged = false) (hflow : c''.flow.diverged = c'.flow.diverged) :
    Passes m c'' calls false :=
  ⟨h.apart, fun _ => hflow.trans (h.holds.1.trans hc)⟩

theorem clears_checkStmts {ss : List Stmt} (hss : ∀ s ∈ ss, ClearsStmt m types s)
    (hc : c.flow.diverged = false) (h : (checkStmts m types ss c).failed = false) :
    Passes m (checkStmts m types ss c) (callsOfBlock ss) (blockEnds ss) := by
  induction ss generalizing c with
  | nil =>
    unfold checkStmts callsOfBlock blockEnds
    exact ⟨fun _ h => absurd h List.not_mem_nil, fun _ => hc⟩
  | cons s ss ih =>
    have hfailed : c.failed = false := by
      refine Bool.eq_false_iff.mpr fun hfailed => ?_
      rw [checkStmts_of_failed hfailed, hfailed] at h
      cases h
    unfold checkStmts at h ⊢
    rw [hfailed, hc] at h ⊢
    simp only [Bool.or_self, Bool.false_eq_true, if_false] at h ⊢
    have hfirst : (checkStmt m types s c).failed = false := by
      refine Bool.eq_false_iff.mpr fun hfailed => ?_
      rw [checkStmts_of_failed hfailed, hfailed] at h
      cases h
    have hs := hss s List.mem_cons_self c hc hfirst
    unfold callsOfBlock blockEnds
    cases hends : s.ends with
    | true => exact ⟨fun call hcall => hs.apart call (by simpa using hcall),
        fun hfalse => (by cases hfalse)⟩
    | false =>
      have hrest := ih (fun s' hs' => hss s' (List.mem_cons_of_mem _ hs')) (hs.goesOn hends) h
      exact ⟨fun call hcall => (List.mem_append.mp hcall).elim (hs.apart call) (hrest.apart call),
        hrest.goesOn⟩

theorem clears_checkBlock {ss : List Stmt} (hss : ∀ s ∈ ss, ClearsStmt m types s)
    (hc : c.flow.diverged = false) (h : (checkBlock m types ss c).failed = false) :
    Passes m (checkBlock m types ss c) (callsOfBlock ss) (blockEnds ss) := by
  obtain ⟨hfailed, hflow, -⟩ := @checkBlock_eq m types ss c
  rw [hfailed] at h
  have hpasses := clears_checkStmts hss (c := c.openScope []) hc h
  exact ⟨hpasses.apart, fun hends => hflow ▸ hpasses.goesOn hends⟩

theorem diverged_foldl_merge {f : Flow} (hf : f.diverged = false) (fs : List Flow) :
    (fs.foldl Flow.merge f).diverged = false := by
  induction fs generalizing f with
  | nil => exact hf
  | cons g fs ih => exact ih (by rw [Flow.diverged_merge, hf, Bool.false_and])

theorem clears_ite {span : Span} {cond : Expr} {t e : List Stmt} {hasElse : Bool}
    (hcond : ClearsExpr m types cond) (ht : ∀ s ∈ t, ClearsStmt m types s)
    (he : ∀ s ∈ e, ClearsStmt m types s) (hempty : hasElse = false → e = []) :
    ClearsStmt m types (.ite span cond t hasElse e) := by
  intro c hc h
  unfold checkStmt at h ⊢
  dsimp only at h ⊢
  split at h
  · rename_i hfailed
    rw [hfailed] at h
    cases h
  rename_i hok
  rw [if_neg hok]
  have hclears := hcond .value c (Bool.eq_false_iff.mpr hok)
  generalize useExpr m types cond .value c = c₁ at h hok hclears ⊢
  have hc₁ : c₁.flow.diverged = false := hclears.holds.1.trans hc
  have hsecond : (checkBlock m types e ((checkBlock m types t c₁).withFlow c₁.flow)).failed =
    false := h
  have hfirst : (checkBlock m types t c₁).failed = false :=
    not_failed_of_checkBlock (c := (checkBlock m types t c₁).withFlow c₁.flow) hsecond
  have hthen := clears_checkBlock ht hc₁ hfirst
  have helse := clears_checkBlock he (c := (checkBlock m types t c₁).withFlow c₁.flow) hc₁ hsecond
  unfold Stmt.calls Stmt.ends
  refine ⟨fun call hcall => ?_, fun hends => ?_⟩
  · rcases List.mem_append.mp hcall with hcall | hcall
    · exact (List.mem_append.mp hcall).elim (hclears.apart call) (hthen.apart call)
    · split at hcall
      · exact helse.apart call hcall
      · cases hcall
  · rw [flow_withFlow, Flow.diverged_merge]
    cases hbody : blockEnds t with
    | false => rw [hthen.goesOn hbody, Bool.false_and]
    | true =>
      -- the path around the first block goes on: through the second, or past it
      have hother : blockEnds e = false := by
        cases hasElse with
        | false =>
          rw [hempty rfl]
          unfold blockEnds
          rfl
        | true => simpa [hbody] using hends
      rw [helse.goesOn hother, Bool.and_false]

theorem clears_loop {span : Span} {cond : Expr} {body : List Stmt} (hcond : ClearsExpr m types cond)
    (hbody : ∀ s ∈ body, ClearsStmt m types s) : ClearsStmt m types (.loop span cond body) := by
  intro c hc h
  obtain ⟨c₁, c₂, exits₁, d₁, c₃, c₄, exits₂, d₂, hc₁, hc₂, hleave₁, hd₁, hc₃, hc₄, hleave₂,
      hd₂, heq⟩ :=
    checkStmt_loop h
  have hok₂ : c₂.failed = false := by
    have := failed_leaveLoop c₂
    rwa [hleave₁, hd₁, eq_comm] at this
  have hok₁ : c₁.failed = false := not_failed_of_checkBlock
    (c := { c₁ with loops := {} :: c₁.loops }) (hc₂ ▸ hok₂)
  have hok₄ : c₄.failed = false := by
    have := failed_leaveLoop c₄
    rwa [hleave₂, hd₂, eq_comm] at this
  have hok₃ : c₃.failed = false := not_failed_of_checkBlock
    (c := { c₃ with loops := {} :: c₃.loops }) (hc₄ ▸ hok₄)
  have hfirst := hcond .value { c with counting := false } (hc₁ ▸ hok₁)
  have hlater := hcond .value _ (hc₃ ▸ hok₃)
  rw [hc₁] at hfirst
  rw [hc₃] at hlater
  have hround := clears_checkBlock hbody (c := { c₁ with loops := {} :: c₁.loops })
    (hfirst.holds.1.trans hc) (hc₂ ▸ hok₂)
  unfold Stmt.calls Stmt.ends
  rw [heq]
  refine ⟨fun call hcall => (List.mem_append.mp hcall).elim (hfirst.apart call) (hround.apart call),
    fun _ => diverged_foldl_merge (hlater.holds.1.trans ?_) _⟩
  show (c.flow.merge _).diverged = false
  rw [Flow.diverged_merge, hc, Bool.false_and]

/-- The check of every typed statement. -/
theorem clearsStmt_of_typed {s : Stmt} {ret : TypeId} {inLoop : Bool}
    (hs : s.Typed (m.typeContext types) ret inLoop) : ClearsStmt m types s := by
  induction hs with
  | ite hc _ _ _ hempty iht ihe => exact clears_ite (clearsExpr_of_typed hc) iht ihe hempty
  | loop hc _ _ ih => exact clears_loop (clearsExpr_of_typed hc) ih
  | expr he | require he =>
    intro c hc h
    unfold checkStmt at h ⊢
    unfold Stmt.calls Stmt.ends
    exact (clearsExpr_of_typed he _ _ h).passes hc rfl
  | bind hs hpass he ht =>
    intro c hc h
    unfold checkStmt at h ⊢
    unfold Stmt.calls Stmt.ends
    dsimp only at h ⊢
    refine (clearsExpr_of_typed he .value c (by split at h <;> simpa using h)).passes hc ?_
    split <;> simp [Flow.restore]
  | @assign _ _ sym s field e hs he ht =>
    intro c hc h
    unfold checkStmt at h ⊢
    unfold Stmt.calls Stmt.ends
    dsimp only at h ⊢
    split at h
    · rename_i hfailed
      rw [hfailed] at h
      cases h
    · rename_i hok
      rw [if_neg hok]
      refine (clearsExpr_of_typed he .value c (Bool.eq_false_iff.mpr hok)).passes hc ?_
      unfold checkAssign
      dsimp only
      split
      · simp
      · split <;> simp [Flow.restore]
  | retNone hunit =>
    intro c hc h
    unfold Stmt.calls Stmt.ends
    exact ⟨fun _ h => absurd h List.not_mem_nil, fun hfalse => (by cases hfalse)⟩
  | @ret _ _ e he ht =>
    intro c hc h
    unfold checkStmt at h
    unfold Stmt.calls Stmt.ends
    dsimp only at h
    have hvalue : (useExpr m types e .value c).failed = false := by
      split at h
      · exact h
      · simpa using h
    exact ⟨(clearsExpr_of_typed he _ _ hvalue).apart, fun hfalse => (by cases hfalse)⟩
  | stop | next | revert | panic =>
    intro c hc h
    unfold Stmt.calls Stmt.ends
    exact ⟨fun _ h => absurd h List.not_mem_nil, fun hfalse => (by cases hfalse)⟩

theorem apart_of_checkFunction {f : Function}
    (hbody : ∀ s ∈ f.body, s.Typed (m.typeContext types) f.ret false) {accesses : Accesses}
    {counting : Bool} (h : (checkFunction m types f accesses counting).failed = false) :
    ∀ call ∈ callsOfBlock f.body, CallApart m.functions call := by
  unfold checkFunction at h
  extract_lets params start c₁ c₂ at h
  have hpassed : c₁.failed = false := by
    unfold c₂ at h
    split at h <;> simpa using h
  exact (clears_checkBlock (fun s hs => clearsStmt_of_typed (hbody s hs)) rfl hpassed).apart

end Checker

/-! ## Functions -/

/-- The arguments of the calls in a function that passes the check are apart. -/
theorem apart_of_checkOwnership {m : Module} {types : TypePool} (hm : m.Typed types)
    {counting : Bool} {id : FuncId} {f : Function} (hf : m.functions[id]? = some f)
    (hok : (checkOwnership m types counting).functionOk[id]? = some true) :
    ∀ call ∈ callsOfBlock f.body, CallApart m.functions call := by
  unfold checkOwnership at hok
  have hbody := (hm.functions f (Array.mem_of_getElem? hf)).body
  have hlisted : m.functions.toList[id]? = some f := by rwa [Array.getElem?_toList]
  obtain ⟨accesses, hpassed⟩ :=
    functionOk_checkFunctions (r := { accesses := Array.replicate m.exprCount .none }) hlisted
      (by simpa using hok)
  exact Checker.apart_of_checkFunction hbody hpassed

/-- The calls of a function that passes the check pass different bindings exclusively. -/
theorem separate_of_checkOwnership {m : Module} {types : TypePool} (hm : m.Typed types)
    {counting : Bool} {id : FuncId} {f : Function} (hf : m.functions[id]? = some f)
    (hok : (checkOwnership m types counting).functionOk[id]? = some true) :
    ∀ call ∈ callsOfBlock f.body, SeparateCall m.functions call :=
  fun call hcall => Checker.separate_of_apart (apart_of_checkOwnership hm hf hok call hcall)

end ContractCompiler.Hir
