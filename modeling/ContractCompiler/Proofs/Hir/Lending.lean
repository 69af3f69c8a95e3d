import ContractCompiler.Proofs.Hir.Checking
import ContractCompiler.Proofs.Hir.Typing

/-!
# What the arguments of a call borrow

A call borrows the bindings that it passes by reference, from the argument on until the call is
over. An argument that is no binding but is taken out of one, as a field or out of a result, only
reads it for the moment.

- `Expr.lends`: the bindings that an expression reads in place;
- `Param.holds`: what an argument borrows until the call is over;
- `Apart`: no argument meets a borrow that excludes it;
- `LendsApart`, `LaterLendsApart`: the arguments of a call that are passed to read against those
  that are passed exclusively;
- `Checker.free_of_lends`: what an expression reads in place is not borrowed exclusively.
-/

namespace ContractCompiler.Hir

/-! ## Arguments -/

/-- The bindings that an expression lends if it is only read: the one that it names, or those that
the base of a field, the arms of a choice or the operand of an unwrapping lend. -/
def Expr.lends : Expr → List SymbolId
  | .local _ sym => [sym]
  | .field _ _ _ a => a.lends
  | .select _ _ t e => t.lends ++ e.lends
  | .result _ op a => if op = .unwrap then a.lends else []
  | _ => []

theorem Expr.mem_lends_of_local? {e : Expr} {sym : SymbolId} (h : e.local? = some sym) :
    sym ∈ e.lends := by
  cases e with
  | «local» info sym' =>
    obtain rfl : sym' = sym := Option.some.inj h
    unfold lends
    exact List.mem_singleton.mpr rfl
  | _ => cases h

theorem Expr.local?_eq_none {e : Expr} (h : ∀ info sym, e = .local info sym → False) :
    e.local? = none := by
  cases e with
  | «local» info sym => exact (h info sym rfl).elim
  | _ => rfl

/-- What an argument borrows until the call is over, and whether exclusively: a binding that is
passed by reference. -/
def Param.holds (p : Param) (a : Expr) : List (SymbolId × Bool) :=
  match p.pass, a.local? with
  | .shared, some sym => [(sym, false)]
  | .exclusive, some sym => [(sym, true)]
  | _, _ => []

/-- From left to right, no argument passes a binding exclusively that is borrowed, and none reads
one in place that is borrowed exclusively; what is borrowed before is given. -/
def Apart (held : List (SymbolId × Bool)) : List Param → List Expr → Prop
  | p :: params, a :: args =>
    (p.pass = .exclusive → ∀ sym, a.local? = some sym → ∀ exclusive, (sym, exclusive) ∉ held) ∧
      (p.pass = .shared → ∀ sym ∈ a.lends, (sym, true) ∉ held) ∧
        Apart (held ++ p.holds a) params args
  | _, _ => True

namespace Apart

variable {held held' : List (SymbolId × Bool)} {params : List Param} {args : List Expr}

/-- Less may be borrowed before. -/
theorem mono (hsub : held' ⊆ held) (h : Apart held params args) : Apart held' params args := by
  induction args generalizing params held held' with
  | nil => cases params <;> exact trivial
  | cons a args ih =>
    cases params with
    | nil => exact trivial
    | cons p params =>
      obtain ⟨hexcl, hshared, hrest⟩ := h
      exact ⟨fun hpass sym hsym e hmem => hexcl hpass sym hsym e (hsub hmem),
        fun hpass sym hsym hmem => hshared hpass sym hsym (hsub hmem),
        ih (List.append_subset.mpr ⟨List.Subset.trans hsub (List.subset_append_left _ _),
          List.subset_append_right _ _⟩) hrest⟩

/-- An argument meets what is borrowed before; what follows meets what the argument borrows, too. -/
theorem at_index (h : Apart held params args) {i : Nat} {p : Param} {a : Expr}
    (hp : params[i]? = some p) (ha : args[i]? = some a) :
    (p.pass = .exclusive → ∀ sym, a.local? = some sym → ∀ exclusive, (sym, exclusive) ∉ held) ∧
      (p.pass = .shared → ∀ sym ∈ a.lends, (sym, true) ∉ held) ∧
      Apart (p.holds a) (params.drop (i + 1)) (args.drop (i + 1)) := by
  induction i generalizing params args held with
  | zero =>
    cases params <;> cases args <;> simp only [List.getElem?_nil, List.getElem?_cons_zero,
      reduceCtorEq, Option.some.injEq] at hp ha
    obtain rfl := hp
    obtain rfl := ha
    exact ⟨h.1, h.2.1, h.2.2.mono (List.subset_append_right _ _)⟩
  | succ i ih =>
    cases params <;> cases args <;> simp only [List.getElem?_nil, List.getElem?_cons_succ,
      reduceCtorEq] at hp ha
    exact ih (h.2.2.mono (List.subset_append_left _ _)) hp ha

/-- A later argument meets what an earlier one borrows. -/
theorem later (h : Apart held params args) {i j : Nat} (hij : i < j) {p q : Param} {a b : Expr}
    (hp : params[i]? = some p) (ha : args[i]? = some a) (hq : params[j]? = some q)
    (hb : args[j]? = some b) :
    (q.pass = .exclusive → ∀ sym, b.local? = some sym → ∀ exclusive, (sym, exclusive) ∉ p.holds a) ∧
      (q.pass = .shared → ∀ sym ∈ b.lends, (sym, true) ∉ p.holds a) := by
  obtain ⟨k, rfl⟩ := Nat.exists_eq_add_of_lt hij
  have hindex : i + k + 1 = i + 1 + k := by omega
  rw [hindex, ← List.getElem?_drop] at hq hb
  obtain ⟨hexcl, hshared, -⟩ := (h.at_index hp ha).2.2.at_index hq hb
  exact ⟨hexcl, hshared⟩

end Apart

/-- No argument of a call that is passed to read lends a binding that the call passes
exclusively. -/
def LendsApart (functions : Array Function) (call : FuncId × List Expr) : Prop :=
  ∀ f, functions[call.1]? = some f → ∀ (i j : Nat) (p q : Param) (a b : Expr) (sym : SymbolId),
    f.params[i]? = some p → f.params[j]? = some q → call.2[i]? = some a → call.2[j]? = some b →
      p.pass = .exclusive → a.local? = some sym → q.pass = .shared → sym ∉ b.lends

/-- A binding that a call passes exclusively is not passed to read, and no later argument that is
passed to read lends it. -/
def LaterLendsApart (functions : Array Function) (call : FuncId × List Expr) : Prop :=
  ∀ f, functions[call.1]? = some f → ∀ (i j : Nat) (p q : Param) (a b : Expr) (sym : SymbolId),
    f.params[i]? = some p → f.params[j]? = some q → call.2[i]? = some a → call.2[j]? = some b →
      p.pass = .exclusive → a.local? = some sym → q.pass = .shared →
        b.local? ≠ some sym ∧ (i < j → sym ∉ b.lends)

/-- The arguments of a call are apart. -/
def CallApart (functions : Array Function) (call : FuncId × List Expr) : Prop :=
  ∀ f, functions[call.1]? = some f → Apart [] f.params call.2

theorem CallApart.laterLendsApart {functions : Array Function} {call : FuncId × List Expr}
    (h : CallApart functions call) : LaterLendsApart functions call := by
  intro f hf i j p q a b sym hp hq ha hb hexcl hsym hshared
  have hapart := h f hf
  have hlater (hij : i < j) : sym ∉ b.lends := by
    refine fun hmem => (hapart.later hij hp ha hq hb).2 hshared sym hmem ?_
    unfold Param.holds
    rw [hexcl, hsym]
    exact List.mem_singleton.mpr rfl
  refine ⟨fun hlocal => ?_, hlater⟩
  rcases Nat.lt_trichotomy i j with hij | rfl | hji
  · exact hlater hij (Expr.mem_lends_of_local? hlocal)
  · obtain rfl := Option.some.inj (hp.symm.trans hq)
    cases hexcl.symm.trans hshared
  · refine (hapart.later hji hq hb hp ha).1 hexcl sym hsym false ?_
    unfold Param.holds
    rw [hshared, hlocal]
    exact List.mem_singleton.mpr rfl

namespace Checker

variable {m : Module} {types : TypePool} {c c' c'' : Checker}

/-! ## Bindings -/

@[simp] theorem borrows_report (c : Checker) (m : Module) (cause : Cause) (span : Span)
    (sym : SymbolId) (details : List String) (related : Span) :
    (c.report m cause span sym details related).borrows = c.borrows := by
  unfold report
  extract_lets d
  split <;> rfl

@[simp] theorem flow_report (c : Checker) (m : Module) (cause : Cause) (span : Span)
    (sym : SymbolId) (details : List String) (related : Span) :
    (c.report m cause span sym details related).flow = c.flow := by
  unfold report
  extract_lets d
  split <;> rfl

@[simp] theorem borrows_record (c : Checker) (id : ExprId) (a : AccessKind) :
    (c.record id a).borrows = c.borrows := rfl

@[simp] theorem borrows_withFlow (c : Checker) (flow : Flow) :
    (c.withFlow flow).borrows = c.borrows := rfl

/-- The flow goes on, and more bindings may be borrowed. -/
def Holds (c c' : Checker) (held : List Borrow) : Prop :=
  c'.flow.diverged = c.flow.diverged ∧ c'.borrows = c.borrows ++ held

theorem Holds.trans {held held' : List Borrow} (h : Holds c c' held) (h' : Holds c' c'' held') :
    Holds c c'' (held ++ held') :=
  ⟨h'.1.trans h.1, by rw [h'.2, h.2, List.append_assoc]⟩

theorem holds_of_eq (hflow : c'.flow.diverged = c.flow.diverged)
    (hborrows : c'.borrows = c.borrows) :
    Holds c c' [] :=
  ⟨hflow, by rw [hborrows, List.append_nil]⟩

theorem holds_hold (c : Checker) (lasting : Bool) (b : Borrow) :
    Holds c (c.hold lasting b) (if lasting then [b] else []) := by
  cases lasting with
  | false => exact holds_of_eq rfl rfl
  | true => exact ⟨rfl, rfl⟩

/-- A use of a binding borrows it only if it is to last. -/
theorem holds_useLocal (info : ExprInfo) (sym : SymbolId) (use : Use) (lasting : Bool) :
    ∃ held, Holds c (c.useLocal m types info sym use lasting) held ∧
      (lasting = false → held = []) := by
  have hnone {c' : Checker} (hflow : c'.flow.diverged = c.flow.diverged)
      (hborrows : c'.borrows = c.borrows) :
      ∃ held, Holds c c' held ∧ (lasting = false → held = []) :=
    ⟨[], holds_of_eq hflow hborrows, fun _ => rfl⟩
  have hheld (a : AccessKind) (b : Borrow) :
      ∃ held, Holds c ((c.record info.id a).hold lasting b) held ∧ (lasting = false → held = []) :=
    ⟨_, holds_hold (c.record info.id a) lasting b, fun hlasting => by simp [hlasting]⟩
  unfold useLocal
  split
  · exact hnone (by simp) (by simp)
  · dsimp only
    split
    · unfold useValue
      dsimp only
      split
      · split <;> exact hnone (by simp) (by simp)
      · split
        · exact hnone (by simp) (by simp)
        · split
          · exact hnone (by simp) (by simp)
          · exact hnone rfl rfl
    · unfold useShared
      dsimp only
      split
      · exact hnone (by simp) (by simp)
      · exact hheld _ _
    · unfold useExclusive
      dsimp only
      split
      · exact hnone (by simp) (by simp)
      · split
        · exact hnone (by simp) (by simp)
        · exact hheld _ _

/-- What is borrowed, and whether exclusively. -/
def held (c : Checker) : List (SymbolId × Bool) := c.borrows.map fun b => (b.sym, b.exclusive)

theorem mem_held {sym : SymbolId} {exclusive : Bool} :
    (sym, exclusive) ∈ c.held ↔ ∃ b ∈ c.borrows, b.sym = sym ∧ b.exclusive = exclusive := by
  unfold held
  simp [List.mem_map]

/-- A binding that is used exclusively is not borrowed, and is so from then on. -/
theorem useLocal_exclusive {info : ExprInfo} {sym : SymbolId}
    (h : (c.useLocal m types info sym .exclusive true).failed = false) :
    (∀ exclusive, (sym, exclusive) ∉ c.held) ∧
      (c.useLocal m types info sym .exclusive true).borrows =
        c.borrows ++ [⟨sym, true, info.span⟩] := by
  unfold useLocal at h ⊢
  split at h
  · simp at h
  · dsimp only at h ⊢
    unfold useExclusive at h ⊢
    dsimp only at h ⊢
    split at h
    · simp at h
    · rename_i hmutable
      rw [if_neg hmutable]
      split at h
      · simp at h
      · rename_i hfree
        refine ⟨fun e hmem => ?_, rfl⟩
        obtain ⟨b, hb, hsym, -⟩ := mem_held.mp hmem
        have hnone := List.find?_eq_none.mp hfree b hb
        simp [hsym] at hnone

/-- A binding that is read is not borrowed exclusively; it is borrowed from then on if the use is to
last. -/
theorem useLocal_shared {info : ExprInfo} {sym : SymbolId} {lasting : Bool}
    (h : (c.useLocal m types info sym .shared lasting).failed = false) :
    (sym, true) ∉ c.held ∧
      (c.useLocal m types info sym .shared lasting).borrows =
        c.borrows ++ if lasting then [⟨sym, false, info.span⟩] else [] := by
  unfold useLocal at h ⊢
  split at h
  · simp at h
  · dsimp only at h ⊢
    unfold useShared at h ⊢
    dsimp only at h ⊢
    split at h
    · simp at h
    · rename_i hfree
      refine ⟨fun hmem => ?_, (holds_hold (c.record info.id .shared) lasting _).2⟩
      obtain ⟨b, hb, hsym, hexcl⟩ := mem_held.mp hmem
      have hnone := List.find?_eq_none.mp hfree b hb
      simp [hsym, hexcl] at hnone

/-! ## Expressions -/

/-- The state of the check after an argument of a call. -/
def afterArg (m : Module) (types : TypePool) (a : Expr) (p : Param) (c : Checker) : Checker :=
  match p.pass, a with
  | .shared, .local info sym => c.useLocal m types info sym .shared true
  | .exclusive, .local info sym => c.useLocal m types info sym .exclusive true
  | .shared, a => useExpr m types a .shared c
  | _, a => useExpr m types a .value c

theorem useArgs_cons (hc : c.failed = false) (a : Expr) (args : List Expr) (p : Param)
    (params : List Param) :
    useArgs m types (a :: args) (p :: params) c =
      useArgs m types args params (afterArg m types a p c) := by
  conv =>
    lhs
    unfold useArgs
  rw [if_neg (by rw [hc]; exact Bool.false_ne_true)]
  rfl

/-- An argument that is checked like an expression leaves the borrows as they are; others add to
them. -/
theorem borrows_afterArg {a : Expr} (p : Param)
    (ha : ∀ use, (useExpr m types a use c).borrows = c.borrows) :
    ∃ held, (afterArg m types a p c).borrows = c.borrows ++ held := by
  unfold afterArg
  split
  · obtain ⟨held, hholds, -⟩ := @holds_useLocal m types c ‹_› ‹_› .shared true
    exact ⟨held, hholds.2⟩
  · obtain ⟨held, hholds, -⟩ := @holds_useLocal m types c ‹_› ‹_› .exclusive true
    exact ⟨held, hholds.2⟩
  · exact ⟨[], by rw [ha, List.append_nil]⟩
  · exact ⟨[], by rw [ha, List.append_nil]⟩

mutual

/-- The check of an expression leaves the borrows as they are. -/
theorem borrows_useExpr (e : Expr) (use : Use) (c : Checker) :
    (useExpr m types e use c).borrows = c.borrows := by
  unfold useExpr
  split
  · rfl
  · cases e with
    | int | bool | bytes | unit | context => rfl
    | «local» info sym =>
      obtain ⟨held, hholds, hnil⟩ := @holds_useLocal m types c info sym use false
      rw [show (c.useLocal m types info sym use false).borrows =
        c.borrows ++ held from hholds.2, hnil rfl, List.append_nil]
    | unary _ _ _ a | cast _ _ a | ok _ a | err _ a => exact borrows_useExpr a .value c
    | binary _ _ _ a b | logical _ _ a b =>
      exact (borrows_useExpr b .value _).trans (borrows_useExpr a .value c)
    | call _ callee args =>
      obtain ⟨held, hheld⟩ := borrows_useArgs args
        (((m.functions[callee]?).map (·.params)).getD []) c
      show (useArgs m types args _ c).borrows.take c.borrows.length = c.borrows
      rw [hheld, List.take_left]
    | field _ _ _ a => exact borrows_useExpr a _ c
    | struct _ es => exact borrows_useEach es .value c
    | select _ cond t e =>
      dsimp only
      split
      · exact borrows_useExpr cond .value c
      · exact (borrows_useExpr e use _).trans ((borrows_useExpr t use _).trans
          (borrows_useExpr cond .value c))
    | result _ op a => cases op <;> exact borrows_useExpr a _ c
    | length _ a | digest _ a | stateGet _ _ a | stateHas _ _ a => exact borrows_useExpr a .shared c
    | statePut _ _ key value =>
      exact (borrows_useExpr value .shared _).trans (borrows_useExpr key .shared c)
    | emit _ _ es => exact borrows_useEach es .shared c

theorem borrows_useEach (es : List Expr) (use : Use) (c : Checker) :
    (useEach m types es use c).borrows = c.borrows := by
  unfold useEach
  cases es with
  | nil => rfl
  | cons e es => exact (borrows_useEach es use _).trans (borrows_useExpr e use c)

/-- The arguments of a call add to the borrows. -/
theorem borrows_useArgs (args : List Expr) (params : List Param) (c : Checker) :
    ∃ held, (useArgs m types args params c).borrows = c.borrows ++ held := by
  unfold useArgs
  cases args with
  | nil => exact ⟨[], (List.append_nil _).symm⟩
  | cons a args =>
    cases params with
    | nil => exact ⟨[], (List.append_nil _).symm⟩
    | cons p params =>
      dsimp only
      split
      · exact ⟨[], (List.append_nil _).symm⟩
      · obtain ⟨held, hheld⟩ := borrows_afterArg p fun use => borrows_useExpr a use c
        obtain ⟨rest, hrest⟩ := borrows_useArgs args params (afterArg m types a p c)
        exact ⟨held ++ rest, hrest.trans (by rw [hheld, List.append_assoc])⟩

end

/-- What an expression reads in place is not borrowed exclusively. -/
theorem free_of_lends {e : Expr} (he : e.Typed (m.typeContext types)) {c : Checker}
    (h : (useExpr m types e .shared c).failed = false) : ∀ sym ∈ e.lends, (sym, true) ∉ c.held := by
  induction he generalizing c with
    (intro sym hsym
     have hc := not_failed_of_useExpr h
     unfold useExpr at h
     unfold Expr.lends at hsym
     simp only [hc, Bool.false_eq_true, if_false] at h)
  | @«local» i sym' =>
    obtain rfl := List.mem_singleton.mp hsym
    exact (useLocal_shared h).1
  | field _ _ _ ih => exact ih h sym hsym
  | unwrap _ _ ih => exact ih h sym hsym
  | @select _ cond t f _ _ _ _ _ _ _ iht ihf =>
    split at h
    · rename_i hfailed
      rw [hfailed] at h
      cases h
    -- the condition and the other arm leave the borrows as they are
    · have hsecond : (useExpr m types f .shared
          ((useExpr m types t .shared (useExpr m types cond .value c)).withFlow
          (useExpr m types cond .value c).flow)).failed = false := h
      have hfirst : (useExpr m types t .shared (useExpr m types cond .value c)).failed = false :=
        not_failed_of_useExpr (c := (useExpr m types t .shared
          (useExpr m types cond .value c)).withFlow (useExpr m types cond .value c).flow) hsecond
      rcases List.mem_append.mp hsym with hsym | hsym
      · have hfree := iht hfirst sym hsym
        unfold held at hfree ⊢
        rwa [borrows_useExpr] at hfree
      · have hfree := ihf hsecond sym hsym
        unfold held at hfree ⊢
        rwa [borrows_withFlow, borrows_useExpr, borrows_useExpr] at hfree
  | _ => exact absurd hsym (by simp)

end Checker

end ContractCompiler.Hir
