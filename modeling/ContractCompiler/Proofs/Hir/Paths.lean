import ContractCompiler.Hir.Ownership

/-!
# Paths through functions

What happens to bindings along the paths through the control flow of a function. Every condition may
go either way, and loops run any number of rounds.

- `Event`, `Trace`: uses of bindings, and values given to them, in order;
- `Trace.NoUseAfterMove`: what was moved is not used before it has a value again;
- `Expr.traces`: the traces of the paths through an expression;
- `Stmt.Path`, `blockPath`: the traces of the paths through statements, with how they end;
- `Clean`, `noUseAfterMove_of_clean`: the same property followed event by event, one binding at a
  time.
-/

namespace ContractCompiler.Hir

/-! ## Traces -/

/-- What happens to a binding on a path. -/
inductive Event where
  /-- It is used, by a name or by an assignment to one of its fields. A use by value moves it if its
  type is not copied. -/
  | use (sym : SymbolId) (moves : Bool)
  /-- It is given a value as a whole. -/
  | renew (sym : SymbolId)
deriving DecidableEq, Repr, Inhabited

/-- What happens to bindings along a path, in order. -/
abbrev Trace := List Event

/-- At the end of a trace, a binding has been moved and not been given a value since. -/
def Trace.Moved (t : Trace) (sym : SymbolId) : Prop :=
  ∃ before after, t = before ++ .use sym true :: after ∧ .renew sym ∉ after

/-- No binding is used after it was moved, unless it was given a value in between. -/
def Trace.NoUseAfterMove (t : Trace) : Prop :=
  ∀ before sym moves after, t = before ++ .use sym moves :: after → ¬Trace.Moved before sym

/-- The traces of paths one after the other. -/
def sequence (ts us : List Trace) : List Trace := ts.flatMap fun t => us.map (t ++ ·)

theorem mem_sequence {ts us : List Trace} {t : Trace} :
    t ∈ sequence ts us ↔ ∃ u ∈ ts, ∃ v ∈ us, u ++ v = t := by
  simp [sequence]

/-! ## Expressions -/

/-- How a parameter uses its argument. -/
def PassMode.use : PassMode → Use
  | .owned => .value
  | .shared => .shared
  | .exclusive => .exclusive

variable (m : Module) (types : TypePool)

/-- How the operand of an operation on results is used. -/
def ResultOp.use (use : Use) : ResultOp → Use
  | .unwrap => use
  | .isOk | .code => .shared

/-- How the struct is used of which a field is used. Taking a field that is not copied takes the
struct. -/
def fieldUse (use : Use) (type : TypeId) : Use :=
  if use != .value || types.isCopy type then .shared else .value

mutual

/-- The traces of the paths through an expression that is used in some way. Parts are evaluated from
left to right; the right operand of a conjunction or disjunction may be left out. -/
def Expr.traces : Expr → Use → List Trace
  | .int _ _, _ | .bool _ _, _ | .bytes _ _, _ | .unit _, _ | .context _ _, _ => [[]]
  | .local i sym, use => [[.use sym (use == .value && !types.isCopy i.type)]]
  | .unary _ _ _ a, _ | .cast _ _ a, _ | .ok _ a, _ | .err _ a, _ => a.traces .value
  | .binary _ _ _ a b, _ => sequence (a.traces .value) (b.traces .value)
  | .logical _ _ a b, _ =>
    a.traces .value ++ sequence (a.traces .value) (b.traces .value)
  | .call _ callee args, _ =>
    argTraces args (((m.functions[callee]?).map fun f => f.params.map (·.pass)).getD [])
  | .field i _ _ a, use => a.traces (fieldUse types use i.type)
  | .struct _ es, _ => eachTraces es .value
  | .select _ c t f, use => sequence (c.traces .value) (t.traces use ++ f.traces use)
  | .result _ op a, use => a.traces (op.use use)
  | .length _ a, _ | .digest _ a, _ | .stateGet _ _ a, _ | .stateHas _ _ a, _ => a.traces .shared
  | .statePut _ _ key value, _ => sequence (key.traces .shared) (value.traces .shared)
  | .emit _ _ es, _ => eachTraces es .shared

/-- The traces of the paths through expressions that are used in the same way. -/
def eachTraces : List Expr → Use → List Trace
  | [], _ => [[]]
  | e :: es, use => sequence (e.traces use) (eachTraces es use)

/-- The traces of the paths through arguments, given how they are passed. -/
def argTraces : List Expr → List PassMode → List Trace
  | [], _ => [[]]
  | a :: args, modes => sequence (a.traces (modes.headD .owned).use) (argTraces args modes.tail)

end

/-! ## Statements -/

/-- How a path through statements ends. -/
inductive Exit where
  /-- The statement after them is next. -/
  | normal
  /-- The innermost loop is left. -/
  | stop
  /-- The next round of the innermost loop follows. -/
  | next
  /-- The function is left. -/
  | done
deriving DecidableEq, Repr, Inhabited

/-- The paths through a loop, given those through its condition and its body: any number of rounds,
with the condition before each and before leaving. -/
inductive Rounds (cond : List Trace) (body : Trace → Exit → Prop) : Trace → Exit → Prop where
  | leave {t : Trace} (ht : t ∈ cond) : Rounds cond body t .normal
  | stop {t u : Trace} (ht : t ∈ cond) (hu : body u .stop) : Rounds cond body (t ++ u) .normal
  | done {t u : Trace} (ht : t ∈ cond) (hu : body u .done) : Rounds cond body (t ++ u) .done
  | again {t u v : Trace} {exit exit' : Exit} (ht : t ∈ cond) (hu : body u exit)
      (hexit : exit = .normal ∨ exit = .next) (hv : Rounds cond body v exit') :
      Rounds cond body (t ++ (u ++ v)) exit'

mutual

/-- The paths through a statement. -/
def Stmt.Path : Stmt → Trace → Exit → Prop
  | .expr _ e, t, exit => t ∈ e.traces m types .value ∧ exit = .normal
  | .bind _ sym e, t, exit =>
    t ∈ sequence (e.traces m types .value) [[.renew sym]] ∧ exit = .normal
  | .assign _ sym none e, t, exit =>
    t ∈ sequence (e.traces m types .value) [[.renew sym]] ∧ exit = .normal
  | .assign _ sym (some _) e, t, exit =>
    t ∈ sequence (e.traces m types .value) [[.use sym false]] ∧ exit = .normal
  | .ite _ c thenBody _ elseBody, t, exit =>
    ∃ u ∈ c.traces m types .value, ∃ v, t = u ++ v ∧
      (blockPath thenBody v exit ∨ blockPath elseBody v exit)
  | .loop _ c body, t, exit => Rounds (c.traces m types .value) (blockPath body) t exit
  | .ret _ none, t, exit => t = [] ∧ exit = .done
  | .ret _ (some e), t, exit => t ∈ e.traces m types .value ∧ exit = .done
  | .stop _, t, exit => t = [] ∧ exit = .stop
  | .next _, t, exit => t = [] ∧ exit = .next
  | .require _ c _, t, exit => t ∈ c.traces m types .value ∧ (exit = .normal ∨ exit = .done)
  | .revert _ _, t, exit | .panic _ _, t, exit => t = [] ∧ exit = .done

/-- The paths through the statements of a block. -/
def blockPath : List Stmt → Trace → Exit → Prop
  | [], t, exit => t = [] ∧ exit = .normal
  | s :: ss, t, exit =>
    (s.Path t exit ∧ exit ≠ .normal) ∨ ∃ u v, t = u ++ v ∧ s.Path u .normal ∧ blockPath ss v exit

end

/-! ## One binding at a time -/

/-- Whether a binding is moved after an event, given whether it was before. -/
def Event.apply (x : SymbolId) (moved : Bool) : Event → Bool
  | .use sym moves => moved || (sym == x && moves)
  | .renew sym => moved && sym != x

/-- Whether a binding is moved after a trace, given whether it was before. -/
def movedAfter (x : SymbolId) (moved : Bool) (t : Trace) : Bool := t.foldl (Event.apply x) moved

/-- A binding is not used while it is moved. -/
def Clean (x : SymbolId) : Bool → Trace → Prop
  | _, [] => True
  | moved, e :: t => (∀ moves, e = .use x moves → moved = false) ∧ Clean x (e.apply x moved) t

@[simp] theorem movedAfter_nil (x : SymbolId) (moved : Bool) : movedAfter x moved [] = moved := rfl

theorem movedAfter_append (x : SymbolId) (moved : Bool) (t u : Trace) :
    movedAfter x moved (t ++ u) = movedAfter x (movedAfter x moved t) u :=
  List.foldl_append

theorem clean_append {x : SymbolId} {moved : Bool} {t u : Trace} :
    Clean x moved (t ++ u) ↔ Clean x moved t ∧ Clean x (movedAfter x moved t) u := by
  induction t generalizing moved with
  | nil => simp [Clean]
  | cons e t ih =>
    show _ ∧ Clean x (e.apply x moved) (t ++ u) ↔ (_ ∧ _) ∧ _
    rw [ih, and_assoc]
    rfl

/-- A moved binding stays moved until it is given a value. -/
theorem movedAfter_of_not_renewed {x : SymbolId} {t : Trace} (h : .renew x ∉ t) :
    movedAfter x true t = true := by
  induction t with
  | nil => rfl
  | cons e t ih =>
    rw [List.mem_cons, not_or] at h
    obtain ⟨hne, ht⟩ := h
    have hstep : e.apply x true = true := by
      cases e with
      | use sym moves => rfl
      | renew sym =>
        have hsym : sym ≠ x := fun heq => hne (heq ▸ rfl)
        simp [Event.apply, hsym]
    show movedAfter x (e.apply x true) t = true
    rw [hstep]
    exact ih ht

theorem movedAfter_of_moved {x : SymbolId} {t : Trace} (h : t.Moved x) (moved : Bool) :
    movedAfter x moved t = true := by
  obtain ⟨before, after, rfl, hafter⟩ := h
  rw [movedAfter_append]
  show movedAfter x (Event.apply x _ (.use x true)) after = true
  simpa [Event.apply] using movedAfter_of_not_renewed hafter

/-- It suffices to follow each binding by itself. -/
theorem noUseAfterMove_of_clean {t : Trace} (h : ∀ x, Clean x false t) : t.NoUseAfterMove := by
  rintro before sym moves after rfl hmoved
  obtain ⟨-, hclean⟩ := clean_append.mp (h sym)
  rw [movedAfter_of_moved hmoved] at hclean
  cases hclean.1 moves rfl

end ContractCompiler.Hir
