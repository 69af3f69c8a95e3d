import ContractCompiler.Hir.Listing

/-!
# Ownership

Values of a type that is not copied have one owner. Using such a binding by value moves it, and it
may not be used again until it is assigned as a whole. Arguments passed by reference borrow their
binding until the call is over: many may borrow it to read, or one may borrow it exclusively.

The check follows the control flow of each function and stops at its first violation. Where paths
meet, a binding counts as moved if it was moved on any path that gets there. The body of a loop is
checked twice: first as it is entered, then with what the first round may have moved.

- `Flow`: what is known at a point of the control flow;
- `Checker.useExpr`, `Checker.checkStmt`: the check;
- `checkOwnership`: the check of a module, with the accesses it records and the drops it counts.
-/

namespace ContractCompiler.Hir

/-- What is known at a point of the control flow. -/
structure Flow where
  /-- The moved bindings, each with the place where it was moved. -/
  moved : List (SymbolId × Span) := []
  /-- No execution gets here. -/
  diverged : Bool := false
deriving DecidableEq, Repr, Inhabited

namespace Flow

/-- Where a binding was moved, if it was. -/
def movedAt? (f : Flow) (sym : SymbolId) : Option Span := f.moved.lookup sym

/-- The binding is moved. -/
def move (f : Flow) (sym : SymbolId) (span : Span) :
    Flow := { f with moved := f.moved ++ [(sym, span)] }

/-- The binding has a value again. -/
def restore (f : Flow) (sym : SymbolId) : Flow :=
  { f with moved := f.moved.filter fun m => m.1 != sym }

/-- Where two paths meet, what was moved on either is moved. A path that does not get here adds
nothing. -/
def merge (a b : Flow) : Flow :=
  if a.diverged then b
  else if b.diverged then a
  else { a with moved := a.moved ++ b.moved.filter fun m => (a.movedAt? m.1).isNone }

end Flow

/-- How the place of an expression uses it. -/
inductive Use where
  /-- By value: copied types are copied, others are moved. -/
  | value
  /-- To read it only. -/
  | shared
  /-- As the only user. -/
  | exclusive
deriving DecidableEq, Repr, Inhabited

/-- A borrow that lasts until a call is over. -/
structure Borrow where
  sym : SymbolId
  exclusive : Bool
  span : Span
deriving DecidableEq, Repr, Inhabited

/-- How the rounds of a loop end other than at the end of its body. -/
structure LoopExits where
  stops : List Flow := []
  nexts : List Flow := []
deriving DecidableEq, Repr, Inhabited

/-- The state of the check of a function. -/
structure Checker where
  flow : Flow := {}
  /-- The borrows of the calls being made, the oldest first. -/
  borrows : List Borrow := []
  /-- The loops around the current statement, the innermost first. -/
  loops : List LoopExits := []
  /-- The bindings that own a value, by scope, the innermost scope first. -/
  scopes : List (List SymbolId) := []
  /-- Whether drops are counted. -/
  counting : Bool := true
  /-- How many values were still owned where their scope ends. -/
  drops : Nat := 0
  /-- The accesses recorded so far. -/
  accesses : Accesses := #[]
  /-- The first violation. -/
  violation : Option Diagnostic := none
deriving Inhabited

namespace Checker

/-- Whether the function has failed the check. -/
def failed (c : Checker) : Bool := c.violation.isSome

/-- Records a violation unless there is one already. -/
def report (c : Checker) (m : Module) (cause : Cause) (span : Span) (sym : SymbolId)
    (details : List String) (related : Span) : Checker :=
  let args := m.symbolName sym :: details
  let d : Diagnostic := { cause, span, args, related := some related }
  if c.failed then c else { c with violation := some d }

/-- Records how an expression accesses its binding. -/
def record (c : Checker) (id : ExprId) (a : AccessKind) : Checker :=
  let ⟨flow, borrows, loops, scopes, counting, drops, accesses, violation⟩ := c
  { flow, borrows, loops, scopes, counting, drops, violation,
    accesses := accesses.setIfInBounds id a }

/-- Continues with another flow. -/
def withFlow (c : Checker) (flow : Flow) : Checker := { c with flow }

/-- The oldest borrow of a binding. -/
def borrow? (c : Checker) (sym : SymbolId) : Option Borrow := c.borrows.find? (·.sym == sym)

/-- The oldest exclusive borrow of a binding. -/
def exclusiveBorrow? (c : Checker) (sym : SymbolId) : Option Borrow :=
  c.borrows.find? fun b => b.sym == sym && b.exclusive

/-- How a borrowed binding is borrowed. -/
def borrowText (c : Checker) (sym : SymbolId) : String :=
  if (c.exclusiveBorrow? sym).isSome then "mutably borrowed" else "borrowed"

/-- Adds a borrow that lasts until the call is over, if it is to last. -/
def hold (c : Checker) (lasting : Bool) (b : Borrow) : Checker :=
  if lasting then { c with borrows := c.borrows ++ [b] } else c

/-! ## Drops -/

/-- How many of the bindings still own a value. -/
def owned (c : Checker) (syms : List SymbolId) : Nat :=
  syms.countP fun sym => (c.flow.movedAt? sym).isNone

/-- Counts the values that are dropped at the end of scopes. -/
def countDrops (c : Checker) (scopes : List (List SymbolId)) : Checker :=
  if c.counting then { c with drops := c.drops + (scopes.map c.owned).foldl (· + ·) 0 } else c

/-- Opens a scope. -/
def openScope (c : Checker) (syms : List SymbolId) :
    Checker := { c with scopes := syms :: c.scopes }

/-- Closes the innermost scope. -/
def closeScope (c : Checker) : Checker := { c with scopes := c.scopes.tail }

/-- Adds a binding to the innermost scope. -/
def own (c : Checker) (sym : SymbolId) : Checker :=
  match c.scopes with
  | [] => c
  | scope :: rest => { c with scopes := (scope ++ [sym]) :: rest }

/-! ## Expressions -/

variable (m : Module) (types : TypePool)

/-- A use by value. -/
def useValue (c : Checker) (info : ExprInfo) (sym : SymbolId) (s : Symbol) : Checker :=
  if types.isCopy s.type then
    let c := c.record info.id .copy
    match c.exclusiveBorrow? sym with
    | some b => c.report m .borrowConflict info.span sym ["read", "mutably borrowed"] b.span
    | none => c
  else
    let c := c.record info.id .move
    if s.pass.any (· != .owned) then c.report m .moveOutOfBorrowed info.span sym [] s.declSpan
    else
      match c.borrow? sym with
      | some b => c.report m .moveWhileBorrowed info.span sym [c.borrowText sym] b.span
      | none => c.withFlow (c.flow.move sym info.span)

/-- A use to read. -/
def useShared (c : Checker) (info : ExprInfo) (sym : SymbolId) (lasting : Bool) : Checker :=
  let c := c.record info.id .shared
  match c.exclusiveBorrow? sym with
  | some b => c.report m .borrowConflict info.span sym ["borrow", "mutably borrowed"] b.span
  | none => c.hold lasting { sym, exclusive := false, span := info.span }

/-- A use as the only user. -/
def useExclusive (c : Checker) (info : ExprInfo) (sym : SymbolId) (s : Symbol) (lasting : Bool) :
    Checker :=
  let c := c.record info.id .exclusive
  if !s.mutable then c.report m .mutBorrowOfImmutable info.span sym [] s.declSpan
  else
    match c.borrow? sym with
    | some b => c.report m .borrowConflict info.span sym ["mutably borrow", c.borrowText sym] b.span
    | none => c.hold lasting { sym, exclusive := true, span := info.span }

/-- A use of a binding. A lasting use borrows until the call is over. -/
def useLocal (c : Checker) (info : ExprInfo) (sym : SymbolId) (use : Use)
    (lasting : Bool) : Checker :=
  match c.flow.movedAt? sym with
  | some at_ => (c.record info.id .move).report m .useAfterMove info.span sym [] at_
  | none =>
    let s := m.symbols.getD sym default
    match use with
    | .value => c.useValue m types info sym s
    | .shared => c.useShared m info sym lasting
    | .exclusive => c.useExclusive m info sym s lasting

mutual

/-- A use of an expression; its parts are used from left to right. -/
def useExpr (e : Expr) (use : Use) (c : Checker) : Checker :=
  if c.failed then c
  else
    match e with
    | .int _ _ | .bool _ _ | .bytes _ _ | .unit _ | .context _ _ => c
    | .local info sym => c.useLocal m types info sym use false
    | .unary _ _ _ a | .cast _ _ a | .ok _ a | .err _ a => useExpr a .value c
    | .binary _ _ _ a b => useExpr b .value (useExpr a .value c)
    | .logical _ _ a b =>
      let c := useExpr a .value c
      let skipped := c.flow
      let c := useExpr b .value c
      c.withFlow (skipped.merge c.flow)
    | .call _ callee args =>
      let mark := c.borrows.length
      let params := ((m.functions[callee]?).map (·.params)).getD []
      let c := useArgs args params c
      { c with borrows := c.borrows.take mark }
    | .field info _ _ a =>
      let shared := use != .value || types.isCopy info.type
      useExpr a (if shared then .shared else .value) c
    | .struct _ es => useEach es .value c
    | .select _ cond t f =>
      let c := useExpr cond .value c
      if c.failed then c
      else
        let before := c.flow
        let c := useExpr t use c
        let after := c.flow
        let c := useExpr f use (c.withFlow before)
        c.withFlow (after.merge c.flow)
    | .result _ op a =>
      match op with
      | .unwrap => useExpr a use c
      | .isOk | .code => useExpr a .shared c
    | .length _ a | .digest _ a | .stateGet _ _ a | .stateHas _ _ a => useExpr a .shared c
    | .statePut _ _ key value => useExpr value .shared (useExpr key .shared c)
    | .emit _ _ es => useEach es .shared c

/-- A use of several expressions. -/
def useEach (es : List Expr) (use : Use) (c : Checker) : Checker :=
  match es with
  | [] => c
  | e :: es => useEach es use (useExpr e use c)

/-- The arguments of a call, each used as its parameter is passed. -/
def useArgs (args : List Expr) (params : List Param) (c : Checker) : Checker :=
  match args, params with
  | a :: args, p :: params =>
    if c.failed then c
    else
      let c := match p.pass, a with
        | .shared, .local info sym => c.useLocal m types info sym .shared true
        | .exclusive, .local info sym => c.useLocal m types info sym .exclusive true
        | .shared, a => useExpr a .shared c
        | _, a => useExpr a .value c
      useArgs args params c
  | _, _ => c

end

/-! ## Statements -/

/-- An assignment, its value used already. Assigning a field does not bring a moved binding back. -/
def checkAssign (c : Checker) (span : Span) (sym : SymbolId) (field : Option Nat) : Checker :=
  let s := m.symbols.getD sym default
  if !s.mutable then c.report m .assignToImmutable span sym [] s.declSpan
  else
    match field, c.flow.movedAt? sym with
    | some _, some at_ => c.report m .useAfterMove span sym [] at_
    | some _, none => c
    | none, _ => c.withFlow (c.flow.restore sym)

/-- One round of a loop from a flow: the flow after the condition, the flows of the exits, and the
state at the end of the body. -/
structure Round where
  state : Checker
  afterCond : Flow
  exits : LoopExits

/-- Takes the exits of the innermost loop off the state. -/
def leaveLoop (c : Checker) : LoopExits × Checker :=
  match c.loops with
  | [] => ({}, c)
  | exits :: rest => (exits, { c with loops := rest })

/-- A jump out of the innermost loop or to its next round. -/
def leaveRound (c : Checker) (add : LoopExits → Flow → LoopExits) : Checker :=
  let loops := match c.loops with
    | [] => []
    | exits :: rest => add exits c.flow :: rest
  { c with loops, flow := { c.flow with diverged := true } }

mutual

/-- Checks a statement. -/
def checkStmt (s : Stmt) (c : Checker) : Checker :=
  match s with
  | .expr _ e | .require _ e _ => useExpr m types e .value c
  | .bind _ sym e =>
    let c := useExpr m types e .value c
    let c := c.withFlow (c.flow.restore sym)
    if types.isCopy (m.symbolType sym) then c else c.own sym
  | .assign span sym field e =>
    let c := useExpr m types e .value c
    if c.failed then c else c.checkAssign m span sym field
  | .ite _ cond t _ e =>
    let c := useExpr m types cond .value c
    if c.failed then c
    else
      let before := c.flow
      let c := checkBlock t c
      let after := c.flow
      let c := checkBlock e (c.withFlow before)
      c.withFlow (after.merge c.flow)
  | .loop _ cond body =>
    let before := c.flow
    let counting := c.counting
    -- the first round
    let c := useExpr m types cond .value { c with counting := false }
    if c.failed then { c with counting, flow := {} }
    else
      let afterCond := c.flow
      let c := checkBlock body { c with loops := {} :: c.loops }
      let (exits, c) := c.leaveLoop
      if c.failed then { c with counting, flow := {} }
      else
        let back := exits.nexts.foldl Flow.merge c.flow
        let exit := exits.stops.foldl Flow.merge afterCond
        -- any later round
        let c := useExpr m types cond .value { c with counting, flow := before.merge back }
        if c.failed then { c with flow := exit }
        else
          let afterCond := c.flow
          let c := checkBlock body { c with loops := {} :: c.loops }
          let (exits, c) := c.leaveLoop
          if c.failed then { c with flow := exit }
          else c.withFlow (exits.stops.foldl Flow.merge afterCond)
  | .ret _ value =>
    let c := match value with
      | some e => useExpr m types e .value c
      | none => c
    if c.failed then c
    else
      let c := c.countDrops c.scopes
      c.withFlow { c.flow with diverged := true }
  | .stop _ => c.leaveRound fun exits flow => { exits with stops := exits.stops ++ [flow] }
  | .next _ => c.leaveRound fun exits flow => { exits with nexts := exits.nexts ++ [flow] }
  | .revert _ _ | .panic _ _ => c.withFlow { c.flow with diverged := true }

/-- Checks statements in order, up to a violation or to the end of the flow. -/
def checkStmts (ss : List Stmt) (c : Checker) : Checker :=
  match ss with
  | [] => c
  | s :: ss => if c.failed || c.flow.diverged then c else checkStmts ss (checkStmt s c)

/-- Checks a block in a scope of its own. -/
def checkBlock (ss : List Stmt) (c : Checker) : Checker :=
  let c := checkStmts ss (c.openScope [])
  let c := if c.failed || c.flow.diverged then c else c.countDrops (c.scopes.take 1)
  c.closeScope

end

/-- Checks a function. Parameters passed by value are owned by it. -/
def checkFunction (f : Function) (accesses : Accesses) (counting : Bool) : Checker :=
  let params := f.params.filter fun p => p.pass == .owned && !types.isCopy p.type
  let start : Checker := { counting, accesses }
  let c := checkBlock m types f.body (start.openScope (params.map (·.sym)))
  let c := if c.flow.diverged then c else c.countDrops (c.scopes.take 1)
  c.closeScope

end Checker

/-- The outcome of the check of a module. -/
structure OwnershipResult where
  /-- Which functions have no violation. -/
  functionOk : Array Bool := #[]
  /-- How many values each function drops. -/
  drops : Array Nat := #[]
  accesses : Accesses := #[]
  /-- The violations, at most one a function. -/
  violations : List Diagnostic := []
deriving Inhabited

/-- Whether there is no violation at all. -/
def OwnershipResult.ok (r : OwnershipResult) : Bool := r.violations.isEmpty

/-- Checks functions in order. -/
def checkFunctions (m : Module) (types : TypePool) (counting : Bool) :
    List Function → OwnershipResult → OwnershipResult
  | [], r => r
  | f :: fs, r =>
    let ⟨functionOk, drops, accesses, violations⟩ := r
    let c := Checker.checkFunction m types f accesses counting
    checkFunctions m types counting fs
      { functionOk := functionOk.push !c.failed
        drops := drops.push c.drops
        accesses := c.accesses
        violations := violations ++ c.violation.toList }

/-- Checks the ownership of all functions of a module. -/
def checkOwnership (m : Module) (types : TypePool) (countDrops : Bool := true) : OwnershipResult :=
  checkFunctions m types countDrops m.functions.toList
    { accesses := Array.replicate m.exprCount .none }

end ContractCompiler.Hir
