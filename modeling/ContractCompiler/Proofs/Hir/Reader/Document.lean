import ContractCompiler.Json.Reader
import ContractCompiler.Proofs.Hir.Reader.Spelling

/-!
# What documents are accepted as

A block spells the array that it was read from: it has a statement for each item, in order, and a
name stands for the innermost binding that was made before it in the same function.

- `Stmt.Spells`, `BlockSpells`: what statements and blocks spell, given the names in sight;
- `Read.Yields`: a step that, unless there is a fault, yields something with a property;
- `ReadState.Numbers`: bindings are numbered in the order of the text;
- `yields_readStmt`, `yields_readBody`: statements and functions spell what they are read from;
- `accepted_document`: a document without faults is a module that spells it and obeys the typing
  rules.
-/

namespace ContractCompiler.Hir

open Read

/-! ## Statements and values -/

/-- The forms of statements. -/
inductive StmtKind where
  | bind
  | assign
  | ite
  | loop
  | ret
  | jump
  | require
  | abort
  | expr
deriving DecidableEq, Repr, Inhabited

/-- The form of the statement that an object stands for: the first one of which it has the key. -/
def stmtKind (o : Json) : StmtKind :=
  if (o.field? "let").isSome || (o.field? "var").isSome then .bind
  else if (textField? o "set").isSome then .assign
  else if (o.field? "if").isSome then .ite
  else if (o.field? "while").isSome then .loop
  else if (o.field? "return").isSome then .ret
  else if (o.field? "break").isSome || (o.field? "continue").isSome then .jump
  else if (o.field? "require").isSome then .require
  else if (o.field? "revert").isSome || (o.field? "panic").isSome then .abort
  else .expr

mutual

/-- A statement spells a value, given the names in sight before it and after it. -/
inductive Stmt.Spells [Json.Library] (callees : String → Option FuncId) :
    Names → Json → Stmt → Names → Prop where
  | bind {scope : Names} {o v : Json} {name : String} {span : Span} {sym : SymbolId} {e : Expr}
      (hkind : stmtKind o = .bind)
      (hname : textField? o (if (o.field? "var").isSome then "var" else "let") = some name)
      (hvalue : o.field? "init" = some v) (he : e.Spells callees scope v) :
      Stmt.Spells callees scope o (.bind span sym e) ((name, sym) :: scope)
  | assign {scope : Names} {o v : Json} {name : String} {span : Span} {sym : SymbolId}
      {field : Option Nat} {e : Expr} (hkind : stmtKind o = .assign)
      (hname : textField? o "set" = some name) (hsym : scope.lookup name = some sym)
      (hfield : field.isSome = (textField? o "field").isSome)
      (hvalue : o.field? "value" = some v) (he : e.Spells callees scope v) :
      Stmt.Spells callees scope o (.assign span sym field e) scope
  | ite {scope : Names} {o v : Json} {span : Span} {c : Expr} {items : List Json}
      {thenBody elseBody : List Stmt} (hkind : stmtKind o = .ite) (hvalue : o.field? "if" = some v)
      (hc : c.Spells callees scope v) (hitems : arrayField? o "then" = some items)
      (hthen : BlockSpells callees scope items thenBody)
      (helse : BlockSpells callees scope ((arrayField? o "else").getD []) elseBody) :
      Stmt.Spells callees scope o
        (.ite span c thenBody (arrayField? o "else").isSome elseBody) scope
  | loop {scope : Names} {o v : Json} {span : Span} {c : Expr} {items : List Json}
      {body : List Stmt} (hkind : stmtKind o = .loop) (hvalue : o.field? "while" = some v)
      (hc : c.Spells callees scope v) (hitems : arrayField? o "body" = some items)
      (hbody : BlockSpells callees scope items body) :
      Stmt.Spells callees scope o (.loop span c body) scope
  | retNone {scope : Names} {o : Json} {span : Span} (hkind : stmtKind o = .ret)
      (hvalue : o.field? "return" = some .null) : Stmt.Spells callees scope o (.ret span none) scope
  | ret {scope : Names} {o v : Json} {span : Span} {e : Expr} (hkind : stmtKind o = .ret)
      (hvalue : o.field? "return" = some v) (he : e.Spells callees scope v) :
      Stmt.Spells callees scope o (.ret span (some e)) scope
  | stop {scope : Names} {o : Json} {span : Span} (hkind : stmtKind o = .jump)
      (hbreak : (o.field? "break").isSome = true) : Stmt.Spells callees scope o (.stop span) scope
  | next {scope : Names} {o : Json} {span : Span} (hkind : stmtKind o = .jump)
      (hbreak : (o.field? "break").isSome = false) : Stmt.Spells callees scope o (.next span) scope
  | require {scope : Names} {o v : Json} {span : Span} {c : Expr} (hkind : stmtKind o = .require)
      (hvalue : o.field? "require" = some v) (hc : c.Spells callees scope v) :
      Stmt.Spells callees scope o
        (.require span c ((textField? o "msg").getD "requirement failed")) scope
  | panic {scope : Names} {o : Json} {span : Span} (hkind : stmtKind o = .abort)
      (hpanic : (o.field? "panic").isSome = true) :
      Stmt.Spells callees scope o (.panic span ((textField? o "panic").getD "")) scope
  | revert {scope : Names} {o : Json} {span : Span} (hkind : stmtKind o = .abort)
      (hpanic : (o.field? "panic").isSome = false) :
      Stmt.Spells callees scope o (.revert span ((textField? o "revert").getD "")) scope
  | expr {scope : Names} {o : Json} {span : Span} {e : Expr} (hkind : stmtKind o = .expr)
      (he : e.Spells callees scope ((o.field? "do").getD o)) :
        Stmt.Spells callees scope o (.expr span e) scope

/-- A block spells an array: its statements spell the items, one for one and in order, each with the
names that those before it leave in sight. -/
inductive BlockSpells [Json.Library] (callees : String → Option FuncId) :
    Names → List Json → List Stmt → Prop where
  | nil {scope : Names} : BlockSpells callees scope [] []
  | cons {scope scope' : Names} {v : Json} {items : List Json} {stmt : Stmt} {stmts : List Stmt}
      (hstmt : Stmt.Spells callees scope v stmt scope')
      (hrest : BlockSpells callees scope' items stmts) :
      BlockSpells callees scope (v :: items) (stmt :: stmts)

end

mutual

/-- The bindings that a statement makes, in the order of the text. -/
def Stmt.declared : Stmt → List SymbolId
  | .bind _ sym _ => [sym]
  | .ite _ _ t _ e => declaredBy t ++ declaredBy e
  | .loop _ _ body => declaredBy body
  | .expr .. | .assign .. | .ret .. | .stop _ | .next _ | .require .. | .revert .. | .panic .. => []

/-- The bindings that the statements of a block make. -/
def declaredBy : List Stmt → List SymbolId
  | [] => []
  | s :: ss => s.declared ++ declaredBy ss

end

/-! ## Steps -/

/-- From one state to a later one, bindings are made that take the next numbers in turn. -/
structure ReadState.Numbers (s s' : ReadState) (syms : List SymbolId) : Prop where
  size : s'.symbols.size = s.symbols.size + syms.length
  syms : syms = List.range' s.symbols.size syms.length

namespace ReadState

variable {s s' s'' : ReadState}

theorem Kept.numbers (h : s.Kept s') : s.Numbers s' [] := by
  constructor
  · rw [h.symbols]
    rfl
  · rfl

theorem Numbers.trans {syms syms' : List SymbolId} (h : s.Numbers s' syms)
    (h' : s'.Numbers s'' syms') :
    s.Numbers s'' (syms ++ syms') := by
  constructor
  · rw [h'.size, h.size, List.length_append, Nat.add_assoc]
  · have hsyms' := h'.syms
    rw [h.size] at hsyms'
    rw [List.length_append, ← List.range'_append_1, ← hsyms', ← h.syms]

theorem Numbers.congr {syms : List SymbolId} (h : s.Numbers s' syms)
    (hs : s''.symbols = s'.symbols) :
    s.Numbers s'' syms := by
  constructor
  · rw [hs, h.size]
  · exact h.syms

end ReadState

namespace Read

variable {α β : Type} {s : ReadState}

/-- A step that, unless there is a fault, yields something with a property of it and the later
state. -/
def Yields (r : Read α) (s : ReadState) (Q : α → ReadState → Prop) : Prop :=
  (r.run s).2.faults = #[] → s.faults = #[] ∧ ∃ a, (r.run s).1 = some a ∧ Q a (r.run s).2

theorem Yields.imp {r : Read α} {Q Q' : α → ReadState → Prop} (h : r.Yields s Q)
    (hQ : ∀ a s', s.faults = #[] → Q a s' → Q' a s') : r.Yields s Q' := by
  intro hclean
  obtain ⟨hs, a, ha, hqa⟩ := h hclean
  exact ⟨hs, a, ha, hQ a _ hs hqa⟩

/-- The rest of a step may use what its first part yields in any case, and what holds of that if
there is no fault up to there. -/
theorem Yields.bindRun {r : Read α} {k : α → Read β} {Q : α → ReadState → Prop}
    {Q' : β → ReadState → Prop} (h : r.Yields s Q) (hk : ∀ a s', r.run s = (some a, s') →
      (s'.faults = #[] → s.faults = #[] ∧ Q a s') → (k a).Yields s' Q') :
      (r >>= k).Yields s Q' := by
  unfold Yields at h ⊢
  rw [run_bind]
  cases hr : r.run s with
  | mk a? s' =>
    rw [hr] at h
    intro hclean
    cases a? with
    | none =>
      obtain ⟨-, a, ha, -⟩ := h hclean
      cases ha
    | some a =>
      have hfirst : s'.faults = #[] → s.faults = #[] ∧ Q a s' := by
        intro hclean'
        obtain ⟨hs, a', ha', hqa⟩ := h hclean'
        obtain rfl := Option.some.inj ha'
        exact ⟨hs, hqa⟩
      obtain ⟨hclean', hrest⟩ := hk a s' hr hfirst hclean
      exact ⟨(hfirst hclean').1, hrest⟩

theorem Yields.bind {r : Read α} {k : α → Read β} {Q : α → ReadState → Prop}
    {Q' : β → ReadState → Prop} (h : r.Yields s Q)
    (hk : ∀ a s', (s'.faults = #[] → s.faults = #[] ∧ Q a s') → (k a).Yields s' Q') :
    (r >>= k).Yields s Q' :=
  h.bindRun fun a s' _ => hk a s'

theorem yields_pure {a : α} {Q : α → ReadState → Prop} (hQ : s.faults = #[] → Q a s) :
    (pure a : Read α).Yields s Q := by
  intro hclean
  exact ⟨hclean, a, rfl, hQ hclean⟩

/-- A step after a fault may fail. -/
theorem yields_failure {Q : α → ReadState → Prop} (hfault : s.faults ≠ #[]) :
    (failure : Read α).Yields s Q :=
  fun hclean => absurd hclean hfault

theorem Answers.yields {r : Read α} {Q : α → Prop} (h : r.Answers s.scope Q) :
    r.Yields s fun a s' => s.Kept s' ∧ Q a := by
  intro hclean
  obtain ⟨hkept, hsome, hvalue⟩ := h s rfl
  obtain ⟨a, ha⟩ := Option.isSome_iff_exists.mp (hsome hclean)
  exact ⟨hkept.clean hclean, a, ha, hkept, hvalue a ha⟩

theorem Answers.bindYields {r : Read α} {k : α → Read β} {Q : α → Prop} {Q' : β → ReadState → Prop}
    (h : r.Answers s.scope Q) (hk : ∀ a s', s.Kept s' → Q a → (k a).Yields s' Q') :
    (r >>= k).Yields s Q' := by
  obtain ⟨hkept, hsome, hvalue⟩ := h s rfl
  unfold Yields
  rw [run_bind]
  cases hr : r.run s with
  | mk a? s' =>
    rw [hr] at hkept hsome hvalue
    intro hclean
    cases a? with
    | none => exact absurd (hsome hclean) nofun
    | some a =>
      obtain ⟨hclean', hrest⟩ := hk a s' hkept (hvalue a rfl) hclean
      exact ⟨hkept.clean hclean', hrest⟩

/-- A step that may fail without an end to what it is part of. -/
theorem Yields.attempt {r : Read α} {Q : α → ReadState → Prop} (h : r.Yields s Q) :
    (attempt r).Yields s fun a? s' => ∃ a, a? = some a ∧ Q a s' := by
  intro hclean
  obtain ⟨hs, a, ha, hqa⟩ := h hclean
  exact ⟨hs, some a, congrArg some ha, a, rfl, hqa⟩

theorem yields_report (cause : Cause) (span : Span) (args : List String) :
    (report cause span args).Yields s fun _ _ => False :=
  fun hclean => absurd hclean Array.push_ne_empty

theorem yields_get {k : ReadState → Read α} {Q : α → ReadState → Prop} (h : (k s).Yields s Q) :
    ((get : Read ReadState) >>= k).Yields s Q := h

theorem yields_failMalformed {span : Span} {what : Malformation} {Q : α → ReadState → Prop} :
    (failMalformed span what : Read α).Yields s Q :=
  fun hclean => absurd hclean Array.push_ne_empty

/-- A binding takes the next number and is in sight from there on. -/
theorem yields_declare (symbol : Symbol) : (declare symbol).Yields s fun sym s' =>
    s'.scope = (symbol.name, sym) :: s.scope ∧ s.Numbers s' [sym] :=
  fun hclean => ⟨hclean, s.symbols.size, rfl, rfl, Array.size_push .., rfl⟩

/-- What a step brings into sight is out of sight afterwards. -/
theorem Yields.inScope {r : Read α} {Q : α → ReadState → Prop} (h : r.Yields s Q) :
    (inScope r).Yields s fun a s' => s'.scope = s.scope ∧ ∃ scope, Q a { s' with scope } := by
  intro hclean
  obtain ⟨hs, a, ha, hqa⟩ := h hclean
  exact ⟨hs, a, ha, rfl, (r.run s).2.scope, hqa⟩

end Read

/-! ## Statements -/

/-- What reading a block is to yield. -/
def SpellsBlock [Json.Library] (callees : String → Option FuncId) (items : List Json)
    (s : ReadState) (stmts : List Stmt) (s' : ReadState) : Prop :=
  s'.scope = s.scope ∧ s.Numbers s' (declaredBy stmts) ∧ BlockSpells callees s.scope items stmts

/-- What reading a statement is to yield. -/
def SpellsStmt [Json.Library] (callees : String → Option FuncId) (v : Json) (s : ReadState)
    (stmt : Stmt) (s' : ReadState) : Prop :=
  s.Numbers s' stmt.declared ∧ stmt.Spells callees s.scope v s'.scope

/-- Readers of the parts of an object, which spell what they are read from. -/
structure StmtParts.Spells [Json.Library] (parts : StmtParts) (o : Json) : Prop where
  expr : ∀ scope v hint, nesting v ≤ nesting o →
    (parts.expr v hint).Answers scope (·.Spells (findFunction? parts.ctx.functions) scope v)
  block : ∀ depth items s, (∀ v ∈ items, nesting v < nesting o) →
    (parts.block { parts.ctx with loopDepth := depth } items).Yields s
      (SpellsBlock (findFunction? parts.ctx.functions) items s)

namespace StmtForm

variable {f : StmtForm} {parts : StmtParts} {s : ReadState}

/-- What reading the statement of an object is to yield. -/
abbrev Goal [Json.Library] (f : StmtForm) (parts : StmtParts) :
    ReadState → Stmt → ReadState → Prop :=
  SpellsStmt (findFunction? parts.ctx.functions) f.object

theorem yields_bind [Json.Library] (hparts : parts.Spells f.object)
    (hkind : stmtKind f.object = .bind) :
    (f.bind parts).Yields s (f.Goal parts s) := by
  unfold bind
  extract_lets mutable
  split
  · rename_i name init hname hinit
    extract_lets finish
    have hfinish (s₁ : ReadState) (h₁ : s.Kept s₁) (declared : Option TypeId) :
        (finish declared).Yields s₁ (f.Goal parts s) := by
      refine (hparts.expr s₁.scope init declared (nesting_lt_of_field? hinit).le).bindYields
        fun e s₂ h₂ he => ?_
      extract_lets enter
      have henter (s₃ : ReadState) (h₃ : s₂.Kept s₃) (u : Unit) :
          (enter u).Yields s₃ (f.Goal parts s) := by
        refine answers_types.bindYields fun pool s₄ h₄ _ => ?_
        have hkept := ((h₁.trans h₂).trans h₃).trans h₄
        split
        · exact yields_failMalformed
        · refine (yields_declare _).bind fun sym s₅ h₅ => yields_pure fun hclean => ?_
          obtain ⟨-, hscope, hnumbers⟩ := h₅ hclean
          constructor
          · exact hkept.numbers.trans hnumbers
          · rw [hscope, hkept.scope]
            rw [h₁.scope] at he
            exact .bind hkind hname hinit he
      split
      · exact (answers_expectType e _ _).bindYields fun u s₃ h₃ _ => henter s₃ h₃ u
      · exact henter s₂ (.refl s₂) ()
    split
    · exact (answers_parseType _ _).bindYields fun t s₁ h₁ _ => hfinish s₁ h₁ (some t)
    · exact hfinish s (.refl s) none
  · exact yields_failMalformed

theorem answers_assignedField [Json.Library] {scope : Names} (t : TypeId) :
    (f.assignedField t).Answers scope fun p =>
    p.1.isSome = (textField? f.object "field").isSome := by
  unfold assignedField
  split
  · rename_i hnone
    exact answers_pure (by rw [hnone]; rfl)
  · rename_i name hname
    refine answers_types.bind fun pool _ => ?_
    split
    · exact answers_failMalformed
    · split
      · exact answers_pure (by rw [hname]; rfl)
      · exact answers_failWith

theorem yields_assign [Json.Library] (hparts : parts.Spells f.object)
    (hkind : stmtKind f.object = .assign) {name : String}
    (hname : textField? f.object "set" = some name) :
    (f.assign parts name).Yields s (f.Goal parts s) := by
  unfold assign
  refine (answers_lookup name f.span).bindYields fun sym s₁ h₁ hsym => ?_
  split
  · exact yields_failMalformed
  · rename_i value hvalue
    refine (answers_symbol sym).bindYields fun symbol s₂ h₂ _ => ?_
    refine (answers_assignedField _).bindYields fun (field, t) s₃ h₃ hfield => ?_
    refine (hparts.expr _ value _ (nesting_lt_of_field? hvalue).le).bindYields fun e s₄ h₄ he => ?_
    refine (answers_expectType e t f.span).bindYields fun _ s₅ h₅ _ => yields_pure fun _ => ?_
    have h₁₃ := (h₁.trans h₂).trans h₃
    have hkept := (h₁₃.trans h₄).trans h₅
    constructor
    · exact hkept.numbers
    · rw [h₁₃.scope] at he
      rw [hkept.scope]
      exact .assign hkind hname hsym hfield hvalue he

theorem answers_condition [Json.Library] {scope : Names} (hparts : parts.Spells f.object)
    {key : String} {v : Json} (hv : f.object.field? key = some v) :
    (f.condition parts v).Answers scope (·.Spells (findFunction? parts.ctx.functions) scope v) := by
  refine (hparts.expr scope v _ (nesting_lt_of_field? hv).le).bind fun c hc => ?_
  exact (answers_expectType c _ _).bind fun _ _ => answers_pure hc

theorem yields_childBlock [Json.Library] (hparts : parts.Spells f.object) (depth : Nat)
    (key : String) :
    (f.childBlock parts { parts.ctx with loopDepth := depth } key).Yields s fun stmts s' =>
      ∃ items, arrayField? f.object key = some items ∧
        SpellsBlock (findFunction? parts.ctx.functions) items s stmts s' := by
  unfold childBlock
  split
  · rename_i items hitems
    refine (hparts.block depth items s fun v hv => nesting_lt_of_mem hitems hv).imp
      fun stmts s' _ h => ?_
    exact ⟨items, hitems, h⟩
  · exact yields_failMalformed

theorem yields_ite [Json.Library] (hparts : parts.Spells f.object)
    (hkind : stmtKind f.object = .ite) {v : Json} (hv : f.object.field? "if" = some v) :
    (f.ite parts v).Yields s (f.Goal parts s) := by
  unfold ite
  refine (answers_condition hparts hv).bindYields fun c s₁ h₁ hc => ?_
  refine (yields_childBlock hparts parts.ctx.loopDepth "then").attempt.bind fun thenBody s₂ h₂ => ?_
  extract_lets finish
  have hfinish (s₃ : ReadState) (elseBody : Option (List Stmt))
      (h₃ : s₃.faults = #[] → s₂.faults = #[] ∧
        elseBody.isSome = (arrayField? f.object "else").isSome ∧
        SpellsBlock (findFunction? parts.ctx.functions) ((arrayField? f.object "else").getD []) s₂
          (elseBody.getD []) s₃) :
      (finish elseBody).Yields s₃ (f.Goal parts s) := by
    unfold finish
    split
    · rename_i thenBody
      refine yields_pure fun hclean => ?_
      obtain ⟨hclean₂, hsome, hscope₃, hnumbers₃, helse⟩ := h₃ hclean
      obtain ⟨-, body, hbody, items, hitems, hscope₂, hnumbers₂, hthen⟩ := h₂ hclean₂
      obtain rfl := Option.some.inj hbody
      constructor
      · have hnumbers := (h₁.numbers.trans hnumbers₂).trans hnumbers₃
        unfold Stmt.declared
        exact hnumbers
      · rw [hscope₂, h₁.scope] at helse
        rw [h₁.scope] at hthen
        rw [hscope₃, hscope₂, h₁.scope, hsome]
        exact .ite hkind hv hc hitems hthen helse
    · refine yields_failure fun hclean => ?_
      obtain ⟨-, body, hbody, -⟩ := h₂ (h₃ hclean).1
      cases hbody
  split
  · rename_i items hitems
    have hblock := hparts.block parts.ctx.loopDepth items s₂ fun v hv => nesting_lt_of_mem hitems hv
    refine hblock.bind fun stmts s₃ h₃ => hfinish s₃ (some stmts) fun hclean => ?_
    rw [hitems]
    exact ⟨(h₃ hclean).1, rfl, (h₃ hclean).2⟩
  · rename_i hnone
    refine hfinish s₂ none fun hclean => ?_
    rw [hnone]
    exact ⟨hclean, rfl, rfl, (ReadState.Kept.refl s₂).numbers, .nil⟩

theorem yields_loop [Json.Library] (hparts : parts.Spells f.object)
    (hkind : stmtKind f.object = .loop) {v : Json} (hv : f.object.field? "while" = some v) :
    (f.loop parts v).Yields s (f.Goal parts s) := by
  unfold loop
  refine (answers_condition hparts hv).bindYields fun c s₁ h₁ hc => ?_
  extract_lets inside
  refine (yields_childBlock hparts _ "body").bind fun body s₂ h₂ => yields_pure fun hclean => ?_
  obtain ⟨-, items, hitems, hscope, hnumbers, hbody⟩ := h₂ hclean
  constructor
  · have hall := h₁.numbers.trans hnumbers
    unfold Stmt.declared
    exact hall
  · rw [h₁.scope] at hbody
    rw [hscope, h₁.scope]
    exact .loop hkind hv hc hitems hbody

theorem yields_ret [Json.Library] (hparts : parts.Spells f.object)
    (hkind : stmtKind f.object = .ret) {v : Json} (hv : f.object.field? "return" = some v) :
    (f.ret parts v).Yields s (f.Goal parts s) := by
  unfold ret
  split
  · refine answers_types.bindYields fun pool s₁ h₁ _ => ?_
    split
    · refine yields_pure fun _ => ⟨h₁.numbers, ?_⟩
      rw [h₁.scope]
      exact .retNone hkind hv
    · exact (answers_mismatch (Q := fun _ => False)).yields.imp fun _ _ _ h => h.2.elim
  · refine (hparts.expr _ v _ (nesting_lt_of_field? hv).le).bindYields fun e s₁ h₁ he => ?_
    refine (answers_expectType e _ _).bindYields fun _ s₂ h₂ _ => yields_pure fun _ => ?_
    have hkept := h₁.trans h₂
    constructor
    · exact hkept.numbers
    · rw [hkept.scope]
      exact .ret hkind hv he

theorem yields_jump [Json.Library] (hkind : stmtKind f.object = .jump) :
    (f.jump parts).Yields s (f.Goal parts s) := by
  have hnone := (ReadState.Kept.refl s).numbers
  unfold jump
  split
  · exact yields_failMalformed
  · split
    · rename_i hbreak
      exact yields_pure fun _ => ⟨hnone, .stop hkind hbreak⟩
    · rename_i hbreak
      exact yields_pure fun _ => ⟨hnone, .next hkind (Bool.eq_false_iff.mpr hbreak)⟩

theorem yields_require [Json.Library] (hparts : parts.Spells f.object)
    (hkind : stmtKind f.object = .require) {v : Json} (hv : f.object.field? "require" = some v) :
    (f.require parts v).Yields s (f.Goal parts s) := by
  refine (answers_condition hparts hv).bindYields fun c s₁ h₁ hc => yields_pure fun _ =>
    ⟨h₁.numbers, ?_⟩
  rw [h₁.scope]
  exact .require hkind hv hc

theorem yields_abort [Json.Library] (hkind : stmtKind f.object = .abort) :
    f.abort.Yields s (f.Goal parts s) := by
  have hnone := (ReadState.Kept.refl s).numbers
  unfold abort
  split
  · rename_i hpanic
    exact yields_pure fun _ => ⟨hnone, .panic hkind hpanic⟩
  · rename_i hpanic
    exact yields_pure fun _ => ⟨hnone, .revert hkind (Bool.eq_false_iff.mpr hpanic)⟩

theorem nesting_effect_le [Json.Library] (o : Json) :
    nesting ((o.field? "do").getD o) ≤ nesting o := by
  cases hdo : o.field? "do" with
  | none => exact Nat.le_refl _
  | some v => exact (nesting_lt_of_field? hdo).le

/-- What an object is read as is of the first form of which the object has the key. -/
theorem yields_read [Json.Library] (hparts : parts.Spells f.object) :
    (f.read parts).Yields s (f.Goal parts s) := by
  unfold StmtForm.read
  -- each form is taken where all forms before it are ruled out
  split
  · rename_i hbind
    exact yields_bind hparts (if_pos hbind)
  rename_i hbind
  simp only [has] at hbind
  split
  · rename_i name hset
    exact yields_assign hparts (by simp [stmtKind, hbind, hset]) hset
  rename_i hset
  replace hset := Option.eq_none_iff_forall_ne_some.mpr hset
  split
  · rename_i v hif
    exact yields_ite hparts (by simp [stmtKind, hbind, hset, hif]) hif
  rename_i hif
  replace hif := Option.eq_none_iff_forall_ne_some.mpr hif
  split
  · rename_i v hwhile
    exact yields_loop hparts (by simp [stmtKind, hbind, hset, hif, hwhile]) hwhile
  rename_i hwhile
  replace hwhile := Option.eq_none_iff_forall_ne_some.mpr hwhile
  split
  · rename_i v hreturn
    exact yields_ret hparts (by simp [stmtKind, hbind, hset, hif, hwhile, hreturn]) hreturn
  rename_i hreturn
  replace hreturn := Option.eq_none_iff_forall_ne_some.mpr hreturn
  split
  · rename_i hjump
    simp only [has] at hjump
    exact yields_jump (by simp [stmtKind, hbind, hset, hif, hwhile, hreturn, hjump])
  rename_i hjump
  simp only [has] at hjump
  split
  · rename_i v hrequire
    exact yields_require hparts
      (by simp [stmtKind, hbind, hset, hif, hwhile, hreturn, hjump, hrequire]) hrequire
  rename_i hrequire
  replace hrequire := Option.eq_none_iff_forall_ne_some.mpr hrequire
  split
  · rename_i habort
    simp only [has] at habort
    exact yields_abort
      (by simp [stmtKind, hbind, hset, hif, hwhile, hreturn, hjump, hrequire, habort])
  · rename_i habort
    simp only [has] at habort
    refine (hparts.expr _ _ _ (nesting_effect_le f.object)).bindYields
      fun e s₁ h₁ he => yields_pure fun _ => ?_
    refine ⟨h₁.numbers, ?_⟩
    rw [h₁.scope]
    exact .expr (by simp [stmtKind, hbind, hset, hif, hwhile, hreturn, hjump, hrequire, habort]) he

end StmtForm

/-- The items of an array spell a block if each of them spells a statement. -/
theorem yields_readStmts [Json.Library] {callees : String → Option FuncId} {read : Json → Read Stmt}
    {items : List Json} (hread : ∀ v ∈ items, ∀ s, (read v).Yields s (SpellsStmt callees v s))
    {s : ReadState} : (readStmts read items).Yields s fun stmts s' =>
      s.Numbers s' (declaredBy stmts) ∧ BlockSpells callees s.scope items stmts := by
  induction items generalizing s with
  | nil => exact yields_pure fun _ => ⟨(ReadState.Kept.refl s).numbers, .nil⟩
  | cons v vs ih =>
    unfold readStmts
    refine (hread v List.mem_cons_self s).attempt.bind fun stmt? s₁ h₁ => ?_
    have hcount : Answers (modify fun state =>
        { state with stmtCount := state.stmtCount + stmt?.toList.length }) s₁.scope fun _ => True :=
      fun _ _ => ⟨⟨rfl, rfl, id⟩, fun _ => rfl, fun _ _ => trivial⟩
    refine hcount.bindYields fun _ s₂ h₂ _ => ?_
    have hrest := ih (fun v hv => hread v (List.mem_cons_of_mem _ hv)) (s := s₂)
    refine hrest.bind fun stmts s₃ h₃ => yields_pure fun hclean => ?_
    obtain ⟨hclean₂, hnumbers₃, hblock⟩ := h₃ hclean
    obtain ⟨-, stmt, hstmt?, hnumbers₁, hstmt⟩ := h₁ (h₂.clean hclean₂)
    obtain rfl := hstmt?
    rw [h₂.scope] at hblock
    constructor
    · exact hnumbers₁.trans (h₂.numbers.trans hnumbers₃)
    · exact .cons hstmt hblock

theorem yields_readBlock [Json.Library] {callees : String → Option FuncId} {read : Json → Read Stmt}
    {items : List Json} (hread : ∀ v ∈ items, ∀ s, (read v).Yields s (SpellsStmt callees v s))
    {s : ReadState} : (inScope (readStmts read items)).Yields s (SpellsBlock callees items s) := by
  refine (yields_readStmts hread).inScope.imp fun stmts s' _ h => ?_
  obtain ⟨hscope, scope, hnumbers, hblock⟩ := h
  exact ⟨hscope, hnumbers.congr rfl, hblock⟩

/-- A statement spells what it is read from, if values do not nest too deep. -/
theorem yields_readStmt [Json.Library] (fuel : Nat) (ctx : ReadContext) (v : Json)
    (hv : nesting v ≤ fuel) (s : ReadState) :
    (readStmt fuel ctx v).Yields s (SpellsStmt (findFunction? ctx.functions) v s) := by
  induction fuel generalizing ctx v s with
  | zero => cases v <;> simp [nesting] at hv
  | succ fuel ih =>
    unfold readStmt
    split
    · refine StmtForm.yields_read ⟨fun scope v' hint hv' => ?_, fun depth items s hitems => ?_⟩
      · exact answers_readExpr ctx (fuel + 1) scope v' hint (hv'.trans hv)
      · refine yields_readBlock fun v' hv' s => ih { ctx with loopDepth := depth } v' ?_ s
        exact Nat.le_of_lt_succ ((hitems v' hv').trans_le hv)
    · exact yields_failMalformed

/-! ## Signatures -/

/-- A parameter has the name and the pass mode that a value tells. -/
def Param.Spells [Json.Library] (v : Json) (p : Param) : Prop :=
  ∃ type mode, (paramParts 0 {} v).2 = (some p.name, some type, mode) ∧
    mode.elim (some (.owned, false)) passMode? = some (p.pass, p.mutable)

/-- A function has the name, annotations, parameters and flags that an object tells. -/
structure Function.Heads [Json.Library] (o : Json) (f : Function) : Prop where
  name : textField? o "name" = some f.name
  attrs : List.Forall₂ (fun v (a : Attribute) => v = .string a.text)
      ((arrayField? o "attrs").getD []) f.attrs
  params : List.Forall₂ Param.Spells ((arrayField? o "params").getD []) f.params
  isPublic : f.isPublic = (boolField? o "pub").getD false
  isPayable : f.isPayable = (boolField? o "payable").getD false

variable {s : ReadState}

theorem paramParts_snd [Json.Library] (file : UInt32) (span : Span) (v : Json) :
    (paramParts file span v).2 = (paramParts 0 {} v).2 := by
  unfold paramParts
  split <;> rfl

theorem yields_readParam [Json.Library] (file : UInt32) (fnSpan : Span) (v : Json) :
    (readParam file fnSpan v).Yields s fun p s' => s.Kept s' ∧ p.Spells v := by
  unfold readParam
  split
  · rename_i span name type mode hparts
    have hparts : (paramParts 0 {} v).2 = (some name, some type, mode) := by
      rw [← paramParts_snd file fnSpan, hparts]
    refine (answers_parseType _ _).yields.attempt.bind fun t? s₁ h₁ => ?_
    extract_lets t finish withMode
    have hfinish (s₂ : ReadState) (p : PassMode × Bool)
        (h₂ : s₂.faults = #[] → s.Kept s₂ ∧ mode.elim (some (.owned, false)) passMode? = some p) :
        (finish p).Yields s₂ fun p s' => s.Kept s' ∧ p.Spells v := by
      refine yields_pure fun hclean => ?_
      obtain ⟨hkept, hmode⟩ := h₂ hclean
      exact ⟨hkept, type, mode, hparts, hmode⟩
    have hwithMode (s₂ : ReadState) (u : Unit) (h₂ : s₂.faults = #[] → s.Kept s₂) :
        (withMode u).Yields s₂ fun p s' => s.Kept s' ∧ p.Spells v := by
      unfold withMode
      split
      · exact hfinish s₂ _ fun hclean => ⟨h₂ hclean, rfl⟩
      · split
        · rename_i hmode
          exact hfinish s₂ _ fun hclean => ⟨h₂ hclean, hmode⟩
        · refine (yields_report _ _ _).bind fun _ s₃ h₃ => ?_
          exact hfinish s₃ (.owned, false) fun hclean => (h₃ hclean).2.elim
    refine answers_types.bindYields fun pool s₂ h₂ _ => ?_
    split
    · exact (yields_report _ _ _).bind fun u s₃ h₃ => hwithMode s₃ u fun hclean =>
        (h₃ hclean).2.elim
    · refine hwithMode s₂ () fun hclean => ?_
      obtain ⟨-, t, -, hkept, -⟩ := h₁ (h₂.clean hclean)
      exact hkept.trans h₂
  · exact yields_failMalformed

theorem yields_readParams [Json.Library] (file : UInt32) (fnSpan : Span) (items : List Json) :
    (readParams file fnSpan items).Yields s fun ps s' => s.Kept s' ∧
    List.Forall₂ Param.Spells items ps := by
  induction items generalizing s with
  | nil => exact yields_pure fun _ => ⟨.refl s, .nil⟩
  | cons v items ih =>
    refine (yields_readParam file fnSpan v).attempt.bind fun p? s₁ h₁ => ih.bind fun ps s₂ h₂ => ?_
    refine yields_pure fun hclean => ?_
    obtain ⟨hclean₁, hkept₂, hps⟩ := h₂ hclean
    obtain ⟨-, p, rfl, hkept₁, hp⟩ := h₁ hclean₁
    exact ⟨hkept₁.trans hkept₂, .cons hp hps⟩

theorem yields_readAttrs [Json.Library] (span : Span) (items : List Json) :
    (readAttrs span items).Yields s fun attrs s' =>
      s.Kept s' ∧ List.Forall₂ (fun v (a : Attribute) => v = .string a.text) items attrs := by
  induction items generalizing s with
  | nil => exact yields_pure fun _ => ⟨.refl s, .nil⟩
  | cons v items ih =>
    unfold readAttrs
    split
    · rename_i heq
      cases heq
    · rename_i heq
      obtain ⟨rfl, rfl⟩ := List.cons.inj heq
      refine ih.bind fun attrs s₁ h₁ => yields_pure fun hclean => ?_
      obtain ⟨-, hkept, hattrs⟩ := h₁ hclean
      exact ⟨hkept, .cons rfl hattrs⟩
    · rename_i heq
      obtain ⟨rfl, rfl⟩ := List.cons.inj heq
      refine (yields_report _ _ _).bind fun _ s₁ h₁ hclean => ?_
      exact (h₁ (ih hclean).1).2.elim

theorem yields_readSignature [Json.Library] (file : UInt32) (functions : Array Function)
    (o : Json) :
    (readSignature file functions o).Yields s fun f s' => s.Kept s' ∧ f.Heads o := by
  unfold readSignature
  extract_lets span named
  have hnamed (s₁ : ReadState) (name : String)
      (h₁ : s₁.faults = #[] → s.Kept s₁ ∧ textField? o "name" = some name) :
      (named name).Yields s₁ fun f s' => s.Kept s' ∧ f.Heads o := by
    unfold named
    extract_lets finish declared
    have hfinish (s₂ : ReadState) (ret : TypeId)
        (h₂ : s₂.faults = #[] → s.Kept s₂ ∧ textField? o "name" = some name) :
        (finish ret).Yields s₂ fun f s' => s.Kept s' ∧ f.Heads o := by
      refine (yields_readAttrs span _).bind fun attrs s₃ h₃ => ?_
      refine (yields_readParams file span _).bind fun params s₄ h₄ => yields_pure fun hclean => ?_
      obtain ⟨hclean₃, hkept₄, hparams⟩ := h₄ hclean
      obtain ⟨hclean₂, hkept₃, hattrs⟩ := h₃ hclean₃
      obtain ⟨hkept₂, hname⟩ := h₂ hclean₂
      exact ⟨(hkept₂.trans hkept₃).trans hkept₄, hname, hattrs, hparams, rfl, rfl⟩
    have hdeclared (s₂ : ReadState) (u : Unit)
        (h₂ : s₂.faults = #[] → s.Kept s₂ ∧ textField? o "name" = some name) :
        (declared u).Yields s₂ fun f s' => s.Kept s' ∧ f.Heads o := by
      unfold declared
      split
      · refine (answers_parseType _ _).yields.attempt.bind
          fun t s₃ h₃ => hfinish s₃ _ fun hclean => ?_
        obtain ⟨hclean₂, t, -, hkept₃, -⟩ := h₃ hclean
        obtain ⟨hkept₂, hname⟩ := h₂ hclean₂
        exact ⟨hkept₂.trans hkept₃, hname⟩
      · exact hfinish s₂ _ h₂
    split
    · exact (yields_report _ _ _).bind fun u s₂ h₂ => hdeclared s₂ u fun hclean =>
        (h₂ hclean).2.elim
    · exact hdeclared s₁ () h₁
  split
  · rename_i name hname
    exact hnamed s name fun _ => ⟨.refl s, hname⟩
  · exact (yields_report _ _ _).bind fun _ s₁ h₁ => hnamed s₁ _ fun hclean => (h₁ hclean).2.elim

theorem yields_readSignatures [Json.Library] (file : UInt32) (items : List Json)
    (functions : Array Function) :
    (readSignatures file functions items).Yields s fun fs s' =>
      s.Kept s' ∧ List.Forall₂ (fun v p => p.2 = v ∧ Function.Heads v p.1) items fs := by
  induction items generalizing s functions with
  | nil => exact yields_pure fun _ => ⟨.refl s, .nil⟩
  | cons v items ih =>
    unfold readSignatures
    split
    · refine (yields_readSignature file functions _).bind
        fun f s₁ h₁ => (ih _).bind fun fs s₂ h₂ => ?_
      refine yields_pure fun hclean => ?_
      obtain ⟨hclean₁, hkept₂, hfs⟩ := h₂ hclean
      obtain ⟨-, hkept₁, hf⟩ := h₁ hclean₁
      exact ⟨hkept₁.trans hkept₂, .cons ⟨rfl, hf⟩ hfs⟩
    · refine (yields_report _ _ _).bind fun _ s₁ h₁ hclean => ?_
      exact (h₁ (ih _ hclean).1).2.elim

/-! ## Bodies -/

/-- The bindings of the parameters of a function, the last one first. -/
def Function.scope (f : Function) : Names := (f.params.map fun p => (p.name, p.sym)).reverse

/-- The bindings that a function makes, in the order of the text. -/
def Function.declared (f : Function) : List SymbolId := f.params.map (·.sym) ++ declaredBy f.body

/-- A function spells an object: it has what the object tells of it, and its body spells the
statements of the object with nothing but the parameters in sight. -/
structure Function.Spells [Json.Library] (callees : String → Option FuncId) (o : Json)
    (f : Function) : Prop extends f.Heads o where
  body : ∃ items, arrayField? o "body" = some items ∧ BlockSpells callees f.scope items f.body

theorem yields_bindParams [Json.Library] (params : List Param) :
    (bindParams params).Yields s fun ps s' =>
    s'.scope = (ps.map fun p => (p.name, p.sym)).reverse ++ s.scope ∧
      s.Numbers s' (ps.map (·.sym)) ∧
      ∀ items, List.Forall₂ Param.Spells items params → List.Forall₂ Param.Spells items ps := by
  induction params generalizing s with
  | nil => exact yields_pure fun _ => ⟨rfl, (ReadState.Kept.refl s).numbers, fun _ h => h⟩
  | cons p params ih =>
    unfold bindParams
    refine (yields_declare _).bind fun sym s₁ h₁ => ih.bind fun ps s₂ h₂ =>
      yields_pure fun hclean => ?_
    obtain ⟨hclean₁, hscope₂, hnumbers₂, hps⟩ := h₂ hclean
    obtain ⟨-, hscope₁, hnumbers₁⟩ := h₁ hclean₁
    refine ⟨?_, hnumbers₁.trans hnumbers₂, fun items hitems => ?_⟩
    · rw [hscope₂, hscope₁, List.map_cons, List.reverse_cons, List.append_assoc]
      rfl
    · cases hitems with
      | cons hp hrest => exact .cons hp (hps _ hrest)

theorem yields_readBody [Json.Library] {fuel : Nat} {ctx : ReadContext} (f : Function) {o : Json}
    (ho : nesting o ≤ fuel) (hscope : s.faults = #[] → s.scope = []) :
    (readBody fuel ctx f o).Yields s fun f' s' =>
      s'.scope = [] ∧ s.Numbers s' f'.declared ∧ f'.name = f.name ∧
        (f.Heads o → f'.Spells (findFunction? ctx.functions) o) := by
  unfold readBody
  refine (Yields.inScope (Q := fun f' s' => s.Numbers s' f'.declared ∧ f'.name = f.name ∧
    (f.Heads o → f'.Spells (findFunction? ctx.functions) o)) ?_).imp fun f' s' hclean h => ?_
  · refine (yields_bindParams f.params).bind fun ps s₁ h₁ => ?_
    split
    · exact (yields_report _ _ _).bind fun _ s₂ h₂ => yields_pure fun hclean => (h₂ hclean).2.elim
    · rename_i items hitems
      have hblock : (readBlock fuel { ctx with ret := f.ret } items).Yields s₁
          (SpellsBlock (findFunction? ctx.functions) items s₁) := by
        refine yields_readBlock fun v hv s => yields_readStmt fuel { ctx with ret := f.ret } v ?_ s
        exact (nesting_lt_of_mem hitems hv).le.trans ho
      refine hblock.bind fun body s₂ h₂ => yields_pure fun hclean => ?_
      obtain ⟨hclean₁, hscope₂, hnumbers₂, hspells⟩ := h₂ hclean
      obtain ⟨hclean₀, hscope₁, hnumbers₁, hps⟩ := h₁ hclean₁
      rw [hscope₁, hscope hclean₀, List.append_nil] at hspells
      refine ⟨hnumbers₁.trans hnumbers₂, rfl, fun hf => ?_⟩
      exact { hf with params := hps _ hf.params, body := ⟨items, hitems, hspells⟩ }
  · obtain ⟨hscope', scope, hnumbers, hrest⟩ := h
    exact ⟨hscope'.trans (hscope hclean), hnumbers.congr rfl, hrest⟩

theorem yields_readBodies [Json.Library] {fuel : Nat} {ctx : ReadContext}
    (fs : List (Function × Json)) (hnesting : ∀ p ∈ fs, nesting p.2 ≤ fuel)
    (hscope : s.faults = #[] → s.scope = []) : (readBodies fuel ctx fs).Yields s fun fs' s' =>
      s.Numbers s' (fs'.flatMap Function.declared) ∧ fs'.map (·.name) = fs.map (·.1.name) ∧
        ∀ items, List.Forall₂ (fun v p => p.2 = v ∧ Function.Heads v p.1) items fs →
          List.Forall₂ (Function.Spells (findFunction? ctx.functions)) items fs' := by
  induction fs generalizing s with
  | nil =>
    refine yields_pure fun _ => ⟨(ReadState.Kept.refl s).numbers, rfl, fun items hitems => ?_⟩
    cases hitems
    exact .nil
  | cons p fs ih =>
    obtain ⟨f, o⟩ := p
    unfold readBodies
    refine (yields_readBody f (hnesting (f, o) List.mem_cons_self) hscope).bind fun f' s₁ h₁ => ?_
    have hrest := ih (s := s₁) (fun p hp => hnesting p (List.mem_cons_of_mem _ hp))
      fun hclean => (h₁ hclean).2.1
    refine hrest.bind fun fs' s₂ h₂ => yields_pure fun hclean => ?_
    obtain ⟨hclean₁, hnumbers₂, hnames, hfs'⟩ := h₂ hclean
    obtain ⟨-, -, hnumbers₁, hname, hf'⟩ := h₁ hclean₁
    refine ⟨hnumbers₁.trans hnumbers₂, ?_, fun items hitems => ?_⟩
    · rw [List.map_cons, List.map_cons, hname, hnames]
    · cases hitems with
      | cons hp hrest =>
        obtain ⟨rfl, hf⟩ := hp
        exact .cons (hf' hf) (hfs' _ hrest)

/-! ## Documents -/

/-- What a name stands for depends on the names of functions only. -/
theorem findFunction?_congr {fs gs : Array Function} (h : fs.map (·.name) = gs.map (·.name)) :
    findFunction? fs = findFunction? gs := by
  have hnames (fs : Array Function) (name : String) :
      findFunction? fs name = (fs.map (·.name)).findIdx? (· == name) := by
    rw [Array.findIdx?_map, Array.findIdx?_eq_map_findFinIdx?_val]
    rfl
  funext name
  rw [hnames, hnames, h]

theorem frames_objects [Json.Library] (file : UInt32) (items : List Json)
    (functions : Array Function) (scope : Names) :
    (readSignatures file functions items).Frames scope fun fs => ∀ p ∈ fs, p.2 ∈ items := by
  induction items generalizing functions with
  | nil => exact frames_pure nofun
  | cons v items ih =>
    unfold readSignatures
    have hrest (functions : Array Function) :=
      (ih functions).imp fun fs hfs p hp => List.mem_cons_of_mem v (hfs p hp)
    split
    · refine (frames_readSignature file functions _ _).bind
        fun f _ => (hrest _).bind fun fs hfs => ?_
      refine frames_pure fun p hp => ?_
      rcases List.mem_cons.mp hp with rfl | hp
      · exact List.mem_cons_self
      · exact hfs p hp
    · exact (frames_report _ _ _).bind fun _ _ => hrest _

theorem yields_readFunctions [Json.Library] (file : UInt32) {root : Json} {items : List Json}
    (hitems : arrayField? root "fns" = some items) (hscope : s.faults = #[] → s.scope = []) :
    (readFunctions file root items).Yields s fun fs s' =>
      s.Numbers s' (fs.flatMap Function.declared) ∧
        List.Forall₂ (Function.Spells (findFunction? fs.toArray)) items fs := by
  unfold readFunctions
  refine (yields_readSignatures file items #[]).bindRun fun signatures s₁ hrun h₁ => ?_
  extract_lets ctx
  have hnesting (p : Function × Json) (hp : p ∈ signatures) : nesting p.2 ≤ nesting root + 1 := by
    have hmem := (frames_objects file items #[] s.scope s rfl).2 signatures (by rw [hrun]) p hp
    exact (nesting_lt_of_mem hitems hmem).le.trans (Nat.le_succ _)
  refine Yields.imp (yields_readBodies signatures hnesting fun hclean => ?_)
    fun fs s₂ hclean h₂ => ?_
  · obtain ⟨hclean₀, hkept, -⟩ := h₁ hclean
    exact hkept.scope.trans (hscope hclean₀)
  · obtain ⟨hnumbers, hnames, hfs⟩ := h₂
    obtain ⟨-, hkept, hheads⟩ := h₁ hclean
    have hcallees : findFunction? ctx.functions = findFunction? fs.toArray := by
      refine findFunction?_congr ?_
      rw [List.map_toArray, List.map_toArray, hnames, List.map_map]
      rfl
    rw [← hcallees]
    exact ⟨hkept.numbers.trans hnumbers, hfs items hheads⟩

theorem answers_readFields [Json.Library] {scope : Names} (st : TypeId) (span : Span)
    (items : List Json) :
    (readFields st span items).Answers scope fun _ => True := by
  induction items with
  | nil => exact answers_pure trivial
  | cons v items ih =>
    unfold readFields
    split
    · exact answers_pure trivial
    · rename_i heq
      obtain ⟨rfl, rfl⟩ := List.cons.inj heq
      refine (answers_parseType _ _).bind fun t _ => answers_types.bind fun pool _ => ?_
      split
      · exact answers_failMalformed
      · exact ih.bind fun _ _ => answers_pure trivial
    · exact answers_failMalformed

theorem answers_readStruct [Json.Library] {scope : Names} (file : UInt32) (v : Json) :
    (readStruct file v).Answers scope fun _ => True := by
  unfold readStruct
  extract_lets span
  split
  · split
    · refine answers_types.bind fun types _ => ?_
      split
      · exact answers_failWith
      · rename_i st pool hdeclare
        have hset (f : TypePool → TypePool) :
            Answers (modify fun s => { s with types := f s.types }) scope fun _ => True :=
          fun _ _ => ⟨⟨rfl, rfl, id⟩, fun _ => rfl, fun _ _ => trivial⟩
        refine (hset fun _ => pool).bind fun _ _ => (answers_readFields st span _).bind
          fun fields _ => ?_
        exact hset fun types => types.setFields st fields
    · exact answers_failMalformed
  · exact answers_failMalformed

theorem yields_readEach [Json.Library] {read : Json → Read Unit}
    (hread : ∀ v scope, (read v).Answers scope fun _ => True) (items : List Json) :
    (readEach read items).Yields s fun _ s' => s.Kept s' := by
  induction items generalizing s with
  | nil => exact yields_pure fun _ => .refl s
  | cons v items ih =>
    refine (hread v s.scope).yields.attempt.bind fun _ s₁ h₁ hclean => ?_
    obtain ⟨hclean₁, u, hu, hkept⟩ := ih (s := s₁) hclean
    obtain ⟨-, _, -, hkept₁, -⟩ := h₁ hclean₁
    exact ⟨hclean₁, u, hu, hkept₁.trans hkept⟩

/-- The bindings that a module makes, in the order of the text. -/
def Module.declared (m : Module) : List SymbolId := m.functions.toList.flatMap Function.declared

/-- A module spells the root of a document: it has a function for each that the document has, in
order, and each binding is made in one place. -/
structure Module.Spells [Json.Library] (root : Json) (m : Module) : Prop where
  unit : textField? root "unit" = some m.unit
  functions : ∃ items, arrayField? root "fns" = some items ∧
    List.Forall₂ (Function.Spells (findFunction? m.functions)) items m.functions.toList
  declared : m.declared = List.range m.symbols.size

theorem yields_readModule [Json.Library] (file : UInt32) (root : Json) (hscope : s.scope = [])
    (hsymbols : s.symbols = #[]) :
    (readModule file root).Yields s fun m _ => m.Spells root := by
  unfold readModule
  split
  · exact (yields_report _ _ _).bind fun _ s₁ h₁ => yields_pure fun hclean => (h₁ hclean).2.elim
  · rename_i unit hunit
    refine (yields_readEach (fun v scope => answers_readStruct file v) _).bind fun _ s₁ h₁ => ?_
    split
    · exact (yields_report _ _ _).bind fun _ s₂ h₂ => yields_pure fun hclean => (h₂ hclean).2.elim
    · rename_i items hitems
      have hscope₁ (hclean : s₁.faults = #[]) : s₁.scope = [] := (h₁ hclean).2.scope.trans hscope
      refine (yields_readFunctions file hitems hscope₁).bind fun fs s₂ h₂ => ?_
      refine yields_get (yields_pure fun hclean => ?_)
      obtain ⟨hclean₁, hnumbers, hfs⟩ := h₂ hclean
      have hkept := (h₁ hclean₁).2
      have hnone : s₁.symbols.size = 0 := by rw [hkept.symbols, hsymbols, Array.size_empty]
      have hsize := hnumbers.size
      have hsyms := hnumbers.syms
      rw [hnone, Nat.zero_add] at hsize
      rw [hnone, ← hsize, ← List.range_eq_range'] at hsyms
      exact ⟨hunit, ⟨items, hitems, hfs⟩, hsyms⟩

/-- Without faults, a document is read into a module that spells its root. -/
theorem spells_readDocument [Json.Library] (text docName : String) (sources : Sources) :
    (readDocument text docName {} sources).ok = true →
    ∃ root, Json.Library.parse? text = some root ∧
      (readDocument text docName {} sources).module.Spells root := by
  unfold readDocument
  cases hparse : Json.Library.parse? text with
  | none => exact nofun
  | some root =>
    dsimp only
    split
    · rename_i fields
      obtain ⟨name, content⟩ := sourceOf docName (.object fields)
      dsimp only
      obtain ⟨file, sources⟩ := sources.add name content
      have hmodule := yields_readModule (s := {}) file (.object fields) rfl rfl
      cases hrun : (readModule file (.object fields)).run {} with
      | mk m? s' =>
        unfold Yields at hmodule
        rw [hrun] at hmodule
        intro hok
        have hclean : s'.faults = #[] := by
          have hempty : s'.faults.toList.isEmpty = true := hok
          exact Array.toList_eq_nil_iff.mp (List.isEmpty_iff.mp hempty)
        obtain ⟨-, m, rfl, hspells⟩ := hmodule hclean
        exact ⟨_, rfl, hspells⟩
    · exact nofun

/-- A module is what a document stands for: it spells the document and obeys the typing rules, and
nothing that holds a value has type unit. -/
structure Module.Accepted [Json.Library] (m : Module) (root : Json) (types : TypePool) : Prop where
  spells : m.Spells root
  typed : m.Typed types
  params : ∀ f ∈ m.functions, ∀ p ∈ f.params, p.type ≠ Builtin.unit.id
  fields : types.Valued

/-- A document without faults is read into a module that it stands for. Nothing of it is left out:
each statement array is a block with a statement for each item, in order, and each name stands for
the innermost binding before it. -/
theorem accepted_document [Json.Library] (text docName : String) (sources : Sources)
    (hok : (readDocument text docName {} sources).ok = true) :
    ∃ root, Json.Library.parse? text = some root ∧
      (readDocument text docName {} sources).module.Accepted root
      (readDocument text docName {} sources).types := by
  have htyped := (typed_readDocument text docName TypePool.sound_default sources).2 hok
  have hvalued := (scoped_readDocument text docName sources).2
  obtain ⟨root, hroot, hspells⟩ := spells_readDocument text docName sources hok
  refine ⟨root, hroot, hspells, htyped, fun f hf p hp hunit => ?_, hvalued⟩
  obtain ⟨symbol, hsymbol, htype, -⟩ := (htyped.functions f hf).params p hp
  exact htyped.symbols symbol (Array.mem_of_getElem? hsymbol) (htype.trans hunit)

/-- A loop that binds a name and assigns to another one. -/
theorem accepted_document_shuttle : (@readDocument .standard shuttleText "t" {} {}).ok = true ∧
    @Module.Accepted .standard shuttleHir shuttleJson {} := by
  obtain ⟨doc, hdoc, hmodule, htypes, hok⟩ := read_shuttleText
  have hok : (@readDocument .standard shuttleText "t" {} {}).ok = true := by rw [hdoc, hok]
  obtain ⟨root, hroot, haccepted⟩ := @accepted_document .standard shuttleText "t" {} hok
  rw [parse_shuttleText] at hroot
  obtain rfl := Option.some.inj hroot
  rw [hdoc, hmodule, htypes] at haccepted
  exact ⟨hok, haccepted⟩

end ContractCompiler.Hir
