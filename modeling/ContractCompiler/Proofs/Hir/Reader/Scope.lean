import ContractCompiler.Proofs.Hir.Calls
import ContractCompiler.Proofs.Hir.Moves

/-!
# Programs that are read use what is in sight

- `Stmt.Scoped`, `blockScoped`: the bindings that statements use are in sight;
- `Read.Frames`: a step of reading leaves the names in sight as they are;
- `scoped_readExpr`, `scoped_readStmt`: what is read uses what is in sight;
- `scoped_readDocument`: so do all functions of a document;
- `valued_readDocument`: no struct of a document has a field of type unit.
-/

namespace ContractCompiler

/-- No struct has a field of type unit. -/
def TypePool.Valued (types : TypePool) : Prop :=
  ∀ decl ∈ types.structs, ∀ field ∈ decl.fields, field.2 ≠ Builtin.unit.id

end ContractCompiler

namespace ContractCompiler.Hir

/-! ## Scopes -/

/-- The bindings that an expression uses are in sight. -/
def Expr.Scoped (scope : List SymbolId) (e : Expr) : Prop := ∀ use ∈ e.uses, use.2 ∈ scope

/-- The binding that a statement brings into sight. -/
def Stmt.binds : Stmt → List SymbolId
  | .bind _ sym _ => [sym]
  | _ => []

mutual

/-- The bindings that a statement uses are in sight. -/
def Stmt.Scoped (scope : List SymbolId) : Stmt → Prop
  | .expr _ e | .bind _ _ e | .require _ e _ | .ret _ (some e) => e.Scoped scope
  | .assign _ sym _ e => sym ∈ scope ∧ e.Scoped scope
  | .ite _ c t _ e => c.Scoped scope ∧ blockScoped scope t ∧ blockScoped scope e
  | .loop _ c body => c.Scoped scope ∧ blockScoped scope body
  | .ret _ none | .stop _ | .next _ | .revert _ _ | .panic _ _ => True

/-- The bindings that the statements of a block use are in sight, those of the block from where they
stand. -/
def blockScoped (scope : List SymbolId) : List Stmt → Prop
  | [] => True
  | s :: ss => s.Scoped scope ∧ blockScoped (s.binds ++ scope) ss

end

/-- A function whose statements use what is in sight. -/
def Function.Scoped (f : Function) : Prop := blockScoped (f.params.map (·.sym)).reverse f.body

theorem scoped_of_usesOfExprs {scope : List SymbolId} {es : List Expr}
    (h : ∀ e ∈ es, e.Scoped scope) :
    ∀ use ∈ usesOfExprs es, use.2 ∈ scope := by
  induction es with
  | nil =>
    intro use huse
    unfold usesOfExprs at huse
    cases huse
  | cons e es ih =>
    intro use huse
    unfold usesOfExprs at huse
    rcases List.mem_append.mp huse with huse | huse
    · exact h e List.mem_cons_self use huse
    · exact ih (fun e he => h e (List.mem_cons_of_mem _ he)) use huse

/-! ## Steps -/

/-- The names in sight. -/
abbrev Names := List (String × SymbolId)

/-- The bindings of names. -/
def Names.syms (scope : Names) : List SymbolId := scope.map (·.2)

namespace Read

variable {α β : Type} {scope : Names}

/-- A step leaves the names in sight as they are, and what it yields has a property. -/
def Frames (r : Read α) (scope : Names) (Q : α → Prop) : Prop :=
  ∀ s : ReadState, s.scope = scope → (r.run s).2.scope = scope ∧ ∀ a, (r.run s).1 = some a → Q a

theorem Frames.imp {r : Read α} {Q Q' : α → Prop} (h : r.Frames scope Q) (hQ : ∀ a, Q a → Q' a) :
    r.Frames scope Q' :=
  fun s hs => ⟨(h s hs).1, fun a ha => hQ a ((h s hs).2 a ha)⟩

theorem Frames.bind {r : Read α} {k : α → Read β} {Q : α → Prop} {Q' : β → Prop}
    (h : r.Frames scope Q) (hk : ∀ a, Q a → (k a).Frames scope Q') : (r >>= k).Frames scope Q' := by
  intro s hs
  obtain ⟨hscope, hQ⟩ := h s hs
  rw [run_bind]
  cases hr : r.run s with
  | mk a? s' =>
    rw [hr] at hscope hQ
    cases a? with
    | none => exact ⟨hscope, nofun⟩
    | some a => exact hk a (hQ a rfl) s' hscope

theorem frames_pure {Q : α → Prop} {a : α} (hQ : Q a) : (pure a : Read α).Frames scope Q :=
  fun _ hs => ⟨hs, fun _ ha => Option.some.inj ha ▸ hQ⟩

theorem frames_failure {Q : α → Prop} : (failure : Read α).Frames scope Q := fun _ hs => ⟨hs, nofun⟩

theorem Frames.attempt {r : Read α} {Q : α → Prop} (h : r.Frames scope Q) :
    (attempt r).Frames scope fun a? => ∀ a, a? = some a → Q a := by
  refine fun s hs => ⟨(h s hs).1, fun a? ha? a ha => ?_⟩
  have heq : (r.run s).1 = a? := Option.some.inj ha?
  exact (h s hs).2 a (heq.trans ha)

theorem frames_report (cause : Cause) (span : Span) (args : List String) :
    (report cause span args).Frames scope fun _ => True :=
  fun _ hs => ⟨hs, fun _ _ => trivial⟩

theorem frames_failWith {Q : α → Prop} {cause : Cause} {span : Span} {args : List String} :
    (failWith cause span args : Read α).Frames scope Q :=
  (frames_report cause span args).bind fun _ _ => frames_failure

theorem frames_failMalformed {Q : α → Prop} {span : Span} {what : Malformation} :
    (failMalformed span what : Read α).Frames scope Q :=
  frames_failWith

theorem frames_types : types.Frames scope fun _ => True := fun _ hs => ⟨hs, fun _ _ => trivial⟩

theorem frames_withTypes (f : TypePool → α × TypePool) : (withTypes f).Frames scope fun _ => True :=
  fun _ hs => ⟨hs, fun _ _ => trivial⟩

theorem frames_parseType (text : String) (span : Span) :
    (parseType text span).Frames scope fun _ => True := by
  unfold parseType
  refine frames_types.bind fun pool _ => ?_
  split
  · rename_i t pool' _
    have hmod : Frames (modify fun s : ReadState => { s with types := pool' }) scope
        fun _ => True :=
      fun _ hs => ⟨hs, fun _ _ => trivial⟩
    exact hmod.bind fun _ _ => frames_pure trivial
  · exact frames_failWith

theorem frames_mismatch {Q : α → Prop} {span : Span} {want got : TypeId} :
    (mismatch span want got : Read α).Frames scope Q :=
  frames_types.bind fun _ _ => frames_failWith

theorem frames_expectType (e : Expr) (want : TypeId) (span : Span) :
    (expectType e want span).Frames scope fun _ => True := by
  unfold expectType
  split
  · exact frames_pure trivial
  · exact frames_mismatch

theorem frames_complete (span : Span) (type : TypeId) (make : ExprInfo → Expr) :
    (complete span type make).Frames scope fun e => ∃ i, e = make i :=
  fun _ hs => ⟨hs, fun _ he => ⟨_, (Option.some.inj he).symm⟩⟩

theorem frames_symbol (sym : SymbolId) : (symbol sym).Frames scope fun _ => True :=
  fun _ hs => ⟨hs, fun _ _ => trivial⟩

theorem run_lookup (name : String) (span : Span) (s : ReadState) :
    (lookup name span).run s = (match s.scope.lookup name with
      | some sym => (pure sym : Read SymbolId)
      | none => failWith .unknownName span [name]).run s := rfl

theorem frames_lookup (name : String) (span : Span) :
    (lookup name span).Frames scope fun sym => sym ∈ scope.syms := by
  intro s hs
  rw [run_lookup]
  split
  · rename_i sym hsym
    refine frames_pure ?_ s hs
    exact List.mem_map.mpr ⟨_, mem_of_lookup (hs ▸ hsym), rfl⟩
  · exact frames_failWith s hs

end Read

open Read

/-! ## Expressions -/

/-- A reader of sub-expressions that use what is in sight. -/
def SubReader.Scoped (sub : SubReader) (scope : Names) : Prop :=
  ∀ v hint, (sub v hint).Frames scope (·.Scoped scope.syms)

/-- An expression without a binding in it. -/
theorem scoped_of_uses_nil {scope : List SymbolId} {e : Expr} (h : e.uses = []) :
    e.Scoped scope := by
  intro use huse
  rw [h] at huse
  cases huse

namespace ExprForm

variable {f : ExprForm} {sub : SubReader} {ctx : ReadContext} {scope : Names}

/-- An expression made of parts that use what is in sight. -/
theorem frames_completeOf (span : Span) (type : TypeId) {make : ExprInfo → Expr}
    (h : ∀ i, (make i).Scoped scope.syms) :
    (complete span type make).Frames scope (·.Scoped scope.syms) :=
  (frames_complete span type make).imp fun _ ⟨i, he⟩ => he ▸ h i

theorem scoped_readIntValue [Json.Library] (v : Json) (hint : Hint) (span : Span) :
    (readIntValue v hint span).Frames scope (·.Scoped scope.syms) := by
  unfold readIntValue
  refine frames_types.bind fun pool _ => ?_
  extract_lets type
  split
  · exact frames_failMalformed
  · split
    · exact frames_completeOf _ _ fun i => scoped_of_uses_nil rfl
    · exact frames_failMalformed

theorem frames_need (key : String) : (f.need key).Frames scope fun _ => True := by
  unfold need
  split
  · exact frames_pure trivial
  · exact frames_failMalformed

theorem frames_need2 (key₁ key₂ : String) : (f.need2 key₁ key₂).Frames scope fun _ => True := by
  unfold need2
  refine (frames_need key₁).attempt.bind fun v₁ _ => (frames_need key₂).attempt.bind fun v₂ _ => ?_
  split
  · exact frames_pure trivial
  · exact frames_failure

theorem frames_mode : f.mode.Frames scope fun _ => True := by
  unfold mode
  split <;> first | exact frames_pure trivial | exact frames_failMalformed

theorem frames_hintElem : f.hintElem.Frames scope fun _ => True :=
  frames_types.bind fun _ _ => frames_pure trivial

theorem frames_operandHint (mode : ArithMode) (otherwise : Hint) :
    (f.operandHint mode otherwise).Frames scope fun _ => True := by
  unfold operandHint
  refine frames_hintElem.bind fun hint _ => ?_
  split <;> exact frames_pure trivial

theorem frames_modeType (mode : ArithMode) (t : TypeId) :
    (modeType mode t).Frames scope fun _ => True := by
  unfold modeType
  split
  · exact frames_withTypes _
  · exact frames_pure trivial

theorem frames_stateNamespace : f.stateNamespace.Frames scope fun _ => True := by
  unfold stateNamespace
  split
  · exact frames_failMalformed
  · split
    · exact frames_failMalformed
    · split
      · exact frames_failMalformed
      · exact frames_pure trivial

theorem scoped_stateKey (hsub : sub.Scoped scope) :
    (f.stateKey sub).Frames scope (·.Scoped scope.syms) := by
  unfold stateKey
  refine (frames_need "key").bind fun v _ => (hsub v _).bind fun key hkey => ?_
  refine frames_types.bind fun pool _ => ?_
  split
  · exact frames_pure hkey
  · exact frames_failMalformed

theorem scoped_pair (hsub : sub.Scoped scope) (l r : Json) (hint : Hint) :
    (pair sub l r hint).Frames scope fun p => p.1.Scoped scope.syms ∧ p.2.Scoped scope.syms := by
  unfold pair
  split
  · refine (hsub r _).attempt.bind fun b hb => (hsub l _).attempt.bind fun a ha => ?_
    split
    · exact frames_pure ⟨ha _ rfl, hb _ rfl⟩
    · exact frames_failure
  · refine (hsub l _).attempt.bind fun a ha => (hsub r _).attempt.bind fun b hb => ?_
    split
    · exact frames_pure ⟨ha _ rfl, hb _ rfl⟩
    · exact frames_failure

theorem scoped_each (hsub : sub.Scoped scope) (vs : List Json) (hints : List TypeId) :
    (each sub vs hints).Frames scope fun es => ∀ e ∈ es, e.Scoped scope.syms := by
  induction vs generalizing hints with
  | nil => exact frames_pure nofun
  | cons v vs ih =>
    unfold each
    refine (hsub v _).attempt.bind fun e he => (ih hints.tail).attempt.bind fun es hes => ?_
    split
    · rename_i e es
      refine frames_pure fun e' he' => ?_
      rcases List.mem_cons.mp he' with rfl | he'
      · exact he _ rfl
      · exact hes _ rfl e' he'
    · exact frames_failure

/-- Two parts that use what is in sight. -/
theorem scoped_append {scope : List SymbolId} {a b : Expr} {us : List (ExprId × SymbolId)}
    (hus : us = a.uses ++ b.uses) (ha : a.Scoped scope) (hb : b.Scoped scope) :
    ∀ use ∈ us, use.2 ∈ scope := by
  intro use huse
  rw [hus] at huse
  exact (List.mem_append.mp huse).elim (ha use) (hb use)

theorem scoped_useOf (name : String) (span : Span) :
    (useOf name span).Frames scope (·.Scoped scope.syms) := by
  refine (frames_lookup name span).bind fun sym hsym => (frames_symbol sym).bind fun s _ => ?_
  refine frames_completeOf _ _ fun i use huse => ?_
  rw [List.mem_singleton.mp huse]
  exact hsym

theorem scoped_logical (hsub : sub.Scoped scope) (isAnd : Bool) :
    (f.logical sub isAnd).Frames scope (·.Scoped scope.syms) := by
  unfold logical
  refine (frames_need2 _ _).bind fun (l, r) _ => frames_mode.bind fun _ _ => ?_
  refine (hsub l _).attempt.bind fun a ha => (hsub r _).attempt.bind fun b hb => ?_
  split
  · exact frames_failure
  · refine (frames_expectType _ _ _).bind fun _ _ => ?_
    split
    · exact frames_failure
    · refine (frames_expectType _ _ _).bind fun _ _ => frames_completeOf _ _ fun i => ?_
      exact scoped_append rfl (ha _ rfl) (hb _ rfl)

theorem frames_checkCompare (op : BinOp) (mode : ArithMode) (t : TypeId) :
    (f.checkCompare op mode t).Frames scope fun _ => True := by
  unfold checkCompare
  refine frames_types.bind fun pool _ => ?_
  extract_lets onBool
  split
  · exact frames_failMalformed
  · split
    · exact frames_failMalformed
    · exact frames_pure trivial

theorem frames_checkArith (op : BinOp) (mode : ArithMode) (t : TypeId) :
    (f.checkArith op mode t).Frames scope fun _ => True := by
  unfold checkArith
  refine frames_types.bind fun pool _ => ?_
  split
  · exact frames_failMalformed
  · split
    · exact frames_failMalformed
    · exact frames_pure trivial

theorem scoped_arithmetic (hsub : sub.Scoped scope) (op : BinOp) :
    (f.arithmetic sub op).Frames scope (·.Scoped scope.syms) := by
  unfold arithmetic
  refine (frames_need2 _ _).bind fun (l, r) _ => frames_mode.bind fun mode _ => ?_
  refine (frames_operandHint mode _).bind fun hint _ => (scoped_pair hsub l r hint).bind ?_
  rintro ⟨a, b⟩ ⟨ha, hb⟩
  refine (frames_expectType b _ _).bind fun _ _ => ?_
  have hscoped : ∀ i, (Expr.binary i op mode a b).Scoped scope.syms :=
    fun i => scoped_append rfl ha hb
  split
  · exact (frames_checkCompare op mode _).bind fun _ _ => frames_completeOf _ _ hscoped
  · refine (frames_checkArith op mode _).bind fun _ _ => (frames_modeType mode _).bind fun t _ => ?_
    exact frames_completeOf _ _ hscoped

theorem scoped_binary (hsub : sub.Scoped scope) :
    (f.binary sub).Frames scope (·.Scoped scope.syms) := by
  unfold binary
  extract_lets op
  split
  · exact scoped_logical hsub true
  · split
    · exact scoped_logical hsub false
    · split
      · exact scoped_arithmetic hsub _
      · exact frames_failMalformed

theorem scoped_neg (hsub : sub.Scoped scope) : (f.neg sub).Frames scope (·.Scoped scope.syms) := by
  unfold neg
  refine frames_mode.bind fun mode _ => (frames_operandHint mode _).bind fun hint _ => ?_
  refine (hsub _ _).bind fun a ha => frames_types.bind fun pool _ => ?_
  split
  · exact frames_failMalformed
  · exact (frames_modeType mode _).bind fun t _ => frames_completeOf _ _ fun i => ha

theorem scoped_not (hsub : sub.Scoped scope) : (f.not sub).Frames scope (·.Scoped scope.syms) := by
  unfold ExprForm.not
  refine (hsub _ _).bind fun a ha => frames_types.bind fun pool _ => ?_
  split
  · exact frames_completeOf _ _ fun i => ha
  · split
    · exact frames_completeOf _ _ fun i => ha
    · exact frames_failMalformed

theorem scoped_cast (hsub : sub.Scoped scope) :
    (f.cast sub).Frames scope (·.Scoped scope.syms) := by
  unfold ExprForm.cast
  split
  · exact frames_failMalformed
  · refine (frames_parseType _ _).attempt.bind
      fun target _ => frames_mode.attempt.bind fun mode _ => ?_
    split
    · have hrest (castMode : CastMode) (target : TypeId) : Frames (do
          let a ← sub f.value none
          let pool ← types
          if !pool.isInteger a.type || !pool.isInteger target then
            failMalformed f.span .castOperands
          else complete f.span target fun i => .cast i castMode a) scope (·.Scoped scope.syms) := by
        refine (hsub _ _).bind fun a ha => frames_types.bind fun pool _ => ?_
        split
        · exact frames_failMalformed
        · exact frames_completeOf _ _ fun i => ha
      split
      · exact hrest _ _
      · exact hrest _ _
      · exact frames_failMalformed.bind fun m (_ : False) => by contradiction
    · exact frames_failure

theorem frames_checkArgs (args : List Expr) (params : List Param) :
    (f.checkArgs args params).Frames scope fun _ => True := by
  induction args generalizing params with
  | nil =>
    unfold checkArgs
    exact frames_pure trivial
  | cons a args ih =>
    cases params with
    | nil => exact frames_pure trivial
    | cons p params =>
      unfold checkArgs
      refine (frames_expectType _ _ _).bind fun _ _ => ?_
      split
      · exact frames_failWith
      · exact ih params

theorem scoped_call (hsub : sub.Scoped scope) :
    (f.call sub ctx).Frames scope (·.Scoped scope.syms) := by
  unfold call
  extract_lets name
  split
  · exact frames_failWith
  · extract_lets callee
    split
    · exact frames_failWith
    · refine (scoped_each hsub _ _).bind fun args hargs => (frames_checkArgs _ _).bind fun _ _ => ?_
      refine frames_completeOf _ _ fun i => ?_
      exact scoped_of_usesOfExprs hargs

theorem scoped_field (hsub : sub.Scoped scope) :
    (f.field sub).Frames scope (·.Scoped scope.syms) := by
  unfold field
  split
  · exact frames_failMalformed
  · refine (hsub _ _).bind fun base hbase => frames_types.bind fun pool _ => ?_
    split
    · exact frames_failMalformed
    · split
      · exact frames_completeOf _ _ fun i => hbase
      · exact frames_failWith

theorem frames_checkTypes (es : List Expr) (ts : List TypeId) :
    (f.checkTypes es ts).Frames scope fun _ => True := by
  induction es generalizing ts with
  | nil =>
    unfold checkTypes
    exact frames_pure trivial
  | cons e es ih =>
    cases ts with
    | nil => exact frames_pure trivial
    | cons t ts => exact (frames_expectType _ _ _).bind fun _ _ => ih ts

theorem scoped_struct (hsub : sub.Scoped scope) :
    (f.struct sub).Frames scope (·.Scoped scope.syms) := by
  unfold struct
  extract_lets name items
  refine frames_types.bind fun pool _ => ?_
  split
  · exact frames_failWith
  · extract_lets fields ts
    split
    · exact frames_failWith
    · refine (scoped_each hsub _ _).bind fun es hes => (frames_checkTypes _ _).bind fun _ _ => ?_
      exact frames_completeOf _ _ fun i => scoped_of_usesOfExprs hes

theorem scoped_select (hsub : sub.Scoped scope) :
    (f.select sub).Frames scope (·.Scoped scope.syms) := by
  unfold select
  refine (frames_need2 _ _).bind fun (t, e) _ => (hsub _ _).bind fun cond hcond => ?_
  refine (frames_expectType _ _ _).bind fun _ _ => (scoped_pair hsub t e _).bind ?_
  rintro ⟨a, b⟩ ⟨ha, hb⟩
  refine (frames_expectType _ _ _).bind fun _ _ => frames_completeOf _ _ fun i use huse => ?_
  rcases List.mem_append.mp huse with huse | huse
  · exact scoped_append rfl hcond ha use huse
  · exact hb use huse

/-- A type that is given or expected may be stored. -/
theorem frames_storedType (type : Option TypeId) : Frames (do
    let pool ← types
    match type with
    | some t => if pool.isStateValue t then pure t else failMalformed f.span .stateValue
    | none => failMalformed f.span .stateValue) scope fun _ => True := by
  refine frames_types.bind fun pool _ => ?_
  split
  · split
    · exact frames_pure trivial
    · exact frames_failMalformed
  · exact frames_failMalformed

theorem frames_stateValueType : f.stateValueType.Frames scope fun _ => True := by
  unfold stateValueType
  split
  · exact (frames_parseType _ _).bind fun t _ => frames_storedType (some t)
  · exact frames_hintElem.bind fun hint _ => frames_storedType hint

theorem scoped_stateGet (hsub : sub.Scoped scope) :
    (f.stateGet sub).Frames scope (·.Scoped scope.syms) := by
  unfold stateGet
  refine frames_stateNamespace.bind fun ns _ => frames_stateValueType.bind fun type _ => ?_
  refine (scoped_stateKey hsub).bind fun key hkey => (frames_withTypes _).bind fun t _ => ?_
  exact frames_completeOf _ _ fun i => hkey

theorem scoped_statePut (hsub : sub.Scoped scope) :
    (f.statePut sub).Frames scope (·.Scoped scope.syms) := by
  unfold statePut
  refine frames_stateNamespace.bind fun ns _ => (frames_need _).bind fun v _ => ?_
  refine (scoped_stateKey hsub).bind fun key hkey => (hsub _ _).bind fun value hvalue => ?_
  refine frames_types.bind fun pool _ => ?_
  split
  · exact frames_failMalformed
  · exact frames_completeOf _ _ fun i => scoped_append rfl hkey hvalue

theorem scoped_stateHas (hsub : sub.Scoped scope) :
    (f.stateHas sub).Frames scope (·.Scoped scope.syms) := by
  unfold stateHas
  refine frames_stateNamespace.bind fun ns _ => (scoped_stateKey hsub).bind fun key hkey => ?_
  exact frames_completeOf _ _ fun i => hkey

theorem scoped_context : f.context.Frames scope (·.Scoped scope.syms) := by
  unfold context
  extract_lets name
  split
  · exact frames_completeOf _ _ fun i => scoped_of_uses_nil rfl
  · exact frames_failMalformed

theorem scoped_digest (hsub : sub.Scoped scope) :
    (f.digest sub).Frames scope (·.Scoped scope.syms) :=
  (hsub _ _).bind fun _ ha => (frames_expectType _ _ _).bind fun _ _ =>
    frames_completeOf _ _ fun _ => ha

theorem scoped_length (hsub : sub.Scoped scope) :
    (f.length sub).Frames scope (·.Scoped scope.syms) :=
  (hsub _ _).bind fun _ ha => (frames_expectType _ _ _).bind fun _ _ =>
    frames_completeOf _ _ fun _ => ha

theorem scoped_emit (hsub : sub.Scoped scope) :
    (f.emit sub).Frames scope (·.Scoped scope.syms) := by
  unfold emit
  refine (scoped_each hsub _ _).bind fun args hargs => frames_types.bind fun pool _ => ?_
  split
  · exact frames_failMalformed
  · exact frames_completeOf _ _ fun i => scoped_of_usesOfExprs hargs

theorem scoped_result (hsub : sub.Scoped scope) (op : ResultOp) :
    (f.result sub op).Frames scope (·.Scoped scope.syms) := by
  unfold result
  refine (hsub _ _).bind fun a ha => frames_types.bind fun pool _ => ?_
  split
  · exact frames_failMalformed
  · extract_lets type
    exact frames_completeOf _ _ fun i => ha

theorem scoped_ok (hsub : sub.Scoped scope) : (f.ok sub).Frames scope (·.Scoped scope.syms) := by
  unfold ok
  refine frames_hintElem.bind fun hint _ => (hsub _ _).bind fun a ha => ?_
  exact (frames_withTypes _).bind fun t _ => frames_completeOf _ _ fun i => ha

/-- An error result of a type that is given or expected. -/
theorem scoped_errOf (hsub : sub.Scoped scope) (type : Option TypeId) : Frames (do
    let pool ← types
    match type with
    | none => failMalformed f.span .errType
    | some t =>
      if (pool.resultElem? t).isNone then failMalformed f.span .errType
      else
        let a ← sub f.value (some Builtin.i32.id)
        expectType a Builtin.i32.id f.span
        complete f.span t fun i => .err i a) scope (·.Scoped scope.syms) := by
  refine frames_types.bind fun pool _ => ?_
  split
  · exact frames_failMalformed
  · split
    · exact frames_failMalformed
    · refine (hsub _ _).bind fun a ha => (frames_expectType _ _ _).bind fun _ _ => ?_
      exact frames_completeOf _ _ fun i => ha

theorem scoped_err (hsub : sub.Scoped scope) : (f.err sub).Frames scope (·.Scoped scope.syms) := by
  unfold err
  split
  · refine (frames_parseType _ _).bind fun t _ => (frames_withTypes _).bind fun r _ => ?_
    exact scoped_errOf hsub (some r)
  · exact scoped_errOf hsub f.hint

theorem scoped_int [Json.Library] : f.int.Frames scope (·.Scoped scope.syms) := by
  unfold int
  split
  · exact (frames_parseType _ _).bind fun t _ => scoped_readIntValue _ _ _
  · exact scoped_readIntValue _ _ _

/-- What a form yields uses what is in sight. -/
theorem scoped_rule [Json.Library] (hsub : sub.Scoped scope) {r : Rule} (hr : r ∈ rules) :
    (r.read ctx sub f).Frames scope (·.Scoped scope.syms) := by
  simp only [rules, List.mem_cons, List.not_mem_nil, or_false] at hr
  rcases hr with rfl | rfl | rfl | rfl | rfl | rfl | rfl | rfl | rfl | rfl | rfl | rfl |
    rfl | rfl | rfl |
    rfl | rfl | rfl | rfl | rfl | rfl | rfl | rfl | rfl
  · exact scoped_int
  · exact frames_completeOf _ _ fun i => scoped_of_uses_nil rfl
  · exact frames_completeOf _ _ fun i => scoped_of_uses_nil rfl
  · exact scoped_useOf _ _
  · exact scoped_binary hsub
  · exact scoped_neg hsub
  · exact scoped_not hsub
  · exact scoped_cast hsub
  · exact scoped_call hsub
  · exact scoped_field hsub
  · exact scoped_struct hsub
  · exact scoped_select hsub
  · exact scoped_stateGet hsub
  · exact scoped_statePut hsub
  · exact scoped_stateHas hsub
  · exact scoped_context
  · exact scoped_digest hsub
  · exact scoped_length hsub
  · exact scoped_emit hsub
  · exact scoped_result hsub .isOk
  · exact scoped_result hsub .unwrap
  · exact scoped_result hsub .code
  · exact scoped_ok hsub
  · exact scoped_err hsub

theorem scoped_readObject [Json.Library] (hsub : sub.Scoped scope) (o : Json) (hint : Hint) :
    (readObject ctx sub o hint).Frames scope (·.Scoped scope.syms) := by
  unfold readObject
  extract_lets span
  split
  · rename_i r value hfind
    obtain ⟨r', hr', hvalue⟩ := List.exists_of_findSome?_eq_some hfind
    obtain ⟨v, -, heq⟩ := Option.map_eq_some_iff.mp hvalue
    obtain ⟨rfl, rfl⟩ := Prod.mk.inj heq
    exact scoped_rule hsub hr'
  · exact frames_failMalformed

end ExprForm

/-- Expressions that are read use what is in sight. -/
theorem scoped_readExpr [Json.Library] (ctx : ReadContext) (fuel : Nat) (scope : Names) :
    SubReader.Scoped (readExpr ctx fuel) scope := by
  induction fuel with
  | zero => exact fun _ _ => frames_failure
  | succ fuel ih =>
    intro v hint
    unfold readExpr
    extract_lets start
    split
    · exact ExprForm.scoped_readIntValue _ _ _
    · exact ExprForm.frames_completeOf _ _ fun i => scoped_of_uses_nil rfl
    · exact ExprForm.scoped_useOf _ _
    · exact ExprForm.scoped_readObject ih _ _
    · exact frames_failMalformed

/-! ## Statements -/

/-- A step brings what its result binds into sight. -/
def Read.Binds (r : Read Stmt) (scope : Names) : Prop :=
  ∀ s : ReadState, s.scope = scope →
    ((r.run s).1 = none → (r.run s).2.scope = scope) ∧
      ∀ stmt, (r.run s).1 = some stmt → stmt.Scoped scope.syms ∧
        Names.syms (r.run s).2.scope = stmt.binds ++ scope.syms

/-- A statement that is no binding. -/
theorem Read.Frames.binds {r : Read Stmt} {scope : Names}
    (h : r.Frames scope fun stmt => stmt.Scoped scope.syms ∧ stmt.binds = []) : r.Binds scope := by
  intro s hs
  obtain ⟨hscope, hstmt⟩ := h s hs
  refine ⟨fun _ => hscope, fun stmt hr => ⟨(hstmt stmt hr).1, ?_⟩⟩
  rw [hscope, (hstmt stmt hr).2]
  rfl

theorem Read.Frames.bindBinds {α : Type} {r : Read α} {k : α → Read Stmt} {scope : Names}
    {Q : α → Prop} (h : r.Frames scope Q) (hk : ∀ a, Q a → (k a).Binds scope) :
    (r >>= k).Binds scope := by
  intro s hs
  obtain ⟨hscope, hQ⟩ := h s hs
  rw [run_bind]
  cases hr : r.run s with
  | mk a? s' =>
    rw [hr] at hscope hQ
    cases a? with
    | none => exact ⟨fun _ => hscope, nofun⟩
    | some a => exact hk a (hQ a rfl) s' hscope

theorem binds_failMalformed {span : Span} {what : Malformation} {scope : Names} :
    (failMalformed span what : Read Stmt).Binds scope :=
  (frames_failMalformed (Q := fun _ => False)).imp (fun _ h => h.elim) |>.binds

/-- Readers of the parts of statements that use what is in sight. -/
structure StmtParts.Scoped (parts : StmtParts) (scope : Names) : Prop where
  expr : parts.expr.Scoped scope
  block : ∀ ctx items, (parts.block ctx items).Frames scope (blockScoped scope.syms)

namespace StmtForm

variable {f : StmtForm} {parts : StmtParts} {scope : Names}

/-- A binding of a type that may be given. -/
theorem binds_bindOf (hparts : parts.Scoped scope) (name : String) (init : Json) (mutable : Bool)
    (declared : Option TypeId) : Read.Binds (do
      let e ← parts.expr init declared
      match declared with
      | some t => expectType e t f.span
      | none => pure ()
      let pool ← types
      if pool.isUnit e.type then failMalformed f.span .bindingUnit
      else
        let sym ← declare { name, type := e.type, mutable, declSpan := f.span }
        return .bind f.span sym e) scope := by
  refine (hparts.expr init declared).bindBinds fun e he => ?_
  have hrest : Read.Binds (do
      let pool ← types
      if pool.isUnit e.type then failMalformed f.span .bindingUnit
      else
        let sym ← declare { name, type := e.type, mutable, declSpan := f.span }
        return .bind f.span sym e) scope := by
    refine frames_types.bindBinds fun pool _ => ?_
    split
    · exact binds_failMalformed
    · intro s hs
      refine ⟨(fun hnone => by cases hnone), fun stmt hstmt => ?_⟩
      obtain rfl := Option.some.inj hstmt
      refine ⟨he, ?_⟩
      show s.symbols.size :: Names.syms s.scope = _
      rw [hs]
      rfl
  split
  · exact (frames_expectType _ _ _).bindBinds fun _ _ => hrest
  · exact hrest

theorem binds_bind (hparts : parts.Scoped scope) : (f.bind parts).Binds scope := by
  unfold bind
  extract_lets mutable
  split
  · rename_i name init _ _
    split
    · exact (frames_parseType _ _).bindBinds
        fun t _ => binds_bindOf hparts name init mutable (some t)
    · exact binds_bindOf hparts name init mutable none
  · exact binds_failMalformed

theorem frames_assignedField (type : TypeId) :
    (f.assignedField type).Frames scope fun _ => True := by
  unfold assignedField
  split
  · exact frames_pure trivial
  · refine frames_types.bind fun pool _ => ?_
    split
    · exact frames_failMalformed
    · split
      · exact frames_pure trivial
      · exact frames_failWith

theorem scoped_assign (hparts : parts.Scoped scope) (name : String) :
    (f.assign parts name).Frames scope fun stmt => stmt.Scoped scope.syms ∧ stmt.binds = [] := by
  unfold assign
  refine (frames_lookup name _).bind fun sym hsym => ?_
  split
  · exact frames_failMalformed
  · refine (frames_symbol sym).bind fun s _ => (frames_assignedField _).bind
      fun (field, type) _ => ?_
    refine (hparts.expr _ _).bind fun e he => (frames_expectType _ _ _).bind fun _ _ => ?_
    exact frames_pure ⟨⟨hsym, he⟩, rfl⟩

theorem scoped_condition (hparts : parts.Scoped scope) (v : Json) :
    (f.condition parts v).Frames scope (·.Scoped scope.syms) :=
  (hparts.expr _ _).bind fun _ he => (frames_expectType _ _ _).bind fun _ _ => frames_pure he

theorem scoped_childBlock (hparts : parts.Scoped scope) (ctx : ReadContext) (key : String) :
    (f.childBlock parts ctx key).Frames scope (blockScoped scope.syms) := by
  unfold childBlock
  split
  · exact hparts.block _ _
  · exact frames_failMalformed

theorem scoped_ite (hparts : parts.Scoped scope) (v : Json) :
    (f.ite parts v).Frames scope fun stmt => stmt.Scoped scope.syms ∧ stmt.binds = [] := by
  unfold ite
  refine (scoped_condition hparts v).bind fun cond hcond => ?_
  refine (scoped_childBlock hparts _ _).attempt.bind fun thenBody hthen => ?_
  extract_lets finish
  have hfinish (elseBody : Option (List Stmt)) (helse : blockScoped scope.syms (elseBody.getD [])) :
      (finish elseBody).Frames scope fun stmt => stmt.Scoped scope.syms ∧ stmt.binds = [] := by
    unfold finish
    split
    · exact frames_pure ⟨⟨hcond, hthen _ rfl, helse⟩, rfl⟩
    · exact frames_failure
  split
  · exact (hparts.block _ _).bind fun b hb => hfinish (some b) hb
  · exact hfinish none trivial

theorem scoped_loop (hparts : parts.Scoped scope) (v : Json) :
    (f.loop parts v).Frames scope fun stmt => stmt.Scoped scope.syms ∧ stmt.binds = [] := by
  unfold loop
  refine (scoped_condition hparts v).bind fun cond hcond => ?_
  refine (scoped_childBlock hparts _ _).bind fun body hbody => ?_
  exact frames_pure ⟨⟨hcond, hbody⟩, rfl⟩

theorem scoped_ret (hparts : parts.Scoped scope) (v : Json) :
    (f.ret parts v).Frames scope fun stmt => stmt.Scoped scope.syms ∧ stmt.binds = [] := by
  unfold ret
  split
  · refine frames_types.bind fun pool _ => ?_
    split
    · exact frames_pure ⟨trivial, rfl⟩
    · exact frames_mismatch
  · refine (hparts.expr _ _).bind fun e he => (frames_expectType _ _ _).bind fun _ _ => ?_
    exact frames_pure ⟨he, rfl⟩

theorem scoped_jump :
    (f.jump parts).Frames scope fun stmt => stmt.Scoped scope.syms ∧ stmt.binds = [] := by
  unfold jump
  split
  · exact frames_failMalformed
  · split <;> exact frames_pure ⟨trivial, rfl⟩

theorem scoped_require (hparts : parts.Scoped scope) (v : Json) :
    (f.require parts v).Frames scope fun stmt => stmt.Scoped scope.syms ∧ stmt.binds = [] := by
  unfold require
  refine (scoped_condition hparts v).bind fun cond hcond => ?_
  exact frames_pure ⟨hcond, rfl⟩

theorem scoped_abort :
    f.abort.Frames scope fun stmt => stmt.Scoped scope.syms ∧ stmt.binds = [] := by
  unfold abort
  split <;> exact frames_pure ⟨trivial, rfl⟩

/-- What the forms yield uses what is in sight. -/
theorem binds_read (hparts : parts.Scoped scope) : (f.read parts).Binds scope := by
  unfold read
  split
  · exact binds_bind hparts
  split
  · exact (scoped_assign hparts _).binds
  split
  · exact (scoped_ite hparts _).binds
  split
  · exact (scoped_loop hparts _).binds
  split
  · exact (scoped_ret hparts _).binds
  split
  · exact scoped_jump.binds
  split
  · exact (scoped_require hparts _).binds
  split
  · exact scoped_abort.binds
  · refine Frames.binds ((hparts.expr _ _).bind fun e he => ?_)
    exact frames_pure ⟨he, rfl⟩

end StmtForm

/-- A step that may bring names into sight: what it yields and the names in sight after it have a
property. -/
def Read.Leads {α : Type} (r : Read α) (scope : Names) (Q : α → Names → Prop) : Prop :=
  ∀ s : ReadState, s.scope = scope → ∀ a, (r.run s).1 = some a → Q a (r.run s).2.scope

theorem Read.Leads.bind {α β : Type} {r : Read α} {k : α → Read β} {scope : Names}
    {Q : α → Names → Prop} {Q' : β → Names → Prop} (h : r.Leads scope Q)
    (hk : ∀ a scope', Q a scope' → (k a).Leads scope' Q') : (r >>= k).Leads scope Q' := by
  intro s hs
  have hQ := h s hs
  rw [run_bind]
  cases hr : r.run s with
  | mk a? s' =>
    rw [hr] at hQ
    cases a? with
    | none => exact nofun
    | some a => exact hk a s'.scope (hQ a rfl) s' rfl

theorem Read.Frames.leads {α : Type} {r : Read α} {scope : Names} {Q : α → Prop}
    (h : r.Frames scope Q) :
    r.Leads scope fun a scope' => Q a ∧ scope' = scope :=
  fun s hs a ha => ⟨(h s hs).2 a ha, (h s hs).1⟩

/-- What a statement brings into sight, if it can be read. -/
theorem Read.Binds.attempt {r : Read Stmt} {scope : Names} (h : r.Binds scope) :
    (attempt r).Leads scope fun stmt? scope' =>
      (∀ stmt ∈ stmt?, stmt.Scoped scope.syms) ∧
          scope'.syms = stmt?.toList.flatMap Stmt.binds ++ scope.syms := by
  intro s hs stmt? hstmt?
  obtain ⟨hnone, hsome⟩ := h s hs
  have heq : (r.run s).1 = stmt? := Option.some.inj hstmt?
  show _ ∧ Names.syms (r.run s).2.scope = _
  cases stmt? with
  | none => exact ⟨nofun, by rw [hnone heq]; rfl⟩
  | some stmt =>
    obtain ⟨hstmt, hbinds⟩ := hsome stmt heq
    refine ⟨?_, by rw [hbinds]; simp⟩
    rintro _ ⟨⟩
    exact hstmt

theorem scoped_readStmts {read : Json → Read Stmt} (hread : ∀ v scope, (read v).Binds scope)
    (vs : List Json) (scope : Names) :
    (readStmts read vs).Leads scope fun ss _ => blockScoped scope.syms ss := by
  induction vs generalizing scope with
  | nil =>
    intro s _ ss hss
    obtain rfl := Option.some.inj hss
    trivial
  | cons v vs ih =>
    unfold readStmts
    refine (hread v scope).attempt.bind fun stmt? scope₁ hstmt? => ?_
    obtain ⟨hstmt, hscope₁⟩ := hstmt?
    have hcount : Read.Leads (modify fun state : ReadState =>
        { state with stmtCount := state.stmtCount + stmt?.toList.length }) scope₁
        fun _ scope₂ => scope₂ = scope₁ := fun _ hs _ _ => hs
    refine hcount.bind fun _ scope₂ hscope₂ => ?_
    refine (ih scope₂).bind fun ss _ hss => ?_
    intro s _ ss' hss'
    obtain rfl := Option.some.inj hss'
    rw [hscope₂, hscope₁] at hss
    cases stmt? with
    | none => exact hss
    | some stmt =>
      exact ⟨hstmt stmt rfl, by simpa using hss⟩

/-- The names that a step brings into sight are out of sight after it. -/
theorem Read.Leads.inScope {α : Type} {r : Read α} {scope : Names} {Q : α → Prop}
    (h : r.Leads scope fun a _ => Q a) : (inScope r).Frames scope Q :=
  fun s hs => ⟨hs, fun a ha => h s hs a ha⟩

/-- Statements that are read use what is in sight. -/
theorem scoped_readStmt [Json.Library] (fuel : Nat) (ctx : ReadContext) (v : Json) (scope : Names) :
    (readStmt fuel ctx v).Binds scope := by
  induction fuel generalizing ctx v scope with
  | zero => exact fun s hs => ⟨fun _ => hs, nofun⟩
  | succ fuel ih =>
    unfold readStmt
    split
    · extract_lets form
      refine StmtForm.binds_read ⟨scoped_readExpr ctx (fuel + 1) scope, fun ctx items => ?_⟩
      exact (scoped_readStmts (fun v scope => ih ctx v scope) items scope).inScope
    · exact binds_failMalformed

theorem scoped_readBlock [Json.Library] (fuel : Nat) (ctx : ReadContext) (items : List Json)
    (scope : Names) :
    (readBlock fuel ctx items).Frames scope (blockScoped scope.syms) :=
  (scoped_readStmts (fun v scope => scoped_readStmt fuel ctx v scope) items scope).inScope

/-! ## Functions -/

theorem leads_bindParams (ps : List Param) (scope : Names) :
    (bindParams ps).Leads scope fun ps' scope' => scope'.syms =
      (ps'.map (·.sym)).reverse ++ scope.syms := by
  induction ps generalizing scope with
  | nil =>
    intro s hs ps' hps'
    obtain rfl := Option.some.inj hps'
    exact congrArg Names.syms hs
  | cons p ps ih =>
    unfold bindParams
    have hdeclare : Read.Leads
        (declare
          { name := p.name, type := p.type, mutable := p.mutable, pass := some p.pass,
            declSpan := p.span })
        scope fun sym scope' => scope'.syms = sym :: scope.syms := by
      intro s hs sym hsym
      obtain rfl := Option.some.inj hsym
      show s.symbols.size :: Names.syms s.scope = _
      rw [hs]
    refine hdeclare.bind fun sym scope₁ hscope₁ => (ih scope₁).bind fun ps' scope₂ hscope₂ => ?_
    intro s hs ps'' hps''
    obtain rfl := Option.some.inj hps''
    show Names.syms s.scope = _
    rw [hs, hscope₂, hscope₁]
    simp

theorem scoped_readBody [Json.Library] (fuel : Nat) (ctx : ReadContext) {f : Function}
    (hf : f.body = []) (o : Json) :
    (readBody fuel ctx f o).Frames [] Function.Scoped := by
  unfold readBody
  refine Leads.inScope ((leads_bindParams f.params []).bind fun ps scope₁ hscope₁ => ?_)
  have hsyms : scope₁.syms = (ps.map (·.sym)).reverse := by
    rw [hscope₁]
    exact List.append_nil _
  split
  · refine (frames_report _ _ _).leads.bind fun _ _ _ => ?_
    intro s _ f' hf'
    obtain rfl := Option.some.inj hf'
    unfold Function.Scoped
    dsimp only
    rw [hf]
    trivial
  · refine (scoped_readBlock fuel _ _ scope₁).leads.bind fun body _ ⟨hbody, _⟩ => ?_
    intro s _ f' hf'
    obtain rfl := Option.some.inj hf'
    unfold Function.Scoped
    rw [← hsyms]
    exact hbody

theorem scoped_readBodies [Json.Library] (fuel : Nat) (ctx : ReadContext)
    (fs : List (Function × Json)) (hfs : ∀ p ∈ fs, p.1.body = []) :
    (readBodies fuel ctx fs).Frames [] fun fs' => ∀ f ∈ fs', f.Scoped := by
  induction fs with
  | nil => exact frames_pure nofun
  | cons p fs ih =>
    obtain ⟨f, o⟩ := p
    unfold readBodies
    refine (scoped_readBody fuel ctx (hfs _ List.mem_cons_self) o).bind fun f' hf' => ?_
    refine (ih fun p hp => hfs p (List.mem_cons_of_mem _ hp)).bind fun fs' hfs' => ?_
    refine frames_pure fun g hg => ?_
    rcases List.mem_cons.mp hg with rfl | hg
    · exact hf'
    · exact hfs' g hg

theorem frames_readParam [Json.Library] (file : UInt32) (span : Span) (v : Json) (scope : Names) :
    (readParam file span v).Frames scope fun _ => True := by
  unfold readParam
  split
  · refine (frames_parseType _ _).attempt.bind fun t? _ => ?_
    extract_lets t finish withMode
    have hfinish (p : PassMode × Bool) : (finish p).Frames scope fun _ => True :=
      frames_pure trivial
    have hwithMode (u : Unit) : (withMode u).Frames scope fun _ => True := by
      unfold withMode
      split
      · exact hfinish (.owned, false)
      · split
        · exact hfinish _
        · exact (frames_report _ _ _).bind fun _ _ => hfinish (.owned, false)
    refine frames_types.bind fun pool _ => ?_
    split
    · exact (frames_report _ _ _).bind fun u _ => hwithMode u
    · exact hwithMode ()
  · exact frames_failMalformed

theorem frames_readParams [Json.Library] (file : UInt32) (span : Span) (vs : List Json)
    (scope : Names) :
    (readParams file span vs).Frames scope fun _ => True := by
  induction vs with
  | nil => exact frames_pure trivial
  | cons v vs ih =>
    exact (frames_readParam file span v scope).attempt.bind fun _ _ => ih.bind fun _ _ =>
      frames_pure trivial

theorem frames_readAttrs (span : Span) (vs : List Json) (scope : Names) :
    (readAttrs span vs).Frames scope fun _ => True := by
  induction vs with
  | nil => exact frames_pure trivial
  | cons v vs ih =>
    unfold readAttrs
    split
    · exact frames_pure trivial
    · rename_i heq
      obtain ⟨rfl, rfl⟩ := List.cons.inj heq
      exact ih.bind fun _ _ => frames_pure trivial
    · rename_i heq
      obtain ⟨rfl, rfl⟩ := List.cons.inj heq
      exact (frames_report _ _ _).bind fun _ _ => ih

theorem frames_readSignature [Json.Library] (file : UInt32) (functions : Array Function) (o : Json)
    (scope : Names) :
    (readSignature file functions o).Frames scope fun f => f.body = [] := by
  unfold readSignature
  extract_lets span named
  have hnamed (name : String) : (named name).Frames scope fun f => f.body = [] := by
    unfold named
    extract_lets finish declared
    have hfinish (ret : TypeId) : (finish ret).Frames scope fun f => f.body = [] :=
      (frames_readAttrs _ _ _).bind fun _ _ => (frames_readParams _ _ _ _).bind fun _ _ =>
        frames_pure rfl
    have hdeclared (u : Unit) : (declared u).Frames scope fun f => f.body = [] := by
      unfold declared
      split
      · exact (frames_parseType _ _).attempt.bind fun t _ => hfinish _
      · exact hfinish _
    split
    · exact (frames_report _ _ _).bind fun u _ => hdeclared u
    · exact hdeclared ()
  split
  · exact hnamed _
  · exact (frames_report _ _ _).bind fun _ _ => hnamed _

theorem frames_readSignatures [Json.Library] (file : UInt32) (items : List Json)
    (functions : Array Function) (scope : Names) :
    (readSignatures file functions items).Frames scope fun fs => ∀ p ∈ fs, p.1.body = [] := by
  induction items generalizing functions with
  | nil => exact frames_pure nofun
  | cons v items ih =>
    unfold readSignatures
    split
    · refine (frames_readSignature file functions _ _).bind fun f hf => (ih _).bind fun fs hfs => ?_
      refine frames_pure fun p hp => ?_
      rcases List.mem_cons.mp hp with rfl | hp
      · exact hf
      · exact hfs p hp
    · exact (frames_report _ _ _).bind fun _ _ => ih _

theorem scoped_readFunctions [Json.Library] (file : UInt32) (root : Json) (items : List Json) :
    (readFunctions file root items).Frames [] fun fs => ∀ f ∈ fs, f.Scoped :=
  (frames_readSignatures file items #[] []).bind fun signatures hsignatures =>
    scoped_readBodies (nesting root + 1) _ signatures hsignatures

/-! ## Structs -/

theorem ensures_valueFields (st : TypeId) (span : Span) (items : List Json) {s : ReadState}
    (h : s.Sound) :
    (readFields st span items).Ensures s fun fields _ => ∀ field ∈ fields, field.2 ≠
      Builtin.unit.id := by
  induction items generalizing s with
  | nil => exact ensures_pure h nofun
  | cons v items ih =>
    unfold readFields
    split
    · rename_i heq
      cases heq
    · rename_i heq
      obtain ⟨rfl, rfl⟩ := List.cons.inj heq
      refine (ensures_parseType h _ _).bind fun t s₁ h₁ _ => ?_
      refine (ensures_types h₁.sound).bind ?_
      rintro _ s₂ h₂ rfl
      split
      · exact ensures_failMalformed h₂.sound
      · rename_i hunit
        refine (ih h₂.sound).bind fun fields s₃ h₃ hfields => ensures_pure h₃.sound
          fun field hmem => ?_
        rcases List.mem_cons.mp hmem with rfl | hmem
        · rintro rfl
          exact hunit (by simp [h₂.sound.types.standard.isBuiltin .unit, TypePool.isUnit])
        · exact hfields field hmem
    · exact ensures_failMalformed h

/-- A state between declarations: nothing is in sight, and no struct has a field of type unit. -/
structure ReadState.Fresh (s : ReadState) : Prop where
  sound : s.Sound
  scope : s.scope = []
  valued : s.types.Valued

namespace Read

variable {α β : Type} {s : ReadState}

/-- A step between declarations. -/
def Stays (r : Read α) (s : ReadState) (Q : α → Prop) : Prop :=
  (r.run s).2.Fresh ∧ ∀ a, (r.run s).1 = some a → Q a

theorem Stays.bind {r : Read α} {k : α → Read β} {Q : α → Prop} {Q' : β → Prop} (h : r.Stays s Q)
    (hk : ∀ a s', s'.Fresh → Q a → (k a).Stays s' Q') : (r >>= k).Stays s Q' := by
  obtain ⟨hfresh, hQ⟩ := h
  unfold Stays
  rw [run_bind]
  cases hr : r.run s with
  | mk a? s' =>
    rw [hr] at hfresh hQ
    cases a? with
    | none => exact ⟨hfresh, nofun⟩
    | some a => exact hk a s' hfresh (hQ a rfl)

/-- A step that leaves the structs and the names in sight as they are. -/
theorem Ensures.stays {r : Read α} (hs : s.Fresh) {Q : α → ReadState → Prop} (h : r.Ensures s Q)
    {Q' : α → Prop} (hframes : r.Frames [] Q') : r.Stays s fun a => (∃ s', Q a s') ∧ Q' a := by
  obtain ⟨hscope, hQ'⟩ := hframes s hs.scope
  refine ⟨⟨h.1.sound, hscope, ?_⟩, fun a ha => ⟨⟨_, h.2 a ha⟩, hQ' a ha⟩⟩
  unfold TypePool.Valued
  rw [h.1.types.structs]
  exact hs.valued

end Read

theorem frames_readFields (st : TypeId) (span : Span) (items : List Json) (scope : Names) :
    (readFields st span items).Frames scope fun _ => True := by
  induction items with
  | nil => exact frames_pure trivial
  | cons v items ih =>
    unfold readFields
    split
    · exact frames_pure trivial
    · rename_i heq
      obtain ⟨rfl, rfl⟩ := List.cons.inj heq
      refine (frames_parseType _ _).bind fun t _ => frames_types.bind fun pool _ => ?_
      split
      · exact frames_failMalformed
      · exact ih.bind fun _ _ => frames_pure trivial
    · exact frames_failMalformed

theorem valued_declareStruct {types types' : TypePool} (h : types.Valued) {name : String}
    {t : TypeId} (hd : types.declareStruct? name = some (t, types')) : types'.Valued := by
  unfold TypePool.declareStruct? at hd
  split at hd
  · cases hd
  · obtain ⟨-, rfl⟩ := Prod.mk.inj (Option.some.inj hd)
    intro decl hdecl
    rcases Array.mem_push.mp hdecl with hdecl | rfl
    · exact h decl hdecl
    · exact nofun

theorem valued_setFields {types : TypePool} (h : types.Valued) (t : TypeId)
    {fields : List (String × TypeId)} (hfields : ∀ field ∈ fields, field.2 ≠ Builtin.unit.id) :
    (types.setFields t fields).Valued := by
  unfold TypePool.setFields
  split
  · intro decl hdecl
    obtain ⟨k, hk⟩ := Array.mem_iff_getElem?.mp hdecl
    rw [Array.getElem?_modify] at hk
    split at hk
    · obtain ⟨decl', -, rfl⟩ := Option.map_eq_some_iff.mp hk
      exact hfields
    · exact h decl (Array.mem_of_getElem? hk)
  · exact h

theorem stays_types {s : ReadState} {k : TypePool → Read Unit} {Q : Unit → Prop}
    (h : (k s.types).Stays s Q) : (types >>= k).Stays s Q := h

theorem stays_failWith {s : ReadState} (h : s.Fresh) {cause : Cause} {span : Span}
    {args : List String} {Q : Unit → Prop} : (failWith cause span args : Read Unit).Stays s Q :=
  ⟨⟨(ensures_failWith h.sound (Q := fun _ _ => True)).1.sound, h.scope, h.valued⟩, nofun⟩

theorem stays_readStruct [Json.Library] (file : UInt32) (v : Json) {s : ReadState} (h : s.Fresh) :
    (readStruct file v).Stays s fun _ => True := by
  unfold readStruct
  extract_lets span
  split
  · split
    · refine stays_types ?_
      split
      · exact stays_failWith h
      · rename_i st pool hdeclare
        have hset : Stays (modify fun s => { s with types := pool }) s fun _ => True :=
          ⟨⟨⟨h.sound.types.declareStruct hdeclare, h.sound.scope, h.sound.symbols⟩, h.scope,
            valued_declareStruct h.valued hdeclare⟩, fun _ _ => trivial⟩
        refine hset.bind fun _ s₁ h₁ _ => ?_
        refine ((ensures_valueFields st span _ h₁.sound).stays h₁ (frames_readFields _ _ _ _)).bind
          fun fields s₂ h₂ ⟨⟨_, hfields⟩, _⟩ => ?_
        exact ⟨⟨⟨h₂.sound.types.setFields st fields, h₂.sound.scope, h₂.sound.symbols⟩, h₂.scope,
          valued_setFields h₂.valued st hfields⟩, fun _ _ => trivial⟩
    · exact stays_failWith h
  · exact stays_failWith h

theorem stays_readEach {read : Json → Read Unit}
    (hread : ∀ v s, s.Fresh → (read v).Stays s fun _ => True) (items : List Json) {s : ReadState}
    (h : s.Fresh) : (readEach read items).Stays s fun _ => True := by
  induction items generalizing s with
  | nil => exact ⟨h, fun _ _ => trivial⟩
  | cons v items ih =>
    have hfirst : (attempt (read v)).Stays s fun _ => True := ⟨(hread v s h).1, fun _ _ => trivial⟩
    exact hfirst.bind fun _ s₁ h₁ _ => ih h₁

/-! ## Documents -/

theorem stays_readModule [Json.Library] (file : UInt32) (root : Json) {s : ReadState}
    (h : s.Fresh) :
    (readModule file root).Stays s fun m => ∀ f ∈ m.functions, f.Scoped := by
  unfold readModule
  split
  · refine ((ensures_malformed h.sound _ _).stays h (frames_report _ _ _)).bind fun _ s₁ h₁ _ => ?_
    exact ⟨h₁, fun m hm => by obtain rfl := Option.some.inj hm; exact nofun⟩
  · refine (stays_readEach (fun v s h => stays_readStruct file v h) _ h).bind fun _ s₁ h₁ _ => ?_
    split
    · refine ((ensures_malformed h₁.sound _ _).stays h₁ (frames_report _ _ _)).bind
        fun _ s₂ h₂ _ => ?_
      exact ⟨h₂, fun m hm => by obtain rfl := Option.some.inj hm; exact nofun⟩
    · refine ((typed_readFunctions h₁.sound file root _).stays h₁
        (scoped_readFunctions file root _)).bind fun fs s₂ h₂ ⟨_, hfs⟩ => ?_
      refine ⟨h₂, fun m hm => ?_⟩
      obtain rfl := Option.some.inj hm
      exact fun f hf => hfs f (List.mem_toArray.mp hf)

/-- The functions of a document use what is in sight, and no struct of it has a field of type
unit. -/
theorem scoped_readDocument [Json.Library] (text docName : String) (sources : Sources) :
    (∀ f ∈ (readDocument text docName {} sources).module.functions, f.Scoped) ∧
      (readDocument text docName {} sources).types.Valued := by
  unfold readDocument
  split
  · exact ⟨nofun, nofun⟩
  · split
    · rename_i fields _
      obtain ⟨name, content⟩ := sourceOf docName (.object fields)
      dsimp only
      obtain ⟨file, sources⟩ := sources.add name content
      have hfresh :
        ReadState.Fresh {} := ⟨⟨TypePool.sound_default, nofun, fun _ => nofun⟩, rfl, nofun⟩
      obtain ⟨hstate, hmodule⟩ := stays_readModule file (.object fields) hfresh
      refine ⟨fun f hf => ?_, hstate.valued⟩
      replace hf : f ∈ (((readModule file (.object fields)).run {}).1.getD {}).functions := hf
      cases hrun : ((readModule file (.object fields)).run {}).1 with
      | none =>
        rw [hrun] at hf
        simp at hf
      | some m =>
        rw [hrun] at hf
        exact hmodule m hrun f hf
    · exact ⟨nofun, nofun⟩

end ContractCompiler.Hir
