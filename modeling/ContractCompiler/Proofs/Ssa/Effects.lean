import ContractCompiler.Proofs.Ssa.Execution
import ContractCompiler.Proofs.Ssa.PassSteps
import ContractCompiler.Ssa.Build
import ContractCompiler.Ssa.Inline

/-!
# Instructions without effects

The builder marks an instruction as pure if nothing but its result can be told of its execution. It
may put its operand into a new cell, which nobody else knows of, and it stops only if it is
ill-formed, which gives the run up.

- `InstData.isQuiet`: the instructions that are so by what they do;
- `quiet_evalInst`: their evaluation leaves the host and the cells as they are;
- `Module.Tagged`: only such instructions are marked as pure;
- `tagged_buildModule`, `tagged_constFold`, `tagged_inlineCalls`: the builder and the passes that
  rewrite instructions mark no others.
-/

namespace ContractCompiler.Ssa

/-! ## Quiet instructions -/

/-- Instructions that do nothing but compute their result. -/
def InstData.isQuiet : InstData → Bool
  | .constInt _ | .constBool _ | .constBytes _ | .makeStruct _ | .extract .. | .insert .. |
      .makeResult ..
  | .resultIsOk _ | .resultCode _ | .refNew _ | .digest _ | .bytesLength _ => true
  | .unary op mode _ => op != .neg || mode != .trap
  | .binary op mode _ _ => binaryEffect op mode == .pure
  | .cast mode _ _ => mode != .trap
  | .call .. | .resultValue _ | .refLoad _ | .refStore .. | .stateRead .. | .stateWrite .. |
      .stateHas ..
  | .context _ | .emit .. => false

@[simp] theorem InstData.isQuiet_mapOperands (f : ValueId → ValueId) (d : InstData) :
    (d.mapOperands f).isQuiet = d.isQuiet := by
  cases d <;> rfl

theorem InstData.isQuiet_of_constWord? {d : InstData} {w : UInt64} (h : d.constWord? = some w) :
    d.isQuiet = true := by
  cases d <;> first | rfl | cases h

/-- A quiet instruction is no call. -/
theorem InstData.callee?_of_isQuiet {d : InstData} (h : d.isQuiet = true) : d.callee? = none := by
  cases d <;> first | rfl | cases h

/-- A later store: the host is as it was, and so are the cells there were. -/
structure Store.Grows (s s' : Store) : Prop where
  ledger : s'.ledger = s.ledger
  hostStatus : s'.hostStatus = s.hostStatus
  cells : ∀ (i : Nat) (x : Val), s.cells[i]? = some x → s'.cells[i]? = some x

theorem Store.Grows.refl (s : Store) : s.Grows s := ⟨rfl, rfl, fun _ _ h => h⟩

theorem Store.Grows.trans {s s' s'' : Store} (h : s.Grows s') (h' : s'.Grows s'') : s.Grows s'' :=
  ⟨h'.ledger.trans h.ledger, h'.hostStatus.trans h.hostStatus,
    fun i x hx => h'.cells i x (h.cells i x hx)⟩

/-- A computation at most makes cells, and stops only by giving the run up. -/
structure Eval.Quiet {α : Type} (x : Eval α) : Prop where
  grows : ∀ s a s', x.run s = (.ok a, s') → s.Grows s'
  fails : ∀ s h s', x.run s = (.error h, s') → h.exit.settled = false

section Quiet

open Eval (Quiet)

variable {α β : Type} {env : Env}

theorem quiet_pure (a : α) : Quiet (pure a) := by
  constructor
  · intro s b s' h
    cases h
    exact .refl s
  · intro s h s' hrun
    cases hrun

theorem quiet_throw {h : Halt} (hexit : h.exit.settled = false) : Quiet (throw h : Eval α) := by
  constructor
  · intro s a s' h
    cases h
  · intro s h s' hrun
    cases hrun
    exact hexit

theorem Eval.Quiet.bind {x : Eval α} {f : α → Eval β} (hx : x.Quiet) (hf : ∀ a, (f a).Quiet) :
    (x >>= f).Quiet := by
  constructor
  · intro s b s' h
    rw [Eval.run_bind] at h
    rcases hrun : x.run s with ⟨_ | a, s₁⟩
    · rw [hrun] at h
      cases h
    · rw [hrun] at h
      exact (hx.grows s a s₁ hrun).trans ((hf a).grows s₁ b s' h)
  · intro s e s' h
    rw [Eval.run_bind] at h
    rcases hrun : x.run s with ⟨_ | a, s₁⟩
    · rw [hrun] at h
      cases h
      exact hx.fails s _ _ hrun
    · rw [hrun] at h
      exact (hf a).fails s₁ e s' h

theorem quiet_value (v : ValueId) : Quiet (env.value v) := by
  unfold Env.value
  split
  · exact quiet_pure _
  · exact quiet_throw rfl

theorem quiet_word (v : ValueId) : Quiet (env.word v) := (quiet_value v).bind fun _ => quiet_pure _

theorem quiet_valueList (vs : List ValueId) : Quiet (env.valueList vs) := by
  induction vs with
  | nil => exact quiet_pure _
  | cons v vs ih => exact (quiet_value v).bind fun _ => ih.bind fun _ => quiet_pure _

theorem quiet_fieldOf {missing : Halt} (hexit : missing.exit.settled = false) (x : Val)
    (index : Nat) :
    Quiet (fieldOf missing x index) := by
  unfold fieldOf
  split
  · exact quiet_pure _
  · exact quiet_throw hexit

/-- A new cell is behind all others. -/
theorem quiet_newCell (x : Val) : Quiet (newCell x) := by
  constructor
  · intro s a s' h
    cases h
    refine ⟨rfl, rfl, fun i y hy => ?_⟩
    have hlt : i < s.cells.size := (Array.getElem?_eq_some_iff.mp hy).1
    rw [Array.getElem?_push, if_neg (Nat.ne_of_lt hlt)]
    exact hy
  · intro s h s' hrun
    cases hrun

/-- What an operation amounts to if it does not stop the execution. -/
def Settles (r : Folded) : Prop := r = .checkedErr ∨ ∃ w, r = .value w

theorem quiet_ofFolded {r : Folded} (h : Settles r) : Quiet (ofFolded r) := by
  rcases h with rfl | ⟨w, rfl⟩
  · exact quiet_pure _
  · exact quiet_pure _

theorem quiet_ofArith (mode : ArithMode) {r : Folded} (h : Settles r) : Quiet (ofArith mode r) := by
  unfold ofArith
  split
  · exact quiet_pure _
  · exact quiet_ofFolded h

/-- Only divisions divide by zero. -/
theorem divByZero_eval (k : IntKind) {op : ArithOp} (hdiv : op ≠ .div) (hrem : op ≠ .rem)
    (a b : UInt64) :
    (k.eval op a b).divByZero = false := by
  cases op with
  | div => exact absurd rfl hdiv
  | rem => exact absurd rfl hrem
  | _ => rfl

theorem settles_foldArith {op : ArithOp} {mode : ArithMode} (hmode : mode ≠ .trap)
    (hop : mode = .checked ∨ op ≠ .div ∧ op ≠ .rem) (k : IntKind) (a b : UInt64) :
    Settles (foldArith op mode k a b) := by
  unfold foldArith
  dsimp only
  split
  · rename_i hzero
    rcases hop with rfl | ⟨hdiv, hrem⟩
    · exact .inl rfl
    · rw [divByZero_eval k hdiv hrem] at hzero
      cases hzero
  · cases mode with
    | trap => exact absurd rfl hmode
    | checked =>
      dsimp only
      split
      · exact .inl rfl
      · exact .inr ⟨_, rfl⟩
    | wrapping => exact .inr ⟨_, rfl⟩
    | saturating => exact .inr ⟨_, rfl⟩

/-- An operation that is marked as pure does not stop the execution. -/
theorem settles_foldBinOp {op : BinOp} {mode : ArithMode} (h : binaryEffect op mode = .pure)
    (k : IntKind) (a b : UInt64) : Settles (foldBinOp op mode k a b) := by
  unfold foldBinOp
  split
  · exact .inr ⟨_, rfl⟩
  · rename_i aop harith
    split
    · exact .inr ⟨_, rfl⟩
    · rename_i hbitwise
      refine settles_foldArith ?_ ?_ k a b
      · rintro rfl
        cases op <;> first | exact hbitwise rfl | (cases harith; done) | cases h
      · cases mode with
        | checked => exact .inl rfl
        | _ =>
          refine .inr ⟨?_, ?_⟩
          · rintro rfl
            cases op <;> cases harith
            cases h
          · rintro rfl
            cases op <;> cases harith
            cases h

theorem settles_foldCast {mode : CastMode} (h : mode ≠ .trap) (source target : IntKind)
    (w : UInt64) :
    Settles (foldCast mode source target w) := by
  cases mode with
  | trap => exact absurd rfl h
  | wrapping => exact .inr ⟨_, rfl⟩

theorem quiet_evalUnary {op : UnOp} {mode : ArithMode} (h : op = .neg → mode ≠ .trap) (k : IntKind)
    (a : UInt64) : Quiet (evalUnary op mode k a) := by
  unfold evalUnary
  cases op with
  | not => exact quiet_pure _
  | bitNot => exact quiet_pure _
  | neg =>
    refine quiet_ofArith mode (settles_foldBinOp ?_ k 0 a)
    cases mode with
    | trap => exact absurd rfl (h rfl)
    | _ => rfl

theorem quiet_evalBinary {op : BinOp} {mode : ArithMode} (h : binaryEffect op mode = .pure)
    (k : IntKind) (a b : UInt64) : Quiet (evalBinary op mode k a b) := by
  unfold evalBinary
  dsimp only
  split
  · exact quiet_ofFolded (settles_foldBinOp h k a b)
  · exact quiet_ofArith mode (settles_foldBinOp h k a b)

/-- Quiet instructions leave the host and the cells as they are. -/
theorem quiet_evalInst [Hashing] (c : EvalContext) {inst : Inst} (h : inst.data.isQuiet = true)
    (env : Env) :
    Quiet (c.evalInst inst env) := by
  unfold EvalContext.evalInst
  cases hdata : inst.data with
  | constInt | constBool | constBytes => exact quiet_pure _
  | unary op mode src =>
    rw [hdata] at h
    refine (quiet_word src).bind fun a => quiet_evalUnary ?_ _ a
    rintro rfl rfl
    cases h
  | binary op mode left right =>
    rw [hdata] at h
    exact (quiet_word left).bind fun a => (quiet_word right).bind fun b =>
      quiet_evalBinary (beq_iff_eq.mp h) _ a b
  | cast mode target src =>
    rw [hdata] at h
    refine (quiet_word src).bind fun a => quiet_ofFolded (settles_foldCast ?_ _ _ a)
    rintro rfl
    cases h
  | makeStruct fields => exact (quiet_valueList fields).bind fun _ => quiet_pure _
  | extract base index => exact (quiet_value base).bind fun x => quiet_fieldOf rfl x index
  | insert base index value =>
    exact (quiet_value base).bind fun x => (quiet_fieldOf rfl x index).bind fun _ =>
      (quiet_value value).bind fun _ => quiet_pure _
  | makeResult ok value =>
    cases ok with
    | false => exact (quiet_word _).bind fun _ => quiet_pure _
    | true =>
      cases value with
      | none => exact quiet_pure _
      | some v => exact (quiet_value v).bind fun _ => quiet_pure _
  | resultIsOk src =>
    exact (quiet_value src).bind fun x => (quiet_fieldOf rfl x 0).bind fun _ => quiet_pure _
  | resultCode src => exact (quiet_value src).bind fun x => quiet_fieldOf rfl x 0
  | refNew init => exact (quiet_value init).bind fun x => quiet_newCell x
  | digest src => exact (quiet_value src).bind fun _ => quiet_pure _
  | bytesLength src => exact (quiet_value src).bind fun _ => quiet_pure _
  | _ =>
    rw [hdata] at h
    cases h

end Quiet

/-! ## Tags -/

/-- An instruction that is marked as pure is quiet. -/
def Inst.Tagged (inst : Inst) : Prop := inst.effect = .pure → inst.data.isQuiet = true

/-- Instructions that are marked as pure are quiet. -/
def Module.Tagged (m : Module) : Prop := ∀ inst ∈ m.insts, inst.Tagged

theorem Module.Tagged.inst {m : Module} (h : m.Tagged) {i : InstId} {inst : Inst}
    (hi : m.insts[i]? = some inst) (heffect : inst.effect = .pure) : inst.data.isQuiet = true :=
  h inst (Array.mem_of_getElem? hi) heffect

/-- A construction step marks only quiet instructions as pure. -/
def Build.Tags {α : Type} (x : Build α) : Prop :=
  ∀ b : Builder, (∀ inst ∈ b.insts, inst.Tagged) → ∀ inst ∈ (x.run b).2.insts, inst.Tagged

namespace Build

variable {α β : Type}

theorem Tags.bind {x : Build α} {f : α → Build β} (hx : x.Tags) (hf : ∀ a, (f a).Tags) :
    (x >>= f).Tags :=
  fun b hb => hf _ _ (hx b hb)

/-- A step that adds no instruction marks none. -/
theorem tags_of_insts {x : Build α} (h : ∀ b, (x.run b).2.insts = b.insts) : x.Tags := by
  intro b hb
  rw [h b]
  exact hb

theorem tags_pure (a : α) : (pure a : Build α).Tags := tags_of_insts fun _ => rfl

theorem tags_get : (get : Build Builder).Tags := tags_of_insts fun _ => rfl

theorem tags_newBlock : newBlock.Tags := tags_of_insts fun _ => rfl

theorem tags_terminate (t : Terminator) : (terminate t).Tags := tags_of_insts fun _ => rfl

theorem tags_moveTo (k : Option BlockId) : (moveTo k).Tags := tags_of_insts fun _ => rfl

theorem tags_bind (sym : Hir.SymbolId) (v : Option ValueId) : (bind sym v).Tags :=
  tags_of_insts fun _ => rfl

theorem tags_setEnv (env : Bindings) : (setEnv env).Tags := tags_of_insts fun _ => rfl

theorem tags_valueOf (sym : Hir.SymbolId) : (valueOf sym).Tags := tags_of_insts fun _ => rfl

theorem tags_valuesOf (syms : List Hir.SymbolId) : (valuesOf syms).Tags :=
  tags_of_insts fun _ => rfl

theorem tags_typeOf (v : ValueId) : (typeOf v).Tags := tags_of_insts fun _ => rfl

theorem tags_isLiveAfter (sym : Hir.SymbolId) : (isLiveAfter sym).Tags := tags_of_insts fun _ => rfl

theorem tags_addParam (k : BlockId) (t : TypeId) (span : Span) : (addParam k t span).Tags :=
  tags_of_insts fun _ => rfl

theorem tags_addJoinParam (k : BlockId) (t : TypeId) : (addJoinParam k t).Tags :=
  tags_of_insts fun _ => rfl

/-- An instruction is added with the mark that it deserves. -/
theorem tags_emit {data : InstData} {effect : Effect} (h : effect = .pure → data.isQuiet = true)
    (type : Option TypeId) (span : Span) : (emit data type effect span).Tags := by
  intro b hb inst hinst
  rcases Array.mem_push.mp hinst with hold | rfl
  · exact hb inst hold
  · exact h

theorem tags_liveOf (syms : List Hir.SymbolId) : (liveOf syms).Tags := by
  induction syms with
  | nil => exact tags_pure _
  | cons s ss ih => exact (tags_isLiveAfter s).bind fun _ => ih.bind fun _ => tags_pure _

/-! ### Joins -/

theorem tags_passToJoin (join : BlockId) (t : TypeId) (edges : List (BlockId × Option ValueId)) :
    (passToJoin join t edges).Tags := tags_of_insts fun _ => rfl

theorem tags_joinBinding (join : BlockId) (edges : List Edge) (onlyLive : Bool)
    (sym : Hir.SymbolId) :
    (joinBinding join edges onlyLive sym).Tags := by
  have hpass (v : ValueId) (incoming : List (BlockId × Option ValueId)) : (do
      let param ← passToJoin join (← typeOf v) incoming
      return some param).Tags :=
    (tags_typeOf v).bind fun _ => (tags_passToJoin _ _ _).bind fun _ => tags_pure _
  unfold joinBinding
  dsimp only
  split
  · exact tags_pure _
  · split
    · exact tags_pure _
    · split
      · exact tags_pure _
      · split
        · exact tags_pure _
        · cases onlyLive with
          | false => exact hpass _ _
          | true =>
            refine (tags_isLiveAfter sym).bind fun live => ?_
            cases live with
            | false => exact tags_pure _
            | true => exact hpass _ _

theorem tags_joinBindings (join : BlockId) (edges : List Edge) (onlyLive : Bool)
    (syms : List Hir.SymbolId) (env : Bindings) :
    (joinBindings join edges onlyLive syms env).Tags := by
  induction syms generalizing env with
  | nil => exact tags_pure _
  | cons s ss ih => exact (tags_joinBinding _ _ _ _).bind fun _ => ih _

theorem tags_enterJoin (join : BlockId) (edges : List Edge) (onlyLive : Bool) :
    (enterJoin join edges onlyLive).Tags :=
  tags_get.bind fun _ => (tags_joinBindings _ _ _ _ _).bind fun _ => (tags_setEnv _).bind fun _ =>
    tags_moveTo _

theorem tags_enterValueJoin (join : BlockId) (edges : List Edge) (t : TypeId) :
    (enterValueJoin join edges t).Tags :=
  (tags_enterJoin _ _ _).bind fun _ => tags_passToJoin _ _ _

end Build

open Build
open Hir (Expr Stmt SymbolId PassMode)

/-! ### Expressions -/

section Lowering

variable (functions : Array Hir.Function) (symbols : Array Hir.Symbol)

theorem tags_lowerExclusive (sym : SymbolId) (span : Span) :
    (lowerExclusive symbols sym span).Tags := by
  unfold lowerExclusive
  refine (tags_valueOf sym).bind fun value => ?_
  split
  · exact tags_pure _
  · refine Tags.bind (tags_of_insts fun _ => rfl) fun type => ?_
    exact (tags_emit (fun _ => rfl) _ _).bind fun _ => tags_pure _

theorem tags_takeBack (span : Span) (lent : List Lent) : (takeBack symbols span lent).Tags := by
  induction lent with
  | nil => exact tags_pure _
  | cons l ls ih =>
    unfold takeBack
    exact (tags_emit (by nofun) _ _).bind fun _ => (tags_bind _ _).bind fun _ => ih

mutual

/-- The code of an expression marks only quiet instructions as pure. -/
theorem tags_lowerExpr (e : Expr) : (lowerExpr functions symbols e).Tags := by
  unfold lowerExpr
  cases e with
  | int i bits => exact tags_emit (fun _ => rfl) _ _
  | bool i value => exact tags_emit (fun _ => rfl) _ _
  | bytes i value => exact tags_emit (fun _ => rfl) _ _
  | unit i => exact tags_pure _
  | «local» i sym =>
    refine (tags_valueOf sym).bind fun value => ?_
    split
    · exact tags_emit (by nofun) _ _
    · exact tags_pure _
  | unary i op mode a =>
    refine (tags_lowerExpr a).bind fun src => ?_
    cases op with
    | neg =>
      refine tags_emit (fun h => ?_) _ _
      cases mode with
      | trap => cases h
      | _ => rfl
    | not => exact tags_emit (fun _ => rfl) _ _
    | bitNot => exact tags_emit (fun _ => rfl) _ _
  | binary i op mode a b =>
    refine (tags_lowerExpr a).bind fun left => (tags_lowerExpr b).bind fun right => ?_
    exact tags_emit (fun h => beq_iff_eq.mpr h) _ _
  | logical i isAnd a b =>
    refine (tags_lowerExpr a).bind fun left => (tags_emit (fun _ => rfl) _ _).bind
      fun shortcut => ?_
    refine tags_get.bind fun _ => tags_get.bind fun _ => tags_newBlock.bind fun right => ?_
    refine tags_newBlock.bind fun join => ?_
    refine (tags_terminate _).bind fun _ => (tags_moveTo _).bind fun _ => (tags_lowerExpr b).bind
      fun value => ?_
    refine tags_get.bind fun _ => tags_get.bind fun _ => (tags_terminate _).bind fun _ => ?_
    exact (tags_enterValueJoin _ _ _).bind fun _ => tags_pure _
  | cast i mode a =>
    refine (tags_lowerExpr a).bind fun src => tags_emit (fun h => ?_) _ _
    cases mode with
    | trap => cases h
    | wrapping => rfl
  | call i callee args =>
    refine (tags_lowerArgs _ args).bind fun lowered => ?_
    obtain ⟨vs, lent⟩ := lowered
    refine (tags_emit (by nofun) _ _).bind fun r => ?_
    exact (tags_takeBack symbols _ _).bind fun _ => tags_pure _
  | field i name index base =>
    exact (tags_lowerExpr base).bind fun _ => tags_emit (fun _ => rfl) _ _
  | struct i fields => exact (tags_lowerArgs _ fields).bind fun _ => tags_emit (fun _ => rfl) _ _
  | select i c t e =>
    refine (tags_lowerExpr c).bind fun cond => tags_newBlock.bind fun thenBlock => ?_
    refine tags_newBlock.bind fun elseBlock => tags_newBlock.bind fun join => ?_
    refine (tags_terminate _).bind fun _ => tags_get.bind fun _ => (tags_moveTo _).bind fun _ => ?_
    refine (tags_lowerExpr t).bind fun onTrue => tags_get.bind fun _ => tags_get.bind fun _ => ?_
    refine (tags_terminate _).bind fun _ => (tags_setEnv _).bind fun _ =>
      (tags_moveTo _).bind fun _ => ?_
    refine (tags_lowerExpr e).bind fun onFalse => tags_get.bind fun _ => tags_get.bind fun _ => ?_
    refine (tags_terminate _).bind fun _ => tags_get.bind fun _ => ?_
    split
    · exact (tags_enterJoin _ _ _).bind fun _ => tags_pure _
    · exact (tags_enterValueJoin _ _ _).bind fun _ => tags_pure _
  | ok i a => exact (tags_lowerExpr a).bind fun _ => tags_emit (fun _ => rfl) _ _
  | err i a => exact (tags_lowerExpr a).bind fun _ => tags_emit (fun _ => rfl) _ _
  | result i op a =>
    refine (tags_lowerExpr a).bind fun src => tags_emit (fun h => ?_) _ _
    cases op with
    | unwrap => cases h
    | isOk => rfl
    | code => rfl
  | length i a => exact (tags_lowerExpr a).bind fun _ => tags_emit (fun _ => rfl) _ _
  | stateGet i ns key =>
    exact (tags_lowerExpr key).bind fun _ => tags_get.bind fun _ => tags_emit (by nofun) _ _
  | statePut i ns key value =>
    exact (tags_lowerExpr key).bind fun _ => (tags_lowerExpr value).bind fun _ =>
      tags_emit (by nofun) _ _
  | stateHas i ns key => exact (tags_lowerExpr key).bind fun _ => tags_emit (by nofun) _ _
  | context i query => exact tags_emit (by nofun) _ _
  | digest i a => exact (tags_lowerExpr a).bind fun _ => tags_emit (fun _ => rfl) _ _
  | emit i topic args => exact (tags_lowerArgs _ args).bind fun _ => tags_emit (by nofun) _ _

theorem tags_lowerArgs (modes : List PassMode) (es : List Expr) :
    (lowerArgs functions symbols modes es).Tags := by
  unfold lowerArgs
  cases es with
  | nil => exact tags_pure _
  | cons e es =>
    dsimp only
    split
    · exact (tags_lowerExclusive symbols _ _).bind
        fun _ => (tags_lowerArgs _ es).bind fun _ => tags_pure _
    · refine (tags_lowerExpr e).bind fun v => (tags_pure _).bind fun _ => ?_
      exact (tags_lowerArgs _ es).bind fun _ => tags_pure _

end

/-! ### Statements -/

theorem tags_assign (span : Span) (sym : SymbolId) (field : Option Nat) (value : Option ValueId) :
    (assign symbols span sym field value).Tags := by
  unfold assign
  refine (tags_valueOf sym).bind fun old => ?_
  dsimp only
  split
  · have hstore (stored : Option ValueId) : (do
        let _ ← emit (.refStore (old.getD invalidId) (stored.getD invalidId))
          none .writesMemory span
        return ()).Tags := (tags_emit (by nofun) _ _).bind fun _ => tags_pure _
    cases field with
    | none => exact (tags_pure _).bind hstore
    | some index =>
      exact (tags_emit (by nofun) _ _).bind fun _ => (tags_emit (fun _ => rfl) _ _).bind hstore
  · cases field with
    | none => exact tags_bind _ _
    | some index => exact (tags_emit (fun _ => rfl) _ _).bind fun _ => tags_bind _ _

theorem tags_joinParamsFor (block : BlockId) (syms : List SymbolId) :
    (joinParamsFor block syms).Tags := by
  induction syms with
  | nil => exact tags_pure _
  | cons s ss ih =>
    unfold joinParamsFor
    refine (tags_valueOf s).bind fun _ => (tags_typeOf _).bind fun _ =>
      (tags_addJoinParam _ _).bind fun _ => ?_
    exact ih.bind fun _ => tags_pure _

theorem tags_bindParams (ps : List (SymbolId × ValueId)) : (bindParams ps).Tags := by
  induction ps with
  | nil => exact tags_pure _
  | cons p ps ih =>
    unfold bindParams
    exact (tags_bind _ _).bind fun _ => ih

theorem tags_jumpWith (target : BlockId) (syms : List SymbolId) : (jumpWith target syms).Tags :=
  (tags_valuesOf syms).bind fun _ => tags_terminate _

theorem tags_setPending (rest : List Stmt) : (setPending rest).Tags := tags_of_insts fun _ => rfl

theorem tags_isOpen : isOpen.Tags := tags_of_insts fun _ => rfl

theorem tags_openEdge : openEdge.Tags := tags_of_insts fun _ => rfl

theorem tags_closeAll (join : BlockId) (edges : List Edge) : (closeAll join edges).Tags := by
  induction edges with
  | nil => exact tags_pure _
  | cons e es ih =>
    unfold closeAll
    exact (tags_moveTo _).bind fun _ => (tags_terminate _).bind fun _ => ih

mutual

/-- The code of a statement marks only quiet instructions as pure. -/
theorem tags_lowerStmt (s : Stmt) : (lowerStmt functions symbols s).Tags := by
  unfold lowerStmt
  cases s with
  | expr _ e => exact (tags_lowerExpr functions symbols e).bind fun _ => tags_pure _
  | bind _ sym e => exact (tags_lowerExpr functions symbols e).bind fun _ => tags_bind _ _
  | assign span sym field e =>
    exact (tags_lowerExpr functions symbols e).bind fun _ => tags_assign symbols _ _ _ _
  | ite _ c thenBody hasElse elseBody =>
    refine (tags_lowerExpr functions symbols c).bind
      fun cond => tags_newBlock.bind fun thenBlock => ?_
    refine tags_newBlock.bind fun otherBlock => tags_openEdge.bind fun skip =>
      tags_get.bind fun _ => ?_
    refine (tags_terminate _).bind fun _ => (tags_moveTo _).bind fun _ =>
      (tags_lowerBlock thenBody).bind fun _ => ?_
    refine tags_openEdge.bind fun fromThen => ?_
    extract_lets finish
    have hfinish (fromElse : List Edge) : (finish fromElse).Tags := by
      unfold finish
      extract_lets ends edges enter
      have henter (join : BlockId) : (enter join).Tags :=
        (tags_closeAll join ends).bind fun _ => tags_enterJoin _ _ _
      split
      · exact tags_moveTo _
      · split
        · exact tags_newBlock.bind henter
        · exact (tags_pure _).bind henter
    split
    · exact (tags_setEnv _).bind fun _ => (tags_moveTo _).bind fun _ =>
        (tags_lowerBlock elseBody).bind fun _ =>
        tags_openEdge.bind hfinish
    · exact (tags_pure _).bind hfinish
  | loop _ c body =>
    refine tags_get.bind fun _ => (tags_liveOf _).bind fun leaving => tags_newBlock.bind
      fun header => ?_
    refine (tags_jumpWith _ _).bind fun _ => (tags_moveTo _).bind fun _ => ?_
    refine (tags_joinParamsFor _ _).bind fun _ => (tags_bindParams _).bind fun _ => ?_
    refine (tags_lowerExpr functions symbols c).bind
      fun cond => tags_newBlock.bind fun bodyBlock => ?_
    refine tags_newBlock.bind fun exit => (tags_joinParamsFor _ _).bind fun exitParams => ?_
    refine (tags_valuesOf _).bind fun _ => (tags_terminate _).bind fun _ =>
      tags_get.bind fun _ => ?_
    refine Tags.bind (tags_of_insts fun _ => rfl) fun _ => (tags_moveTo _).bind fun _ => ?_
    refine (tags_lowerBlock body).bind fun _ => tags_isOpen.bind fun isOpen => ?_
    have hrest (env : Bindings) : (do
        modify fun b : Builder => { b with loops := b.loops.tail }
        setEnv env
        bindParams exitParams
        moveTo (some exit) : Build Unit).Tags :=
      Tags.bind (tags_of_insts fun _ => rfl) fun _ => (tags_setEnv _).bind fun _ =>
        (tags_bindParams _).bind fun _ => tags_moveTo _
    cases isOpen with
    | false => exact hrest _
    | true => exact (tags_jumpWith _ _).bind fun _ => hrest _
  | ret _ value =>
    cases value with
    | none => exact tags_terminate _
    | some e => exact (tags_lowerExpr functions symbols e).bind fun _ => tags_terminate _
  | stop _ =>
    refine tags_get.bind fun _ => ?_
    split
    · exact tags_pure _
    · exact tags_jumpWith _ _
  | next _ =>
    refine tags_get.bind fun _ => ?_
    split
    · exact tags_pure _
    · exact tags_jumpWith _ _
  | require _ c message =>
    refine (tags_lowerExpr functions symbols c).bind fun cond => tags_newBlock.bind fun holds => ?_
    refine tags_newBlock.bind fun fails => (tags_terminate _).bind fun _ =>
      (tags_moveTo _).bind fun _ => ?_
    exact (tags_terminate _).bind fun _ => tags_moveTo _
  | revert _ message => exact tags_terminate _
  | panic _ message => exact tags_terminate _

theorem tags_lowerStmts (ss : List Stmt) : (lowerStmts functions symbols ss).Tags := by
  unfold lowerStmts
  cases ss with
  | nil => exact tags_pure _
  | cons s ss =>
    refine tags_isOpen.bind fun isOpen => ?_
    cases isOpen with
    | false => exact tags_pure _
    | true =>
      exact (tags_setPending ss).bind fun _ => (tags_lowerStmt s).bind fun _ => tags_lowerStmts ss

theorem tags_lowerBlock (ss : List Stmt) : (lowerBlock functions symbols ss).Tags := by
  unfold lowerBlock
  exact Tags.bind (tags_of_insts fun _ => rfl) fun _ => (tags_lowerStmts ss).bind fun _ =>
    tags_of_insts fun _ => rfl

end

/-! ### Functions and modules -/

theorem tags_lowerParams (entry : BlockId) (ps : List (Hir.Param × TypeId)) :
    (lowerParams entry ps).Tags := by
  induction ps with
  | nil => exact tags_pure _
  | cons p ps ih =>
    unfold lowerParams
    exact (tags_addParam _ _ _).bind fun _ => (tags_bind _ _).bind fun _ => ih

theorem tags_lowerFunction (f : Hir.Function) (paramTypes : List TypeId) :
    (lowerFunction functions symbols f paramTypes).Tags := by
  unfold lowerFunction
  refine tags_newBlock.bind fun entry => (tags_moveTo _).bind fun _ =>
    (tags_lowerParams _ _).bind fun _ => ?_
  refine (tags_lowerBlock functions symbols f.body).bind fun _ => tags_isOpen.bind fun isOpen => ?_
  cases isOpen with
  | false => exact tags_pure _
  | true => exact tags_get.bind fun _ => (tags_terminate _).bind fun _ => tags_pure _

end Lowering

theorem tagged_buildBodies (hir : Hir.Module) (sources : List (Hir.Function × Function))
    (r : BuildResult) (h : r.module.Tagged) : (buildBodies hir sources r).module.Tagged := by
  induction sources generalizing r with
  | nil => exact h
  | cons s sources ih =>
    unfold buildBodies
    dsimp only
    split
    · exact ih _ h
    · exact ih _ (tags_lowerFunction hir.functions hir.symbols s.1 s.2.paramTypes _ h)

/-- The builder marks only quiet instructions as pure. -/
theorem tagged_buildModule (hir : Hir.Module) (types : TypePool) (skip : Hir.FuncId → Bool) :
    (buildModule hir types skip).module.Tagged :=
  tagged_buildBodies hir _ _ fun _ hinst => absurd hinst (Array.not_mem_empty _)

/-! ### Passes -/

variable {types : TypePool} {m : Module}

theorem tagged_substitute (s : Substitution) (h : m.Tagged) : (m.substitute s).Tagged := by
  intro inst hinst heffect
  rw [substitute_eq] at hinst
  obtain ⟨inst', hinst', rfl⟩ := Array.mem_map.mp hinst
  exact (InstData.isQuiet_mapOperands _ _).trans (h inst' hinst' heffect)

/-- What is folded becomes a constant. -/
theorem tagged_foldInst {r : FoldRound} (h : r.module.Tagged) (i : InstId) :
    (r.foldInst types i).module.Tagged := by
  unfold FoldRound.foldInst
  split
  · exact h
  · split
    · rename_i inst _ data hfold
      intro inst' hinst'
      rcases Array.mem_or_eq_of_mem_setIfInBounds hinst' with hold | rfl
      · exact h inst' hold
      · obtain ⟨w, hw⟩ := constWord?_of_foldedData? hfold
        exact fun _ => InstData.isQuiet_of_constWord? hw
    · split
      · split
        · exact h
        · exact h
      · exact h

theorem tagged_foldOnce (h : m.Tagged) (done : Array Bool) :
    (foldOnce types m done).module.Tagged := by
  refine tagged_substitute _ (FoldRound.foldBlocks_keeps (P := fun r => r.module.Tagged) ?_ _ h)
  intro r i hr
  exact tagged_foldInst hr i

theorem tagged_constFold (h : m.Tagged) : (m.constFold types).1.Tagged :=
  foldRounds_keeps (P := Module.Tagged) (fun _ done hm => tagged_foldOnce hm done) _ h _ false

theorem tagged_copyInsts (span : Span) (insts : List Inst) (hinsts : ∀ inst ∈ insts, inst.Tagged)
    (renamed : Substitution) {m : Module} (h : m.Tagged) :
    (copyInsts span insts renamed m).2.2.Tagged := by
  induction insts generalizing renamed m with
  | nil => exact h
  | cons inst rest ih =>
    have hrest : ∀ inst ∈ rest, inst.Tagged := fun i hi => hinsts i (List.mem_cons_of_mem _ hi)
    -- a copy has the mark of what it is a copy of
    have hcopy (result : Option ValueId) : ∀ i ∈ m.insts.push
        { inst with data := inst.data.mapOperands renamed.rename, span, result }, i.Tagged := by
      intro i hi
      rcases Array.mem_push.mp hi with hold | rfl
      · exact h i hold
      · exact fun heffect => (InstData.isQuiet_mapOperands _ _).trans
          (hinsts inst List.mem_cons_self heffect)
    unfold copyInsts
    dsimp only
    split
    · rename_i hnone
      refine ih hrest _ ?_
      have := hcopy none
      rw [← hnone] at this
      exact this
    · exact ih hrest _ (hcopy _)

theorem tagged_inlineInst (maxInsts : Nat) (caller : FuncId) {s : Inlining} (h : s.module.Tagged)
    (i : InstId) :
    (inlineInst maxInsts caller s i).module.Tagged := by
  unfold inlineInst
  dsimp only
  split
  · split
    · split
      · rename_i b value _
        obtain ⟨m, insts, results, changed⟩ := s
        refine tagged_copyInsts _ _ (fun copied hcopied => ?_) _ h
        obtain ⟨listed, hmem, rfl⟩ := List.mem_map.mp hcopied
        obtain ⟨j, -, hj⟩ := List.mem_filterMap.mp hmem
        obtain ⟨original, horiginal, rfl⟩ := Option.map_eq_some_iff.mp hj
        exact h original (Array.mem_of_getElem? horiginal)
      · exact h
    · exact h
  · exact h

theorem tagged_inlineBlock (maxInsts : Nat) (caller : FuncId) (b : BlockId) (h : m.Tagged) :
    (inlineBlock maxInsts caller m b).1.Tagged := by
  have hinsts :
      ((m.block b).insts.foldl (inlineInst maxInsts caller) { module := m }).module.Tagged :=
    List.foldlRecOn (motive := fun s : Inlining => s.module.Tagged) _ _ h fun s hs i _ =>
      tagged_inlineInst maxInsts caller hs i
  unfold inlineBlock
  dsimp only
  split
  · exact tagged_substitute _ hinsts
  · exact h

theorem tagged_inlineBlocks (maxInsts : Nat) (bs : List (FuncId × BlockId)) {m : Module}
    (h : m.Tagged) :
    (inlineBlocks maxInsts bs m).1.Tagged := by
  induction bs generalizing m with
  | nil => exact h
  | cons b bs ih => exact ih (tagged_inlineBlock maxInsts b.1 b.2 h)

theorem tagged_inlineCalls (maxInsts : Nat) (h : m.Tagged) : (m.inlineCalls maxInsts).1.Tagged :=
  tagged_inlineBlocks maxInsts _ h

end ContractCompiler.Ssa
