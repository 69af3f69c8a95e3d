import ContractCompiler.Proofs.Domain.Coverage
import ContractCompiler.Proofs.Ssa.Matching

/-!
# Evaluations that take the same course

Two evaluations that differ in their ledgers take the same course as long as their stores are
related: if the relation is kept by all that is not an access to the state, only the accesses that
are made have to be looked at.

- `Store.Tracking`: relations that are kept by all that is not an access;
- `Store.Lets`, `Store.Admits`: a write that is let through on both sides, and an access that keeps
  a relation and is answered in the same way on both sides;
- `Eval.Parallel`, `parallel_evalInst`: computations and instructions;
- `Progress.Parallel`, `parallel_step`, `parallel_run`: steps and runs;
- `evalFunction_parallel`: whole calls.
-/

namespace ContractCompiler.Ssa

/-- A relation between the stores of two evaluations that is kept by all that is not an access to
the state. Stores that are related differ in their ledgers only. -/
structure Store.Tracking (R : Store → Store → Prop) : Prop where
  cells_eq : ∀ {s s'}, R s s' → s'.cells = s.cells
  hostStatus_eq : ∀ {s s'}, R s s' → s'.hostStatus = s.hostStatus
  context_eq : ∀ {s s'}, R s s' → s'.ledger.context = s.ledger.context
  setCells : ∀ {s s'}, R s s' → ∀ cells, R { s with cells } { s' with cells }
  /-- A read finds nothing. -/
  notFound : ∀ {s s'}, R s s' →
    R { s with hostStatus := some .notFound } { s' with hostStatus := some .notFound }
  emit : ∀ {s s'}, R s s' → ∀ topic payload,
    R { s with ledger := s.ledger.emit topic payload }
      { s' with ledger := s'.ledger.emit topic payload }

/-- Related stores let the writes of an instruction through, whatever its key is. -/
def Store.Lets [Hashing] (R : Store → Store → Prop) (c : EvalContext) (inst : Inst) : Prop :=
  ∀ a, inst.data.stateAccess? = some a → a.isWrite = true → ∀ s s', R s s' →
    s.ledger.allowsWrite (descriptorOf c.unit a.ns (c.constKeyText a.key)) = true ∧
      s'.ledger.allowsWrite (descriptorOf c.unit a.ns (c.constKeyText a.key)) = true

/-- An access that is answered in the same way from related stores. Writes keep stores related. -/
structure Store.Admits [Hashing] (R : Store → Store → Prop) (c : EvalContext) (a : StateAccess)
    (x : Val) : Prop where
  read : ∀ {s s'}, R s s' → s'.ledger.read? (scopeOf c.unit a.ns) (c.buffer a.key x) =
    s.ledger.read? (scopeOf c.unit a.ns) (c.buffer a.key x)
  write : a.isWrite = true → ∀ {s s'}, R s s' → ∀ value,
    R { s with ledger := s.ledger.write (scopeOf c.unit a.ns) (c.buffer a.key x) value }
      { s' with ledger := s'.ledger.write (scopeOf c.unit a.ns) (c.buffer a.key x) value }

variable {R : Store → Store → Prop} {s s' : Store}

/-! ## Computations -/

namespace Eval

variable {α β : Type}

/-- A computation has the same outcome from related stores, and leaves related stores. -/
def Parallel (R : Store → Store → Prop) (x : Eval α) : Prop :=
  ∀ s s', R s s' → (x.run s').1 = (x.run s).1 ∧ R (x.run s).2 (x.run s').2

theorem parallel_pure (a : α) : Parallel R (pure a) := fun _ _ h => ⟨rfl, h⟩

theorem parallel_throw (e : Halt) : Parallel R (throw e : Eval α) := fun _ _ h => ⟨rfl, h⟩

theorem Parallel.bind {x : Eval α} {f : α → Eval β} (hx : Parallel R x)
    (hf : ∀ a, Parallel R (f a)) : Parallel R (x >>= f) := by
  intro s s' h
  obtain ⟨hres, hstores⟩ := hx s s' h
  rw [run_bind, run_bind]
  rcases hrun : x.run s with ⟨r, s₁⟩
  rcases hrun' : x.run s' with ⟨r', s₁'⟩
  rw [hrun, hrun'] at hres hstores
  dsimp only at hres hstores
  subst hres
  cases r' with
  | error e => exact ⟨rfl, hstores⟩
  | ok a => exact hf a s₁ s₁' hstores

/-- A computation may depend on what is the same from related stores. -/
theorem parallel_get {f : Store → Eval α}
    (hf : ∀ s s', R s s' → f s' = f s ∧ Parallel R (f s)) :
    Parallel R (get >>= f) := by
  intro s s' h
  obtain ⟨heq, hpar⟩ := hf s s' h
  show ((f s').run s').1 = ((f s).run s).1 ∧ R ((f s).run s).2 ((f s').run s').2
  rw [heq]
  exact hpar s s' h

theorem parallel_modify {f : Store → Store}
    (hf : ∀ s s', R s s' → R (f s) (f s')) :
    Parallel R (modify f) := fun s s' h => ⟨rfl, hf s s' h⟩

end Eval

open Eval (Parallel parallel_pure parallel_throw parallel_get parallel_modify)

section Operands

theorem parallel_value (env : Env) (v : ValueId) : Parallel R (env.value v) := by
  unfold Env.value
  split
  · exact parallel_pure _
  · exact parallel_throw _

/-- What follows an operand may rely on its value. -/
theorem Eval.Parallel.bindValue {α : Type} {env : Env} {v : ValueId} {f : Val → Eval α}
    (hf : ∀ x, env[v]? = some x → Parallel R (f x)) : Parallel R (env.value v >>= f) := by
  unfold Env.value
  split
  · rename_i x hx
    exact hf x hx
  · exact parallel_throw _

theorem parallel_word (env : Env) (v : ValueId) : Parallel R (env.word v) :=
  (parallel_value env v).bind fun _ => parallel_pure _

theorem parallel_valueList (env : Env) (vs : List ValueId) : Parallel R (env.valueList vs) := by
  induction vs with
  | nil => exact parallel_pure _
  | cons v vs ih => exact (parallel_value env v).bind fun x => ih.bind fun xs => parallel_pure _

theorem parallel_fieldOf (missing : Halt) (x : Val) (index : Nat) :
    Parallel R (fieldOf missing x index) := by
  unfold fieldOf
  split
  · exact parallel_pure _
  · exact parallel_throw _

theorem parallel_loadCell (hR : Store.Tracking R) (x : Val) : Parallel R (loadCell x) := by
  unfold loadCell
  cases x with
  | cell id =>
    refine parallel_get fun s s' h => ⟨?_, ?_⟩
    · rw [hR.cells_eq h]
    · split
      · exact parallel_pure _
      · exact parallel_throw _
  | _ => exact parallel_throw _

theorem parallel_storeCell (hR : Store.Tracking R) (x y : Val) : Parallel R (storeCell x y) := by
  unfold storeCell
  cases x with
  | cell id =>
    refine parallel_modify fun s s' h => ?_
    rw [hR.cells_eq h]
    exact hR.setCells h _
  | _ => exact parallel_throw _

theorem parallel_newCell (hR : Store.Tracking R) (x : Val) : Parallel R (newCell x) := by
  intro s s' h
  show (Except.ok (Val.cell s'.cells.size) : Except Halt Val) = .ok (.cell s.cells.size) ∧
    R { s with cells := s.cells.push x } { s' with cells := s'.cells.push x }
  rw [hR.cells_eq h]
  exact ⟨rfl, hR.setCells h _⟩

theorem parallel_ofFolded (r : Folded) : Parallel R (ofFolded r) := by
  cases r with
  | value w => exact parallel_pure _
  | overflow => exact parallel_throw _
  | divByZero => exact parallel_throw _
  | checkedErr => exact parallel_pure _

theorem parallel_ofArith (mode : ArithMode) (r : Folded) : Parallel R (ofArith mode r) := by
  unfold ofArith
  split
  · exact parallel_pure _
  · exact parallel_ofFolded r

theorem parallel_evalUnary (op : UnOp) (mode : ArithMode) (k : IntKind) (a : UInt64) :
    Parallel R (evalUnary op mode k a) := by
  cases op with
  | not => exact parallel_pure _
  | bitNot => exact parallel_pure _
  | neg => exact parallel_ofArith _ _

theorem parallel_evalBinary (op : BinOp) (mode : ArithMode) (k : IntKind) (a b : UInt64) :
    Parallel R (evalBinary op mode k a b) := by
  unfold evalBinary
  dsimp only
  split
  · exact parallel_ofFolded _
  · exact parallel_ofArith _ _

end Operands

/-! ## Instructions -/

section Host

variable [Hashing] (c : EvalContext)

omit [Hashing] in
theorem parallel_notFound (hR : Store.Tracking R) (op : HostOp) :
    Parallel R (hostFailure op .notFound) := by
  refine (parallel_modify fun s s' h => hR.notFound h).bind fun _ => ?_
  split
  · exact parallel_pure _
  · exact parallel_throw _

variable {a : StateAccess} {x : Val}

theorem parallel_readState (hR : Store.Tracking R) (ha : Store.Admits R c a x) (type : TypeId) :
    Parallel R (c.readState a.ns (c.buffer a.key x) type) := by
  unfold EvalContext.readState
  refine parallel_get fun s s' h => ⟨?_, ?_⟩
  · rw [ha.read h]
  · split
    · exact parallel_notFound hR _
    · split
      · exact parallel_pure _
      · exact parallel_pure _

theorem parallel_writeState (ha : Store.Admits R c a x) (hwrite : a.isWrite = true)
    (value : Bytes) :
    Parallel R (c.writeState a.ns (c.buffer a.key x) value) :=
  (parallel_modify fun _ _ h => ha.write hwrite h value).bind fun _ => parallel_pure _

omit [Hashing] in
/-- A write that is let through on both sides. -/
theorem parallel_guardWrite {descriptor : Bytes} {write : Eval Val}
    (hlets : ∀ s s', R s s' →
      s.ledger.allowsWrite descriptor = true ∧ s'.ledger.allowsWrite descriptor = true)
    (hwrite : Parallel R write) : Parallel R (guardWrite descriptor write) := by
  unfold guardWrite
  refine parallel_get fun s s' h => ?_
  obtain ⟨hallowed, hallowed'⟩ := hlets s s' h
  rw [hallowed, hallowed', if_pos rfl]
  exact ⟨rfl, hwrite⟩

/-- An instruction has the same outcome from related stores, if its access is admitted. -/
theorem parallel_evalInst (hR : Store.Tracking R) {inst : Inst} {env : Env}
    (hlets : Store.Lets R c inst) (haccess : ∀ a x, inst.data.stateAccess? = some a →
      env[a.key]? = some x → Store.Admits R c a x) : Parallel R (c.evalInst inst env) := by
  unfold EvalContext.evalInst
  cases hdata : inst.data with
  | constInt bits => exact parallel_pure _
  | constBool value => exact parallel_pure _
  | constBytes bytes => exact parallel_pure _
  | unary op mode src => exact (parallel_word env src).bind fun _ => parallel_evalUnary _ _ _ _
  | binary op mode left right =>
    exact (parallel_word env left).bind fun _ => (parallel_word env right).bind fun _ =>
      parallel_evalBinary _ _ _ _ _
  | cast mode target src => exact (parallel_word env src).bind fun _ => parallel_ofFolded _
  | call callee args => exact parallel_pure _
  | makeStruct fields => exact (parallel_valueList env fields).bind fun _ => parallel_pure _
  | extract base index => exact (parallel_value env base).bind fun _ => parallel_fieldOf _ _ _
  | insert base index value =>
    exact (parallel_value env base).bind fun x => (parallel_fieldOf _ x index).bind fun _ =>
      (parallel_value env value).bind fun _ => parallel_pure _
  | makeResult ok value =>
    cases ok with
    | false => exact (parallel_word env _).bind fun _ => parallel_pure _
    | true =>
      cases value with
      | none => exact parallel_pure _
      | some v => exact (parallel_value env v).bind fun _ => parallel_pure _
  | resultIsOk src =>
    exact (parallel_value env src).bind fun x => (parallel_fieldOf _ x 0).bind fun _ =>
      parallel_pure _
  | resultValue src =>
    refine (parallel_value env src).bind fun x => (parallel_fieldOf _ x 0).bind fun status => ?_
    split
    · exact parallel_fieldOf _ _ _
    · exact parallel_throw _
  | resultCode src => exact (parallel_value env src).bind fun x => parallel_fieldOf _ _ _
  | refNew init => exact (parallel_value env init).bind fun x => parallel_newCell hR x
  | refLoad ref => exact (parallel_value env ref).bind fun x => parallel_loadCell hR x
  | refStore ref value =>
    exact (parallel_value env ref).bind fun r => (parallel_value env value).bind fun x =>
      (parallel_storeCell hR r x).bind fun _ => parallel_pure _
  | stateRead ns key type =>
    refine Parallel.bindValue fun x hx => ?_
    have hadmits := haccess ⟨ns, key, false⟩ x (by rw [hdata]; rfl) hx
    exact parallel_readState c hR hadmits type
  | stateWrite ns key value =>
    have ha : inst.data.stateAccess? = some ⟨ns, key, true⟩ := by rw [hdata]; rfl
    refine parallel_guardWrite (hlets ⟨ns, key, true⟩ ha rfl) ?_
    refine Parallel.bindValue fun k hk => (parallel_value env value).bind fun x => ?_
    have hadmits := haccess ⟨ns, key, true⟩ k ha hk
    exact parallel_writeState c hadmits rfl _
  | stateHas ns key =>
    refine Parallel.bindValue fun k hk => parallel_get fun s s' h => ⟨?_, parallel_pure _⟩
    have hadmits := haccess ⟨ns, key, false⟩ k (by rw [hdata]; rfl) hk
    exact congrArg (fun o : Option Bytes => (pure (.word (wordOfBool o.isSome)) : Eval Val))
      (hadmits.read h)
  | context query =>
    refine parallel_get fun s s' h => ⟨?_, ?_⟩
    · unfold Ledger.contextNumber
      rw [hR.context_eq h]
    · split
      · exact parallel_pure _
      · exact parallel_pure _
  | digest src => exact (parallel_value env src).bind fun _ => parallel_pure _
  | emit topic args =>
    exact (parallel_valueList env args).bind fun xs =>
      (parallel_modify fun s s' h => hR.emit h _ _).bind fun _ => parallel_pure _
  | bytesLength src => exact (parallel_value env src).bind fun _ => parallel_pure _

end Host

/-! ## Steps -/

/-- Steps that lead to the same from related stores, and to related stores. -/
inductive Progress.Parallel (R : Store → Store → Prop) : Progress → Progress → Prop where
  | next {c : Config} {s' : Store} (h : R c.store s') :
      Parallel R (.next c) (.next { c with store := s' })
  | halted (e : Halt) {s s' : Store} (h : R s s') :
      Parallel R (.halted e s) (.halted e s')
  | returned (x : Val) {s s' : Store} (h : R s s') :
      Parallel R (.returned x s) (.returned x s')

section Steps

variable {m : Module} {limits : EvalLimits} {c : Config}

theorem parallel_enter (h : R c.store s') (callee : FuncId) (args : List Val)
    (result : Option ValueId) : Progress.Parallel R (enter m limits c callee args result)
      (enter m limits { c with store := s' } callee args result) := by
  unfold enter
  split
  · exact .halted _ h
  · split
    · exact .halted _ h
    · exact .halted _ h
    · split
      · exact .halted _ h
      · exact .next h

theorem parallel_leave (h : R c.store s') (x : Val) :
    Progress.Parallel R (leave c x) (leave { c with store := s' } x) := by
  unfold leave
  dsimp only
  split
  · exact .returned x h
  · exact .next h

/-- What operands are does not depend on the store. -/
theorem exists_run_valueList (env : Env) (vs : List ValueId) :
    ∃ r, ∀ s : Store, (env.valueList vs).run s = (r, s) := by
  induction vs with
  | nil => exact ⟨_, fun _ => rfl⟩
  | cons v vs ih =>
    obtain ⟨r, hr⟩ := ih
    unfold Env.valueList
    simp only [Eval.run_bind, hr]
    unfold Env.value
    cases env[v]? with
    | none => exact ⟨_, fun _ => rfl⟩
    | some x => cases r <;> exact ⟨_, fun _ => rfl⟩

theorem exists_run_value (env : Env) (v : ValueId) :
    ∃ r, ∀ s : Store, (env.value v).run s = (r, s) := by
  unfold Env.value
  cases env[v]? <;> exact ⟨_, fun _ => rfl⟩

theorem exists_run_word (env : Env) (v : ValueId) :
    ∃ r, ∀ s : Store, (env.word v).run s = (r, s) := by
  obtain ⟨r, hr⟩ := exists_run_value env v
  unfold Env.word
  simp only [Eval.run_bind, hr]
  cases r <;> exact ⟨_, fun _ => rfl⟩

theorem parallel_goTo (h : R c.store s') (target : BlockId) (args : List ValueId) :
    Progress.Parallel R (goTo m c target args) (goTo m { c with store := s' } target args) := by
  obtain ⟨⟨block, rest, env⟩, callers, depth, steps, store⟩ := c
  obtain ⟨r, hr⟩ := exists_run_valueList env (((m.block target).params.zip args).map (·.2))
  unfold goTo
  dsimp only
  rw [hr, hr]
  cases r with
  | ok xs => exact .next h
  | error e => exact .halted e h

theorem parallel_stepTerminator (h : R c.store s') (term : Option Terminator) :
    Progress.Parallel R (stepTerminator m c term)
      (stepTerminator m { c with store := s' } term) := by
  cases term with
  | none => exact .halted _ h
  | some term =>
    cases term with
    | jump target args => exact parallel_goTo h target args
    | branch cond t targs e eargs =>
      obtain ⟨r, hr⟩ := exists_run_word c.frame.env cond
      unfold stepTerminator
      dsimp only
      rw [hr, hr]
      cases r with
      | error e => exact .halted e h
      | ok w =>
        dsimp only
        split
        · exact parallel_goTo h t targs
        · exact parallel_goTo h e eargs
    | ret value =>
      cases value with
      | none => exact parallel_leave h _
      | some v =>
        obtain ⟨r, hr⟩ := exists_run_value c.frame.env v
        unfold stepTerminator
        dsimp only
        rw [hr, hr]
        cases r with
        | error e => exact .halted e h
        | ok x => exact parallel_leave h x
    | revert message => exact .halted _ h
    | panic message => exact .halted _ h
    | unreachable => exact .halted _ h

variable [Hashing] {ctx : EvalContext}

theorem parallel_stepInst (hR : Store.Tracking R) (h : R c.store s') {inst : Inst}
    (hlets : Store.Lets R ctx inst) (haccess : ∀ a x, inst.data.stateAccess? = some a →
      c.frame.env[a.key]? = some x → Store.Admits R ctx a x) :
    Progress.Parallel R (stepInst ctx limits c inst)
      (stepInst ctx limits { c with store := s' } inst) := by
  cases hcall : inst.data.callee? with
  | some callee =>
    unfold stepInst
    cases hdata : inst.data with
    | call callee args =>
      obtain ⟨r, hr⟩ := exists_run_valueList c.frame.env args
      dsimp only
      rw [hr, hr]
      cases r with
      | ok xs => exact parallel_enter h callee xs inst.result
      | error e => exact .halted e h
    | _ =>
      rw [hdata] at hcall
      cases hcall
  | none =>
    obtain ⟨frame, callers, depth, steps, store⟩ := c
    obtain ⟨hres, hstores⟩ := parallel_evalInst ctx hR hlets haccess store s' h
    rcases hrun : (ctx.evalInst inst frame.env).run store with ⟨r, s₁⟩
    rcases hrun' : (ctx.evalInst inst frame.env).run s' with ⟨r', s₁'⟩
    rw [hrun, hrun'] at hres hstores
    dsimp only at hres hstores
    subst hres
    cases r' with
    | ok x =>
      rw [stepInst_of_ok hcall hrun, stepInst_of_ok hcall hrun']
      exact .next hstores
    | error e =>
      rw [stepInst_of_error hcall hrun, stepInst_of_error hcall hrun']
      exact .halted e hstores

/-- A step leads to the same from related stores, if the access of what is executed next is
admitted. -/
theorem parallel_step (hR : Store.Tracking R) (h : R c.store s')
    (hlets : ∀ inst frame, nextInst? ctx.module c = some (inst, frame) → Store.Lets R ctx inst)
    (haccess : ∀ inst frame, nextInst? ctx.module c = some (inst, frame) → ∀ a x,
      inst.data.stateAccess? = some a → frame.env[a.key]? = some x → Store.Admits R ctx a x) :
    Progress.Parallel R (step ctx limits c) (step ctx limits { c with store := s' }) := by
  obtain ⟨⟨block, rest, env⟩, callers, depth, steps, store⟩ := c
  cases rest with
  | nil => exact parallel_stepTerminator h _
  | cons i rest =>
    simp only [step]
    split
    · exact .halted _ h
    · cases hinst : ctx.module.insts[i]? with
      | none => exact .halted _ h
      | some inst =>
        have hnext : nextInst? ctx.module ⟨⟨block, i :: rest, env⟩, callers, depth, steps, store⟩ =
            some (inst, ⟨block, i :: rest, env⟩) := by simp [nextInst?, hinst]
        exact parallel_stepInst hR (c := ⟨⟨block, rest, env⟩, callers, depth, steps + 1, store⟩) h
          (hlets _ _ hnext) (haccess inst ⟨block, i :: rest, env⟩ hnext)

/-- Runs from related stores end in the same way, from related stores, if every access that one of
them makes is admitted. -/
theorem parallel_run (hR : Store.Tracking R) (n : Nat) (h : R c.store s')
    (hlets : ∀ k inst frame, (configAfter ctx limits k c).bind (nextInst? ctx.module) =
      some (inst, frame) →
      Store.Lets R ctx inst)
    (haccess : ∀ k inst frame, (configAfter ctx limits k c).bind (nextInst? ctx.module) =
      some (inst, frame) →
      ∀ a x, inst.data.stateAccess? = some a → frame.env[a.key]? = some x →
        Store.Admits R ctx a x) :
    (run ctx limits n { c with store := s' }).1 = (run ctx limits n c).1 ∧
      R (run ctx limits n c).2 (run ctx limits n { c with store := s' }).2 := by
  induction n generalizing c s' with
  | zero => exact ⟨rfl, h⟩
  | succ n ih =>
    have hstep : Progress.Parallel R (step ctx limits c) (step ctx limits { c with store := s' }) :=
      parallel_step hR h (hlets 0) (haccess 0)
    unfold run
    generalize hp : step ctx limits c = p at hstep
    generalize step ctx limits { c with store := s' } = p' at hstep
    cases hstep with
    | next hstores =>
      have hlater (k : Nat) := congrArg (·.bind (nextInst? ctx.module))
          (configAfter_succ hp (n := k))
      exact ih hstores (fun k inst frame hnext => hlets (k + 1) inst frame ((hlater k).trans hnext))
        fun k inst frame hnext => haccess (k + 1) inst frame ((hlater k).trans hnext)
    | halted e hstores => exact ⟨rfl, hstores⟩
    | returned x hstores => exact ⟨rfl, hstores⟩

end Steps

/-! ## Calls from outside -/

section Calls

theorem parallel_prepareArgs (hR : Store.Tracking R) (args : List UInt64)
    (modes : List Hir.PassMode) (h : R s s') :
    (prepareArgs args modes s').1 = (prepareArgs args modes s).1 ∧
      R (prepareArgs args modes s).2 (prepareArgs args modes s').2 := by
  induction args generalizing modes s s' with
  | nil => exact ⟨rfl, h⟩
  | cons w ws ih =>
    have hword (modes : List Hir.PassMode) : Val.word w :: (prepareArgs ws modes s').1 =
        .word w :: (prepareArgs ws modes s).1 ∧
        R (prepareArgs ws modes s).2 (prepareArgs ws modes s').2 := by
      obtain ⟨hargs, hstores⟩ := ih modes h
      exact ⟨hargs ▸ rfl, hstores⟩
    cases modes with
    | nil => exact hword []
    | cons mode modes =>
      cases mode with
      | exclusive =>
        unfold prepareArgs
        dsimp only
        rw [hR.cells_eq h]
        obtain ⟨hargs, hstores⟩ := ih modes (hR.setCells h (s.cells.push (.word w)))
        exact ⟨congrArg _ hargs, hstores⟩
      | _ => exact hword modes

/-- Whether a call starts does not depend on the ledger. -/
theorem startEval_error_of_error {m : Module} {id : FuncId} {args : List UInt64} {ledger : Ledger}
    {limits : EvalLimits} {e : Halt} (h : m.startEval id args ledger limits = .error e)
    (ledger' : Ledger) :
    m.startEval id args ledger' limits = .error e := by
  unfold Module.startEval at h ⊢
  split at h
  · exact h
  · split at h
    · rename_i hlength
      rw [if_pos hlength]
      exact h
    · rename_i hlength
      rw [if_neg hlength]
      split at h
      · exact h
      · exact h
      · split at h
        · rename_i hdepth
          rw [if_pos hdepth]
          exact h
        · cases h

variable [Hashing] {m : Module} {types : TypePool} {unit : String} {f : FuncId} {args : List UInt64}
  {limits : EvalLimits}

omit [Hashing] in
/-- What is made of the end of an execution depends on how it ended and on what the host
reported. -/
theorem callResult_eq (types : TypePool) (ret : TypeId) (r : Except Halt Val)
    (h : s'.hostStatus = s.hostStatus) :
    callResult types ret (r, s') = ((callResult types ret (r, s)).1, s'.ledger) := by
  unfold callResult
  cases r with
  | error e =>
    dsimp only
    rw [h]
  | ok x =>
    dsimp only
    rw [h]

omit [Hashing] in
theorem hostStatus_callResult (types : TypePool) (ret : TypeId) (r : Except Halt Val) (s : Store) :
    (callResult types ret (r, s)).1.hostStatus = s.hostStatus := by
  cases r <;> rfl

/-- Started on ledgers in related stores, a call has the same result, and leaves related stores, if
every access that one of the two evaluations makes is admitted. -/
theorem evalFunction_parallel {h h' : Ledger} (hR : Store.Tracking R)
    (hstart : R { ledger := h } { ledger := h' })
    (hlets : ∀ steps inst frame, m.instAfter? types unit f args h limits steps =
      some (inst, frame) →
      Store.Lets R ⟨m, types, unit⟩ inst)
    (haccess : ∀ steps a x, m.accessAfter? types unit f args h limits steps = some (a, x) →
      Store.Admits R ⟨m, types, unit⟩ a x) :
    ∃ (r : RunResult) (s s' : Store), R s s' ∧ r.hostStatus = s.hostStatus ∧
      m.evalFunction types f args h unit limits = (r, s.ledger) ∧
      m.evalFunction types f args h' unit limits = (r, s'.ledger) := by
  cases hcall : m.startEval f args h limits with
  | error e =>
    refine ⟨_, _, _, hstart, rfl, evalFunction_of_error hcall, ?_⟩
    exact evalFunction_of_error (startEval_error_of_error hcall h')
  | ok started =>
    obtain ⟨fn, c⟩ := started
    obtain ⟨hf, hlength, hexcl, hdepth, entry, hentry, rfl⟩ := startEval_eq_ok.mp hcall
    have hcall' : m.startEval f args h' limits = .ok (fn, _) :=
      startEval_eq_ok.mpr ⟨hf, hlength, hexcl, hdepth, entry, hentry, rfl⟩
    obtain ⟨hargs, hprepared⟩ := parallel_prepareArgs hR args fn.paramModes hstart
    rw [hargs] at hcall'
    rw [evalFunction_of_ok hcall, evalFunction_of_ok hcall']
    have hafter (k : Nat) : m.instAfter? types unit f args h limits k =
        (configAfter ⟨m, types, unit⟩ limits k (startOf m fn entry args h)).bind (nextInst? m) := by
      unfold Module.instAfter?
      rw [hcall]
      rfl
    obtain ⟨hend, hleft⟩ := parallel_run hR limits.fuel (c := startOf m fn entry args h) hprepared
      (fun k inst frame hnext => hlets k inst frame ((hafter k).trans hnext))
      fun k inst frame hnext a x ha hx =>
        haccess k a x (accessAfter?_eq_some.mpr ⟨inst, frame, (hafter k).trans hnext, ha, hx⟩)
    unfold startOf at hend hleft
    -- from here on the runs stand for themselves: they are not to be unfolded
    generalize run ⟨m, types, unit⟩ limits limits.fuel _ = ended' at hend hleft ⊢
    generalize run ⟨m, types, unit⟩ limits limits.fuel _ = ended at hend hleft ⊢
    obtain ⟨r, s⟩ := ended
    obtain ⟨r', s'⟩ := ended'
    obtain rfl : r' = r := hend
    exact ⟨_, s, s', hleft, hostStatus_callResult types fn.ret r' s,
      callResult_eq types fn.ret r' rfl,
      callResult_eq types fn.ret r' (hR.hostStatus_eq hleft)⟩

end Calls

end ContractCompiler.Ssa
