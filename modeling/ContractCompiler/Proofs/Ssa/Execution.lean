import ContractCompiler.Domain.KeyResolution
import ContractCompiler.Ssa.Eval
import Mathlib.Data.List.Forall2
import Mathlib.Logic.Relation
import Mathlib.Tactic.Tauto

/-!
# Executions

What one step of an evaluation can do, as a relation between configurations, and what follows from
it for whole runs.

- `Eval.Yields`: an instruction succeeds with a value;
- `Step`: the steps that lead on, one constructor a kind of step;
- `step_eq_next`: what `step` computes is such a step;
- `Runs`: any number of steps;
- `Runs.invariant`: what holds at the start and is preserved by every step holds throughout.
-/

namespace ContractCompiler.Ssa

/-! ## Instructions that succeed -/

namespace Eval

variable {α β : Type} {s s' : Store}

/-- From a store, a computation succeeds with a value and leaves a store. -/
def Yields (x : Eval α) (s : Store) (a : α) (s' : Store) : Prop := x.run s = (.ok a, s')

theorem Yields.unique {x : Eval α} {a b : α} {s'' : Store} (h : Yields x s a s')
    (h' : Yields x s b s'') :
    a = b ∧ s' = s'' := by
  cases h.symm.trans h'
  exact ⟨rfl, rfl⟩

@[simp] theorem yields_pure {a b : α} : Yields (pure a) s b s' ↔ a = b ∧ s = s' := by
  constructor
  · intro h
    cases h
    exact ⟨rfl, rfl⟩
  · rintro ⟨rfl, rfl⟩
    rfl

@[simp] theorem yields_throw {h : Halt} {b : α} : Yields (throw h) s b s' ↔ False := by
  constructor
  · intro hrun
    cases hrun
  · exact False.elim

theorem run_bind (x : Eval α) (f : α → Eval β) (s : Store) : (x >>= f).run s = match x.run s with
    | (.ok a, s₁) => (f a).run s₁
    | (.error e, s₁) => (.error e, s₁) := by
  show ExceptT.bindCont f (x.run s).1 (x.run s).2 = _
  rcases hx : x.run s with ⟨_ | a, s₁⟩ <;> rfl

/-- A composite succeeds if both of its parts do. -/
@[simp] theorem yields_bind {x : Eval α} {f : α → Eval β} {b : β} :
    Yields (x >>= f) s b s' ↔ ∃ a s₁, Yields x s a s₁ ∧ Yields (f a) s₁ b s' := by
  unfold Yields
  rw [run_bind]
  constructor
  · intro h
    rcases hx : x.run s with ⟨e | a, s₁⟩
    · rw [hx] at h
      cases h
    · rw [hx] at h
      exact ⟨a, s₁, rfl, h⟩
  · rintro ⟨a, s₁, hx, hf⟩
    rw [hx]
    exact hf

@[simp] theorem yields_get {t : Store} : Yields get s t s' ↔ s = t ∧ s = s' := by
  constructor
  · intro h
    cases h
    exact ⟨rfl, rfl⟩
  · rintro ⟨rfl, rfl⟩
    rfl

@[simp] theorem yields_modify {f : Store → Store} {u : Unit} :
    Yields (modify f) s u s' ↔ f s = s' := by
  constructor
  · intro h
    cases h
    rfl
  · rintro rfl
    rfl

end Eval

section Operands

open Eval (Yields)

variable {env : Env} {s s' : Store}

@[simp] theorem yields_value {v : ValueId} {x : Val} :
    Yields (env.value v) s x s' ↔ env[v]? = some x ∧ s = s' := by
  unfold Env.value
  cases env[v]? <;> simp

@[simp] theorem yields_word {v : ValueId} {w : UInt64} :
    Yields (env.word v) s w s' ↔ ∃ x, env[v]? = some x ∧ x.toWord = w ∧ s = s' := by
  unfold Env.word
  simp only [Eval.yields_bind, yields_value, Eval.yields_pure]
  constructor
  · rintro ⟨x, s₁, ⟨hx, rfl⟩, hw, rfl⟩
    exact ⟨x, hx, hw, rfl⟩
  · rintro ⟨x, hx, hw, rfl⟩
    exact ⟨x, s, ⟨hx, rfl⟩, hw, rfl⟩

/-- Operands have values if all of them are bound. -/
@[simp] theorem yields_valueList {vs : List ValueId} : ∀ {xs : List Val},
    Yields (env.valueList vs) s xs s' ↔
      List.Forall₂ (fun v x => env[v]? = some x) vs xs ∧ s = s' := by
  induction vs with
  | nil =>
    intro xs
    unfold Env.valueList
    rw [Eval.yields_pure, List.forall₂_nil_left_iff, eq_comm]
  | cons v vs ih =>
    intro xs
    unfold Env.valueList
    simp only [Eval.yields_bind, yields_value, Eval.yields_pure]
    constructor
    · rintro ⟨x, _, ⟨hx, rfl⟩, ys, s₁, hys, rfl, rfl⟩
      obtain ⟨hall, rfl⟩ := ih.mp hys
      exact ⟨.cons hx hall, rfl⟩
    · rintro ⟨h, rfl⟩
      cases h with
      | cons hx hall => exact ⟨_, s, ⟨hx, rfl⟩, _, s, ih.mpr ⟨hall, rfl⟩, rfl, rfl⟩

@[simp] theorem yields_fieldOf {missing : Halt} {x y : Val} {index : Nat} :
    Yields (fieldOf missing x index) s y s' ↔ x.fields[index]? = some y ∧ s = s' := by
  unfold fieldOf
  cases x.fields[index]? <;> simp

end Operands

/-- Instructions are evaluated in the same way in a module with the same instructions and values. -/
theorem evalInst_congr [Hashing] {m m' : Module} (hinsts : m'.insts = m.insts)
    (hvalues : m'.values = m.values) (types : TypePool) (unit : String) :
    EvalContext.evalInst ⟨m', types, unit⟩ = EvalContext.evalInst ⟨m, types, unit⟩ := by
  have hdefinition : m'.definition? = m.definition? := by
    funext v
    unfold Module.definition?
    rw [hinsts, hvalues]
  have htype : m'.valueType = m.valueType := by
    funext v
    unfold Module.valueType
    rw [hvalues]
  have hbytes : EvalContext.isBytes ⟨m', types, unit⟩ = EvalContext.isBytes ⟨m, types, unit⟩ := by
    funext v
    exact congrArg (fun type => types.isBytes (type v)) htype
  have hkind : EvalContext.kindOf ⟨m', types, unit⟩ = EvalContext.kindOf ⟨m, types, unit⟩ := by
    funext v
    exact congrArg (fun type => types.intKind (type v)) htype
  have hbuffer : EvalContext.buffer ⟨m', types, unit⟩ = EvalContext.buffer ⟨m, types, unit⟩ := by
    funext v x
    unfold EvalContext.buffer
    rw [hbytes]
  have htext : EvalContext.constKeyText ⟨m', types, unit⟩ =
      EvalContext.constKeyText ⟨m, types, unit⟩ := by
    funext key
    unfold EvalContext.constKeyText
    rw [hkind, hdefinition]
  have hpayload : EvalContext.payload ⟨m', types, unit⟩ = EvalContext.payload ⟨m, types, unit⟩ := by
    funext xs
    induction xs with
    | nil => rfl
    | cons x xs ih =>
      unfold EvalContext.payload
      rw [ih, hbytes]
  funext inst env
  unfold EvalContext.evalInst
  rw [hkind, hbuffer, htext, hpayload, hbytes]
  rfl

/-! ## Steps -/

/-- What an ending that returns passes to the caller. -/
def Returns (env : Env) : Option ValueId → Val → Prop
  | none, x => x = .none
  | some v, x => env[v]? = some x

theorem enter_eq_next {m : Module} {limits : EvalLimits} {c c' : Config} {callee : FuncId}
    {xs : List Val} {result : Option ValueId} (h : enter m limits c callee xs result = .next c') :
    ∃ f entry, m.functions[callee]? = some f ∧ f.excluded = false ∧ f.entry = some entry ∧
      c.depth < limits.maxDepth ∧
      c' = { c with
        frame := activate m entry xs
        callers := ⟨c.frame, result⟩ :: c.callers
        depth := c.depth + 1 } := by
  unfold enter at h
  cases hf : m.functions[callee]? with
  | none =>
    rw [hf] at h
    cases h
  | some f =>
    rw [hf] at h
    cases hexcl : f.excluded with
    | true =>
      simp only [hexcl] at h
      cases h
    | false =>
      cases hentry : f.entry with
      | none =>
        simp only [hexcl, hentry] at h
        cases h
      | some entry =>
        simp only [hexcl, hentry] at h
        split at h
        · cases h
        · rename_i hdepth
          cases h
          exact ⟨f, entry, rfl, hexcl, hentry, Nat.lt_of_not_le hdepth, rfl⟩

section Steps

variable [Hashing]

/-- The steps that lead on from a configuration. -/
inductive Step (ctx : EvalContext) (limits : EvalLimits) : Config → Config → Prop where
  /-- An instruction other than a call binds its result. -/
  | inst {block : BlockId} {i : InstId} {rest : List InstId} {env : Env} {callers : List Caller}
      {depth steps : Nat} {store store' : Store} {inst : Inst} {x : Val}
      (steps_lt : steps < limits.maxSteps) (inst_eq : ctx.module.insts[i]? = some inst)
      (not_call : inst.data.callee? = none)
      (yields : Eval.Yields (ctx.evalInst inst env) store x store') :
      Step ctx limits ⟨⟨block, i :: rest, env⟩, callers, depth, steps, store⟩
        ⟨Frame.define ⟨block, rest, env⟩ inst.result x, callers, depth, steps + 1, store'⟩
  /-- A call starts an activation of the callee. -/
  | call {block : BlockId} {i : InstId} {rest : List InstId} {env : Env} {callers : List Caller}
      {depth steps : Nat} {store : Store} {inst : Inst} {callee : FuncId} {args : List ValueId}
      {xs : List Val} {f : Function} {entry : BlockId}
      (steps_lt : steps < limits.maxSteps) (inst_eq : ctx.module.insts[i]? = some inst)
      (data_eq : inst.data = .call callee args)
      (args_eq : List.Forall₂ (fun v x => env[v]? = some x) args xs)
      (callee_eq : ctx.module.functions[callee]? = some f) (included : f.excluded = false)
      (entry_eq : f.entry = some entry) (depth_lt : depth < limits.maxDepth) :
      Step ctx limits ⟨⟨block, i :: rest, env⟩, callers, depth, steps, store⟩
        ⟨activate ctx.module entry xs, ⟨⟨block, rest, env⟩, inst.result⟩ :: callers, depth + 1,
          steps + 1, store⟩
  /-- An ending leads to a block, whose parameters are bound to the arguments of the edge. -/
  | goTo {block target : BlockId} {env : Env} {callers : List Caller} {depth steps : Nat}
      {store : Store} {term : Terminator} {args : List ValueId} {xs : List Val}
      (term_eq : (ctx.module.block block).term = some term)
      (edge : args ∈ term.argsTo target)
      (args_eq : List.Forall₂ (fun v x => env[v]? = some x)
        (((ctx.module.block target).params.zip args).map (·.2)) xs) :
      Step ctx limits ⟨⟨block, [], env⟩, callers, depth, steps, store⟩
        ⟨⟨target, (ctx.module.block target).insts,
          bindValues env ((((ctx.module.block target).params.zip args).map (·.1)).zip xs)⟩,
          callers, depth, steps, store⟩
  /-- A return binds the result of the call in the caller. -/
  | leave {block : BlockId} {env : Env} {caller : Caller} {callers : List Caller}
      {depth steps : Nat} {store : Store} {value : Option ValueId} {x : Val}
      (term_eq : (ctx.module.block block).term = some (.ret value))
      (returns : Returns env value x) :
      Step ctx limits ⟨⟨block, [], env⟩, caller :: callers, depth, steps, store⟩
        ⟨caller.frame.define caller.result x, callers, depth - 1, steps, store⟩

variable {ctx : EvalContext} {limits : EvalLimits}

theorem goTo_eq_next {block target : BlockId} {env : Env} {callers : List Caller}
    {depth steps : Nat} {store : Store} {term : Terminator} {args : List ValueId} {c' : Config}
    (hterm : (ctx.module.block block).term = some term) (hedge : args ∈ term.argsTo target)
    (h : goTo ctx.module ⟨⟨block, [], env⟩, callers, depth, steps, store⟩ target args = .next c') :
    Step ctx limits ⟨⟨block, [], env⟩, callers, depth, steps, store⟩ c' := by
  unfold goTo at h
  dsimp only at h
  split at h
  · rename_i xs store' hxs
    obtain ⟨hall, rfl⟩ := yields_valueList.mp hxs
    cases h
    exact .goTo hterm hedge hall
  · cases h

theorem stepTerminator_eq_next {block : BlockId} {env : Env} {callers : List Caller}
    {depth steps : Nat} {store : Store} {c' : Config}
    (h : stepTerminator ctx.module ⟨⟨block, [], env⟩, callers, depth, steps, store⟩
      (ctx.module.block block).term = .next c') :
    Step ctx limits ⟨⟨block, [], env⟩, callers, depth, steps, store⟩ c' := by
  have hleave : ∀ (value : Option ValueId) (x : Val),
      (ctx.module.block block).term = some (.ret value) →
      Returns env value x →
      leave ⟨⟨block, [], env⟩, callers, depth, steps, store⟩ x = .next c' →
      Step ctx limits ⟨⟨block, [], env⟩, callers, depth, steps, store⟩ c' := by
    intro value x hterm hx hleave
    cases callers with
    | nil => cases hleave
    | cons caller callers =>
      cases hleave
      exact .leave hterm hx
  cases hterm : (ctx.module.block block).term with
  | none =>
    rw [hterm] at h
    cases h
  | some term =>
    rw [hterm] at h
    cases term with
    | jump target args => exact goTo_eq_next hterm (by simp [Terminator.argsTo]) h
    | branch cond t targs e eargs =>
      simp only [stepTerminator] at h
      split at h
      · split at h
        · exact goTo_eq_next hterm (by simp [Terminator.argsTo]) h
        · exact goTo_eq_next hterm (by simp [Terminator.argsTo]) h
      · cases h
    | ret value =>
      cases value with
      | none => exact hleave none .none hterm rfl h
      | some v =>
        simp only [stepTerminator] at h
        split at h
        · rename_i x _ hx
          exact hleave (some v) x hterm (yields_value.mp hx).1 h
        · cases h
    | revert message => cases h
    | panic message => cases h
    | unreachable => cases h

/-- A step of the evaluation that leads on is one of the steps above. -/
theorem step_eq_next {c c' : Config} (h : step ctx limits c = .next c') : Step ctx limits c c' := by
  obtain ⟨⟨block, rest, env⟩, callers, depth, steps, store⟩ := c
  cases rest with
  | nil => exact stepTerminator_eq_next h
  | cons i rest =>
    simp only [step] at h
    split at h
    · cases h
    · rename_i hsteps
      split at h
      · cases h
      · rename_i inst hinst
        have hlt : steps < limits.maxSteps := Nat.lt_of_not_le hsteps
        unfold stepInst at h
        split at h
        · rename_i callee args hdata
          split at h
          rename_i r _ hargs
          split at h
          · rename_i xs
            obtain ⟨hall, _⟩ := yields_valueList.mp hargs
            obtain ⟨f, entry, hf, hexcl, hentry, hdepth, rfl⟩ := enter_eq_next h
            exact .call hlt hinst hdata hall hf hexcl hentry hdepth
          · cases h
        · rename_i hncall
          have hcallee : inst.data.callee? = none := by
            cases hdata : inst.data with
            | call callee args => exact absurd hdata (hncall callee args)
            | _ => rfl
          rcases hrun : (ctx.evalInst inst env).run store with ⟨e | x, store'⟩
          · simp only [hrun] at h
            cases h
          · simp only [hrun] at h
            cases h
            exact .inst hlt hinst hcallee hrun

theorem stepInst_of_ok {inst : Inst} (h : inst.data.callee? = none) {f : Frame}
    {callers : List Caller} {depth steps : Nat} {store s : Store} {x : Val}
    (hrun : (ctx.evalInst inst f.env).run store = (.ok x, s)) :
    stepInst ctx limits ⟨f, callers, depth, steps, store⟩ inst =
      .next ⟨f.define inst.result x, callers, depth, steps, s⟩ := by
  unfold stepInst
  cases hdata : inst.data with
  | call =>
    rw [hdata] at h
    cases h
  | _ =>
    dsimp only
    rw [hrun]

theorem stepInst_of_error {inst : Inst} (h : inst.data.callee? = none) {f : Frame}
    {callers : List Caller} {depth steps : Nat} {store s : Store} {e : Halt}
    (hrun : (ctx.evalInst inst f.env).run store = (.error e, s)) :
    stepInst ctx limits ⟨f, callers, depth, steps, store⟩ inst = .halted e s := by
  unfold stepInst
  cases hdata : inst.data with
  | call =>
    rw [hdata] at h
    cases h
  | _ =>
    dsimp only
    rw [hrun]

/-- An instruction other than a call that succeeds leads on. -/
theorem step_of_yields {block : BlockId} {i : InstId} {rest : List InstId} {env : Env}
    {callers : List Caller} {depth steps : Nat} {store store' : Store} {inst : Inst} {x : Val}
    (hsteps : steps < limits.maxSteps) (hinst : ctx.module.insts[i]? = some inst)
    (hcall : inst.data.callee? = none)
    (hyields : Eval.Yields (ctx.evalInst inst env) store x store') :
    step ctx limits ⟨⟨block, i :: rest, env⟩, callers, depth, steps, store⟩ =
      .next ⟨Frame.define ⟨block, rest, env⟩ inst.result x, callers, depth, steps + 1, store'⟩ := by
  simp only [step, if_neg (Nat.not_le_of_lt hsteps), hinst]
  exact stepInst_of_ok hcall hyields

/-- A call whose arguments have values enters the function. -/
theorem step_of_call {block : BlockId} {i : InstId} {rest : List InstId} {env : Env}
    {callers : List Caller} {depth steps : Nat} {store store' : Store} {inst : Inst}
    {callee : Hir.FuncId} {args : List ValueId} {xs : List Val} (hsteps : steps < limits.maxSteps)
    (hinst : ctx.module.insts[i]? = some inst) (hcall : inst.data = .call callee args)
    (hargs : Eval.Yields (env.valueList args) store xs store') :
    step ctx limits ⟨⟨block, i :: rest, env⟩, callers, depth, steps, store⟩ =
      enter ctx.module limits ⟨⟨block, rest, env⟩, callers, depth, steps + 1, store⟩ callee xs
        inst.result := by
  have hrun : (env.valueList args).run store = (.ok xs, store') := hargs
  simp only [step, if_neg (Nat.not_le_of_lt hsteps), hinst, stepInst, hcall, hrun]

/-- Any number of steps. -/
def Runs (ctx : EvalContext) (limits : EvalLimits) : Config → Config → Prop :=
  Relation.ReflTransGen (Step ctx limits)

/-- What every step preserves holds throughout a run. -/
theorem Runs.invariant {P : Config → Prop} {c c' : Config} (h : Runs ctx limits c c') (hc : P c)
    (hstep : ∀ c c', P c → Step ctx limits c c' → P c') : P c' := by
  induction h with
  | refl => exact hc
  | tail _ hnext ih => exact hstep _ _ ih hnext

/-- The configuration that an execution is in after a number of steps, unless it is over by then. -/
def configAfter (ctx : EvalContext) (limits : EvalLimits) : Nat → Config → Option Config
  | 0, c => some c
  | n + 1, c =>
    match step ctx limits c with
    | .next c => configAfter ctx limits n c
    | .halted _ _ | .returned _ _ => none

theorem configAfter_succ {n : Nat} {c c' : Config} (h : step ctx limits c = .next c') :
    configAfter ctx limits (n + 1) c = configAfter ctx limits n c' := by
  rw [configAfter, h]

/-- What is reached in a number of steps is reached by a run. -/
theorem runs_of_configAfter (n : Nat) {c c' : Config} (h : configAfter ctx limits n c = some c') :
    Runs ctx limits c c' := by
  induction n generalizing c with
  | zero =>
    obtain rfl := Option.some.inj h
    exact .refl
  | succ n ih =>
    unfold configAfter at h
    split at h
    · rename_i c₁ hstep
      exact .head (step_eq_next hstep) (ih h)
    · cases h
    · cases h

end Steps

/-! ## Calls from outside -/

/-- When a call starts: there is the function with an entry, it is not left out, and the arguments
are as many as its parameters. -/
theorem startEval_eq_ok {m : Module} {limits : EvalLimits} {id : FuncId} {args : List UInt64}
    {ledger : Ledger} {f : Function} {c : Config} : m.startEval id args ledger limits = .ok (f, c) ↔
      m.functions[id]? = some f ∧ args.length = f.paramTypes.length ∧ f.excluded = false ∧
        limits.maxDepth ≠ 0 ∧ ∃ entry, f.entry = some entry ∧ c =
          { frame := activate m entry (prepareArgs args f.paramModes { ledger }).1
            store := (prepareArgs args f.paramModes { ledger }).2 } := by
  unfold Module.startEval
  constructor
  · intro h
    cases hf : m.functions[id]? with
    | none => simp [hf] at h
    | some g =>
      simp only [hf] at h
      split at h
      · cases h
      · rename_i hlength
        cases hexcl : g.excluded with
        | true => simp [hexcl] at h
        | false =>
          cases hentry : g.entry with
          | none => simp [hexcl, hentry] at h
          | some entry =>
            simp only [hexcl, hentry] at h
            split at h
            · cases h
            · rename_i hdepth
              obtain ⟨rfl, rfl⟩ := Prod.mk.inj (Except.ok.inj h)
              exact ⟨rfl, not_not.mp hlength, hexcl, hdepth, entry, hentry, rfl⟩
  · rintro ⟨hf, hlength, hexcl, hdepth, entry, hentry, rfl⟩
    simp [hf, hlength, hexcl, hentry, hdepth]

theorem length_prepareArgs (args : List UInt64) (modes : List Hir.PassMode) (s : Store) :
    (prepareArgs args modes s).1.length = args.length := by
  induction args generalizing modes s with
  | nil => rfl
  | cons w ws ih =>
    cases modes with
    | nil => simp [prepareArgs, ih]
    | cons mode modes => cases mode <;> simp [prepareArgs, ih]

/-! ## Binding -/

theorem getElem?_bindValues {v : ValueId} {x : Val} : ∀ {bound : List (ValueId × Val)} {env : Env},
    (bindValues env bound)[v]? = some x → (v, x) ∈ bound ∨ env[v]? = some x := by
  intro bound
  induction bound with
  | nil =>
    intro env h
    exact .inr h
  | cons b rest ih =>
    obtain ⟨p, y⟩ := b
    intro env h
    rcases ih h with hmem | henv
    · exact .inl (List.mem_cons_of_mem _ hmem)
    · rw [Std.HashMap.getElem?_insert] at henv
      split at henv
      · rename_i heq
        obtain rfl : p = v := by simpa using heq
        obtain rfl : y = x := by simpa using henv
        exact .inl List.mem_cons_self
      · exact .inr henv

theorem getElem?_define {f : Frame} {result : Option ValueId} {v : ValueId} {x y : Val}
    (h : (f.define result y).env[v]? = some x) :
    (result = some v ∧ y = x) ∨ f.env[v]? = some x := by
  unfold Frame.define at h
  cases result with
  | none => exact .inr h
  | some r =>
    obtain ⟨block, rest, env⟩ := f
    dsimp only at h
    rw [Std.HashMap.getElem?_insert] at h
    split at h
    · rename_i heq
      obtain rfl : r = v := by simpa using heq
      exact .inl ⟨rfl, by simpa using h⟩
    · exact .inr h

/-- Bound after a definition are its result and what was bound before. -/
theorem mem_define {f : Frame} {result : Option ValueId} {v : ValueId} {x : Val} :
    v ∈ (f.define result x).env ↔ result = some v ∨ v ∈ f.env := by
  cases result with
  | none => simp [Frame.define]
  | some r => simp [Frame.define, Std.HashMap.mem_insert]

/-- Bound after binding values are the ones named and what was bound before. -/
theorem mem_bindValues {v : ValueId} {bound : List (ValueId × Val)} {env : Env} :
    v ∈ bindValues env bound ↔ v ∈ bound.map (·.1) ∨ v ∈ env := by
  induction bound generalizing env with
  | nil => simp [bindValues]
  | cons b rest ih =>
    obtain ⟨p, y⟩ := b
    simp only [bindValues, ih, Std.HashMap.mem_insert, List.map_cons, List.mem_cons, beq_iff_eq]
    tauto

@[simp] theorem block_define (f : Frame) (result : Option ValueId) (x : Val) :
    (f.define result x).block = f.block := by
  cases result <;> rfl

@[simp] theorem rest_define (f : Frame) (result : Option ValueId) (x : Val) :
    (f.define result x).rest = f.rest := by
  cases result <;> rfl

end ContractCompiler.Ssa
