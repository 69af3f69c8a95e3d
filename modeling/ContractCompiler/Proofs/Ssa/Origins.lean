import ContractCompiler.Proofs.Ssa.Dependence

/-!
# Where values come from

What a value is bound to in an evaluation was once the outcome of the instruction that defines it,
unless this is a call. Which execution of the instruction it was is not said, so that nothing has to
be known of loops, calls and returns. In exchange the executions of all calls from outside are
considered at once.

- `Visited`: the configurations of calls from outside, as long as a condition is met;
- `Takes`: something that a value is bound to in one of them;
- `Computed`: the outcome of an instruction in one of them;
- `Origin`: where something that a value is bound to comes from;
- `Takes.origin`: it has an origin, if the verifier finds nothing wrong.
-/

namespace ContractCompiler.Ssa

variable [Hashing] (ctx : EvalContext) (limits : EvalLimits) (Q : Config → Prop)

/-- A configuration of a call from outside. All those before it meet a condition. -/
inductive Visited : Config → Prop where
  | start {id : FuncId} {args : List UInt64} {ledger : Ledger} {f : Function} {c : Config}
      (hstart : ctx.module.startEval id args ledger limits = .ok (f, c)) : Visited c
  | step {c c' : Config} (hc : Visited c) (hmeets : Q c) (hstep : Step ctx limits c c') : Visited c'

/-- A value is bound to something at some time. -/
def Takes (v : ValueId) (x : Val) : Prop :=
  ∃ c, Visited ctx limits Q c ∧ c.frame.env[v]? = some x

/-- Something is the outcome of an instruction at some time when it is its turn. -/
def Computed (i : InstId) (inst : Inst) (x : Val) : Prop :=
  ∃ c store', Visited ctx limits Q c ∧ Q c ∧ c.frame.rest.head? = some i ∧
    Eval.Yields (ctx.evalInst inst c.frame.env) c.store x store'

/-- Where something that a value is bound to comes from. -/
inductive Origin (v : ValueId) (x : Val) : Prop where
  | inst {i : InstId} {inst : Inst} (hsite : ctx.module.siteOf? v = some (.inst i))
      (hinst : ctx.module.insts[i]? = some inst) (hcall : inst.data.callee? = none)
      (hcomputed : Computed ctx limits Q i inst x)
  | call {i : InstId} {inst : Inst} {callee : FuncId}
      (hsite : ctx.module.siteOf? v = some (.inst i)) (hinst : ctx.module.insts[i]? = some inst)
      (hcall : inst.data.callee? = some callee)
  | param {block : BlockId} {index : Nat} (hsite : ctx.module.siteOf? v = some (.param block index))

/-- All that is bound has an origin. -/
def Traced (env : Env) : Prop := ∀ (v : ValueId) x, env[v]? = some x → Origin ctx limits Q v x

/-- All that is bound in the running activation has an origin, and all that will be bound in a
caller when its call returns. -/
structure ConfigTraced (c : Config) : Prop where
  frame : Traced ctx limits Q c.frame.env
  callers : ∀ caller ∈ c.callers, ∀ x, Traced ctx limits Q (caller.frame.define caller.result x).env

variable {ctx limits Q}

/-- What a run from the start of a call leads to, if the condition is met on the way. -/
theorem visited_of_runs {id : FuncId} {args : List UInt64} {ledger : Ledger} {f : Function}
    {start c : Config} (hstart : ctx.module.startEval id args ledger limits = .ok (f, start))
    (hruns : Runs ctx limits start c) (hmeets : ∀ c', Runs ctx limits start c' →
      Visited ctx limits Q c' → Q c') : Visited ctx limits Q c := by
  induction hruns with
  | refl => exact .start hstart
  | tail hfirst hstep ih => exact .step ih (hmeets _ hfirst ih) hstep

/-! ## Binding -/

theorem Traced.define {block : BlockId} {rest : List InstId} {env : Env}
    (h : Traced ctx limits Q env) {result : Option ValueId} {x : Val}
    (hresult : ∀ r, result = some r → Origin ctx limits Q r x) :
    Traced ctx limits Q (Frame.define ⟨block, rest, env⟩ result x).env := by
  intro v y hv
  rcases getElem?_define hv with ⟨hr, rfl⟩ | hold
  · exact hresult v hr
  · exact h v y hold

theorem Traced.bindValues {env : Env} (h : Traced ctx limits Q env) {bound : List (ValueId × Val)}
    (hparam : ∀ p ∈ bound, ∃ block index, ctx.module.siteOf? p.1 = some (.param block index)) :
    Traced ctx limits Q (bindValues env bound) := by
  intro v x hv
  rcases getElem?_bindValues hv with hnew | hold
  · obtain ⟨block, index, hsite⟩ := hparam _ hnew
    exact .param hsite
  · exact h v x hold

theorem traced_empty : Traced ctx limits Q {} := by
  intro v x hv
  rw [Std.HashMap.getElem?_empty] at hv
  cases hv

/-- The parameters of a function, bound to its arguments. -/
theorem traced_activate {f : Function} (hf : f.Verified ctx.module) {entry : BlockId}
    (hentry : f.entry = some entry) (args : List Val) :
    Traced ctx limits Q (activate ctx.module entry args).env := by
  obtain ⟨entry', hmem, hentry'⟩ := hf.entry
  obtain rfl := Option.some.inj (hentry.symm.trans hentry')
  refine traced_empty.bindValues fun p hp => ⟨entry, ?_⟩
  exact hf.siteOf?_param hmem (List.of_mem_zip hp).1

/-! ## Steps -/

/-- Every step from a visited configuration keeps track of where values come from. -/
theorem ConfigTraced.step {requireReachable : Bool}
    (hverify : ctx.module.verify requireReachable = []) {c c' : Config}
    (hvisited : Visited ctx limits Q c) (hmeets : Q c) (hbound : ConfigBound ctx.module c)
    (h : ConfigTraced ctx limits Q c) (hstep : Step ctx limits c c') :
    ConfigTraced ctx limits Q c' := by
  -- the verifier is needed only for the sites of what is bound: results and parameters are where
  -- they say
  obtain ⟨f, hframe⟩ := hbound.frame
  obtain ⟨htraced, hcallers⟩ := h
  cases hstep with
  | @inst block i rest env callers depth steps store store' inst x steps_lt inst_eq
      not_call yields =>
    obtain ⟨k, hi, -⟩ := hframe.here_cons rfl
    refine ⟨htraced.define fun r hr => ?_, hcallers⟩
    have hsite := hframe.verified.siteOf?_result hframe.owned (List.mem_of_getElem? hi) inst_eq hr
    exact .inst hsite inst_eq not_call ⟨_, store', hvisited, hmeets, rfl, yields⟩
  | @call block i rest env callers depth steps store inst callee args xs g entry steps_lt
      inst_eq data_eq args_eq callee_eq included entry_eq depth_lt =>
    obtain ⟨k, hi, -⟩ := hframe.here_cons rfl
    refine ⟨traced_activate (Module.verified_of_verify hverify callee_eq included) entry_eq xs, ?_⟩
    intro caller hcaller x
    rcases List.mem_cons.mp hcaller with rfl | hcaller
    · -- nothing is known of what the callee will return, but it is for the result of a call
      refine htraced.define fun r hr => ?_
      have hsite := hframe.verified.siteOf?_result hframe.owned (List.mem_of_getElem? hi) inst_eq hr
      have hcall : inst.data.callee? = some callee := by
        rw [data_eq]
        rfl
      exact .call hsite inst_eq hcall
    · exact hcallers caller hcaller x
  | @goTo block target env callers depth steps store term args xs term_eq edge args_eq =>
    have htarget := hframe.verified.edge_target block hframe.owned term target args term_eq edge
    refine ⟨htraced.bindValues fun p hp => ⟨target, ?_⟩, hcallers⟩
    obtain ⟨q, hq, heq⟩ := List.mem_map.mp (List.of_mem_zip hp).1
    rw [← heq]
    exact hframe.verified.siteOf?_param htarget (List.of_mem_zip hq).1
  | leave term_eq returns =>
    -- this is where what was said of any outcome of the call is used
    exact ⟨hcallers _ List.mem_cons_self _, fun caller hmem =>
      hcallers caller (List.mem_cons_of_mem _ hmem)⟩

namespace Visited

variable {requireReachable : Bool} (hverify : ctx.module.verify requireReachable = []) {c : Config}

include hverify

theorem bound (h : Visited ctx limits Q c) : ConfigBound ctx.module c := by
  induction h with
  | start hstart => exact configBound_of_startEval hverify hstart
  | step _ _ hstep ih => exact ih.step hverify hstep

theorem traced (h : Visited ctx limits Q c) : ConfigTraced ctx limits Q c := by
  induction h with
  | start hstart =>
    obtain ⟨hf, -, hincl, -, entry, hentry, rfl⟩ := startEval_eq_ok.mp hstart
    refine ⟨traced_activate (Module.verified_of_verify hverify hf hincl) hentry _, ?_⟩
    intro caller hcaller
    cases hcaller
  | step hc hmeets hstep ih => exact ih.step hverify hc hmeets (hc.bound hverify) hstep

/-- The operands of the next instruction are bound. -/
theorem operands (h : Visited ctx limits Q c) {i : InstId} (hnext : c.frame.rest.head? = some i)
    {inst : Inst} (hinst : ctx.module.insts[i]? = some inst) {v : ValueId}
    (hv : v ∈ inst.data.operands) : ∃ x, c.frame.env[v]? = some x ∧ Takes ctx limits Q v x := by
  obtain ⟨f, hframe⟩ := (h.bound hverify).frame
  obtain ⟨rest, hrest⟩ := List.head?_eq_some_iff.mp hnext
  have hmem : v ∈ c.frame.env := hframe.inst_operands hrest hinst v hv
  exact ⟨_, Std.HashMap.getElem?_eq_some_getElem hmem, c, h,
    Std.HashMap.getElem?_eq_some_getElem hmem⟩

end Visited

/-- What a value is bound to comes from somewhere. -/
theorem Takes.origin {requireReachable : Bool} (hverify : ctx.module.verify requireReachable = [])
    {v : ValueId} {x : Val} (h : Takes ctx limits Q v x) : Origin ctx limits Q v x := by
  obtain ⟨c, hvisited, hv⟩ := h
  exact (hvisited.traced hverify).frame v x hv

theorem Takes.lt_size {requireReachable : Bool} (hverify : ctx.module.verify requireReachable = [])
    {v : ValueId} {x : Val} (h : Takes ctx limits Q v x) : v < ctx.module.values.size := by
  cases h.origin hverify with
  | inst hsite | call hsite | param hsite => exact Module.lt_of_siteOf? hsite

/-- What a value is bound to was the outcome of the instruction that defines it, if this is no
call. -/
theorem Takes.computed {requireReachable : Bool} (hverify : ctx.module.verify requireReachable = [])
    {v : ValueId} {x : Val} (h : Takes ctx limits Q v x) {i : InstId}
    (hsite : ctx.module.siteOf? v = some (.inst i)) {inst : Inst}
    (hinst : ctx.module.insts[i]? = some inst) (hcall : inst.data.callee? = none) :
    Computed ctx limits Q i inst x := by
  cases h.origin hverify with
  | inst hsite' hinst' _ hcomputed =>
    cases hsite.symm.trans hsite'
    cases hinst.symm.trans hinst'
    exact hcomputed
  | call hsite' hinst' hcall' =>
    cases hsite.symm.trans hsite'
    cases hinst.symm.trans hinst'
    cases hcall.symm.trans hcall'
  | param hsite' => cases hsite.symm.trans hsite'

end ContractCompiler.Ssa
