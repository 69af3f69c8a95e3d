import ContractCompiler.Proofs.Ssa.Execution
import ContractCompiler.Proofs.Ssa.Verified

/-!
# Operands are bound when they are used

A module in which the verifier finds nothing wrong never uses a value before it has one. The
verifier looks at paths, an evaluation takes one of them: whenever an activation stands in a block,
all that the dominators of the block define is bound, and all that the block itself has defined so
far.

- `mem_of_definition`: an entry of the definition table is a definition of a block of the function;
- `FrameBound`: the invariant of an activation;
- `FrameBound.mem_of_available`: what is available where an activation stands is bound;
- `ConfigBound.step`: every step preserves the invariant, in the running activation and in its
  callers;
- `operands_bound`: the operands of what is executed next are bound.
-/

namespace ContractCompiler.Ssa

variable {m : Module} {f : Function}

/-! ## The definition table -/

theorem mem_of_enterDefinitions {name : String} {es : List (Except Fault Definition)}
    {table : DefinitionTable} {v : ValueId} {d : Definition}
    (h : (enterDefinitions m name es table).2.getD v none = some d) :
    table.getD v none = some d ∨ .ok d ∈ es ∧ d.value = v := by
  induction es generalizing table with
  | nil => exact .inl h
  | cons e es ih =>
    have hskip (h : (enterDefinitions m name es table).2.getD v none = some d) :
        table.getD v none = some d ∨ .ok d ∈ e :: es ∧ d.value = v :=
      (ih h).imp_right fun hd => ⟨List.mem_cons_of_mem _ hd.1, hd.2⟩
    cases e with
    | error fault => exact hskip h
    | ok d' =>
      rw [enterDefinitions] at h
      split at h
      · exact hskip h
      · dsimp only at h
        split at h
        · exact hskip h
        · rcases ih h with htable | ⟨hmem, hvalue⟩
          · rw [Array.getD_eq_getD_getElem?, Array.getElem?_setIfInBounds] at htable
            by_cases heq : d'.value = v
            · rw [if_pos heq] at htable
              split at htable
              · obtain rfl : d' = d := by simpa using htable
                exact .inr ⟨List.mem_cons_self, heq⟩
              · simp at htable
            · rw [if_neg heq, ← Array.getD_eq_getD_getElem?] at htable
              exact .inl htable
          · exact .inr ⟨List.mem_cons_of_mem _ hmem, hvalue⟩

/-- A definition of a block is of one of its parameters, or of the result of one of its
instructions. -/
theorem definition_of_block {b : BlockId} {d : Definition} (h : .ok d ∈ blockDefinitions m b) :
    d.block = b ∧ (d.position = none ∧ d.value ∈ (m.block b).params ∨
      ∃ k i inst, d.position = some k ∧ (m.block b).insts[k]? = some i ∧ m.insts[i]? = some inst ∧
        inst.result = some d.value) := by
  unfold blockDefinitions at h
  rcases List.mem_append.mp h with h | h
  · obtain ⟨⟨p, i⟩, hp, heq⟩ := List.mem_map.mp h
    cases heq
    exact ⟨rfl, .inl ⟨rfl, List.mem_of_getElem? (List.mem_zipIdx_iff_getElem?.mp hp)⟩⟩
  · obtain ⟨⟨i, k⟩, hi, hd⟩ := List.mem_filterMap.mp h
    dsimp only at hd
    split at hd
    · cases hd
    · rename_i inst hinst
      obtain ⟨r, hr, heq⟩ := Option.map_eq_some_iff.mp hd
      cases heq
      exact ⟨rfl, .inr ⟨k, i, inst, rfl, List.mem_zipIdx_iff_getElem?.mp hi, hinst, hr⟩⟩

/-- An entry of the table is a definition of its value in a block of the function. -/
theorem mem_of_definition {v : ValueId} {d : Definition}
    (h : (m.definitions f).2.getD v none = some d) :
    .ok d ∈ blockDefinitions m d.block ∧ d.value = v := by
  rcases mem_of_enterDefinitions h with hnone | ⟨hmem, hvalue⟩
  · rw [Array.getD_eq_getD_getElem?, Array.getElem?_replicate] at hnone
    split at hnone <;> cases hnone
  · obtain ⟨b, -, hd⟩ := List.mem_flatMap.mp hmem
    rw [(definition_of_block hd).1]
    exact ⟨hd, hvalue⟩

/-! ## Activations -/

/-- Everything that a block defines before a place is bound: its parameters, and the results of the
instructions before the place. -/
def BoundTo (m : Module) (env : Env) (b : BlockId) (position : Nat) : Prop :=
  ∀ d : Definition, .ok d ∈ blockDefinitions m b → d.position.all (· < position) = true →
    d.value ∈ env

/-- Everything that a block defines is bound. -/
def BoundAll (m : Module) (env : Env) (b : BlockId) : Prop :=
  ∀ d : Definition, .ok d ∈ blockDefinitions m b → d.value ∈ env

/-- An activation of a function has bound what the dominators of its block define, and what the
block has defined so far. -/
structure FrameBound (m : Module) (f : Function) (frame : Frame) : Prop where
  verified : f.Verified m
  owned : frame.block ∈ f.blocks
  reached : (m.cfg f).dominance.isReached frame.block = true
  dominators : ∀ a, a ≠ frame.block → (m.cfg f).dominance.dominates a frame.block = true →
    BoundAll m frame.env a
  here : ∃ k, frame.rest = (m.block frame.block).insts.drop k ∧ BoundTo m frame.env frame.block k

theorem BoundTo.mono {env env' : Env} {b : BlockId} {k : Nat} (h : BoundTo m env b k)
    (henv : ∀ v, v ∈ env → v ∈ env') : BoundTo m env' b k :=
  fun d hd hposition => henv _ (h d hd hposition)

/-- The results before the next place are those before this one and the one at it. -/
theorem BoundTo.succ {env : Env} {b : BlockId} {k : Nat} {i : InstId} (h : BoundTo m env b k)
    (hi : (m.block b).insts[k]? = some i)
    (hresult : ∀ inst r, m.insts[i]? = some inst → inst.result = some r → r ∈ env) :
    BoundTo m env b (k + 1) := by
  intro d hd hposition
  rcases (definition_of_block hd).2 with ⟨hnone, -⟩ | ⟨k', i', inst, hk', hi', hinst, hr⟩
  · exact h d hd (by rw [hnone]; rfl)
  · rw [hk'] at hposition
    have hle : k' < k + 1 := of_decide_eq_true hposition
    by_cases hlast : k' = k
    · subst hlast
      obtain rfl := Option.some.inj (hi.symm.trans hi')
      exact hresult inst _ hinst hr
    · exact h d hd (by rw [hk']; exact decide_eq_true (by omega))

/-- At the start of a block its parameters are what it has defined. -/
theorem boundTo_zero {env : Env} {b : BlockId} (h : ∀ p ∈ (m.block b).params, p ∈ env) :
    BoundTo m env b 0 := by
  intro d hd hposition
  rcases (definition_of_block hd).2 with ⟨-, hp⟩ | ⟨k, _, _, hk, -⟩
  · exact h _ hp
  · rw [hk] at hposition
    simp at hposition

/-- Past the last instruction everything is defined. -/
theorem BoundTo.all {env : Env} {b : BlockId} {k : Nat} (h : BoundTo m env b k)
    (hk : (m.block b).insts.length ≤ k) : BoundAll m env b := by
  intro d hd
  refine h d hd ?_
  rcases (definition_of_block hd).2 with ⟨hnone, -⟩ | ⟨k', i', _, hk', hi', -⟩
  · rw [hnone]
    rfl
  · have hlt := (List.getElem?_eq_some_iff.mp hi').1
    rw [hk']
    exact decide_eq_true (by omega)

namespace FrameBound

variable {frame : Frame}

/-- What is available at the place where an activation stands is bound. -/
theorem mem_of_available (h : FrameBound m f frame) {k : Nat}
    (hk : BoundTo m frame.env frame.block k) {v : ValueId}
    (hv : isAvailable (m.cfg f).dominance (m.definitions f).2 frame.block k v = true) :
    v ∈ frame.env := by
  unfold isAvailable at hv
  split at hv
  · cases hv
  · rename_i d hd
    obtain ⟨hmem, rfl⟩ := mem_of_definition hd
    split at hv
    · rename_i hblock
      exact hk d (hblock ▸ hmem) hv
    · rename_i hblock
      exact h.dominators d.block hblock hv d hmem

/-- What is executed next, if it is an instruction, is at a place up to which everything is
bound. -/
theorem here_cons (h : FrameBound m f frame) {i : InstId} {rest : List InstId}
    (hrest : frame.rest = i :: rest) :
    ∃ k, (m.block frame.block).insts[k]? = some i ∧
      rest = (m.block frame.block).insts.drop (k + 1) ∧
      BoundTo m frame.env frame.block k := by
  obtain ⟨k, hdrop, hbound⟩ := h.here
  rw [hrest] at hdrop
  have hi : (m.block frame.block).insts[k]? = some i := by
    rw [← List.head?_drop, ← hdrop]
    rfl
  refine ⟨k, hi, ?_, hbound⟩
  rw [← List.tail_drop, ← hdrop]
  rfl

/-- Past the last instruction, all that the block defines is bound. -/
theorem here_nil (h : FrameBound m f frame) (hrest : frame.rest = []) :
    BoundTo m frame.env frame.block (m.block frame.block).insts.length := by
  obtain ⟨k, hdrop, hbound⟩ := h.here
  rw [hrest] at hdrop
  have hk : (m.block frame.block).insts.length ≤ k := List.drop_eq_nil_iff.mp hdrop.symm
  exact fun d hd _ => hbound.all hk d hd

theorem inst_operands (h : FrameBound m f frame) {i : InstId} {rest : List InstId}
    (hrest : frame.rest = i :: rest) {inst : Inst} (hinst : m.insts[i]? = some inst) :
    ∀ v ∈ inst.data.operands, v ∈ frame.env := by
  intro v hv
  obtain ⟨k, hi, -, hbound⟩ := h.here_cons hrest
  exact h.mem_of_available hbound
    (h.verified.inst_uses frame.block h.owned h.reached k i inst hi hinst v hv)

theorem term_operands (h : FrameBound m f frame) (hrest : frame.rest = []) {term : Terminator}
    (hterm : (m.block frame.block).term = some term) : ∀ v ∈ term.operands, v ∈ frame.env := by
  intro v hv
  exact h.mem_of_available (h.here_nil hrest)
    (h.verified.term_uses frame.block h.owned h.reached term hterm v hv)

/-! ## Steps of an activation -/

/-- Going on after an instruction whose result has been bound. -/
theorem define {block : BlockId} {i : InstId} {rest : List InstId} {env : Env}
    (h : FrameBound m f ⟨block, i :: rest, env⟩) {inst : Inst}
    (hinst : m.insts[i]? = some inst) (x : Val) :
    FrameBound m f (Frame.define ⟨block, rest, env⟩ inst.result x) := by
  have henv (v : ValueId) (hv : v ∈ env) :
      v ∈ (Frame.define ⟨block, rest, env⟩ inst.result x).env :=
    mem_define.mpr (.inr hv)
  obtain ⟨k, hi, hrest, hbound⟩ := h.here_cons rfl
  refine ⟨h.verified, ?_, ?_, ?_, k + 1, ?_, ?_⟩
  · rw [block_define]
    exact h.owned
  · rw [block_define]
    exact h.reached
  · rw [block_define]
    exact fun a hne hdom d hd => henv _ (h.dominators a hne hdom d hd)
  · rw [rest_define, block_define]
    exact hrest
  · rw [block_define]
    refine (hbound.mono henv).succ hi fun inst' r hinst' hr => ?_
    obtain rfl := Option.some.inj (hinst.symm.trans hinst')
    exact mem_define.mpr (.inl hr)

/-- The activation that a call starts. -/
theorem activate (hf : f.Verified m) {entry : BlockId} (hentry : f.entry = some entry)
    {args : List Val} (hargs : args.length = f.paramTypes.length) :
    FrameBound m f (activate m entry args) := by
  obtain ⟨entry', hmem, hentry'⟩ := hf.entry
  obtain rfl := Option.some.inj (hentry.symm.trans hentry')
  refine ⟨hf, hmem, (isReached_iff hentry (hf.blocks_lt entry hmem)).mpr (.refl _),
    fun a hne hdom => ?_,
    0, rfl, boundTo_zero fun p hp => ?_⟩
  · exact absurd hdom (Bool.eq_false_iff.mp (not_dominates_entry hentry hf.blocks_lt hmem hne))
  · have hlength := hf.entry_params entry hentry
    refine mem_bindValues.mpr (.inl ?_)
    rw [List.map_fst_zip (by omega)]
    exact hp

/-- The activation goes on at a block that its ending leads to. -/
theorem goTo {block target : BlockId} {env : Env} (h : FrameBound m f ⟨block, [], env⟩)
    {term : Terminator} (hterm : (m.block block).term = some term) {args : List ValueId}
    (hedge : args ∈ term.argsTo target) {xs : List Val} (hxs : xs.length = args.length) :
    FrameBound m f ⟨target, (m.block target).insts,
      bindValues env ((((m.block target).params.zip args).map (·.1)).zip xs)⟩ := by
  have hf := h.verified
  have htarget := hf.edge_target block h.owned term target args hterm hedge
  have hlength := hf.edge_args block h.owned term target args hterm hedge
  have hsucc : target ∈ (m.cfg f).successors block := by
    refine Module.mem_successors_cfg.mpr ⟨?_, htarget, hf.blocks_lt target htarget⟩
    unfold Block.successors
    rw [hterm]
    exact mem_successors_of_argsTo hedge
  obtain ⟨entry, hmem, hentry⟩ := hf.entry
  have hlt := hf.blocks_lt entry hmem
  have henv (v : ValueId) (hv : v ∈ env) :
      v ∈ bindValues env ((((m.block target).params.zip args).map (·.1)).zip xs) :=
    mem_bindValues.mpr (.inr hv)
  refine ⟨hf, htarget, ?_, fun a hne hdom d hd => henv _ ?_, 0, rfl, boundTo_zero fun p hp => ?_⟩
  · exact (isReached_iff hentry hlt).mpr (((isReached_iff hentry hlt).mp h.reached).trans
      (.single hsucc))
  · -- what dominates the target is this block, which is done, or dominates it
    rcases dominates_of_edge hentry hf.blocks_lt hmem h.owned h.reached hsucc hne
      hdom with rfl | hdom
    · exact (h.here_nil rfl).all le_rfl d hd
    · by_cases hself : a = block
      · subst hself
        exact (h.here_nil rfl).all le_rfl d hd
      · exact h.dominators a hself hdom d hd
  · refine mem_bindValues.mpr (.inl ?_)
    rw [List.map_fst_zip (by simp [hlength, hxs]), List.map_fst_zip hlength.ge]
    exact hp

end FrameBound

/-- The operands of what an activation executes next, an instruction or the ending of the block, are
bound. -/
def Frame.OperandsBound (m : Module) (frame : Frame) : Prop :=
  match frame.rest with
  | i :: _ => ∀ inst, m.insts[i]? = some inst → ∀ v ∈ inst.data.operands, v ∈ frame.env
  | [] => ∀ term, (m.block frame.block).term = some term → ∀ v ∈ term.operands, v ∈ frame.env

theorem FrameBound.operandsBound {frame : Frame} (h : FrameBound m f frame) :
    frame.OperandsBound m := by
  unfold Frame.OperandsBound
  split
  · rename_i hrest
    exact fun inst hinst => h.inst_operands hrest hinst
  · rename_i hrest
    exact fun term hterm => h.term_operands hrest hterm

/-! ## Runs -/

/-- The running activation has bound what it needs, and a caller will have when its call returns. -/
structure ConfigBound (m : Module) (c : Config) : Prop where
  frame : ∃ f, FrameBound m f c.frame
  callers : ∀ caller ∈ c.callers, ∃ f, ∀ x, FrameBound m f (caller.frame.define caller.result x)

/-- A call from outside starts with its parameters bound. -/
theorem configBound_of_startEval {requireReachable : Bool}
    (hverify : m.verify requireReachable = []) {limits : EvalLimits} {id : FuncId}
    {args : List UInt64} {ledger : Ledger} {start : Config}
    (hstart : m.startEval id args ledger limits = .ok (f, start)) : ConfigBound m start := by
  obtain ⟨hf, hargs, hincl, -, entry, hentry, rfl⟩ := startEval_eq_ok.mp hstart
  refine ⟨⟨f, .activate (Module.verified_of_verify hverify hf hincl) hentry ?_⟩,
    fun caller hcaller => ?_⟩
  · exact (length_prepareArgs _ _ _).trans hargs
  · cases hcaller

section

variable [Hashing]

/-- Every step leaves activations that have bound what they need. -/
theorem ConfigBound.step {requireReachable : Bool} (hverify : m.verify requireReachable = [])
    {types : TypePool} {unit : String} {limits : EvalLimits} {c c' : Config} (h : ConfigBound m c)
    (hstep : Step { module := m, types, unit } limits c c') : ConfigBound m c' := by
  obtain ⟨⟨f, hframe⟩, hcallers⟩ := h
  cases hstep with
  | inst steps_lt inst_eq not_call yields => exact ⟨⟨f, hframe.define inst_eq _⟩, hcallers⟩
  | @call block i rest env callers depth steps store inst callee args xs g entry steps_lt
      inst_eq data_eq args_eq callee_eq included entry_eq depth_lt =>
    have hg := Module.verified_of_verify hverify callee_eq included
    obtain ⟨k, hi, -, -⟩ := hframe.here_cons rfl
    obtain ⟨g', hg', hlength⟩ := hframe.verified.call_args block hframe.owned i
      (List.mem_of_getElem? hi) inst callee args inst_eq data_eq
    obtain rfl := Option.some.inj (callee_eq.symm.trans hg')
    refine ⟨⟨g, .activate hg entry_eq (args_eq.length_eq ▸ hlength)⟩, fun caller hcaller => ?_⟩
    rcases List.mem_cons.mp hcaller with rfl | hcaller
    · exact ⟨f, hframe.define inst_eq⟩
    · exact hcallers caller hcaller
  | @goTo block target env callers depth steps store term args xs term_eq edge args_eq =>
    have hlength := hframe.verified.edge_args block hframe.owned term target args term_eq edge
    have hxs : xs.length = args.length := by
      rw [← args_eq.length_eq]
      simp [hlength]
    exact ⟨⟨f, hframe.goTo term_eq edge hxs⟩, hcallers⟩
  | leave term_eq returns =>
    obtain ⟨f', hcaller⟩ := hcallers _ List.mem_cons_self
    exact ⟨⟨f', hcaller _⟩, fun caller hmem => hcallers caller (List.mem_cons_of_mem _ hmem)⟩

/-- In a module in which the verifier finds nothing wrong, a call of a function that is not left out
starts if it passes an argument for each parameter, and after any number of steps the operands of
what is executed next are bound. -/
theorem operands_bound {requireReachable : Bool} (hverify : m.verify requireReachable = [])
    {id : FuncId} (hf : m.functions[id]? = some f) (hincl : f.excluded = false) {args : List UInt64}
    (hargs : args.length = f.paramTypes.length) (ledger : Ledger) (types : TypePool) (unit : String)
    (limits : EvalLimits) :
    (limits.maxDepth ≠ 0 → ∃ start, m.startEval id args ledger limits = .ok (f, start)) ∧
      ∀ start, m.startEval id args ledger limits = .ok (f, start) →
        ∀ n c, configAfter { module := m, types, unit } limits n start = some c →
          c.frame.OperandsBound m := by
  have hverified := Module.verified_of_verify hverify hf hincl
  constructor
  · intro hdepth
    obtain ⟨entry, -, hentry⟩ := hverified.entry
    exact ⟨_, startEval_eq_ok.mpr ⟨hf, hargs, hincl, hdepth, entry, hentry, rfl⟩⟩
  · intro start hstart n c hafter
    have hbound : ConfigBound m c :=
      Runs.invariant (runs_of_configAfter n hafter) (configBound_of_startEval hverify hstart)
        fun c c' hc hstep => hc.step hverify hstep
    obtain ⟨g, hframe⟩ := hbound.frame
    exact hframe.operandsBound

end

/-- A function that counts to its argument: a loop whose header has a parameter, and whose test uses
the parameter of the function. -/
def countingModule : Module where
  functions := #[{ name := "count", ret := Builtin.u64.id, paramTypes := [Builtin.u64.id]
                   paramModes := [.owned], blocks := [0, 1, 2, 3], entry := some 0 }]
  blocks := #[{ params := [0], insts := [0], term := some (.jump 1 [1]) },
              { params := [2], insts := [1], term := some (.branch 3 2 [] 3 []) },
              { insts := [2, 3], term := some (.jump 1 [5]) },
              { term := some (.ret (some 2)) }]
  insts := #[{ data := .constInt 0, result := some 1 },
             { data := .binary .lt .trap 2 0, result := some 3 },
             { data := .constInt 1, result := some 4 },
             { data := .binary .add .trap 2 4, result := some 5 }]
  values := #[{ type := Builtin.u64.id, site := .param 0 0 },
              { type := Builtin.u64.id, site := .inst 0 },
              { type := Builtin.u64.id, site := .param 1 0 },
              { type := Builtin.bool.id, site := .inst 1 },
              { type := Builtin.u64.id, site := .inst 2 },
              { type := Builtin.u64.id, site := .inst 3 }]

theorem operands_bound_counting : countingModule.verify = [] ∧
    ∀ start, countingModule.startEval 0 [3] {} {} = .ok (countingModule.functions[0], start) →
      ∀ n c, @configAfter Hashing.sha256 { module := countingModule, types := {}, unit := "t" } {} n
        start = some c →
        c.frame.OperandsBound countingModule := by
  have hverify : countingModule.verify = [] := List.isEmpty_iff.mp (by decide +kernel)
  exact ⟨hverify, (@operands_bound _ _ Hashing.sha256 _ hverify 0 rfl rfl [3] rfl {} {} "t" {}).2⟩

end ContractCompiler.Ssa
