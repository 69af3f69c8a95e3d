import ContractCompiler.Proofs.Ssa.DefinedUses
import ContractCompiler.Proofs.Ssa.FoldedWords
import ContractCompiler.Proofs.Ssa.Matching
import ContractCompiler.Proofs.Ssa.PassSteps

/-!
# Simpler control flow does the same

A branch becomes a jump if the word of its condition is a constant of the program, or if both ways
are the same. Where the verifier finds nothing wrong, the condition has a value when the branch is
executed, and this value has that word: executions go the same way step by step.

- `Env.Consts`: constants have their words;
- `ConfigConsts.step`: every step leaves it so, in the running activation and in its callers;
- `Module.Simplifies`: what becomes of the blocks and functions;
- `step_simplifies`, `run_simplifies`: steps and runs are the same;
- `evalFunction_simplifyCfg`: so are calls, after the pass.
-/

namespace ContractCompiler.Ssa

variable {m m' : Module} {f : Function}

/-! ## Constants -/

/-- The values that are constants of the program have their words. -/
def Env.Consts (m : Module) (env : Env) : Prop :=
  ∀ (v : ValueId) (x : Val) (w : UInt64), env[v]? = some x → m.constWord? v = some w → x.toWord = w

/-- A parameter is no constant. -/
theorem constWord?_of_param (hf : f.Verified m) {b : BlockId} (hb : b ∈ f.blocks) {p : ValueId}
    (hp : p ∈ (m.block b).params) : m.constWord? p = none := by
  obtain ⟨k, hk⟩ := List.getElem?_of_mem hp
  obtain ⟨value, hvalue, hsite⟩ := hf.param_site b hb k p hk
  unfold Module.constWord? Module.definition?
  obtain ⟨type, effect, site, span⟩ := value
  obtain rfl : site = .param b k := hsite
  rw [hvalue]
  rfl

/-- A result is a constant if the instruction is one. -/
theorem constWord?_of_result (hf : f.Verified m) {b : BlockId} (hb : b ∈ f.blocks) {i : InstId}
    (hi : i ∈ (m.block b).insts) {inst : Inst} (hinst : m.insts[i]? = some inst) {r : ValueId}
    (hr : inst.result = some r) : m.constWord? r = inst.data.constWord? := by
  obtain ⟨value, hvalue, hsite⟩ := hf.result_site b hb i hi inst r hinst hr
  unfold Module.constWord?
  rw [definition?_of_site hvalue hsite, hinst]
  rfl

theorem Env.Consts.insert {env : Env} (h : env.Consts m) {v : ValueId} {x : Val}
    (hx : ∀ w, m.constWord? v = some w → x.toWord = w) : Env.Consts m (env.insert v x) := by
  intro u y w hy hw
  rw [Std.HashMap.getElem?_insert] at hy
  split at hy
  · rename_i heq
    obtain rfl : v = u := by simpa using heq
    obtain rfl : x = y := by simpa using hy
    exact hx w hw
  · exact h u y w hy hw

theorem Env.Consts.define {f : Frame} (h : f.env.Consts m) {result : Option ValueId} {x : Val}
    (hx : ∀ r w, result = some r → m.constWord? r = some w → x.toWord = w) :
    (f.define result x).env.Consts m := by
  cases result with
  | none => exact h
  | some r => exact h.insert fun w => hx r w rfl

/-- Parameters are bound to whatever is passed. -/
theorem Env.Consts.bindValues {env : Env} (h : env.Consts m) {bound : List (ValueId × Val)}
    (hbound : ∀ p x, (p, x) ∈ bound → m.constWord? p = none) : (bindValues env bound).Consts m := by
  intro v x w hx hw
  rcases getElem?_bindValues hx with hmem | henv
  · rw [hbound v x hmem] at hw
    cases hw
  · exact h v x w henv hw

theorem consts_activate (hf : f.Verified m) {entry : BlockId} (hentry : entry ∈ f.blocks)
    (xs : List Val) :
    (activate m entry xs).env.Consts m := by
  have hempty : Env.Consts m {} := fun v x w hx _ => by simp at hx
  exact hempty.bindValues fun p x hp => constWord?_of_param hf hentry (List.of_mem_zip hp).1

/-- In the running activation and in its callers constants have their words, and no caller waits for
one. -/
structure ConfigConsts (m : Module) (c : Config) : Prop where
  frame : c.frame.env.Consts m
  callers : ∀ caller ∈ c.callers, caller.frame.env.Consts m ∧
    ∀ r, caller.result = some r → m.constWord? r = none

section Steps

variable [Hashing] {types : TypePool} {unit : String} {limits : EvalLimits}

theorem ConfigConsts.step {requireReachable : Bool} (hverify : m.verify requireReachable = [])
    {c c' : Config} (h : ConfigConsts m c) (hbound : ConfigBound m c)
    (hstep : Step ⟨m, types, unit⟩ limits c c') : ConfigConsts m c' := by
  obtain ⟨hconsts, hcallers⟩ := h
  obtain ⟨f, hframe⟩ := hbound.frame
  cases hstep with
  | @inst block i rest env callers depth steps store store' inst x steps_lt inst_eq
      not_call yields =>
    obtain ⟨k, hi, -, -⟩ := hframe.here_cons rfl
    refine ⟨Env.Consts.define (f := ⟨block, rest, env⟩) hconsts fun r w hr hw => ?_, hcallers⟩
    rw [constWord?_of_result hframe.verified hframe.owned (List.mem_of_getElem? hi)
      inst_eq hr] at hw
    exact toWord_of_constWord? yields hw
  | @call block i rest env callers depth steps store inst callee args xs g entry steps_lt
      inst_eq data_eq args_eq callee_eq included entry_eq depth_lt =>
    have hg := Module.verified_of_verify hverify callee_eq included
    obtain ⟨entry', hmem, hentry'⟩ := hg.entry
    obtain rfl := Option.some.inj (entry_eq.symm.trans hentry')
    obtain ⟨k, hi, -, -⟩ := hframe.here_cons rfl
    refine ⟨consts_activate hg hmem xs, fun caller hcaller => ?_⟩
    rcases List.mem_cons.mp hcaller with rfl | hcaller
    · refine ⟨hconsts, fun r hr => ?_⟩
      rw [constWord?_of_result hframe.verified hframe.owned (List.mem_of_getElem? hi) inst_eq hr,
        data_eq]
      rfl
    · exact hcallers caller hcaller
  | @goTo block target env callers depth steps store term args xs term_eq edge args_eq =>
    have htarget := hframe.verified.edge_target block hframe.owned term target args term_eq edge
    refine ⟨hconsts.bindValues fun p x hp => ?_, hcallers⟩
    obtain ⟨⟨p, a⟩, hpa, rfl⟩ := List.mem_map.mp (List.of_mem_zip hp).1
    exact constWord?_of_param hframe.verified htarget (List.of_mem_zip hpa).1
  | leave term_eq returns =>
    obtain ⟨hcaller, hresult⟩ := hcallers _ List.mem_cons_self
    refine ⟨hcaller.define fun r w hr hw => ?_,
      fun caller hmem => hcallers caller (List.mem_cons_of_mem _ hmem)⟩
    rw [hresult r hr] at hw
    cases hw

end Steps

/-! ## The pass -/

/-- An ending, or the jump that it amounts to. -/
def SimplerTerm (m : Module) (t t' : Option Terminator) : Prop :=
  t' = t ∨ ∃ term jump folded, t = some term ∧ simplifyBranch m term = some (jump, folded) ∧
    t' = some jump

/-- The same instructions and values, the same parameters and instructions of blocks, and simpler
endings. -/
structure Module.SimplerBlocks (m m' : Module) : Prop where
  insts : m'.insts = m.insts
  values : m'.values = m.values
  params : ∀ b, (m'.block b).params = (m.block b).params
  blockInsts : ∀ b, (m'.block b).insts = (m.block b).insts
  term : ∀ b, SimplerTerm m (m.block b).term (m'.block b).term

/-- A module with simpler blocks, whose functions may list fewer of them. -/
structure Module.Simplifies (m m' : Module) : Prop extends m.SimplerBlocks m' where
  heads : m.SameHeads m'

/-- The jump goes where the branch goes, once its condition has a value. -/
theorem stepTerminator_simplifyBranch {c : Config} {term jump : Terminator} {folded : Bool}
    (h : simplifyBranch m term = some (jump, folded))
    (hbound : ∀ v ∈ term.operands, v ∈ c.frame.env) (hconsts : c.frame.env.Consts m) :
    stepTerminator m c (some jump) = stepTerminator m c (some term) := by
  unfold simplifyBranch at h
  split at h
  · rename_i cond t targs e eargs
    have hcond : cond ∈ c.frame.env := hbound cond List.mem_cons_self
    have hvalue : c.frame.env[cond]? = some c.frame.env[cond] :=
      Std.HashMap.getElem?_eq_some_getElem hcond
    have hword : (c.frame.env.word cond).run c.store = (.ok c.frame.env[cond].toWord, c.store) :=
      yields_word.mpr ⟨_, hvalue, rfl, rfl⟩
    simp only [stepTerminator, hword]
    split at h
    · rename_i w hw
      obtain ⟨rfl, -⟩ := Prod.mk.inj (Option.some.inj h)
      rw [hconsts cond _ w hvalue hw]
      by_cases hnonzero : (w != 0) = true
      · simp only [if_pos hnonzero]
      · simp only [if_neg hnonzero]
    · split at h
      · rename_i hsame
        obtain ⟨rfl, hargs⟩ := Bool.and_eq_true_iff.mp hsame |>.imp_left of_decide_eq_true
        obtain rfl := eq_of_beq hargs
        obtain ⟨rfl, -⟩ := Prod.mk.inj (Option.some.inj h)
        simp only [ite_self]
      · cases h
  · cases h

section Congruence

variable (h : m.Simplifies m')

include h

theorem goTo_simplifies (c : Config) (target : BlockId) (args : List ValueId) :
    goTo m' c target args = goTo m c target args := by
  unfold goTo
  dsimp only
  rw [h.params, h.blockInsts]

theorem activate_simplifies (entry : BlockId) (xs : List Val) :
    activate m' entry xs = activate m entry xs := by
  unfold activate
  dsimp only
  rw [h.params, h.blockInsts]

theorem enter_simplifies (limits : EvalLimits) (c : Config) (callee : FuncId) (xs : List Val)
    (result : Option ValueId) :
    enter m' limits c callee xs result = enter m limits c callee xs result := by
  have hhead := h.heads callee
  unfold enter
  generalize m.functions[callee]? = f, m'.functions[callee]? = g at hhead
  cases hhead with
  | none => rfl
  | some hsame =>
    obtain ⟨blocks, rfl⟩ := hsame
    simp only [activate_simplifies h]

theorem stepTerminator_simplifies (c : Config) (t : Option Terminator) :
    stepTerminator m' c t = stepTerminator m c t := by
  cases t with
  | none => rfl
  | some term =>
    cases term with
    | jump target args => exact goTo_simplifies h c target args
    | branch cond t targs e eargs => simp only [stepTerminator, goTo_simplifies h]
    | ret value => cases value <;> rfl
    | _ => rfl

variable [Hashing] {types : TypePool} {unit : String} {limits : EvalLimits}

theorem stepInst_simplifies (c : Config) (inst : Inst) :
    stepInst ⟨m', types, unit⟩ limits c inst = stepInst ⟨m, types, unit⟩ limits c inst := by
  unfold stepInst
  simp only [evalInst_congr h.insts h.values, enter_simplifies h]

/-- Steps are the same. -/
theorem step_simplifies {c : Config} (hbound : ConfigBound m c) (hconsts : ConfigConsts m c) :
    step ⟨m', types, unit⟩ limits c = step ⟨m, types, unit⟩ limits c := by
  obtain ⟨⟨block, rest, env⟩, callers, depth, steps, store⟩ := c
  obtain ⟨f, hframe⟩ := hbound.frame
  cases rest with
  | nil =>
    simp only [step, stepTerminator_simplifies h]
    rcases h.term block with hsame | ⟨term, jump, folded, hterm, hjump, hterm'⟩
    · rw [hsame]
    · rw [hterm, hterm']
      exact stepTerminator_simplifyBranch hjump (hframe.term_operands rfl hterm) hconsts.frame
  | cons i rest => simp only [step, h.insts, stepInst_simplifies h]

/-- So are runs. -/
theorem run_simplifies {requireReachable : Bool} (hverify : m.verify requireReachable = [])
    (n : Nat) {c : Config} (hbound : ConfigBound m c) (hconsts : ConfigConsts m c) :
    run ⟨m', types, unit⟩ limits n c = run ⟨m, types, unit⟩ limits n c := by
  induction n generalizing c with
  | zero => rfl
  | succ n ih =>
    unfold run
    rw [step_simplifies h hbound hconsts]
    cases hstep : step ⟨m, types, unit⟩ limits c with
    | next c' =>
      have hnext := step_eq_next hstep
      exact ih (hbound.step hverify hnext) (hconsts.step hverify hbound hnext)
    | halted _ _ => rfl
    | returned _ _ => rfl

end Congruence

/-- A call that does not give up has the same result, and leaves the host in the same state, with
simpler control flow. -/
theorem evalFunction_of_simplifies [Hashing] (h : m.Simplifies m') {requireReachable : Bool}
    (hverify : m.verify requireReachable = []) {types : TypePool} {id : FuncId} {args : List UInt64}
    {ledger : Ledger} {unit : String} {limits : EvalLimits}
    (hexit : (m.evalFunction types id args ledger unit limits).1.exit.settled = true) :
    m'.evalFunction types id args ledger unit limits =
      m.evalFunction types id args ledger unit limits := by
  refine evalFunction_congr h.heads hexit fun f entry hf hlength hincl hentry _ => ?_
  have hverified := Module.verified_of_verify hverify hf hincl
  obtain ⟨entry', hmem, hentry'⟩ := hverified.entry
  obtain rfl := Option.some.inj (hentry.symm.trans hentry')
  have hbound : ConfigBound m (startOf m f entry args ledger) := by
    refine ⟨⟨f, .activate hverified hentry ?_⟩, fun caller hcaller => ?_⟩
    · exact (length_prepareArgs _ _ _).trans hlength
    · cases hcaller
  have hconsts : ConfigConsts m (startOf m f entry args ledger) := by
    refine ⟨consts_activate hverified hmem _, fun caller hcaller => ?_⟩
    cases hcaller
  have hstart : startOf m' f entry args ledger = startOf m f entry args ledger := by
    unfold startOf
    rw [activate_simplifies h]
  rw [hstart, run_simplifies h hverify _ hbound hconsts]
  exact .refl _

/-! ## What the pass does -/

theorem constWord?_congr (hinsts : m'.insts = m.insts) (hvalues : m'.values = m.values) :
    m'.constWord? = m.constWord? := by
  funext v
  unfold Module.constWord? Module.definition?
  rw [hinsts, hvalues]

/-- Nothing is simplified twice. -/
theorem simplifyBranch_jump {term jump : Terminator} {folded : Bool}
    (h : simplifyBranch m term = some (jump, folded)) : simplifyBranch m jump = none := by
  unfold simplifyBranch at h
  split at h
  · split at h
    · obtain ⟨rfl, -⟩ := Prod.mk.inj (Option.some.inj h)
      split
      · rfl
      · rfl
    · split at h
      · obtain ⟨rfl, -⟩ := Prod.mk.inj (Option.some.inj h)
        rfl
      · cases h
  · cases h

theorem SimplerTerm.trans {t t' t'' : Option Terminator} (h : SimplerTerm m t t')
    (h' : SimplerTerm m t' t'') :
    SimplerTerm m t t'' := by
  rcases h with rfl | ⟨term, jump, folded, hterm, hjump, rfl⟩
  · exact h'
  · rcases h' with rfl | ⟨_, jump', folded', heq, hjump', rfl⟩
    · exact .inr ⟨term, jump, folded, hterm, hjump, rfl⟩
    · obtain rfl := Option.some.inj heq
      rw [simplifyBranch_jump hjump] at hjump'
      cases hjump'

theorem simplerTerm_congr (hinsts : m'.insts = m.insts) (hvalues : m'.values = m.values)
    {t t' : Option Terminator} (h : SimplerTerm m' t t') : SimplerTerm m t t' := by
  have hbranch : simplifyBranch m' = simplifyBranch m := by
    funext term
    unfold simplifyBranch
    rw [constWord?_congr hinsts hvalues]
  unfold SimplerTerm at h
  rw [hbranch] at h
  exact h

namespace Module.SimplerBlocks

theorem refl (m : Module) : m.SimplerBlocks m :=
  ⟨rfl, rfl, fun _ => rfl, fun _ => rfl, fun _ => .inl rfl⟩

theorem trans {m'' : Module} (h : m.SimplerBlocks m') (h' : m'.SimplerBlocks m'') :
    m.SimplerBlocks m'' :=
  ⟨h'.insts.trans h.insts, h'.values.trans h.values, fun b => (h'.params b).trans (h.params b),
    fun b => (h'.blockInsts b).trans (h.blockInsts b),
    fun b => (h.term b).trans (simplerTerm_congr h.insts h.values (h'.term b))⟩

end Module.SimplerBlocks

theorem simplerBlocks_simplifyBlock (m : Module) (b : BlockId) :
    m.SimplerBlocks (m.simplifyBlock b).1 := by
  unfold Module.simplifyBlock
  split
  · exact .refl m
  · rename_i jump folded hterm
    obtain ⟨term, ht, hjump⟩ := Option.bind_eq_some_iff.mp hterm
    have hblock (k : BlockId) :
        (m.blocks.modify b fun block => { block with term := some jump }).getD k {} = m.block k ∨
        k = b ∧ (m.blocks.modify b fun block => { block with term := some jump }).getD k {} =
          { m.block k with term := some jump } :=
      getD_modify_cases m.blocks b _ k
    refine ⟨rfl, rfl, fun k => ?_, fun k => ?_, fun k => ?_⟩
    · rcases hblock k with heq | ⟨-, heq⟩
      · exact congrArg Block.params heq
      · exact (congrArg Block.params heq).trans rfl
    · rcases hblock k with heq | ⟨-, heq⟩
      · exact congrArg Block.insts heq
      · exact (congrArg Block.insts heq).trans rfl
    · rcases hblock k with heq | ⟨rfl, heq⟩
      · exact .inl (congrArg Block.term heq)
      · exact .inr ⟨term, jump, folded, ht, hjump, congrArg Block.term heq⟩

theorem simplerBlocks_simplifyBlocks (bs : List BlockId) (m : Module) :
    m.SimplerBlocks (Module.simplifyBlocks bs m).1 := by
  induction bs generalizing m with
  | nil => exact .refl m
  | cons b bs ih => exact (simplerBlocks_simplifyBlock m b).trans (ih _)

theorem functions_simplifyBlock (m : Module) (b : BlockId) :
    (m.simplifyBlock b).1.functions = m.functions := by
  unfold Module.simplifyBlock
  split
  · rfl
  · rfl

theorem functions_simplifyBlocks (bs : List BlockId) (m : Module) :
    (Module.simplifyBlocks bs m).1.functions = m.functions := by
  induction bs generalizing m with
  | nil => rfl
  | cons b bs ih => exact (ih _).trans (functions_simplifyBlock m b)

theorem sameHead_dropUnreachable (m : Module) (f : Function) :
    f.SameHead (m.dropUnreachable f) := by
  unfold Module.dropUnreachable
  dsimp only
  split
  · exact .refl f
  · exact ⟨_, rfl⟩

/-- The pass simplifies blocks, and takes blocks off the lists. -/
theorem simplifies_simplifyCfg (m : Module) : m.Simplifies m.simplifyCfg.1 := by
  have hblocks := simplerBlocks_simplifyBlocks (m.functions.toList.flatMap (·.blocks)) m
  refine ⟨⟨hblocks.insts, hblocks.values, hblocks.params, hblocks.blockInsts, hblocks.term⟩,
    fun id => ?_⟩
  show Option.Rel _ _ ((m.simplifyBlocks (m.functions.toList.flatMap (·.blocks))).1.functions.map
    _)[id]?
  rw [Array.getElem?_map, functions_simplifyBlocks]
  cases m.functions[id]? with
  | none => exact .none
  | some f => exact .some (sameHead_dropUnreachable _ f)

/-- Simplifying control flow does not change what a call does that does not give up. -/
theorem evalFunction_simplifyCfg [Hashing] {requireReachable : Bool}
    (hverify : m.verify requireReachable = []) {types : TypePool} {id : FuncId} {args : List UInt64}
    {ledger : Ledger} {unit : String} {limits : EvalLimits}
    (hexit : (m.evalFunction types id args ledger unit limits).1.exit.settled = true) :
    m.simplifyCfg.1.evalFunction types id args ledger unit limits =
      m.evalFunction types id args ledger unit limits :=
  evalFunction_of_simplifies (simplifies_simplifyCfg m) hverify hexit

end ContractCompiler.Ssa
