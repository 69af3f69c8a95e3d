import ContractCompiler.Proofs.Ssa.Dependence
import ContractCompiler.Proofs.Ssa.Effects
import ContractCompiler.Proofs.Ssa.Matching

/-!
# Taking out dead code

A round takes out the instructions that are marked as pure and whose result is used by no block of a
function. An execution then does the same in fewer steps: the values that are missing are not asked
for, and the cells that are missing are known to nobody.

- `useCounts_eq_zero_iff`: which values a round finds without a use;
- `Module.Sheds`: what a round does to the blocks of functions that are not left out;
- `Config.Trims`: a configuration, and the one that the execution without dead instructions is in;
- `Config.Trims.step`, `Config.Trims.run`: it is kept up by every step, and so a run has the same
  outcome;
- `evalFunction_removeDeadCode`: so has a call, after any number of rounds;
- `not_isDead_removeDeadCode`, `removeDeadCode_stable`: the rounds come to an end.
-/

namespace ContractCompiler.Ssa

variable {m m' : Module} {uses : Array Nat}

/-! ## Counting uses -/

/-- Counting values one by one counts how often each occurs. -/
theorem getD_countUses {v : ValueId} (vs : List ValueId) {counts : Array Nat}
    (hv : v < counts.size) :
    (vs.foldl (fun counts v => counts.modify v (· + 1)) counts).getD v 0 =
      counts.getD v 0 + vs.count v := by
  induction vs generalizing counts with
  | nil => rfl
  | cons w vs ih =>
    rw [List.foldl_cons, ih (by rwa [Array.size_modify]), List.count_cons]
    simp only [Array.getD_eq_getD_getElem?, Array.getElem?_modify, Array.getElem?_eq_getElem hv]
    by_cases hw : w = v
    · simp [hw]
      omega
    · simp [hw]

/-- The blocks of all functions. -/
def Module.listedBlocks (m : Module) : List BlockId := m.functions.toList.flatMap (·.blocks)

theorem Module.mem_listedBlocks {b : BlockId} :
    b ∈ m.listedBlocks ↔ ∃ f ∈ m.functions, b ∈ f.blocks := by
  simp [listedBlocks]

theorem size_countUses (vs : List ValueId) (counts : Array Nat) :
    (vs.foldl (fun counts v => counts.modify v (· + 1)) counts).size = counts.size := by
  induction vs generalizing counts with
  | nil => rfl
  | cons v vs ih => rw [List.foldl_cons, ih, Array.size_modify]

/-- No use is counted for the values of the module that no listed block uses, and only for these. -/
theorem useCounts_eq_zero_iff (v : ValueId) :
    m.useCounts.getD v 1 = 0 ↔ v < m.values.size ∧ ∀ b ∈ m.listedBlocks, v ∉ m.usesOfBlock b := by
  have heq : m.useCounts = (m.listedBlocks.flatMap m.usesOfBlock).foldl
      (fun counts v => counts.modify v (· + 1)) (Array.replicate m.values.size 0) := by
    rw [List.foldl_flatMap]
    rfl
  have hsize : m.useCounts.size = m.values.size := by rw [heq, size_countUses, Array.size_replicate]
  by_cases hv : v < m.values.size
  · have hcount : m.useCounts.getD v 1 = m.useCounts.getD v 0 := by
      simp [Array.getD_eq_getD_getElem?, hsize, hv]
    rw [hcount, heq, getD_countUses _ (by simpa using hv)]
    simp [Array.getD_eq_getD_getElem?, hv, List.count_eq_zero, List.mem_flatMap]
  · have hnone : m.useCounts[v]? = none := Array.getElem?_eq_none_iff.mpr (hsize ▸ Nat.not_lt.mp hv)
    simp [Array.getD_eq_getD_getElem?, hnone, hv]

/-! ## A round -/

/-- A block of a function that is not left out. -/
def Module.Live (m : Module) (b : BlockId) : Prop :=
  ∃ f ∈ m.functions, f.excluded = false ∧ b ∈ f.blocks

/-- Executions stay in the blocks of functions that are not left out. -/
structure Module.Closed (m : Module) : Prop where
  entry : ∀ f ∈ m.functions, f.excluded = false → ∀ e, f.entry = some e → m.Live e
  target : ∀ b, m.Live b → ∀ term target args, (m.block b).term = some term →
      args ∈ term.argsTo target →
    m.Live target

/-- A module in which the verifier finds nothing wrong is closed. -/
theorem Module.closed_of_verify {requireReachable : Bool} (h : m.verify requireReachable = []) :
    m.Closed := by
  have hverified (f : Function) (hf : f ∈ m.functions) (hincl : f.excluded = false) :
      f.Verified m := by
    obtain ⟨id, hid⟩ := Array.getElem?_of_mem hf
    exact verified_of_verify h hid hincl
  constructor
  · intro f hf hincl e he
    obtain ⟨entry, hmem, hentry⟩ := (hverified f hf hincl).entry
    obtain rfl := Option.some.inj (hentry.symm.trans he)
    exact ⟨f, hf, hincl, hmem⟩
  · rintro b ⟨f, hf, hincl, hb⟩ term target args hterm hargs
    exact ⟨f, hf, hincl, (hverified f hf hincl).edge_target b hb term target args hterm hargs⟩

/-- Whether an instruction is kept. -/
def Module.keeps (m : Module) (uses : Array Nat) (i : InstId) : Bool :=
  !((m.insts[i]?).any (isDead uses))

/-- A value without a use. -/
def Unused (uses : Array Nat) (v : ValueId) : Prop := uses.getD v 1 = 0

/-- A module without the instructions of another one that only compute a value without a use. -/
structure Module.Sheds (uses : Array Nat) (m m' : Module) : Prop where
  functions : m'.functions = m.functions
  insts : m'.insts = m.insts
  values : m'.values = m.values
  block : ∀ b, m.Live b → m'.block b =
      { m.block b with insts := (m.block b).insts.filter (m.keeps uses) }
  used : ∀ b, m.Live b → ∀ v ∈ m.usesOfBlock b, ¬Unused uses v
  /-- What stands for a missing operand is not taken for a value. -/
  invalid : ¬Unused uses invalidId
  tagged : m.Tagged
  closed : m.Closed

theorem pruneBlocks_cons (b : BlockId) (bs : List BlockId) (m : Module) :
    m.pruneBlocks uses (b :: bs) = (m.pruneBlocks uses [b]).pruneBlocks uses bs := rfl

theorem block_pruneBlocks_singleton (b c : BlockId) (m : Module) :
    (m.pruneBlocks uses [c]).block b =
      if b = c then { m.block b with insts := (m.block b).insts.filter (m.keeps uses) }
        else m.block b := by
  unfold Module.pruneBlocks Module.pruneBlocks Module.block
  simp only [Array.getD_eq_getD_getElem?, Array.getElem?_modify, eq_comm (a := b)]
  split
  · rename_i heq
    subst heq
    cases m.blocks[c]? with
    | none => rfl
    | some block => rfl
  · rfl

/-- A block after a round, which may come across it more than once. -/
theorem block_pruneBlocks (bs : List BlockId) (m : Module) (b : BlockId) :
    (m.pruneBlocks uses bs).block b =
      if b ∈ bs then { m.block b with insts := (m.block b).insts.filter (m.keeps uses) }
        else m.block b := by
  induction bs generalizing m with
  | nil => rfl
  | cons c bs ih =>
    have hkeeps : (m.pruneBlocks uses [c]).keeps uses = m.keeps uses := rfl
    rw [pruneBlocks_cons, ih, block_pruneBlocks_singleton, hkeeps]
    by_cases hc : b = c
    · subst hc
      simp only [if_true, List.mem_cons, true_or, List.filter_filter, Bool.and_self, ite_self]
    · simp only [hc, if_false, List.mem_cons, false_or]

theorem Module.Live.mem_listedBlocks {b : BlockId} (h : m.Live b) : b ∈ m.listedBlocks := by
  obtain ⟨f, hf, -, hb⟩ := h
  exact Module.mem_listedBlocks.mpr ⟨f, hf, hb⟩

theorem functions_pruneBlocks (bs : List BlockId) (m : Module) :
    (m.pruneBlocks uses bs).functions = m.functions := by
  induction bs generalizing m with
  | nil => rfl
  | cons b bs ih => exact ih _

/-- A round sheds instructions. -/
theorem sheds_pruneBlocks (hfits : m.values.size ≤ invalidId) (htagged : m.Tagged)
    (hclosed : m.Closed) :
    m.Sheds m.useCounts (m.pruneBlocks m.useCounts m.listedBlocks) := by
  have hprunes := prunes_pruneBlocks m.useCounts m.listedBlocks m
  refine ⟨functions_pruneBlocks _ m, hprunes.insts, hprunes.values, fun b hb => ?_,
    fun b hb v hv hunused => ?_,
    fun hunused => ?_, htagged, hclosed⟩
  · rw [block_pruneBlocks, if_pos hb.mem_listedBlocks]
  · exact ((useCounts_eq_zero_iff v).mp hunused).2 b hb.mem_listedBlocks hv
  · exact absurd ((useCounts_eq_zero_iff invalidId).mp hunused).1 (Nat.not_lt.mpr hfits)

/-! ## Configurations -/

/-- An activation, and the one without dead instructions: the values that are used are alike. -/
structure Frame.Trims (m : Module) (uses : Array Nat) (ρ : CellMatch) (f f' : Frame) : Prop where
  block : f'.block = f.block
  live : m.Live f.block
  within : ∀ i ∈ f.rest, i ∈ (m.block f.block).insts
  rest : f'.rest = f.rest.filter (m.keeps uses)
  env : f.env.Like (Unused uses) ρ f'.env

/-- Callers that wait for the same results. -/
def Caller.Trims (m : Module) (uses : Array Nat) (ρ : CellMatch) (c c' : Caller) : Prop :=
  c.frame.Trims m uses ρ c'.frame ∧ c'.result = c.result

/-- A configuration, and the one without dead instructions, which has taken fewer steps. -/
structure Config.Trims (m : Module) (uses : Array Nat) (ρ : CellMatch) (c c' : Config) : Prop where
  frame : c.frame.Trims m uses ρ c'.frame
  callers : List.Forall₂ (Caller.Trims m uses ρ) c.callers c'.callers
  depth : c'.depth = c.depth
  steps : c'.steps ≤ c.steps
  store : c.store.Like ρ c'.store

section Frames

variable {ρ ρ' : CellMatch} {f f' : Frame}

theorem Frame.Trims.mono (hle : ρ.Within ρ') (h : f.Trims m uses ρ f') : f.Trims m uses ρ' f' :=
  ⟨h.block, h.live, h.within, h.rest, h.env.mono hle⟩

theorem callersTrim_mono (hle : ρ.Within ρ') {cs cs' : List Caller}
    (h : List.Forall₂ (Caller.Trims m uses ρ) cs cs') :
    List.Forall₂ (Caller.Trims m uses ρ') cs cs' :=
  h.imp fun _ _ hc => ⟨hc.1.mono hle, hc.2⟩

/-- Both activations bind a result. -/
theorem Frame.Trims.define (h : f.Trims m uses ρ f') (result : Option ValueId) {x y : Val}
    (hxy : x.Like ρ y) : (f.define result x).Trims m uses ρ (f'.define result y) := by
  cases result with
  | none => exact h
  | some r => exact ⟨h.block, h.live, h.within, h.rest, h.env.insert r hxy⟩

theorem like_bindValues {D : ValueId → Prop} {env env' : Env} (h : env.Like D ρ env')
    {xs ys : List Val} (hxs : List.Forall₂ (Val.Like ρ) xs ys) (ps : List ValueId) :
    (bindValues env (ps.zip xs)).Like D ρ (bindValues env' (ps.zip ys)) := by
  induction hxs generalizing ps env env' with
  | nil => cases ps <;> exact h
  | cons hxy _ ih =>
    cases ps with
    | nil => exact h
    | cons p ps => exact ih (h.insert p hxy) ps

/-- The activations that a call starts. -/
theorem trims_activate (h : m.Sheds uses m') {entry : BlockId} (hentry : m.Live entry)
    {xs ys : List Val} (hxs : List.Forall₂ (Val.Like ρ) xs ys) :
    (activate m entry xs).Trims m uses ρ (activate m' entry ys) := by
  unfold activate
  rw [h.block entry hentry]
  have hempty : Env.Like (Unused uses) ρ {} {} := fun v _ => by
    rw [Std.HashMap.getElem?_empty]
    exact .none
  exact ⟨rfl, hentry, fun _ hi => hi, rfl, like_bindValues hempty hxs _⟩

end Frames

/-- Cells that only one execution makes correspond to none. -/
theorem Store.Like.grow_left {ρ : CellMatch} {s s' t : Store} (h : s.Like ρ t)
    (hgrows : s.Grows s') :
    s'.Like ρ t := by
  refine ⟨hgrows.ledger.trans h.ledger, hgrows.hostStatus.trans h.hostStatus, fun i j hij => ?_,
    h.right_unique, h.left_unique⟩
  obtain ⟨x, y, hx, hy, hxy⟩ := h.cells i j hij
  exact ⟨x, y, hgrows.cells i x hx, hy, hxy⟩

/-! ## Steps -/

/-- Steps that lead to corresponding configurations, or that end the execution in the same way. -/
inductive Progress.Trims (m : Module) (uses : Array Nat) : Progress → Progress → Prop where
  | next {ρ : CellMatch} {c c' : Config} (h : c.Trims m uses ρ c') :
      Trims m uses (.next c) (.next c')
  | halted {ρ : CellMatch} (h : Halt) {s t : Store} (hst : s.Like ρ t) :
      Trims m uses (.halted h s) (.halted h t)
  | returned {ρ : CellMatch} {x y : Val} {s t : Store} (hxy : x.Like ρ y) (hst : s.Like ρ t) :
      Trims m uses (.returned x s) (.returned y t)

/-- A step gives the run up. -/
def Progress.GivesUp (p : Progress) : Prop := ∃ h s, p = .halted h s ∧ h.exit.settled = false

section Steps

variable {ρ : CellMatch} {limits : EvalLimits} {env env' : Env} {callers callers' : List Caller}
  {depth steps steps' : Nat} {store store' : Store}

theorem trims_goTo (h : m.Sheds uses m') (block : BlockId) (henv : env.Like (Unused uses) ρ env')
    (hcallers : List.Forall₂ (Caller.Trims m uses ρ) callers callers') (hsteps : steps' ≤ steps)
    (hstore : store.Like ρ store') {target : BlockId} (htarget : m.Live target)
    {args : List ValueId} (hargs : ∀ v ∈ args, ¬Unused uses v) :
    (goTo m ⟨⟨block, [], env⟩, callers, depth, steps, store⟩ target args).Trims m uses
      (goTo m' ⟨⟨block, [], env'⟩, callers', depth, steps', store'⟩ target args) := by
  have hblock := h.block target htarget
  have hvalues : ∀ v ∈ ((m.block target).params.zip args).map (·.2), ¬Unused uses v := by
    intro v hv
    obtain ⟨⟨p, a⟩, hpa, rfl⟩ := List.mem_map.mp hv
    exact hargs a (List.of_mem_zip hpa).2
  unfold goTo
  dsimp only
  rw [hblock]
  dsimp only
  rcases agree_valueList henv hvalues store store' hstore with
    ⟨ρ', hle, xs, ys, s, t, hx, hy, hst, hxs⟩ | ⟨ρ', halt, s, t, hx, hy, hst⟩
  · rw [hx, hy]
    refine .next ⟨⟨rfl, htarget, fun _ hi => hi, rfl, ?_⟩, callersTrim_mono hle hcallers, rfl,
      hsteps, hst⟩
    exact like_bindValues (henv.mono hle) hxs _
  · rw [hx, hy]
    exact .halted halt hst

theorem trims_leave {frame frame' : Frame}
    (hcallers : List.Forall₂ (Caller.Trims m uses ρ) callers callers') (hsteps : steps' ≤ steps)
    (hstore : store.Like ρ store') {x y : Val} (hxy : x.Like ρ y) :
    (leave ⟨frame, callers, depth, steps, store⟩ x).Trims m uses
      (leave ⟨frame', callers', depth, steps', store'⟩ y) := by
  cases hcallers with
  | nil => exact .returned hxy hstore
  | @cons caller caller' _ _ hcaller hrest =>
    refine .next ⟨?_, hrest, rfl, hsteps, hstore⟩
    rw [hcaller.2]
    exact hcaller.1.define _ hxy

theorem trims_stepTerminator (h : m.Sheds uses m') {block : BlockId} (hlive : m.Live block)
    (henv : env.Like (Unused uses) ρ env')
    (hcallers : List.Forall₂ (Caller.Trims m uses ρ) callers callers') (hsteps : steps' ≤ steps)
    (hstore : store.Like ρ store') :
    (stepTerminator m ⟨⟨block, [], env⟩, callers, depth, steps, store⟩ (m.block block).term).Trims
      m uses
      (stepTerminator m' ⟨⟨block, [], env'⟩, callers', depth, steps', store'⟩
        (m.block block).term) := by
  cases hterm : (m.block block).term with
  | none => exact .halted _ hstore
  | some term =>
    have hused : ∀ v ∈ term.operands, ¬Unused uses v := fun v hv =>
      h.used block hlive v (Module.mem_usesOfBlock.mpr (.inr ⟨term, hterm, hv⟩))
    have htarget (target : BlockId) (args : List ValueId) (hargs : args ∈ term.argsTo target) :
        m.Live target :=
      h.closed.target block hlive term target args hterm hargs
    cases term with
    | jump target args =>
      exact trims_goTo h block henv hcallers hsteps hstore
        (htarget target args (by simp [Terminator.argsTo])) hused
    | branch cond t targs e eargs =>
      simp only [Terminator.operands, List.mem_cons, List.mem_append] at hused
      simp only [stepTerminator]
      rcases agree_word henv (hused cond (.inl rfl)) store store' hstore with
        ⟨ρ', hle, a, b, s, s', ha, hb, -, hab⟩ | ⟨ρ', halt, s, s', ha, hb, hst⟩
      · rw [ha, hb]
        subst hab
        dsimp only
        split
        · exact trims_goTo h block henv hcallers hsteps hstore
            (htarget t targs (by simp [Terminator.argsTo])) fun v hv => hused v (.inr (.inl hv))
        · exact trims_goTo h block henv hcallers hsteps hstore
            (htarget e eargs (by simp [Terminator.argsTo])) fun v hv => hused v (.inr (.inr hv))
      · rw [ha, hb]
        exact .halted halt hstore
    | ret value =>
      cases value with
      | none => exact trims_leave hcallers hsteps hstore (.word _)
      | some v =>
        have hv : ¬Unused uses v := hused v (by simp [Terminator.operands])
        simp only [stepTerminator]
        rcases agree_value henv hv store store' hstore with
          ⟨ρ', hle, x, y, s, s', hx, hy, -, hxy⟩ | ⟨ρ', halt, s, s', hx, hy, hst⟩
        · rw [hx, hy]
          have hrel := henv v hv
          rw [(yields_value.mp hx).1, (yields_value.mp hy).1] at hrel
          cases hrel with
          | some hxy => exact trims_leave hcallers hsteps hstore hxy
        · rw [hx, hy]
          exact .halted halt hstore
    | revert message => exact .halted _ hstore
    | panic message => exact .halted _ hstore
    | unreachable => exact .halted _ hstore

/-- A call of a function. -/
theorem trims_enter (h : m.Sheds uses m') {f f' : Frame} (hf : f.Trims m uses ρ f')
    (hcallers : List.Forall₂ (Caller.Trims m uses ρ) callers callers') (hsteps : steps' ≤ steps)
    (hstore : store.Like ρ store') {xs ys : List Val} (hxs : List.Forall₂ (Val.Like ρ) xs ys)
    (callee : FuncId) (result : Option ValueId) :
    (enter m limits ⟨f, callers, depth, steps, store⟩ callee xs result).Trims m uses
      (enter m' limits ⟨f', callers', depth, steps', store'⟩ callee ys result) := by
  unfold enter
  rw [h.functions]
  cases hg : m.functions[callee]? with
  | none => exact .halted _ hstore
  | some g =>
    cases hexcl : g.excluded with
    | true =>
      simp only [hexcl]
      exact .halted _ hstore
    | false =>
      cases hentry : g.entry with
      | none =>
        simp only [hexcl, hentry]
        exact .halted _ hstore
      | some entry =>
        simp only [hexcl, hentry]
        split
        · exact .halted _ hstore
        · have hlive : m.Live entry := h.closed.entry g (Array.mem_of_getElem? hg)
            hexcl entry hentry
          exact .next ⟨trims_activate h hlive hxs, .cons ⟨hf, rfl⟩ hcallers, rfl, hsteps, hstore⟩

variable [Hashing] {types : TypePool} {unit : String}

/-- An instruction that is kept. -/
theorem trims_stepInst (h : m.Sheds uses m') {f f' : Frame} (hf : f.Trims m uses ρ f')
    (hcallers : List.Forall₂ (Caller.Trims m uses ρ) callers callers') (hsteps : steps' ≤ steps)
    (hstore : store.Like ρ store') {inst : Inst}
    (hused : ∀ v ∈ inst.data.operands, ¬Unused uses v) :
    (stepInst ⟨m, types, unit⟩ limits ⟨f, callers, depth, steps, store⟩ inst).Trims m uses
      (stepInst ⟨m', types, unit⟩ limits ⟨f', callers', depth, steps', store'⟩ inst) := by
  cases hcall : inst.data.callee? with
  | none =>
    rcases agree_evalInst ⟨m, types, unit⟩ inst hf.env hused h.invalid store store' hstore with
      ⟨ρ', hle, x, y, s, t, hx, hy, hst, hxy⟩ | ⟨ρ', halt, s, t, hx, hy, hst⟩
    · rw [← evalInst_congr h.insts h.values] at hy
      rw [stepInst_of_ok hcall hx, stepInst_of_ok hcall hy]
      exact .next ⟨(hf.mono hle).define _ hxy, callersTrim_mono hle hcallers, rfl, hsteps, hst⟩
    · rw [← evalInst_congr h.insts h.values] at hy
      rw [stepInst_of_error hcall hx, stepInst_of_error hcall hy]
      exact .halted halt hst
  | some callee =>
    unfold stepInst
    cases hdata : inst.data with
    | call callee args =>
      have hargs : ∀ v ∈ args, ¬Unused uses v := fun v hv =>
        hused v (by simpa [hdata, InstData.operands] using hv)
      dsimp only
      rcases agree_valueList hf.env hargs store store' hstore with
        ⟨ρ', hle, xs, ys, s, t, hx, hy, hst, hxs⟩ | ⟨ρ', halt, s, t, hx, hy, -⟩
      · obtain ⟨hall, rfl⟩ := yields_valueList.mp hx
        obtain ⟨hall', rfl⟩ := yields_valueList.mp hy
        rw [hx, hy]
        exact trims_enter h (hf.mono hle) (callersTrim_mono hle hcallers)
          hsteps hst hxs callee inst.result
      · rw [hx, hy]
        exact .halted halt hstore
    | _ =>
      rw [hdata] at hcall
      cases hcall

/-- A dead instruction gives the run up, or only the execution of the whole module takes a step. -/
theorem trims_dead (h : m.Sheds uses m') {f f' : Frame} (hf : f.Trims m uses ρ f')
    (hcallers : List.Forall₂ (Caller.Trims m uses ρ) callers callers') (hsteps : steps' ≤ steps)
    (hstore : store.Like ρ store') {i : InstId} {inst : Inst} (hinst : m.insts[i]? = some inst)
    (hdead : isDead uses inst = true) :
    (stepInst ⟨m, types, unit⟩ limits ⟨f, callers, depth, steps, store⟩ inst).GivesUp ∨
      ∃ c, stepInst ⟨m, types, unit⟩ limits ⟨f, callers, depth, steps, store⟩ inst = .next c ∧
        c.Trims m uses ρ ⟨f', callers', depth, steps', store'⟩ := by
  unfold isDead at hdead
  rw [Bool.and_eq_true, beq_iff_eq, Option.any_eq_true] at hdead
  obtain ⟨heffect, r, hresult, hr⟩ := hdead
  have hunused : Unused uses r := beq_iff_eq.mp hr
  have hquiet : inst.data.isQuiet = true := h.tagged.inst hinst heffect
  have heval := quiet_evalInst ⟨m, types, unit⟩ hquiet f.env
  rcases hrun : (EvalContext.evalInst ⟨m, types, unit⟩ inst f.env).run store with ⟨e | x, s⟩
  · exact .inl ⟨e, s, stepInst_of_error (InstData.callee?_of_isQuiet hquiet) hrun,
      heval.fails store e s hrun⟩
  · refine .inr ⟨_, stepInst_of_ok (InstData.callee?_of_isQuiet hquiet) hrun, ?_⟩
    rw [hresult]
    exact ⟨⟨hf.block, hf.live, hf.within, hf.rest, hf.env.insert_left hunused x⟩, hcallers,
      rfl, hsteps,
      hstore.grow_left (heval.grows store x s hrun)⟩

/-- A step of the execution of the whole module gives the run up, or is one more than the other
execution takes, or corresponds to one of its steps. -/
theorem Config.Trims.step (h : m.Sheds uses m') {c c' : Config} (hc : c.Trims m uses ρ c') :
    (Ssa.step ⟨m, types, unit⟩ limits c).GivesUp ∨
      (∃ c₁, Ssa.step ⟨m, types, unit⟩ limits c = .next c₁ ∧ c₁.Trims m uses ρ c') ∨
      (Ssa.step ⟨m, types, unit⟩ limits c).Trims m uses (Ssa.step ⟨m', types, unit⟩ limits c') := by
  obtain ⟨⟨block, rest, env⟩, callers, depth, steps, store⟩ := c
  obtain ⟨⟨block', rest', env'⟩, callers', depth', steps', store'⟩ := c'
  obtain ⟨⟨hblock, hlive, hwithin, hrest, henv⟩, hcallers, hdepth, hsteps, hstore⟩ := hc
  dsimp only at hblock hlive hwithin hrest henv hcallers hdepth hsteps hstore
  subst hblock hrest hdepth
  cases rest with
  | nil =>
    refine .inr (.inr ?_)
    have hterm : (m'.block block').term = (m.block block').term := by rw [h.block block' hlive]
    simp only [Ssa.step, List.filter_nil, hterm]
    exact trims_stepTerminator h hlive henv hcallers hsteps hstore
  | cons i rest =>
    by_cases hlimit : limits.maxSteps ≤ steps
    · refine .inl ⟨.error "step limit", store, ?_, rfl⟩
      simp only [Ssa.step, if_pos hlimit]
    cases hinst : m.insts[i]? with
    | none =>
      refine .inl ⟨.error "no such instruction", store, ?_, rfl⟩
      simp only [Ssa.step, if_neg hlimit, hinst]
    | some inst =>
      have hstep : Ssa.step ⟨m, types, unit⟩ limits
          ⟨⟨block', i :: rest, env⟩, callers, depth', steps, store⟩ =
          stepInst ⟨m, types, unit⟩ limits ⟨⟨block', rest, env⟩, callers, depth', steps + 1,
            store⟩ inst := by
        simp only [Ssa.step, if_neg hlimit, hinst]
      have hframe : Frame.Trims m uses ρ ⟨block', rest, env⟩
          ⟨block', rest.filter (m.keeps uses), env'⟩ :=
        ⟨rfl, hlive, fun j hj => hwithin j (List.mem_cons_of_mem _ hj), rfl, henv⟩
      rw [hstep]
      cases hdead : isDead uses inst with
      | true =>
        have hkeeps : m.keeps uses i = false := by simp [Module.keeps, hinst, hdead]
        rw [List.filter_cons_of_neg (by simp [hkeeps])]
        rcases trims_dead h hframe hcallers (Nat.le_succ_of_le hsteps)
          hstore hinst hdead with hup | hnext
        · exact .inl hup
        · exact .inr (.inl hnext)
      | false =>
        have hkeeps : m.keeps uses i = true := by simp [Module.keeps, hinst, hdead]
        have hlimit' : ¬limits.maxSteps ≤ steps' := fun hle => hlimit (hle.trans hsteps)
        have hused : ∀ v ∈ inst.data.operands, ¬Unused uses v := fun v hv =>
          h.used block' hlive v (Module.mem_usesOfBlock.mpr
            (.inl ⟨i, hwithin i List.mem_cons_self, inst, hinst, hv⟩))
        refine .inr (.inr ?_)
        rw [List.filter_cons_of_pos hkeeps]
        simp only [Ssa.step, if_neg hlimit', h.insts, hinst]
        exact trims_stepInst h hframe hcallers (Nat.succ_le_succ hsteps) hstore hused

end Steps

/-! ## Runs -/

section Runs

variable [Hashing] {types : TypePool} {unit : String} {limits : EvalLimits}

/-- An execution that does not give up ends in the same way without dead instructions. -/
theorem Config.Trims.run (h : m.Sheds uses m') {ρ : CellMatch} {n n' : Nat} (hle : n ≤ n')
    {c c' : Config} (hc : c.Trims m uses ρ c')
    (hends : ∀ e, (Ssa.run ⟨m, types, unit⟩ limits n c).1 = .error e → e.exit.settled = true) :
    EndsAlike (Ssa.run ⟨m, types, unit⟩ limits n c) (Ssa.run ⟨m', types, unit⟩ limits n' c') := by
  induction n generalizing n' ρ c c' with
  | zero => cases hends _ rfl
  | succ n ih =>
    obtain ⟨k, rfl⟩ : ∃ k, n' = k + 1 := ⟨n' - 1, by omega⟩
    rcases hc.step h with ⟨e, s, hstep, hexit⟩ | ⟨c₁, hstep, hc₁⟩ | hboth
    · refine absurd (hends e ?_) (Bool.eq_false_iff.mp hexit)
      unfold Ssa.run
      rw [hstep]
    · -- the other execution waits
      have hrun : Ssa.run ⟨m, types, unit⟩ limits (n + 1) c =
          Ssa.run ⟨m, types, unit⟩ limits n c₁ := by
        rw [Ssa.run, hstep]
      rw [hrun] at hends ⊢
      exact ih (by omega) hc₁ hends
    · unfold Ssa.run at hends ⊢
      cases hstep : Ssa.step ⟨m, types, unit⟩ limits c with
      | next c₁ =>
        rw [hstep] at hboth hends
        cases hstep' : Ssa.step ⟨m', types, unit⟩ limits c' with
        | next c₁' =>
          rw [hstep'] at hboth
          cases hboth with
          | next hc₁ => exact ih (Nat.le_of_succ_le_succ hle) hc₁ hends
        | _ =>
          rw [hstep'] at hboth
          cases hboth
      | halted e s =>
        rw [hstep] at hboth
        cases hstep' : Ssa.step ⟨m', types, unit⟩ limits c' with
        | halted e' t =>
          rw [hstep'] at hboth
          cases hboth with
          | halted _ hst => exact .stopped e hst.ledger hst.hostStatus
        | _ =>
          rw [hstep'] at hboth
          cases hboth
      | returned x s =>
        rw [hstep] at hboth
        cases hstep' : Ssa.step ⟨m', types, unit⟩ limits c' with
        | returned y t =>
          rw [hstep'] at hboth
          cases hboth with
          | returned hxy hst => exact .returned hxy.toWord hst.ledger hst.hostStatus
        | _ =>
          rw [hstep'] at hboth
          cases hboth

end Runs

/-! ## Calls -/

section Calls

variable [Hashing]

/-- A call that does not give up has the same result, and leaves the host in the same state, without
dead instructions. -/
theorem evalFunction_of_sheds (h : m.Sheds uses m') (types : TypePool) (id : FuncId)
    (args : List UInt64) (ledger : Ledger) (unit : String) (limits : EvalLimits)
    (hexit : (m.evalFunction types id args ledger unit limits).1.exit.settled = true) :
    m'.evalFunction types id args ledger unit limits =
      m.evalFunction types id args ledger unit limits := by
  have hheads : m.SameHeads m' := by
    intro id
    rw [h.functions]
    exact Option.rel_refl_of Function.SameHead.refl _
  refine evalFunction_congr hheads hexit fun f entry hf _ hincl hentry hends => ?_
  obtain ⟨ρ, -, hstore, hargs⟩ := like_prepareArgs args f.paramModes (Store.like_empty ledger)
  have hlive : m.Live entry := h.closed.entry f (Array.mem_of_getElem? hf) hincl entry hentry
  have hstart : (startOf m f entry args ledger).Trims m uses ρ (startOf m' f entry args ledger) :=
    ⟨trims_activate h hlive hargs, .nil, rfl, le_rfl, hstore⟩
  exact hstart.run h le_rfl hends

end Calls

/-! ## Rounds -/

theorem Module.Sheds.live_iff (h : m.Sheds uses m') {b : BlockId} : m'.Live b ↔ m.Live b := by
  unfold Module.Live
  rw [h.functions]

/-- What a round relies on still holds after it. -/
theorem Module.Sheds.after (h : m.Sheds uses m') : m'.Tagged ∧ m'.Closed := by
  refine ⟨?_, ?_, ?_⟩
  · unfold Module.Tagged
    rw [h.insts]
    exact h.tagged
  · intro f hf hincl e he
    rw [h.functions] at hf
    exact h.live_iff.mpr (h.closed.entry f hf hincl e he)
  · intro b hb term target args hterm hargs
    have hlive : m.Live b := h.live_iff.mp hb
    rw [h.block b hlive] at hterm
    exact h.live_iff.mpr (h.closed.target b hlive term target args hterm hargs)

theorem pruneRounds_succ (n : Nat) (m : Module) (changed : Bool) :
    m.pruneRounds (n + 1) changed =
      if (m.pruneBlocks m.useCounts m.listedBlocks).counts.instsRemoved =
        m.counts.instsRemoved then (m, changed)
      else (m.pruneBlocks m.useCounts m.listedBlocks).pruneRounds n true := rfl

/-- Rounds do not change what a call does that does not give up. -/
theorem evalFunction_pruneRounds [Hashing] (n : Nat) (htagged : m.Tagged) (hclosed : m.Closed)
    (hfits : m.values.size ≤ invalidId) (changed : Bool) {types : TypePool} {id : FuncId}
    {args : List UInt64} {ledger : Ledger} {unit : String} {limits : EvalLimits}
    (hexit : (m.evalFunction types id args ledger unit limits).1.exit.settled = true) :
    (m.pruneRounds n changed).1.evalFunction types id args ledger unit limits =
      m.evalFunction types id args ledger unit limits := by
  induction n generalizing m changed with
  | zero => rfl
  | succ n ih =>
    rw [pruneRounds_succ]
    split
    · rfl
    · have hsheds := sheds_pruneBlocks hfits htagged hclosed
      have heq := evalFunction_of_sheds hsheds types id args ledger unit limits hexit
      rw [← heq]
      rw [← heq] at hexit
      exact ih hsheds.after.1 hsheds.after.2 (by rwa [hsheds.values]) true hexit

/-! ### Their end -/

/-- How many instructions there are in blocks. -/
def Module.instCount (m : Module) : Nat := (m.blocks.toList.map (·.insts.length)).sum

theorem sum_modify {α : Type} (g : α → Nat) (f : α → α) (xs : List α) (k : Nat) :
    ((xs.modify k f).map g).sum + (xs[k]?.map g).getD 0 =
      (xs.map g).sum + (xs[k]?.map fun x => g (f x)).getD 0 := by
  induction xs generalizing k with
  | nil => cases k <;> rfl
  | cons x xs ih =>
    cases k with
    | zero =>
      simp
      omega
    | succ k =>
      have htail := ih k
      simp
      omega

variable (uses) in
/-- What is taken out of blocks is counted. -/
theorem instCount_pruneBlocks (bs : List BlockId) (m : Module) :
    (m.pruneBlocks uses bs).instCount + (m.pruneBlocks uses bs).counts.instsRemoved =
      m.instCount + m.counts.instsRemoved := by
  induction bs generalizing m with
  | nil => rfl
  | cons b bs ih =>
    unfold Module.pruneBlocks
    dsimp only
    rw [ih]
    have hle : (m.keptInsts uses (m.block b)).length ≤ (m.block b).insts.length :=
      List.length_filter_le _ _
    have hsum := sum_modify (fun block : Block => block.insts.length)
      (fun block => { block with insts := m.keptInsts uses (m.block b) }) m.blocks.toList b
    have hblock : ((m.blocks.toList[b]?).map fun block => block.insts.length).getD 0 =
        (m.block b).insts.length ∧
        ((m.blocks.toList[b]?).map fun _ => (m.keptInsts uses (m.block b)).length).getD 0 =
          (m.keptInsts uses (m.block b)).length := by
      unfold Module.block
      rw [Array.getElem?_toList, Array.getD_eq_getD_getElem?]
      cases m.blocks[b]? <;> exact ⟨rfl, rfl⟩
    rw [hblock.1] at hsum
    unfold Module.instCount
    dsimp only at hsum ⊢
    rw [hblock.2] at hsum
    rw [Array.toList_modify]
    omega

variable (uses) in
theorem instsRemoved_pruneBlocks (bs : List BlockId) (m : Module) :
    m.counts.instsRemoved ≤ (m.pruneBlocks uses bs).counts.instsRemoved := by
  induction bs generalizing m with
  | nil => exact le_rfl
  | cons b bs ih => exact (Nat.le_add_right _ _).trans (ih (m.pruneBlocks uses [b]))

/-- A round that takes nothing out finds nothing to take out. -/
theorem keeps_of_instsRemoved_eq (bs : List BlockId) (m : Module)
    (h : (m.pruneBlocks uses bs).counts.instsRemoved = m.counts.instsRemoved) :
    ∀ b ∈ bs, ∀ i ∈ (m.block b).insts, m.keeps uses i = true := by
  induction bs generalizing m with
  | nil => simp
  | cons c bs ih =>
    rw [pruneBlocks_cons] at h
    have hle := instsRemoved_pruneBlocks uses bs (m.pruneBlocks uses [c])
    have hcount : (m.pruneBlocks uses [c]).counts.instsRemoved = m.counts.instsRemoved +
      ((m.block c).insts.length - ((m.block c).insts.filter (m.keeps uses)).length) := rfl
    have hlength := List.length_filter_le (m.keeps uses) (m.block c).insts
    have hhead : ∀ i ∈ (m.block c).insts, m.keeps uses i = true :=
      List.length_filter_eq_length_iff.mp (by omega)
    intro b hb i hi
    by_cases hc : b = c
    · subst hc
      exact hhead i hi
    · have hblock : (m.pruneBlocks uses [c]).block b = m.block b := by
        rw [block_pruneBlocks_singleton, if_neg hc]
      exact ih (m.pruneBlocks uses [c]) (by omega) b ((List.mem_cons.mp hb).resolve_left hc) i
        (hblock ▸ hi)

/-- A round takes nothing out. -/
def Module.Pruned (m : Module) : Prop :=
  (m.pruneBlocks m.useCounts m.listedBlocks).counts.instsRemoved = m.counts.instsRemoved

theorem instCount_lt_of_not_pruned (h : ¬m.Pruned) :
    (m.pruneBlocks m.useCounts m.listedBlocks).instCount < m.instCount := by
  have hsum := instCount_pruneBlocks m.useCounts m.listedBlocks m
  have hle := instsRemoved_pruneBlocks m.useCounts m.listedBlocks m
  unfold Module.Pruned at h
  omega

/-- As many rounds as there are instructions, and one more, leave nothing to take out. -/
theorem pruned_pruneRounds (n : Nat) (hn : m.instCount < n) (changed : Bool) :
    (m.pruneRounds n changed).1.Pruned := by
  induction n generalizing m changed with
  | zero => omega
  | succ n ih =>
    rw [pruneRounds_succ]
    split
    · rename_i hpruned
      exact hpruned
    · rename_i hpruned
      have hlt := instCount_lt_of_not_pruned hpruned
      exact ih (by omega) true

/-- More rounds than that do the same. -/
theorem pruneRounds_eq (n n' : Nat) (hn : m.instCount < n) (hn' : m.instCount < n')
    (changed : Bool) :
    m.pruneRounds n changed = m.pruneRounds n' changed := by
  induction n generalizing m n' changed with
  | zero => omega
  | succ n ih =>
    cases n' with
    | zero => omega
    | succ n' =>
      rw [pruneRounds_succ, pruneRounds_succ]
      split
      · rfl
      · rename_i hpruned
        have hlt := instCount_lt_of_not_pruned hpruned
        exact ih n' (by omega) (by omega) true

/-! ### Taking out dead code -/

theorem removeDeadCode_eq (m : Module) :
    m.removeDeadCode = m.pruneRounds (m.instCount + 1) false := by
  unfold Module.removeDeadCode Module.instCount
  rw [List.sum_eq_foldl]

/-- The bound on the rounds is of no consequence. -/
theorem removeDeadCode_stable (m : Module) {n : Nat} (hn : m.instCount < n) :
    m.pruneRounds n false = m.removeDeadCode := by
  rw [removeDeadCode_eq]
  exact pruneRounds_eq n _ hn (Nat.lt_succ_self _) false

/-- Taking out dead code does not change what a call does that does not give up. -/
theorem evalFunction_removeDeadCode [Hashing] (htagged : m.Tagged) (hclosed : m.Closed)
    (hfits : m.values.size ≤ invalidId) {types : TypePool} {id : FuncId} {args : List UInt64}
    {ledger : Ledger} {unit : String} {limits : EvalLimits}
    (hexit : (m.evalFunction types id args ledger unit limits).1.exit.settled = true) :
    m.removeDeadCode.1.evalFunction types id args ledger unit limits =
      m.evalFunction types id args ledger unit limits :=
  evalFunction_pruneRounds _ htagged hclosed hfits false hexit

/-- The instructions that are left and marked as pure have a result that a block uses. -/
theorem used_removeDeadCode {b : BlockId} (hb : b ∈ m.removeDeadCode.1.listedBlocks) {i : InstId}
    (hi : i ∈ (m.removeDeadCode.1.block b).insts) {inst : Inst}
    (hinst : m.removeDeadCode.1.insts[i]? = some inst) (heffect : inst.effect = .pure) {r : ValueId}
    (hresult : inst.result = some r) (hr : r < m.values.size) :
    ∃ b' ∈ m.removeDeadCode.1.listedBlocks, r ∈ m.removeDeadCode.1.usesOfBlock b' := by
  have hvalues : m.removeDeadCode.1.values = m.values := (prunes_removeDeadCode m).values
  rw [← hvalues] at hr
  have hpruned : m.removeDeadCode.1.Pruned := by
    rw [removeDeadCode_eq]
    exact pruned_pruneRounds _ (Nat.lt_succ_self _) false
  revert hb hi hinst hr hpruned
  generalize m.removeDeadCode.1 = m'
  intro hb hi hinst hr hpruned
  have hkeeps := keeps_of_instsRemoved_eq _ _ hpruned b hb i hi
  by_contra hunused
  simp only [not_exists, not_and] at hunused
  have hzero : m'.useCounts.getD r 1 = 0 := (useCounts_eq_zero_iff r).mpr ⟨hr, hunused⟩
  have hdead : isDead m'.useCounts inst = true := by
    unfold isDead
    rw [heffect, hresult, Option.any_some, hzero]
    rfl
  unfold Module.keeps at hkeeps
  rw [hinst, Option.any_some, hdead] at hkeeps
  cases hkeeps

end ContractCompiler.Ssa
