import ContractCompiler.Proofs.Ssa.PassSteps

/-!
# What inlining copies

The calls of a block that are inlined are replaced by copies of the instructions of the functions
that they call. Values of a callee become arguments of the call or results of copies.

- `InlinedCall`: a call of a block that may be inlined;
- `Copied`: what a value of a callee becomes;
- `Inlining.Copies`: what a block holds while its calls are inlined;
- `Inlining.finish`: the module after that, and `exists_inlining`: inlining ends with such a module;
- `orderly_inlineBlock`: inlining keeps modules orderly.
-/

namespace ContractCompiler.Ssa

open Relation

variable {m m' m'' : Module} {types : TypePool}

/-! ## Growing modules -/

/-- A module with more instructions and values. -/
structure Module.Grows (m m' : Module) : Prop where
  unit : m'.unit = m.unit
  functions : m'.functions = m.functions
  blocks : m'.blocks = m.blocks
  insts : ∀ (i : InstId) inst, m.insts[i]? = some inst → m'.insts[i]? = some inst
  values : ∀ (v : ValueId) value, m.values[v]? = some value → m'.values[v]? = some value
  insts_size : m.insts.size ≤ m'.insts.size
  values_size : m.values.size ≤ m'.values.size

namespace Module.Grows

theorem refl (m : Module) : m.Grows m :=
  ⟨rfl, rfl, rfl, fun _ _ h => h, fun _ _ h => h, Nat.le_refl _, Nat.le_refl _⟩

theorem trans (h : m.Grows m') (h' : m'.Grows m'') : m.Grows m'' :=
  ⟨h'.unit.trans h.unit, h'.functions.trans h.functions, h'.blocks.trans h.blocks,
    fun i inst hi => h'.insts i inst (h.insts i inst hi),
    fun v value hv => h'.values v value (h.values v value hv),
    h.insts_size.trans h'.insts_size, h.values_size.trans h'.values_size⟩

theorem siteOf? (h : m.Grows m') {v : ValueId} {site : DefSite} (hsite : m.siteOf? v = some site) :
    m'.siteOf? v = some site := by
  obtain ⟨value, hvalue, rfl⟩ := Option.map_eq_some_iff.mp hsite
  exact Module.siteOf?_of_value (h.values v value hvalue) rfl

theorem dataOf? (h : m.Grows m') {v : ValueId} {data : InstData} (hdata : m.dataOf? v = some data) :
    m'.dataOf? v = some data := by
  obtain ⟨i, inst, hsite, hinst, rfl⟩ := Module.dataOf?_eq_some.mp hdata
  exact Module.dataOf?_eq_some.mpr ⟨i, inst, h.siteOf? hsite, h.insts i inst hinst, rfl⟩

theorem valueType (h : m.Grows m') {v : ValueId} (hlt : v < m.values.size) :
    m'.valueType v = m.valueType v := by
  unfold Module.valueType
  rw [h.values v _ (Array.getElem?_eq_getElem hlt), Array.getElem?_eq_getElem hlt]

theorem block_eq (h : m.Grows m') (b : BlockId) : m'.block b = m.block b := by
  unfold Module.block
  rw [h.blocks]

/-- What was listed by a block whose instructions are there is listed still. -/
theorem blockInsts_eq (h : m.Grows m') {b : Block} (hb : ∀ i ∈ b.insts, i < m.insts.size) :
    m'.blockInsts b = m.blockInsts b := by
  unfold Module.blockInsts
  refine List.filterMap_congr fun i hi => ?_
  rw [h.insts i _ (Array.getElem?_eq_getElem (hb i hi)), Array.getElem?_eq_getElem (hb i hi)]

end Module.Grows

theorem grows_counts (m : Module) (counts : PassCounts) : m.Grows { m with counts } :=
  ⟨rfl, rfl, rfl, fun _ _ h => h, fun _ _ h => h, Nat.le_refl _, Nat.le_refl _⟩

theorem grows_pushInst (m : Module) (inst : Inst) : m.Grows { m with insts := m.insts.push inst } :=
  ⟨rfl, rfl, rfl, fun _ _ => getElem?_push_of_some, fun _ _ h => h,
    (Array.size_push inst).symm ▸ Nat.le_succ _, Nat.le_refl _⟩

theorem grows_pushResult (m : Module) (inst : Inst) (value : Value) :
    m.Grows { m with insts := m.insts.push inst, values := m.values.push value } :=
  ⟨rfl, rfl, rfl, fun _ _ => getElem?_push_of_some, fun _ _ => getElem?_push_of_some,
    (Array.size_push inst).symm ▸ Nat.le_succ _, (Array.size_push value).symm ▸ Nat.le_succ _⟩

/-! ## Copies -/

/-- A value of a block that is copied to a call with some arguments becomes another one: itself, an
argument, or the result of the copy of its definition. -/
inductive Copied (m m' : Module) (e : BlockId) (args : List ValueId) :
    ValueId → ValueId → Prop where
  | same (v : ValueId) : Copied m m' e args v v
  | arg {p a : ValueId} (hp : p ∈ (m.block e).params) (ha : a ∈ args) : Copied m m' e args p a
  | result {r y : ValueId} {data : InstData} {ρ : ValueId → ValueId}
      (hdata : m.dataOf? r = some data) (huses : ∀ u ∈ data.operands, u ∈ m.usesOfBlock e)
      (hcopy : m'.dataOf? y = some (data.mapOperands ρ)) (hnew : m.values.size ≤ y)
      (htype : m'.valueType y = m.valueType r)
      (hoperands : ∀ u ∈ data.operands, Copied m m' e args u (ρ u)) : Copied m m' e args r y

theorem lt_size_of_dataOf? {v : ValueId} {data : InstData} (h : m.dataOf? v = some data) :
    v < m.values.size := by
  obtain ⟨i, inst, hsite, -⟩ := Module.dataOf?_eq_some.mp h
  exact Module.lt_of_siteOf? hsite

theorem Copied.grows {e : BlockId} {args : List ValueId} {v y : ValueId}
    (h : Copied m m' e args v y) (hgrows : m'.Grows m'') : Copied m m'' e args v y := by
  induction h with
  | same v => exact .same v
  | arg hp ha => exact .arg hp ha
  | result hdata huses hcopy hnew htype _ ih =>
    exact .result hdata huses (hgrows.dataOf? hcopy) hnew
      ((hgrows.valueType (lt_size_of_dataOf? hcopy)).trans htype) ih

/-- A copy of an instruction of a block: the same on what the operands become. -/
def CopyOf (m m' : Module) (e : BlockId) (args : List ValueId) (j : InstId) : Prop :=
  ∃ i ∈ (m.block e).insts, ∃ inst, m.insts[i]? = some inst ∧ ∃ inst' ρ, m'.insts[j]? = some inst' ∧
    inst'.data = inst.data.mapOperands ρ ∧ ∀ u ∈ inst.data.operands, Copied m m' e args u (ρ u)

theorem CopyOf.grows {e : BlockId} {args : List ValueId} {j : InstId} (h : CopyOf m m' e args j)
    (hgrows : m'.Grows m'') : CopyOf m m'' e args j := by
  obtain ⟨i, hi, inst, hinst, inst', ρ, hinst', hdata, hρ⟩ := h
  exact ⟨i, hi, inst, hinst, inst', ρ, hgrows.insts j inst' hinst', hdata,
    fun u hu => (hρ u hu).grows hgrows⟩

/-- Values with what they become. -/
def Substitution.Copies (m m' : Module) (e : BlockId) (args : List ValueId)
    (s : Substitution) : Prop :=
  ∀ v y, s[v]? = some y → Copied m m' e args v y

namespace Substitution.Copies

variable {e : BlockId} {args : List ValueId} {s : Substitution}

theorem rename (h : s.Copies m m' e args) (v : ValueId) : Copied m m' e args v (s.rename v) := by
  unfold Substitution.rename
  cases hget : s[v]? with
  | none => exact .same v
  | some y => exact h v y hget

theorem grows (h : s.Copies m m' e args) (hgrows : m'.Grows m'') : s.Copies m m'' e args :=
  fun v y hget => (h v y hget).grows hgrows

theorem insert (h : s.Copies m m' e args) {v y : ValueId} (hv : Copied m m' e args v y) :
    Copies m m' e args (s.insert v y) := by
  intro v' y' hget
  rw [Std.HashMap.getElem?_insert] at hget
  split at hget
  · rename_i heq
    obtain rfl := beq_iff_eq.mp heq
    obtain rfl := Option.some.inj hget
    exact hv
  · exact h v' y' hget

end Substitution.Copies

theorem copies_params {e : BlockId} {args ps as : List ValueId} (hps : ps ⊆ (m.block e).params)
    (has : as ⊆ args) {s : Substitution} (hs : s.Copies m m' e args) :
    Substitution.Copies m m' e args ((ps.zip as).foldl (fun s (k, v) => s.insert k v) s) := by
  induction ps generalizing as s with
  | nil => exact hs
  | cons p ps ih =>
    cases as with
    | nil => exact hs
    | cons a as =>
      refine ih (fun x hx => hps (List.mem_cons_of_mem _ hx))
        (fun x hx => has (List.mem_cons_of_mem _ hx)) ?_
      exact hs.insert (.arg (hps List.mem_cons_self) (has List.mem_cons_self))

/-- The instructions of a block are copied. -/
theorem copies_copyInsts (h : m.Typed types) {e : BlockId} {args : List ValueId} (span : Span)
    (insts : List Inst) (hinsts : ∀ inst ∈ insts, ∃ i ∈ (m.block e).insts, m.insts[i]? = some inst)
    (renamed : Substitution) (m' : Module) (hgrows : m.Grows m')
    (hrenamed : renamed.Copies m m' e args) :
    m'.Grows (copyInsts span insts renamed m').2.2 ∧
      (copyInsts span insts renamed m').2.1.Copies m (copyInsts span insts renamed m').2.2 e args ∧
      ∀ j ∈ (copyInsts span insts renamed m').1, CopyOf m (copyInsts span insts renamed m').2.2 e
        args j := by
  induction insts generalizing renamed m' with
  | nil => exact ⟨.refl m', hrenamed, nofun⟩
  | cons inst rest ih =>
    obtain ⟨i, hi, hinst⟩ := hinsts inst List.mem_cons_self
    have hrest := fun inst hinst => hinsts inst (List.mem_cons_of_mem _ hinst)
    have huses : ∀ u ∈ inst.data.operands, u ∈ m.usesOfBlock e :=
      fun u hu => Module.mem_usesOfBlock.mpr (.inl ⟨i, hi, inst, hinst, hu⟩)
    -- the copy of the first instruction, which the rest of the copying keeps
    have hcopy : ∀ (copy : Inst) (m₁ m₂ : Module), copy.data =
        inst.data.mapOperands renamed.rename →
        m₁.insts[m'.insts.size]? = some copy → m'.Grows m₁ → m₁.Grows m₂ →
          CopyOf m m₂ e args m'.insts.size := by
      intro copy m₁ m₂ hdata hget hg hg'
      have hfirst : CopyOf m m₁ e args m'.insts.size :=
        ⟨i, hi, inst, hinst, copy, renamed.rename, hget, hdata,
          fun u _ => (hrenamed.rename u).grows hg⟩
      exact hfirst.grows hg'
    unfold copyInsts
    dsimp only
    split
    · have hpush := grows_pushInst m'
          { inst with data := inst.data.mapOperands renamed.rename, span }
      obtain ⟨hg, hren, hids⟩ := ih hrest renamed _ (hgrows.trans hpush) (hrenamed.grows hpush)
      refine ⟨hpush.trans hg, hren, fun j hj => ?_⟩
      rcases List.mem_cons.mp hj with rfl | hj
      · exact hcopy _ _ _ rfl Array.getElem?_push_size hpush hg
      · exact hids j hj
    · rename_i r hr
      have hpush := grows_pushResult m'
        { inst with
          data := inst.data.mapOperands renamed.rename, span, result := some m'.values.size }
        { m'.values.getD r {} with site := .inst m'.insts.size }
      have hdata := h.dataOf?_result hinst hr
      have hlt := lt_size_of_dataOf? hdata
      have hold := hgrows.values r _ (Array.getElem?_eq_getElem hlt)
      -- from here on the result is renamed to the new value
      have hresult : Copied m { m' with
          insts := m'.insts.push
            { inst with
              data := inst.data.mapOperands renamed.rename, span, result := some m'.values.size }
          values := m'.values.push { m'.values.getD r {} with site := .inst m'.insts.size } }
          e args r m'.values.size := by
        refine .result hdata huses (ρ := renamed.rename) ?_ hgrows.values_size ?_
          fun u _ => (hrenamed.rename u).grows hpush
        · refine Module.dataOf?_eq_some.mpr ⟨m'.insts.size, _, ?_, Array.getElem?_push_size, rfl⟩
          unfold Module.siteOf?
          rw [Array.getElem?_push_size, Option.map_some]
        · unfold Module.valueType
          rw [Array.getElem?_push_size, Array.getElem?_eq_getElem hlt,
            Array.getD_eq_getD_getElem?, hold]
          rfl
      obtain ⟨hg, hren, hids⟩ := ih hrest (renamed.insert r m'.values.size) _ (hgrows.trans hpush)
        ((hrenamed.grows hpush).insert hresult)
      refine ⟨hpush.trans hg, hren, fun j hj => ?_⟩
      rcases List.mem_cons.mp hj with rfl | hj
      · exact hcopy _ _ _ rfl Array.getElem?_push_size hpush hg
      · exact hids j hj

/-! ## Calls -/

/-- A call of a block to a function that may be inlined. -/
structure InlinedCall (m : Module) (b : BlockId) where
  callee : FuncId
  args : List ValueId
  function : Function
  entry : BlockId
  call_mem : ∃ i ∈ (m.block b).insts, ∃ inst, m.insts[i]? = some inst ∧
      inst.data = .call callee args
  function_eq : m.functions[callee]? = some function
  live : function.excluded = false
  overrides : overridesDomains function.attrs = false
  entry_eq : function.entry = some entry
  /-- The callee calls nothing. -/
  calls_nothing : ∀ i ∈ (m.block entry).insts, ∀ inst, m.insts[i]? = some inst →
      inst.data.callee? = none

theorem InlinedCall.isEntry {b : BlockId} (c : InlinedCall m b) : m.IsEntry c.entry :=
  ⟨c.function, Array.mem_of_getElem? c.function_eq, c.live, c.entry_eq⟩

theorem InlinedCall.mem_uses {b : BlockId} (c : InlinedCall m b) {a : ValueId} (ha : a ∈ c.args) :
    a ∈ m.usesOfBlock b := by
  obtain ⟨i, hi, inst, hinst, hdata⟩ := c.call_mem
  exact Module.mem_usesOfBlock.mpr (.inl ⟨i, hi, inst, hinst, by rw [hdata]; exact ha⟩)

theorem getElem?_empty_ne_some {v w : ValueId} (h : ({} : Substitution)[v]? = some w) : False := by
  rw [Std.HashMap.getElem?_empty] at h
  cases h

/-- What is known of a function that may be inlined. -/
theorem conditions_of_inlinable? {maxInsts : Nat} {caller callee : FuncId} {b : Block}
    {value : Option ValueId} (h : m.inlinable? maxInsts caller callee = some (b, value)) :
    ∃ f, m.functions[callee]? = some f ∧ f.excluded = false ∧ overridesDomains f.attrs = false ∧
      ∀ x ∈ m.blockInsts b, x.2.data.callee? = none := by
  unfold Module.inlinable? at h
  obtain ⟨f, hf, h⟩ := Option.bind_eq_some_iff.mp h
  obtain ⟨e, -, h⟩ := Option.bind_eq_some_iff.mp h
  obtain ⟨b', -, h⟩ := Option.bind_eq_some_iff.mp h
  obtain ⟨term, -, h⟩ := Option.bind_eq_some_iff.mp h
  obtain ⟨value', -, h⟩ := Option.bind_eq_some_iff.mp h
  split at h
  · rename_i hcond
    obtain ⟨rfl, rfl⟩ := Prod.mk.inj (Option.some.inj h)
    simp only [Bool.and_eq_true, List.all_eq_true, Option.isNone_iff_eq_none,
      Bool.not_eq_true'] at hcond
    obtain ⟨⟨⟨⟨⟨-, hlive⟩, -⟩, hoverrides⟩, -⟩, hcalls⟩ := hcond
    exact ⟨f, hf, hlive, hoverrides, fun x hx => hcalls x hx⟩
  · cases h

/-! ## Inlining under way -/

/-- A block while its calls are inlined: what calls are replaced by, and its instructions. -/
structure Inlining.Copies (m : Module) (b : BlockId) (s : Inlining) : Prop where
  grows : m.Grows s.module
  results : ∀ z w, s.results[z]? = some w → ∃ c : InlinedCall m b,
    m.dataOf? z = some (.call c.callee c.args) ∧
      ∃ u ∈ m.usesOfBlock c.entry, Copied m s.module c.entry c.args u w
  insts : ∀ j ∈ s.insts, j ∈ (m.block b).insts ∨
      ∃ c : InlinedCall m b, CopyOf m s.module c.entry c.args j

namespace Inlining.Copies

variable {b : BlockId} {s : Inlining}

theorem start (m : Module) (b : BlockId) : Inlining.Copies m b { module := m } :=
  ⟨.refl m, fun _ _ hget => (getElem?_empty_ne_some hget).elim, nofun⟩

theorem keep (h : s.Copies m b) {i : InstId} (hi : i ∈ (m.block b).insts) :
    Inlining.Copies m b { s with insts := s.insts ++ [i] } := by
  refine ⟨h.grows, h.results, fun j hj => ?_⟩
  rcases List.mem_append.mp hj with hj | hj
  · exact h.insts j hj
  · exact .inl (List.mem_singleton.mp hj ▸ hi)

/-- A call that is inlined is replaced by copies of the callee's instructions. -/
theorem inlineCall (h : s.Copies m b) (htyped : m.Typed types) (c : InlinedCall m b) {i : InstId}
    {call : Inst} (hcall : m.insts[i]? = some call) (hdata : call.data = .call c.callee c.args)
    {value : Option ValueId} (hterm : (m.block c.entry).term = some (.ret value))
    (hinsts : ∀ j ∈ (m.block c.entry).insts, j < m.insts.size) :
    (inlineCall s call c.args (m.block c.entry) value).Copies m b := by
  obtain ⟨m', insts, results, changed⟩ := s
  have hgrows : m.Grows m' := h.grows
  have hlisted : ∀ inst ∈ (m'.blockInsts (m.block c.entry)).map (·.2),
      ∃ j ∈ (m.block c.entry).insts, m.insts[j]? = some inst := by
    intro inst hinst
    rw [hgrows.blockInsts_eq hinsts] at hinst
    obtain ⟨⟨j, inst'⟩, hmem, rfl⟩ := List.mem_map.mp hinst
    obtain ⟨j', hj', hget⟩ := List.mem_filterMap.mp hmem
    obtain ⟨inst'', hinst'', heq⟩ := Option.map_eq_some_iff.mp hget
    obtain ⟨rfl, rfl⟩ := Prod.mk.inj heq
    exact ⟨j', hj', hinst''⟩
  have hnone : Substitution.Copies m m' c.entry c.args {} :=
    fun _ _ hget => (getElem?_empty_ne_some hget).elim
  have hparams := copies_params (List.Subset.refl (m.block c.entry).params)
      (List.Subset.refl c.args) hnone
  obtain ⟨hg, hrenamed, hids⟩ := copies_copyInsts htyped call.span _ hlisted _ m' hgrows hparams
  unfold Ssa.inlineCall
  refine ⟨hgrows.trans (hg.trans (grows_counts _ _)), fun z w hget => ?_, fun j hj => ?_⟩
  · have hold : ∀ m₂, m'.Grows m₂ → results[z]? = some w → ∃ c' : InlinedCall m b,
        m.dataOf? z = some (.call c'.callee c'.args) ∧ ∃ u ∈ m.usesOfBlock c'.entry,
          Copied m m₂ c'.entry c'.args u w := by
      intro m₂ hm₂ hget
      obtain ⟨c', hz, u, hu, hcopied⟩ := h.results z w hget
      exact ⟨c', hz, u, hu, hcopied.grows hm₂⟩
    dsimp only at hget
    split at hget
    · rename_i r v hr
      rw [Std.HashMap.getElem?_insert] at hget
      split at hget
      · rename_i heq
        obtain rfl := beq_iff_eq.mp heq
        obtain rfl := Option.some.inj hget
        refine ⟨c, hdata ▸ htyped.dataOf?_result hcall hr, v,
          Module.mem_usesOfBlock.mpr (.inr ⟨_, hterm, ?_⟩),
          (hrenamed.rename v).grows (grows_counts _ _)⟩
        exact List.mem_singleton.mpr rfl
      · exact hold _ (hg.trans (grows_counts _ _)) hget
    · exact hold _ (hg.trans (grows_counts _ _)) hget
  · rcases List.mem_append.mp hj with hj | hj
    · refine (h.insts j hj).imp_right ?_
      rintro ⟨c', hcopy⟩
      exact ⟨c', hcopy.grows (hg.trans (grows_counts _ _))⟩
    · exact .inr ⟨c, (hids j hj).grows (grows_counts _ _)⟩

/-- An instruction of the block is kept, or is a call that is inlined. -/
theorem inlineInst (h : s.Copies m b) (htyped : m.Typed types) (hm : m.Orderly) {i : InstId}
    (hi : i ∈ (m.block b).insts) (hlt : i < m.insts.size) (maxInsts : Nat) (caller : FuncId) :
    (inlineInst maxInsts caller s i).Copies m b := by
  have hgrows := h.grows
  unfold Ssa.inlineInst
  dsimp only
  split
  · rename_i inst hinst
    split
    · rename_i callee args hdata
      split
      · rename_i b' value hb'
        obtain ⟨f, e, hf, he, hblock, hterm⟩ := inlinable?_eq_some hb'
        obtain ⟨f', hf', hlive, hoverrides, hcalls⟩ := conditions_of_inlinable? hb'
        obtain rfl := Option.some.inj (hf.symm.trans hf')
        rw [hgrows.functions] at hf
        have heq : m.block e = b' := by
          rw [← hgrows.block_eq]
          unfold Module.block
          rw [Array.getD_eq_getD_getElem?, hblock]
          rfl
        have hinst' : m.insts[i]? = some inst := by
          rw [Array.getElem?_eq_getElem hlt, ← hinst,
            hgrows.insts i _ (Array.getElem?_eq_getElem hlt)]
        have hmem := Array.mem_of_getElem? hf
        obtain ⟨e', hblocks, he'⟩ := hm.entry f hmem hlive
        obtain rfl := Option.some.inj (he.symm.trans he')
        have hlisted := hm.insts f hmem hlive e hblocks
        subst heq
        rw [hgrows.blockInsts_eq hlisted] at hcalls
        let c : InlinedCall m b :=
          { callee, args, function := f, entry := e, call_mem := ⟨i, hi, inst, hinst', hdata⟩
            function_eq := hf, live := hlive, overrides := hoverrides, entry_eq := he
            calls_nothing := fun j hj inst' hinst' => hcalls (j, inst')
              (List.mem_filterMap.mpr ⟨j, hj, by rw [hinst']; rfl⟩) }
        exact h.inlineCall htyped c hinst' hdata hterm hlisted
      · exact h.keep hi
    · exact h.keep hi
  · exact h.keep hi

theorem inlineInsts (htyped : m.Typed types) (hm : m.Orderly) (maxInsts : Nat) (caller : FuncId)
    (is : List InstId) (his : ∀ i ∈ is, i ∈ (m.block b).insts ∧ i < m.insts.size) {s : Inlining}
    (h : s.Copies m b) : (is.foldl (Ssa.inlineInst maxInsts caller) s).Copies m b := by
  induction is generalizing s with
  | nil => exact h
  | cons i is ih =>
    obtain ⟨hi, hlt⟩ := his i List.mem_cons_self
    exact ih (fun j hj => his j (List.mem_cons_of_mem _ hj))
      (h.inlineInst htyped hm hi hlt maxInsts caller)

end Inlining.Copies

/-! ## The module after inlining -/

/-- The module when the calls of a block have been replaced, and their results have not. -/
def Inlining.joined (s : Inlining) (b : BlockId) : Module :=
  { s.module with blocks := s.module.blocks.modify b fun block => { block with insts := s.insts } }

/-- The module when the calls of a block have been inlined. -/
def Inlining.finish (s : Inlining) (b : BlockId) : Module :=
  (s.joined b).mapOperands s.results.follow

/-- Inlining changes nothing, or leaves a module in which calls are replaced by copies. -/
theorem inlineBlock_cases (htyped : m.Typed types) (hm : m.Orderly) {caller : FuncId} {f : Function}
    (hf : m.functions[caller]? = some f) (hlive : f.excluded = false) {b : BlockId}
    (hb : b ∈ f.blocks) (maxInsts : Nat) : (inlineBlock maxInsts caller m b).1 = m ∨
      ∃ s : Inlining, s.Copies m b ∧ (inlineBlock maxInsts caller m b).1 = s.finish b := by
  have hcopies := (Inlining.Copies.start m b).inlineInsts htyped hm maxInsts caller
      (m.block b).insts fun i hi => ⟨hi, hm.insts f (Array.mem_of_getElem? hf) hlive b hb i hi⟩
  unfold inlineBlock
  dsimp only
  split
  · exact .inr ⟨_, hcopies, substitute_eq _ _⟩
  · exact .inl rfl

@[simp] theorem values_finish (s : Inlining) (b : BlockId) :
    (s.finish b).values = s.module.values := rfl

theorem dataOf?_finish (s : Inlining) (b : BlockId) (v : ValueId) :
    (s.finish b).dataOf? v = (s.module.dataOf? v).map (·.mapOperands s.results.follow) :=
  Module.dataOf?_mapOperands _ _ v

/-- What is not to be replaced leads nowhere else. -/
theorem Substitution.followFor_eq {s : Substitution} {v : ValueId} (hv : s[v]? = none) (n : Nat) :
    s.followFor n v = v := by
  cases n with
  | zero => rfl
  | succ n =>
    unfold followFor
    rw [hv]

/-- The definitions that a typed module has are the same when it grows. -/
theorem Module.Grows.dataOf?_of_lt (h : m.Grows m') (htyped : m.Typed types) {v : ValueId}
    {data : InstData} (hlt : v < m.values.size) (hdata : m'.dataOf? v = some data) :
    m.dataOf? v = some data := by
  obtain ⟨i, inst, hsite, hinst, rfl⟩ := Module.dataOf?_eq_some.mp hdata
  have hvalue := Array.getElem?_eq_getElem hlt
  have hsite' : m.values[v].site = .inst i := by
    unfold Module.siteOf? at hsite
    rw [h.values v _ hvalue] at hsite
    exact Option.some.inj hsite
  obtain ⟨inst', hinst', -⟩ := htyped.site v _ i hvalue hsite'
  obtain rfl := Option.some.inj (hinst.symm.trans (h.insts i inst' hinst'))
  exact Module.dataOf?_eq_some.mpr ⟨i, inst, Module.siteOf?_of_value hvalue hsite', hinst', rfl⟩

namespace Inlining.Copies

variable {b : BlockId} {s : Inlining} (h : s.Copies m b)

include h

/-- A block has the instructions that it had, or is the one whose calls were inlined. -/
theorem block_joined (k : BlockId) : ∃ insts, (s.joined b).block k = { m.block k with insts } ∧
    (insts = (m.block k).insts ∨ k = b ∧ insts = s.insts) := by
  rw [← h.grows.block_eq]
  rcases getD_modify_cases s.module.blocks b (fun block => { block with insts := s.insts }) k with
    heq | ⟨rfl, heq⟩
  · exact ⟨(s.module.block k).insts, heq, .inl rfl⟩
  · exact ⟨s.insts, heq, .inr ⟨rfl, rfl⟩⟩

theorem siteOf?_finish {v : ValueId} (hlt : v < m.values.size) :
    (s.finish b).siteOf? v = m.siteOf? v := by
  have hsite : m.siteOf? v = some m.values[v].site :=
    Module.siteOf?_of_value (Array.getElem?_eq_getElem hlt) rfl
  exact (h.grows.siteOf? hsite).trans hsite.symm

theorem params_finish (k : BlockId) : ((s.finish b).block k).params = (m.block k).params := by
  obtain ⟨insts, hblock, -⟩ := h.block_joined k
  unfold Inlining.finish
  rw [block_mapOperands, hblock]

theorem term_finish (k : BlockId) :
    ((s.finish b).block k).term = (m.block k).term.map (·.mapOperands s.results.follow) := by
  obtain ⟨insts, hblock, -⟩ := h.block_joined k
  unfold Inlining.finish
  rw [block_mapOperands, hblock]

theorem successors_finish (k : BlockId) :
    ((s.finish b).block k).successors = (m.block k).successors := by
  unfold Block.successors
  rw [h.term_finish]
  cases (m.block k).term with
  | none => rfl
  | some term => exact Terminator.successors_mapOperands _ term

theorem size_blocks_finish : (s.finish b).blocks.size = m.blocks.size := by
  unfold Inlining.finish Inlining.joined Module.mapOperands
  rw [Array.size_map, Array.size_modify, h.grows.blocks]

theorem mem_successors_finish (f : Function) {k c : BlockId} :
    c ∈ ((s.finish b).cfg f).successors k ↔ c ∈ (m.cfg f).successors k := by
  rw [Module.mem_successors_cfg, Module.mem_successors_cfg, h.successors_finish,
    h.size_blocks_finish]

theorem reachesAround_of_finish {f : Function} {avoided k : BlockId}
    (hk : (s.finish b).ReachesAround f avoided k) : m.ReachesAround f avoided k := by
  obtain ⟨e, he, hne, hpath⟩ := hk
  refine ⟨e, he, hne, hpath.mono fun x y hy => ?_⟩
  obtain ⟨hsucc, havoid⟩ := List.mem_filter.mp hy
  exact List.mem_filter.mpr ⟨(h.mem_successors_finish f).mp hsucc, havoid⟩

theorem isEntry_finish {k : BlockId} : (s.finish b).IsEntry k ↔ m.IsEntry k := by
  have hfunctions : (s.finish b).functions = m.functions := h.grows.functions
  unfold Module.IsEntry
  rw [hfunctions]

/-- An instruction that a block lists after inlining was listed before, or is a copy. -/
theorem mem_insts_finish {k : BlockId} {j : InstId} (hj : j ∈ ((s.finish b).block k).insts) :
    j ∈ (m.block k).insts ∨ k = b ∧ ∃ c : InlinedCall m b, CopyOf m s.module c.entry c.args j := by
  obtain ⟨insts, hblock, hinsts⟩ := h.block_joined k
  unfold Inlining.finish at hj
  rw [block_mapOperands, hblock] at hj
  rcases hinsts with rfl | ⟨rfl, rfl⟩
  · exact .inl hj
  · exact (h.insts j hj).imp_right fun hcopy => ⟨rfl, hcopy⟩

/-- What is used after inlining was used before, or by a copy, and is replaced. -/
theorem exists_of_mem_uses_finish {k : BlockId}
    (hlisted : ∀ i ∈ (m.block k).insts, i < m.insts.size) {v' : ValueId}
    (hv : v' ∈ (s.finish b).usesOfBlock k) : ∃ v, s.results.follow v = v' ∧
      (v ∈ m.usesOfBlock k ∨ k = b ∧ ∃ c : InlinedCall m b, ∃ u ∈ m.usesOfBlock c.entry,
        Copied m s.module c.entry c.args u v) := by
  rcases Module.mem_usesOfBlock.mp hv with ⟨j, hj, inst', hinst', hmem⟩ | ⟨term', hterm', hmem⟩
  · obtain ⟨inst, hinst, rfl⟩ :=
      Option.map_eq_some_iff.mp ((Module.getElem?_insts_mapOperands _ _ _).symm.trans hinst')
    rw [InstData.operands_mapOperands] at hmem
    obtain ⟨v, hused, rfl⟩ := List.mem_map.mp hmem
    refine ⟨v, rfl, ?_⟩
    rcases h.mem_insts_finish hj with hj | ⟨rfl, c, i, hi, inst₀, hinst₀, copy, ρ, hcopy, hdata, hρ⟩
    · have hget := Array.getElem?_eq_getElem (hlisted j hj)
      obtain rfl := Option.some.inj ((h.grows.insts j _ hget).symm.trans hinst)
      exact .inl (Module.mem_usesOfBlock.mpr (.inl ⟨j, hj, _, hget, hused⟩))
    · obtain rfl := Option.some.inj (hcopy.symm.trans hinst)
      rw [hdata, InstData.operands_mapOperands] at hused
      obtain ⟨u, hu, rfl⟩ := List.mem_map.mp hused
      exact .inr ⟨rfl, c, u, Module.mem_usesOfBlock.mpr (.inl ⟨i, hi, inst₀, hinst₀, hu⟩), hρ u hu⟩
  · rw [h.term_finish] at hterm'
    obtain ⟨term, hterm, rfl⟩ := Option.map_eq_some_iff.mp hterm'
    rw [Terminator.operands_mapOperands] at hmem
    obtain ⟨v, hused, rfl⟩ := List.mem_map.mp hmem
    exact ⟨v, rfl, .inl (Module.mem_usesOfBlock.mpr (.inr ⟨term, hterm, hused⟩))⟩

end Inlining.Copies

/-! ## Inlining keeps modules orderly -/

/-- A value that after copying depends on no parameters of a block: one that was clear of them
before, or a copy of an instruction on such values. -/
inductive Cleared (m m' : Module) (avoided : BlockId) : ValueId → Prop where
  | old {v : ValueId} (hv : m.Clear avoided v) : Cleared m m' avoided v
  | copy {y : ValueId} {data : InstData} (hnew : m.values.size ≤ y)
      (hdata : m'.dataOf? y = some data) (hoperands : ∀ u ∈ data.operands, Cleared m m' avoided u) :
        Cleared m m' avoided y

theorem Module.Clear.lt {avoided : BlockId} {v : ValueId} (h : m.Clear avoided v) :
    v < m.values.size :=
  (h v (.refl m v)).1

theorem Cleared.clear_of_lt {avoided : BlockId} {v : ValueId} (h : Cleared m m' avoided v)
    (hlt : v < m.values.size) : m.Clear avoided v := by
  cases h with
  | old hv => exact hv
  | copy hnew => exact absurd hlt (Nat.not_lt.mpr hnew)

/-- Copies at a call whose arguments are clear are clear. -/
theorem Copied.cleared {e avoided : BlockId} {args : List ValueId} {v y : ValueId}
    (h : Copied m m' e args v y) (huses : ∀ u ∈ m.usesOfBlock e, m.Clear avoided u)
    (hargs : ∀ a ∈ args, m.Clear avoided a) (hv : m.Clear avoided v) : Cleared m m' avoided y := by
  induction h with
  | same v => exact .old hv
  | arg _ ha => exact .old (hargs _ ha)
  | @result r y data ρ _ hmem hcopy hnew _ _ ih =>
    refine .copy hnew hcopy fun u' hu' => ?_
    rw [InstData.operands_mapOperands] at hu'
    obtain ⟨u, hu, rfl⟩ := List.mem_map.mp hu'
    exact ih u hu (huses u (hmem u hu))

/-- What is used by a callee is clear of the parameters of inner blocks. -/
theorem InlinedCall.clear {b avoided : BlockId} (c : InlinedCall m b) (hm : m.Orderly)
    (hinner : ¬m.IsEntry avoided) : ∀ u ∈ m.usesOfBlock c.entry, m.Clear avoided u := by
  have hne : c.entry ≠ avoided := fun heq => hinner (heq ▸ c.isEntry)
  exact hm.guarded c.function (Array.mem_of_getElem? c.function_eq) c.live avoided c.entry hinner
    ⟨c.entry, c.entry_eq, hne, .refl _⟩

namespace Inlining.Copies

variable {b avoided : BlockId} {s : Inlining}

theorem cleared_followFor (h : s.Copies m b) (hm : m.Orderly)
    (hinner : ¬m.IsEntry avoided) (n : Nat) {v : ValueId} (hv : Cleared m s.module avoided v) :
    Cleared m s.module avoided (s.results.followFor n v) := by
  induction n generalizing v with
  | zero => exact hv
  | succ n ih =>
    unfold Substitution.followFor
    split
    · exact hv
    · rename_i w hw
      split
      · exact hv
      · obtain ⟨c, hdata, u, hu, hcopied⟩ := h.results v w hw
        have hclear := hv.clear_of_lt (lt_size_of_dataOf? hdata)
        have hargs : ∀ a ∈ c.args, m.Clear avoided a :=
          fun a ha => hclear.depends (Module.Uses.depends ⟨_, hdata, ha⟩)
        exact ih (hcopied.cleared (c.clear hm hinner) hargs (c.clear hm hinner u hu))

/-- What a value that is clear depends on after inlining is clear. -/
theorem cleared_of_depends (h : s.Copies m b) (htyped : m.Typed types) (hm : m.Orderly)
    (hinner : ¬m.IsEntry avoided) {v u : ValueId} (hv : Cleared m s.module avoided v)
    (hdepends : (s.finish b).Depends v u) : Cleared m s.module avoided u := by
  induction hdepends with
  | refl => exact hv
  | @tail x y _ huses ih =>
    obtain ⟨w, ⟨data, hdata, hw⟩, rfl⟩ := Module.exists_of_uses_mapOperands huses
    refine h.cleared_followFor hm hinner _ ?_
    have hdata : s.module.dataOf? x = some data := hdata
    cases ih with
    | old hx =>
      have hold := h.grows.dataOf?_of_lt htyped hx.lt hdata
      exact .old (hx.depends (Module.Uses.depends ⟨data, hold, hw⟩))
    | copy _ hdata' hoperands =>
      obtain rfl := Option.some.inj (hdata.symm.trans hdata')
      exact hoperands w hw

theorem clear_finish (h : s.Copies m b) (htyped : m.Typed types) (hm : m.Orderly)
    (hinner : ¬m.IsEntry avoided) {v : ValueId} (hv : Cleared m s.module avoided v) :
    (s.finish b).Clear avoided v := by
  intro u hu
  have hcleared := h.cleared_of_depends htyped hm hinner hv hu
  cases hcleared with
  | old hclear =>
    obtain ⟨hlt, hsite⟩ := hclear u (.refl m u)
    rw [h.siteOf?_finish hlt]
    exact ⟨Nat.lt_of_lt_of_le hlt h.grows.values_size, hsite⟩
  | copy _ hdata _ =>
    have hlt : u < s.module.values.size := lt_size_of_dataOf? hdata
    refine ⟨hlt, fun index hparam => ?_⟩
    obtain ⟨i, inst, hsite, -⟩ := Module.dataOf?_eq_some.mp hdata
    cases hsite.symm.trans hparam

/-- Inlining keeps modules orderly. -/
theorem orderly (h : s.Copies m b) (htyped : m.Typed types) (hm : m.Orderly) :
    (s.finish b).Orderly := by
  have hfunctions : (s.finish b).functions = m.functions := h.grows.functions
  refine ⟨fun f hf hlive avoided k hinner' hk v hv => ?_, fun f hf hlive => ?_,
    fun f hf hlive k hk => ?_,
    fun f hf hlive e he p hp => ?_, fun f hf hlive k hk j hj => ?_⟩
  all_goals rw [hfunctions] at hf
  · have haround := h.reachesAround_of_finish hk
    have hinner := fun hentry => hinner' (h.isEntry_finish.mpr hentry)
    have hclear := hm.guarded f hf hlive avoided k hinner haround
    obtain ⟨e, hmem, hentry⟩ := hm.entry f hf hlive
    have hlisted := hm.insts f hf hlive k (haround.reaches.mem_blocks hmem hentry)
    obtain ⟨u, rfl, hu⟩ := h.exists_of_mem_uses_finish hlisted hv
    refine h.clear_finish htyped hm hinner (h.cleared_followFor hm hinner _ ?_)
    rcases hu with hu | ⟨rfl, c, w, hw, hcopied⟩
    · exact .old (hclear u hu)
    · exact hcopied.cleared (c.clear hm hinner) (fun a ha => hclear a (c.mem_uses ha))
        (c.clear hm hinner w hw)
  · exact hm.entry f hf hlive
  · rw [h.size_blocks_finish]
    exact hm.blocks_lt f hf hlive k hk
  · rw [h.params_finish] at hp
    obtain ⟨index, hsite⟩ := hm.params f hf hlive e he p hp
    obtain ⟨value, hvalue, -⟩ := Option.map_eq_some_iff.mp hsite
    exact ⟨index, (h.siteOf?_finish (Array.getElem?_eq_some_iff.mp hvalue).1).trans hsite⟩
  · have hsize : (s.finish b).insts.size = s.module.insts.size := Array.size_map
    rw [hsize]
    rcases h.mem_insts_finish hj with hj | ⟨-, c, i, -, inst, -, copy, ρ, hcopy, -⟩
    · exact Nat.lt_of_lt_of_le (hm.insts f hf hlive k hk j hj) h.grows.insts_size
    · exact (Array.getElem?_eq_some_iff.mp hcopy).1

end Inlining.Copies

/-! ## The passes -/

/-- A step of the optimiser keeps modules orderly. -/
theorem PassStep.orderly (h : PassStep types m m') (hm : m.Orderly) : m'.Orderly := by
  cases h with
  | prune h => exact h.shrinks.orderly hm
  | fold htyped hfits hinst hfold => exact (shrinks_fold hinst hfold).orderly hm
  | forward htyped hfits hs => exact (shrinks_forward hs).orderly hm
  | @inline maxInsts caller f b htyped hf hlive hb =>
    rcases inlineBlock_cases htyped hm hf hlive hb maxInsts with heq | ⟨s, hcopies, heq⟩
    · rw [heq]
      exact hm
    · rw [heq]
      exact hcopies.orderly htyped hm

theorem PassSteps.orderly (h : PassSteps types m m') (hm : m.Orderly) : m'.Orderly := by
  induction h with
  | refl => exact hm
  | tail _ hstep ih => exact hstep.orderly ih

theorem functions_inlineBlock (htyped : m.Typed types) (hm : m.Orderly) {caller : FuncId}
    {f : Function} (hf : m.functions[caller]? = some f) (hlive : f.excluded = false) {b : BlockId}
    (hb : b ∈ f.blocks) (maxInsts : Nat) :
    (inlineBlock maxInsts caller m b).1.functions = m.functions := by
  rcases inlineBlock_cases htyped hm hf hlive hb maxInsts with heq | ⟨s, hcopies, heq⟩
  · rw [heq]
  · rw [heq]
    exact hcopies.grows.functions

theorem mem_liveBlocks {x : FuncId × BlockId} (h : x ∈ m.liveBlocks) :
    ∃ f, m.functions[x.1]? = some f ∧ f.excluded = false ∧ x.2 ∈ f.blocks := by
  obtain ⟨⟨f, id⟩, hf, hx⟩ := List.mem_flatMap.mp h
  have hget : m.functions[id]? = some f := by
    rw [← Array.getElem?_toList]
    exact List.mem_zipIdx_iff_getElem?.mp hf
  dsimp only at hx
  split at hx
  · cases hx
  · rename_i hlive
    obtain ⟨b, hb, rfl⟩ := List.mem_map.mp hx
    exact ⟨f, hget, Bool.eq_false_iff.mpr hlive, hb⟩

/-- A pass takes steps, as long as values have numbers after it. -/
structure Module.StepsTo (types : TypePool) (m m' : Module) : Prop where
  preserves : m.Preserves types m'
  steps : m'.values.size ≤ invalidId → m.Typed types → m.Orderly → PassSteps types m m'

theorem Module.StepsTo.trans (h : m.StepsTo types m') (h' : m'.StepsTo types m'') :
    m.StepsTo types m'' := by
  refine ⟨h.preserves.trans h'.preserves, fun hfits htyped hm => ?_⟩
  have hfits' := h'.preserves.size_le.trans hfits
  have hsteps := h.steps hfits' htyped hm
  exact ReflTransGen.trans hsteps (h'.steps hfits (h.preserves.typed hfits' htyped)
    (hsteps.orderly hm))

theorem stepsTo_simplifyCfg (m : Module) : m.StepsTo types m.simplifyCfg.1 :=
  ⟨(restricts_simplifyCfg m).preserves, fun _ _ _ => .single (.prune (prunes_simplifyCfg m))⟩

theorem stepsTo_removeDeadCode (m : Module) : m.StepsTo types m.removeDeadCode.1 :=
  ⟨(restricts_removeDeadCode m).preserves, fun _ _ _ => .single (.prune (prunes_removeDeadCode m))⟩

theorem stepsTo_constFold (m : Module) : m.StepsTo types (m.constFold types).1 := by
  refine ⟨preserves_constFold m, fun hfits htyped _ => passSteps_constFold htyped ?_⟩
  rwa [values_constFold] at hfits

theorem stepsTo_inlineBlocks (maxInsts : Nat) (bs : List (FuncId × BlockId)) (m : Module)
    (hbs : ∀ x ∈ bs, ∃ f, m.functions[x.1]? = some f ∧ f.excluded = false ∧ x.2 ∈ f.blocks) :
    m.StepsTo types (inlineBlocks maxInsts bs m).1 := by
  refine ⟨preserves_inlineBlocks maxInsts bs m, fun hfits htyped hm => ?_⟩
  induction bs generalizing m with
  | nil => exact .refl
  | cons x bs ih =>
    obtain ⟨f, hf, hlive, hb⟩ := hbs x List.mem_cons_self
    have hstep : PassStep types m (inlineBlock maxInsts x.1 m x.2).1 := .inline htyped hf hlive hb
    have hpreserves : m.Preserves types _ := preserves_inlineBlock maxInsts x.1 m x.2
    have hrest : Module.Preserves types _ _ :=
      preserves_inlineBlocks maxInsts bs (inlineBlock maxInsts x.1 m x.2).1
    refine .trans (.single hstep) (ih _ (fun y hy => ?_) hfits
      (hpreserves.typed (hrest.size_le.trans hfits) htyped) (hstep.orderly hm))
    rw [functions_inlineBlock htyped hm hf hlive hb]
    exact hbs y (List.mem_cons_of_mem _ hy)

theorem stepsTo_inlineCalls (maxInsts : Nat) (m : Module) :
    m.StepsTo types (m.inlineCalls maxInsts).1 :=
  stepsTo_inlineBlocks maxInsts _ m fun _ hx => mem_liveBlocks hx

/-- The optimiser takes steps, the last of which simplifies control flow. -/
theorem optimize_cases (types : TypePool) (m : Module) (opt : PassOptions) :
    m.optimize types opt = m ∨
      ∃ m' : Module, m.optimize types opt = m'.simplifyCfg.1 ∧ m.StepsTo types m' := by
  unfold Module.optimize
  split
  · exact .inl rfl
  · dsimp only
    refine .inr ⟨((m.simplifyCfg.1.constFold types).1.inlineCalls
      opt.inlineMaxInsts).1.constFold types |>.1.removeDeadCode.1, rfl, ?_⟩
    refine Module.StepsTo.trans ?_ (stepsTo_removeDeadCode _)
    refine Module.StepsTo.trans ?_ (stepsTo_constFold _)
    refine Module.StepsTo.trans ?_ (stepsTo_inlineCalls _ _)
    exact (stepsTo_simplifyCfg m).trans (stepsTo_constFold _)

/-- Every block on the path to a block that is kept is kept. -/
theorem reach_of_kept {f g : Function} {e b : BlockId} (hblock : ∀ b, m'.block b = m.block b)
    (hsize : m'.blocks.size = m.blocks.size)
    (hkept : ∀ c, c ∈ g.blocks ↔ c ∈ f.blocks ∧ Walk.Reach (m.cfg f).successors e c)
    (h : Walk.Reach (m.cfg f).successors e b) : Walk.Reach (m'.cfg g).successors e b := by
  induction h with
  | refl => exact .refl e
  | @tail x y hx hy ih =>
    obtain ⟨hsucc, hmem, hlt⟩ := Module.mem_successors_cfg.mp hy
    refine ih.trans (.single (Module.mem_successors_cfg.mpr ⟨?_, ?_, ?_⟩))
    · rw [hblock]
      exact hsucc
    · exact (hkept y).mpr ⟨hmem, hx.tail hy⟩
    · rw [hsize]
      exact hlt

/-- When control flow has been simplified, all blocks of functions are reached. -/
theorem reaches_simplifyCfg (hm : m.Orderly) {f : Function} (hf : f ∈ m.simplifyCfg.1.functions)
    (hlive : f.excluded = false) {b : BlockId} (hb : b ∈ f.blocks) :
    m.simplifyCfg.1.Reaches f b := by
  have hm' := (prunes_simplifyBlocks (m.functions.toList.flatMap (·.blocks)) m).shrinks.orderly hm
  unfold Module.simplifyCfg at hf ⊢
  dsimp only at hf ⊢
  generalize (Module.simplifyBlocks (m.functions.toList.flatMap (·.blocks)) m).1 = m' at hm' hf ⊢
  obtain ⟨g, hg, rfl⟩ := Array.mem_map.mp hf
  have hlive' : g.excluded = false := (trims_dropUnreachable m' g).excluded.symm.trans hlive
  obtain ⟨e, hmem, hentry⟩ := hm'.entry g hg hlive'
  have hlt := hm'.blocks_lt g hg hlive' e hmem
  have hdrop : (m'.dropUnreachable g).blocks =
      g.blocks.filter fun b => (m'.cfg g).walk.seen.getD b false := by
    unfold Module.dropUnreachable
    dsimp only
    rw [hlive', entry_cfg hentry hlt]
    rfl
  have hmem_iff : ∀ c, c ∈ (m'.dropUnreachable g).blocks ↔
      c ∈ g.blocks ∧ Walk.Reach (m'.cfg g).successors e c := by
    intro c
    rw [hdrop, List.mem_filter]
    exact and_congr_right fun _ => isReached_iff hentry hlt
  exact ⟨e, (trims_dropUnreachable m' g).entry.trans hentry,
    reach_of_kept (fun _ => rfl) rfl hmem_iff ((hmem_iff b).mp hb).2⟩

end ContractCompiler.Ssa
