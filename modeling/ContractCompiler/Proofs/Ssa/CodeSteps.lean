import ContractCompiler.Proofs.Ssa.Valid

/-!
# Steps of the construction

The steps that add to the tables of a function, each with what it leaves alone, what is known after
it, and that it keeps the blocks in order.

- `Valid.addBlock`, `Valid.close`, `Valid.addInst`, `Valid.addParam`: blocks and what they are made
  of;
- `Valid.assume`: more that is known at the start of a block;
- `Valid.pass`: a further parameter of a join, with arguments for it.
-/

namespace ContractCompiler.Ssa

theorem getD_modify_self {blocks : Array Block} {k : BlockId} (hk : k < blocks.size)
    (f : Block → Block) :
    (blocks.modify k f).getD k {} = f (blocks.getD k {}) := by
  rw [Array.getD_eq_getD_getElem?, Array.getD_eq_getD_getElem?, Array.getElem?_modify, if_pos rfl,
    Array.getElem?_eq_getElem hk]
  rfl

theorem getD_modify_of_ne {blocks : Array Block} {j k : BlockId} (h : j ≠ k) (f : Block → Block) :
    (blocks.modify k f).getD j {} = blocks.getD j {} := by
  simp [Array.getD_eq_getD_getElem?, Array.getElem?_modify, h.symm]

/-- What a change to one block leaves alone, it leaves alone in all blocks. -/
theorem congr_getD_modify {α : Type} (g : Block → α) (blocks : Array Block) (k j : BlockId)
    {f : Block → Block} (hf : ∀ block, g (f block) = g block) :
    g ((blocks.modify k f).getD j {}) = g (blocks.getD j {}) := by
  rcases getD_modify_cases blocks k f j with heq | ⟨-, heq⟩
  · rw [heq]
  · rw [heq, hf]

namespace Code

variable {K : BodyContext} {A : Avail} {c : Code} {k : BlockId} {v : ValueId}

/-- Adds an empty block to the function. -/
def addBlock (c : Code) : Code :=
  { c with blocks := c.blocks.push {}, owned := c.owned ++ [c.blocks.size] }

/-- Gives a block a further parameter. -/
def addParam (c : Code) (k : BlockId) (type : TypeId) (span : Span) : Code :=
  { c with
    values := c.values.push { type, site := .param k (c.block k).params.length, span }
    blocks := c.blocks.modify k fun block =>
      { block with params := block.params ++ [c.values.size] } }

/-- Adds an instruction to a block, with a result if it has a type. -/
def addInst (c : Code) (k : BlockId) (data : InstData) (type : Option TypeId) (effect : Effect)
    (span : Span) : Code :=
  { c with
    values := match type with
      | some t => c.values.push { type := t, effect, site := .inst c.insts.size, span }
      | none => c.values
    insts := c.insts.push { data, effect, result := type.map fun _ => c.values.size, span }
    blocks := c.blocks.modify k fun block => { block with insts := block.insts ++ [c.insts.size] } }

/-- Ends a block. -/
def close (c : Code) (k : BlockId) (t : Terminator) : Code :=
  { c with blocks := c.blocks.modify k fun block => { block with term := some t } }

/-- Adds an argument to the edges from a block to a target. -/
def appendTo (target : BlockId) (blocks : Array Block) (arg : BlockId × ValueId) : Array Block :=
  blocks.modify arg.1 fun block =>
    { block with term := block.term.map (Build.appendArg target arg.2) }

/-- Adds an argument to the edges from blocks to a target. -/
def appendArgs (c : Code) (target : BlockId) (args : List (BlockId × ValueId)) : Code :=
  { c with blocks := args.foldl (appendTo target) c.blocks }

/-! ## Blocks -/

theorem block_addBlock (c : Code) (k : BlockId) : c.addBlock.block k = c.block k := by
  unfold block addBlock
  rw [Array.getD_eq_getD_getElem?, Array.getD_eq_getD_getElem?, Array.getElem?_push]
  split
  · rename_i heq
    rw [heq, Array.getElem?_eq_none (Nat.le_refl _)]
    rfl
  · rfl

theorem block_of_size_le (hk : c.blocks.size ≤ k) : c.block k = {} := by
  unfold block
  rw [Array.getD_eq_getD_getElem?, Array.getElem?_eq_none hk]
  rfl

theorem grows_addBlock (A : Avail) (c : Code) : Grows A c A c.addBlock := by
  refine ⟨.refl _, fun _ _ h => h, fun _ _ h => h, ?_, fun k hk => List.mem_append_left _ hk,
    fun k v hv => ?_, fun _ _ h => h⟩
  · show c.blocks.size ≤ (c.blocks.push {}).size
    rw [Array.size_push]
    exact Nat.le_succ _
  · unfold Defines
    rw [block_addBlock]
    exact hv

theorem mem_addBlock : c.blocks.size ∈ c.addBlock.owned :=
  List.mem_append_right _ (List.mem_singleton.mpr rfl)

theorem Valid.addBlock (h : c.Valid K A) (hentry : K.entry ≤ c.blocks.size) :
    c.addBlock.Valid K A := by
  have hg := grows_addBlock A c
  have hsize : c.addBlock.blocks.size = c.blocks.size + 1 := Array.size_push _
  have hinsts : (c.block c.blocks.size).insts = [] := by rw [block_of_size_le (Nat.le_refl _)]
  have hmem (k : BlockId) (hk : k ∈ c.addBlock.owned) : k ∈ c.owned ∨ k = c.blocks.size :=
    (List.mem_append.mp hk).imp_right List.mem_singleton.mp
  refine ⟨h.types, h.signature, fun k hk => ?_, ?_, h.start, fun k v hv => ?_, fun k hk => ?_,
    fun k hk k' hk' i hi hi' => ?_⟩
  · rcases hmem k hk with hk | rfl
    · exact ⟨(h.owned k hk).1, (h.owned k hk).2.trans_le hg.blocks⟩
    · exact ⟨hentry, by rw [hsize]; exact Nat.lt_succ_self _⟩
  · refine List.nodup_append.mpr ⟨h.nodup, by simp, fun k hk k' hk' heq => ?_⟩
    rw [List.mem_singleton.mp hk'] at heq
    exact absurd (h.owned k hk).2 (heq ▸ Nat.lt_irrefl _)
  · exact (h.unborn k v hv).trans_le hg.blocks
  · rcases hmem k hk with hk | rfl
    · exact (h.block k hk).mono hg (block_addBlock c k) fun t ht e he =>
        ⟨by rw [block_addBlock], fun _ hv => .inl hv⟩
    · have hempty : c.addBlock.block c.blocks.size = {} := by
        rw [block_addBlock, block_of_size_le (Nat.le_refl _)]
      refine ⟨fun i v hv => ?_, fun i hi => ?_, ?_, fun t ht => ?_⟩
      · simp [hempty] at hv
      · simp [hempty] at hi
      · simp [hempty]
      · simp [hempty] at ht
  · rw [block_addBlock] at hi hi'
    rcases hmem k hk with hk | rfl
    · rcases hmem k' hk' with hk' | rfl
      · exact h.once k hk k' hk' i hi hi'
      · simp [hinsts] at hi'
    · simp [hinsts] at hi

/-- No edge leads to a block that was just added. -/
theorem Valid.edgesFrom_addBlock (h : c.Valid K A) : c.addBlock.EdgesFrom c.blocks.size [] := by
  intro k hk t ht e he heq
  rw [block_addBlock] at ht
  rcases List.mem_append.mp hk with hk | hk
  · have := (h.owned _ (h.target_owned hk ht he)).2
    rw [heq] at this
    exact absurd this (Nat.lt_irrefl _)
  · rw [List.mem_singleton.mp hk, block_of_size_le (Nat.le_refl _)] at ht
    cases ht

/-! ## Endings -/

section Close

variable (c) (k) (t : Terminator) (j : BlockId)

theorem block_close_self (hk : k < c.blocks.size) :
    (c.close k t).block k = { c.block k with term := some t } :=
  getD_modify_self hk _

theorem block_close_of_ne (h : j ≠ k) : (c.close k t).block j = c.block j := getD_modify_of_ne h _

theorem params_close : ((c.close k t).block j).params = (c.block j).params :=
  congr_getD_modify Block.params c.blocks k j fun _ => rfl

theorem insts_close : ((c.close k t).block j).insts = (c.block j).insts :=
  congr_getD_modify Block.insts c.blocks k j fun _ => rfl

theorem grows_close (A : Avail) : Grows A c A (c.close k t) := by
  refine ⟨.refl _, fun _ _ h => h, fun _ _ h => h, ?_, fun _ h => h, fun j v hv => ?_,
    fun _ _ h => h⟩
  · show c.blocks.size ≤ (c.blocks.modify k _).size
    rw [Array.size_modify]
  · unfold Defines
    rw [params_close, insts_close]
    exact hv

end Close

theorem Valid.close (h : c.Valid K A) (hk : k ∈ c.owned) {t : Terminator}
    (ht : c.EndValid K A k t) :
    (c.close k t).Valid K A := by
  have hg := grows_close c k t A
  have hsame (j j' : BlockId) : Same A c A (c.close k t) j j' :=
    ⟨params_close c k t j', fun _ hv => .inl hv⟩
  refine h.of_grows hg h.types rfl h.start (fun j v hv => (h.unborn j v hv).trans_le hg.blocks)
    (fun j hj => ?_) fun j hj j' hj' i hi hi' => ?_
  · by_cases hjk : j = k
    · subst hjk
      have hself := block_close_self c j t (h.owned j hk).2
      have hb := h.block j hj
      refine ⟨fun i v hv => ?_, fun i hi => ?_, ?_, fun t' ht' => ?_⟩
      · rw [params_close] at hv
        exact hb.params i v hv
      · rw [insts_close] at hi
        obtain ⟨inst, hinst, hvalid⟩ := hb.insts i hi
        exact ⟨inst, hinst, hvalid.mono hg⟩
      · rw [insts_close]
        exact hb.sorted
      · rw [hself] at ht'
        obtain rfl := Option.some.inj ht'
        exact ht.mono hg fun e _ => hsame _ e.1
    · exact (h.block j hj).mono hg (block_close_of_ne c k t j hjk) fun _ _ e _ => hsame _ e.1
  · rw [insts_close] at hi hi'
    exact h.once j hj j' hj' i hi hi'

/-- Ending a block adds the edges of the ending. -/
theorem EdgesFrom.close {target : BlockId} {sources sources' : List BlockId}
    (h : c.EdgesFrom target sources) {t : Terminator} (hsources : ∀ j ∈ sources, j ∈ sources')
    (ht : ∀ e ∈ t.edges, e.1 = target → k ∈ sources') :
    (c.close k t).EdgesFrom target sources' := by
  intro j hj t' ht' e he heq
  rcases getD_modify_cases c.blocks k (fun block => { block with term := some t })
    j with hb | ⟨rfl, hb⟩
  · exact hsources j (h j hj t' ((congrArg Block.term hb).symm.trans ht') e he heq)
  · obtain rfl := Option.some.inj ((congrArg Block.term hb).symm.trans ht')
    exact ht e he heq

/-- Ending a block and adding another one do not depend on each other. -/
theorem addBlock_close (c : Code) (hk : k < c.blocks.size) (t : Terminator) :
    (c.close k t).addBlock = c.addBlock.close k t := by
  unfold addBlock close
  congr 1
  · refine Array.ext_getElem? fun i => ?_
    simp only [Array.getElem?_modify, Array.getElem?_push, Array.size_modify]
    split
    · rename_i heq
      rw [if_neg (heq ▸ hk.ne)]
    · rfl
  · simp

/-! ## Instructions -/

section AddInst

variable (c) (k) (data : InstData) (type : Option TypeId) (effect : Effect) (span : Span)
  (j : BlockId)

theorem params_addInst :
    ((c.addInst k data type effect span).block j).params = (c.block j).params :=
  congr_getD_modify Block.params c.blocks k j fun _ => rfl

theorem term_addInst : ((c.addInst k data type effect span).block j).term = (c.block j).term :=
  congr_getD_modify Block.term c.blocks k j fun _ => rfl

theorem insts_addInst_self (hk : k < c.blocks.size) :
    ((c.addInst k data type effect span).block k).insts = (c.block k).insts ++ [c.insts.size] :=
  congrArg Block.insts (getD_modify_self hk _)

theorem block_addInst_of_ne (h : j ≠ k) : (c.addInst k data type effect span).block j = c.block j :=
  getD_modify_of_ne h _

theorem mem_insts_addInst {i : InstId}
    (hi : i ∈ ((c.addInst k data type effect span).block j).insts) :
    i ∈ (c.block j).insts ∨ j = k ∧ i = c.insts.size := by
  by_cases hjk : j = k
  · subst hjk
    by_cases hlt : j < c.blocks.size
    · rw [insts_addInst_self c j data type effect span hlt] at hi
      exact (List.mem_append.mp hi).imp_right fun hi => ⟨rfl, List.mem_singleton.mp hi⟩
    · have hempty : (c.addInst j data type effect span).block j = {} := by
        refine block_of_size_le ?_
        show (c.blocks.modify j _).size ≤ j
        rw [Array.size_modify]
        exact Nat.not_lt.mp hlt
      rw [hempty] at hi
      cases hi
  · rw [block_addInst_of_ne c k data type effect span j hjk] at hi
    exact .inl hi

theorem subset_insts_addInst {i : InstId} (hi : i ∈ (c.block j).insts) :
    i ∈ ((c.addInst k data type effect span).block j).insts := by
  by_cases hjk : j = k
  · subst hjk
    by_cases hlt : j < c.blocks.size
    · rw [insts_addInst_self c j data type effect span hlt]
      exact List.mem_append_left _ hi
    · rw [block_of_size_le (Nat.not_lt.mp hlt)] at hi
      cases hi
  · rw [block_addInst_of_ne c k data type effect span j hjk]
    exact hi

theorem grows_addInst (A : Avail) : Grows A c A (c.addInst k data type effect span) := by
  refine ⟨.refl _, fun v value hv => ?_, fun i inst hi => getElem?_push_of_some hi, ?_,
    fun _ h => h,
    fun j v hv => ?_, fun _ _ h => h⟩
  · cases type with
    | none => exact hv
    | some t => exact getElem?_push_of_some hv
  · show c.blocks.size ≤ (c.blocks.modify k _).size
    rw [Array.size_modify]
  · refine hv.imp (fun hv => by rw [params_addInst]; exact hv) ?_
    rintro ⟨i, hi, inst, hinst, hresult⟩
    exact ⟨i, subset_insts_addInst c k data type effect span j hi, inst,
      getElem?_push_of_some hinst,
      hresult⟩

/-- The result of an instruction is of its type. -/
theorem kind?_addInst (K : BodyContext) (t : TypeId) :
    (c.addInst k data (some t) effect span).kind? K c.values.size = some (t, data.makesCell) := by
  unfold kind? kindIn addInst
  simp

theorem defines_addInst (hk : k < c.blocks.size) (t : TypeId) :
    (c.addInst k data (some t) effect span).Defines k c.values.size := by
  refine .inr ⟨c.insts.size, ?_, _, Array.getElem?_push_size, rfl⟩
  rw [insts_addInst_self c k data (some t) effect span hk]
  exact List.mem_append_right _ (List.mem_singleton.mpr rfl)

end AddInst

theorem Valid.addInst (h : c.Valid K A) (hk : k ∈ c.owned) {data : InstData} (hfits : c.Fits K data)
    (huses : ∀ v ∈ data.operands, c.Known A k v) (type : Option TypeId) (effect : Effect)
    (span : Span) :
    (c.addInst k data type effect span).Valid K A := by
  have hg := grows_addInst c k data type effect span A
  have hsame (j j' : BlockId) : Same A c A (c.addInst k data type effect span) j j' :=
    ⟨params_addInst c k data type effect span j', fun _ hv => .inl hv⟩
  refine h.of_grows hg h.types rfl h.start (fun j v hv => (h.unborn j v hv).trans_le hg.blocks)
    (fun j hj => ?_) fun j hj j' hj' i hi hi' => ?_
  · by_cases hjk : j = k
    · subst hjk
      have hlt := (h.owned j hk).2
      have hb := h.block j hj
      refine ⟨fun i v hv => ?_, fun i hi => ?_, ?_, fun t ht => ?_⟩
      · rw [params_addInst] at hv
        obtain ⟨value, hvalue, hsite⟩ := hb.params i v hv
        exact ⟨value, hg.values v value hvalue, hsite⟩
      · rcases mem_insts_addInst c j data type effect span j hi with hi | ⟨-, rfl⟩
        · obtain ⟨inst, hinst, hvalid⟩ := hb.insts i hi
          exact ⟨inst, hg.insts i inst hinst, hvalid.mono hg⟩
        · refine ⟨_, Array.getElem?_push_size, hg.fits hfits, fun v hv => ?_, fun v hv => ?_⟩
          · obtain ⟨x, hx⟩ := hfits.kind hv
            exact ⟨hg.known (huses v hv), hg.before hx (before_of_kind? hx)⟩
          · obtain ⟨t, rfl, rfl⟩ := Option.map_eq_some_iff.mp hv
            exact ⟨_, Array.getElem?_push_size, rfl⟩
      · rw [insts_addInst_self c j data type effect span hlt]
        refine List.pairwise_append.mpr ⟨hb.sorted, List.pairwise_singleton _ _,
          fun i hi i' hi' => ?_⟩
        rw [List.mem_singleton.mp hi']
        exact h.inst_lt hj hi
      · rw [term_addInst] at ht
        exact (hb.term t ht).mono hg fun e _ => hsame _ e.1
    · exact (h.block j hj).mono hg (block_addInst_of_ne c k data type effect span j hjk)
        fun _ _ e _ => hsame _ e.1
  · -- the new instruction has a number of its own
    rcases mem_insts_addInst c k data type effect span j hi with hold | ⟨rfl, hnew⟩
    · rcases mem_insts_addInst c k data type effect span j' hi' with hold' | ⟨rfl, hnew'⟩
      · exact h.once j hj j' hj' i hold hold'
      · exact absurd (hnew' ▸ h.inst_lt hj hold) (Nat.lt_irrefl _)
    · rcases mem_insts_addInst c j data type effect span j' hi' with hold' | ⟨rfl, -⟩
      · exact absurd (hnew ▸ h.inst_lt hj' hold') (Nat.lt_irrefl _)
      · rfl

/-! ## Parameters -/

section AddParam

variable (c) (k) (type : TypeId) (span : Span) (j : BlockId)

theorem params_addParam_self (hk : k < c.blocks.size) :
    ((c.addParam k type span).block k).params = (c.block k).params ++ [c.values.size] :=
  congrArg Block.params (getD_modify_self hk _)

theorem block_addParam_of_ne (h : j ≠ k) : (c.addParam k type span).block j = c.block j :=
  getD_modify_of_ne h _

theorem insts_addParam : ((c.addParam k type span).block j).insts = (c.block j).insts :=
  congr_getD_modify Block.insts c.blocks k j fun _ => rfl

theorem term_addParam : ((c.addParam k type span).block j).term = (c.block j).term :=
  congr_getD_modify Block.term c.blocks k j fun _ => rfl

theorem grows_addParam (A : Avail) (hk : k < c.blocks.size) :
    Grows A c A (c.addParam k type span) := by
  refine ⟨.refl _, fun v value hv => getElem?_push_of_some hv, fun _ _ h => h, ?_, fun _ h => h,
    fun j v hv => ?_, fun _ _ h => h⟩
  · show c.blocks.size ≤ (c.blocks.modify k _).size
    rw [Array.size_modify]
  · refine hv.imp (fun hv => ?_) fun hv => by rw [insts_addParam]; exact hv
    by_cases hjk : j = k
    · subst hjk
      rw [params_addParam_self c j type span hk]
      exact List.mem_append_left _ hv
    · rw [block_addParam_of_ne c k type span j hjk]
      exact hv

theorem kind?_addParam (K : BodyContext) : (c.addParam k type span).kind? K c.values.size =
    some (type, decide (k = K.entry) && decide
      (K.modes[(c.block k).params.length]? = some .exclusive)) := by
  unfold kind? kindIn addParam
  simp

theorem defines_addParam (hk : k < c.blocks.size) :
    (c.addParam k type span).Defines k c.values.size := by
  refine .inl ?_
  rw [params_addParam_self c k type span hk]
  exact List.mem_append_right _ (List.mem_singleton.mpr rfl)

end AddParam

/-- The parameters of a block are in order after one was added. -/
theorem Valid.params_addParam (h : c.Valid K A) (hk : k ∈ c.owned) (type : TypeId) (span : Span)
    {i : Nat} (hv : ((c.addParam k type span).block k).params[i]? = some v) :
    ∃ value : Value, (c.addParam k type span).values[v]? = some value ∧
      value.site = .param k i := by
  rw [params_addParam_self c k type span (h.owned k hk).2, List.getElem?_append] at hv
  split at hv
  · obtain ⟨value, hvalue, hsite⟩ := (h.block k hk).params i v hv
    exact ⟨value, getElem?_push_of_some hvalue, hsite⟩
  · rename_i hlt
    obtain ⟨hzero, rfl⟩ : i - (c.block k).params.length = 0 ∧ c.values.size = v := by
      rw [List.getElem?_singleton] at hv
      split at hv
      · rename_i hzero
        exact ⟨hzero, Option.some.inj hv⟩
      · cases hv
    refine ⟨_, Array.getElem?_push_size, ?_⟩
    rw [show i = (c.block k).params.length by omega]

/-- A block to which no edge leads may get a further parameter. -/
theorem Valid.addParam (h : c.Valid K A) (hk : k ∈ c.owned) (hfrom : c.EdgesFrom k [])
    (type : TypeId) (span : Span) : (c.addParam k type span).Valid K A := by
  have hg := grows_addParam c k type span A (h.owned k hk).2
  have hsame (j : BlockId) (hj : j ∈ c.owned) (t : Terminator) (ht : (c.block j).term = some t)
      (e : BlockId × List ValueId) (he : e ∈ t.edges) :
        Same A c A (c.addParam k type span) j e.1 := by
    have hne : e.1 ≠ k := fun heq => List.not_mem_nil (hfrom j hj t ht e he heq)
    exact ⟨by rw [block_addParam_of_ne c k type span e.1 hne], fun _ hv => .inl hv⟩
  refine h.of_grows hg h.types rfl h.start (fun j v hv => (h.unborn j v hv).trans_le hg.blocks)
    (fun j hj => ?_) fun j hj j' hj' i hi hi' => ?_
  · by_cases hjk : j = k
    · subst hjk
      have hb := h.block j hj
      refine ⟨fun i v hv => h.params_addParam hj type span hv, fun i hi => ?_, ?_, fun t ht => ?_⟩
      · rw [insts_addParam] at hi
        obtain ⟨inst, hinst, hvalid⟩ := hb.insts i hi
        exact ⟨inst, hinst, hvalid.mono hg⟩
      · rw [insts_addParam]
        exact hb.sorted
      · rw [term_addParam] at ht
        exact (hb.term t ht).mono hg (hsame j hj t ht)
    · exact (h.block j hj).mono hg (block_addParam_of_ne c k type span j hjk) (hsame j hj)
  · rw [insts_addParam] at hi hi'
    exact h.once j hj j' hj' i hi hi'

/-- Ending a block and giving another one a parameter do not depend on each other. -/
theorem addParam_close (c : Code) {j : BlockId} (h : k ≠ j) (t : Terminator) (type : TypeId)
    (span : Span) :
    (c.close j t).addParam k type span = (c.addParam k type span).close j t := by
  unfold addParam close block
  rw [getD_modify_of_ne h]
  congr 1
  refine Array.ext_getElem? fun i => ?_
  simp only [Array.getElem?_modify]
  split <;> split <;> simp_all

/-! ## More types, and more that is known -/

theorem grows_withTypes (A : Avail) (c : Code) {types : TypePool} (h : c.types.Extends types) :
    Grows A c A { c with types } :=
  ⟨h, fun _ _ h => h, fun _ _ h => h, Nat.le_refl _, fun _ h => h, fun _ _ h => h, fun _ _ h => h⟩

theorem Valid.withTypes (h : c.Valid K A) {types : TypePool} (hext : c.types.Extends types)
    (hsound : types.Sound) : Valid K A { c with types } := by
  have hg := grows_withTypes A c hext
  exact h.of_grows hg hsound rfl h.start h.unborn
    (fun j hj => (h.block j hj).mono hg rfl fun _ _ _ _ => ⟨rfl, fun _ hv => .inl hv⟩) h.once

theorem grows_assume (A : Avail) (c : Code) (k : BlockId) (S : ValueId → Prop) :
    Grows A c (A.add k S) c :=
  ⟨.refl _, fun _ _ h => h, fun _ _ h => h, Nat.le_refl _, fun _ h => h, fun _ _ h => h,
    fun _ _ h => .inl h⟩

/-- What is known in all blocks that an edge comes from is known at the start of its target. -/
theorem Valid.assume (h : c.Valid K A) (hk : k ∈ c.owned) (hentry : k ≠ K.entry)
    {sources : List BlockId} (hfrom : c.EdgesFrom k sources) {S : ValueId → Prop}
    (hS : ∀ j ∈ sources, ∀ v, S v → c.Known A j v) : c.Valid K (A.add k S) := by
  have hg := grows_assume A c k S
  refine h.of_grows hg h.types rfl (fun v hv => ?_) (fun j v hv => ?_) (fun j hj => ?_) h.once
  · exact hv.elim (h.start v) fun ⟨heq, _⟩ => hentry heq.symm
  · exact hv.elim (h.unborn j v) fun ⟨heq, _⟩ => heq ▸ (h.owned k hk).2
  · refine (h.block j hj).mono hg rfl fun t ht e he => ⟨rfl, fun v hv => hv.imp_right ?_⟩
    rintro ⟨heq, hv⟩
    exact hS j (hfrom j hj t ht e he heq) v hv

/-! ## Arguments for a further parameter of a join -/

theorem edges_appendArg (target : BlockId) (arg : ValueId) (t : Terminator) :
    (Build.appendArg target arg t).edges =
      t.edges.map fun e => if e.1 = target then (e.1, e.2 ++ [arg]) else e := by
  cases t with
  | jump t args =>
    simp only [Build.appendArg, Terminator.edges, List.map_cons, List.map_nil]
    split <;> rfl
  | branch cond t targs e eargs =>
    simp only [Build.appendArg, Terminator.edges, List.map_cons, List.map_nil]
    split <;> split <;> rfl
  | _ => rfl

theorem mem_operands_appendArg {target : BlockId} {arg : ValueId} {t : Terminator}
    (h : v ∈ (Build.appendArg target arg t).operands) : v ∈ t.operands ∨ v = arg := by
  cases t with
  | jump t args =>
    simp only [Build.appendArg, Terminator.operands] at h ⊢
    split at h <;> simp_all
  | branch cond t targs e eargs =>
    simp only [Build.appendArg, Terminator.operands] at h ⊢
    split at h <;> split at h <;> simp_all <;> tauto
  | _ => exact .inl h

theorem appendArg_eq_ret {target : BlockId} {arg : ValueId} {t : Terminator} {r : Option ValueId}
    (h : Build.appendArg target arg t = .ret r) : t = .ret r := by
  cases t with
  | ret value => exact h
  | _ => cases h

section AppendArgs

variable {target : BlockId} {args : List (BlockId × ValueId)}

theorem params_appendArgs (c : Code) (target : BlockId) (args : List (BlockId × ValueId))
    (j : BlockId) :
    ((c.appendArgs target args).block j).params = (c.block j).params := by
  induction args generalizing c with
  | nil => rfl
  | cons arg args ih =>
    refine (ih { c with blocks := appendTo target c.blocks arg }).trans ?_
    exact congr_getD_modify Block.params c.blocks arg.1 j fun _ => rfl

theorem insts_appendArgs (c : Code) (target : BlockId) (args : List (BlockId × ValueId))
    (j : BlockId) :
    ((c.appendArgs target args).block j).insts = (c.block j).insts := by
  induction args generalizing c with
  | nil => rfl
  | cons arg args ih =>
    refine (ih { c with blocks := appendTo target c.blocks arg }).trans ?_
    exact congr_getD_modify Block.insts c.blocks arg.1 j fun _ => rfl

theorem size_appendArgs (c : Code) (target : BlockId) (args : List (BlockId × ValueId)) :
    (c.appendArgs target args).blocks.size = c.blocks.size := by
  induction args generalizing c with
  | nil => rfl
  | cons arg args ih =>
    exact (ih { c with blocks := appendTo target c.blocks arg }).trans Array.size_modify

theorem block_appendArgs_of_not_mem (c : Code) (target : BlockId) {j : BlockId}
    (hj : j ∉ args.map (·.1)) :
    (c.appendArgs target args).block j = c.block j := by
  induction args generalizing c with
  | nil => rfl
  | cons arg args ih =>
    obtain ⟨hne, hj⟩ : j ≠ arg.1 ∧ j ∉ args.map (·.1) := by simpa using hj
    refine (ih { c with blocks := appendTo target c.blocks arg } (by simpa using hj)).trans ?_
    exact getD_modify_of_ne hne _

theorem term_appendArgs_eq_none (c : Code) (target : BlockId) (args : List (BlockId × ValueId))
    (j : BlockId) :
    ((c.appendArgs target args).block j).term = none ↔ (c.block j).term = none := by
  induction args generalizing c with
  | nil => exact Iff.rfl
  | cons arg args ih =>
    refine (ih { c with blocks := appendTo target c.blocks arg }).trans ?_
    have hstep := congr_getD_modify (fun block => block.term.isNone) c.blocks arg.1 j
      (f := fun block => { block with term := block.term.map (Build.appendArg target arg.2) })
      fun block => by cases block.term <;> rfl
    rw [← Option.isNone_iff_eq_none, ← Option.isNone_iff_eq_none]
    exact iff_of_eq (congrArg (· = true) hstep)

theorem term_appendArgs_of_mem (c : Code) (hnodup : (args.map (·.1)).Nodup) {j : BlockId}
    {arg : ValueId} (hj : (j, arg) ∈ args) (hlt : j < c.blocks.size) :
    ((c.appendArgs target args).block j).term =
      (c.block j).term.map (Build.appendArg target arg) := by
  induction args generalizing c with
  | nil => cases hj
  | cons first args ih =>
    rw [List.map_cons, List.nodup_cons] at hnodup
    obtain ⟨hfirst, hnodup⟩ := hnodup
    rcases List.mem_cons.mp hj with rfl | hj
    · have hrest := block_appendArgs_of_not_mem
        { c with blocks := appendTo target c.blocks (j, arg) } target hfirst
      exact congrArg Block.term (hrest.trans (getD_modify_self hlt _))
    · have hne : j ≠ first.1 := by
        rintro rfl
        exact hfirst (List.mem_map.mpr ⟨_, hj, rfl⟩)
      have hlt' : j < (appendTo target c.blocks first).size := by
        rw [appendTo, Array.size_modify]
        exact hlt
      refine (ih { c with blocks := appendTo target c.blocks first } hnodup hj hlt').trans ?_
      exact congrArg (Option.map _) (congrArg Block.term (getD_modify_of_ne hne _))

end AppendArgs

/-- Gives a join a further parameter, with arguments for it on the edges. -/
def pass (c : Code) (join : BlockId) (type : TypeId) (args : List (BlockId × ValueId)) : Code :=
  (c.addParam join type {}).appendArgs join args

section Pass

variable {join : BlockId} {type : TypeId} {args : List (BlockId × ValueId)}

theorem grows_pass (A : Avail) (hjoin : join < c.blocks.size) :
    Grows A c A (c.pass join type args) := by
  refine (grows_addParam c join type {} A hjoin).trans
    ⟨.refl _, fun _ _ h => h, fun _ _ h => h, ?_, fun _ h => h, fun j v hv => ?_, fun _ _ h => h⟩
  · rw [pass, size_appendArgs]
  · unfold Defines
    rw [pass, params_appendArgs, insts_appendArgs]
    exact hv

/-- How blocks end after a join was given a further parameter. -/
theorem term_pass (hnodup : (args.map (·.1)).Nodup) {j : BlockId} (hj : j < c.blocks.size)
    {t : Terminator} (ht : ((c.pass join type args).block j).term = some t) :
    (j ∉ args.map (·.1) ∧ (c.block j).term = some t) ∨
      ∃ arg t', (j, arg) ∈ args ∧ (c.block j).term = some t' ∧ t = Build.appendArg join arg t' := by
  unfold pass at ht
  by_cases hmem : j ∈ args.map (·.1)
  · obtain ⟨⟨j, arg⟩, harg, rfl⟩ := List.mem_map.mp hmem
    have hlt : j < (c.addParam join type {}).blocks.size := by
      show j < (c.blocks.modify join _).size
      rw [Array.size_modify]
      exact hj
    rw [term_appendArgs_of_mem _ hnodup harg hlt, term_addParam] at ht
    obtain ⟨t', ht', rfl⟩ := Option.map_eq_some_iff.mp ht
    exact .inr ⟨arg, t', harg, ht', rfl⟩
  · rw [block_appendArgs_of_not_mem _ join hmem, term_addParam] at ht
    exact .inl ⟨hmem, ht⟩

theorem Valid.pass (h : c.Valid K A) (hjoin : join ∈ c.owned) (hentry : join ≠ K.entry)
    (hnodup : (args.map (·.1)).Nodup) (hfrom : c.EdgesFrom join (args.map (·.1)))
    (hargs : ∀ a ∈ args, c.Known A a.1 a.2 ∧ c.kind? K a.2 = some (type, false)) :
    (c.pass join type args).Valid K A := by
  have hlt := (h.owned join hjoin).2
  have hg : Grows A c A (c.pass join type args) := grows_pass A hlt
  have hparams (j : BlockId) : ((c.pass join type args).block j).params =
      ((c.addParam join type {}).block j).params := params_appendArgs _ _ _ j
  have hinsts (j : BlockId) : ((c.pass join type args).block j).insts = (c.block j).insts :=
    (insts_appendArgs _ _ _ j).trans (insts_addParam c join type {} j)
  have hother (j j' : BlockId) (hne : j' ≠ join) : Same A c A (c.pass join type args) j j' := by
    refine ⟨?_, fun _ hv => .inl hv⟩
    rw [hparams, block_addParam_of_ne c join type {} j' hne]
  refine h.of_grows hg h.types rfl h.start (fun j v hv => (h.unborn j v hv).trans_le hg.blocks)
    (fun j hj => ?_) fun j hj j' hj' i hi hi' => ?_
  · have hb := h.block j hj
    refine ⟨fun i v hv => ?_, fun i hi => ?_, ?_, fun t ht => ?_⟩
    · rw [hparams] at hv
      by_cases hjk : j = join
      · subst hjk
        exact h.params_addParam hj type {} hv
      · rw [block_addParam_of_ne c join type {} j hjk] at hv
        obtain ⟨value, hvalue, hsite⟩ := hb.params i v hv
        exact ⟨value, hg.values v value hvalue, hsite⟩
    · rw [hinsts] at hi
      obtain ⟨inst, hinst, hvalid⟩ := hb.insts i hi
      exact ⟨inst, hg.insts i inst hinst, hvalid.mono hg⟩
    · rw [hinsts]
      exact hb.sorted
    · -- a terminator is either left alone or passes the argument of its block in addition
      rcases term_pass hnodup (h.owned j hj).2 ht with ⟨hmem, ht⟩ | ⟨arg, t', harg, ht', rfl⟩
      · exact (hb.term t ht).mono hg fun e he => hother j e.1 fun heq =>
          hmem (hfrom j hj t ht e he heq)
      · obtain ⟨hknown, hkind⟩ := hargs _ harg
        have hend := hb.term t' ht'
        refine ⟨fun v hv => ?_, fun e he => ?_, fun v hv => ?_,
          fun hnone => hend.unit (appendArg_eq_ret hnone)⟩
        · rcases mem_operands_appendArg hv with hv | rfl
          · exact ⟨hg.known (hend.uses v hv).1, hg.plain (hend.uses v hv).2⟩
          · exact ⟨hg.known hknown, type, hg.kind? hkind⟩
        · rw [edges_appendArg] at he
          obtain ⟨e', he', rfl⟩ := List.mem_map.mp he
          obtain ⟨howned, hne, havail, hmatches⟩ := hend.edges e' he'
          split
          · rename_i heq
            refine ⟨howned, hne, fun v hv => hg.known (havail v hv), ?_⟩
            show List.Forall₂ _ (e'.2 ++ [arg]) ((c.pass join type args).block e'.1).params
            rw [hparams, heq, params_addParam_self c join type {} hlt]
            unfold Matches at hmatches
            rw [heq] at hmatches
            refine List.rel_append (hmatches.imp fun v p hv => ?_) (.cons ?_ .nil)
            · obtain ⟨t, hv, hp⟩ := hv
              exact ⟨t, hg.typeIn hv, hg.typeIn hp⟩
            · exact ⟨type, hg.typeIn (typeIn_of_kind? hkind), typeIn_push_size c.values _⟩
          · rename_i hne'
            exact ⟨howned, hne, fun v hv => hg.known (havail v hv),
              hg.matches (hother j e'.1 hne').1 hmatches⟩
        · exact hg.typeIn (hend.ret v (appendArg_eq_ret hv))
  · rw [hinsts] at hi hi'
    exact h.once j hj j' hj' i hi hi'

theorem kind?_pass (hentry : join ≠ K.entry) :
    (c.pass join type args).kind? K c.values.size = some (type, false) := by
  have hkind := kind?_addParam c join type {} K
  rw [decide_eq_false hentry, Bool.false_and] at hkind
  exact hkind

theorem defines_pass (hjoin : join < c.blocks.size) :
    (c.pass join type args).Defines join c.values.size := by
  refine (defines_addParam c join type {} hjoin).imp (fun hv => ?_) fun hv => ?_
  · rw [pass, params_appendArgs]
    exact hv
  · rw [pass, insts_appendArgs]
    exact hv

theorem block_pass_of_ne {j : BlockId} (hne : j ≠ join) (hj : j ∉ args.map (·.1)) :
    (c.pass join type args).block j = c.block j := by
  rw [← block_addParam_of_ne c join type {} j hne]
  exact block_appendArgs_of_not_mem (c.addParam join type {}) join hj

theorem params_pass_of_ne {j : BlockId} (hne : j ≠ join) :
    ((c.pass join type args).block j).params = (c.block j).params := by
  rw [pass, params_appendArgs, block_addParam_of_ne c join type {} j hne]

theorem term_pass_eq_none (j : BlockId) :
    ((c.pass join type args).block j).term = none ↔ (c.block j).term = none := by
  rw [pass, term_appendArgs_eq_none, term_addParam]

/-- The edges of a block lead where they led before. -/
theorem exists_edge_of_pass (hnodup : (args.map (·.1)).Nodup) {j : BlockId} (hj : j < c.blocks.size)
    {t : Terminator} (ht : ((c.pass join type args).block j).term = some t)
    {e : BlockId × List ValueId} (he : e ∈ t.edges) :
    ∃ t' e', (c.block j).term = some t' ∧ e' ∈ t'.edges ∧ e'.1 = e.1 := by
  rcases term_pass hnodup hj ht with ⟨-, ht⟩ | ⟨arg, t', -, ht', rfl⟩
  · exact ⟨t, e, ht, he, rfl⟩
  · rw [edges_appendArg] at he
    obtain ⟨e', he', rfl⟩ := List.mem_map.mp he
    exact ⟨t', e', ht', he', by split <;> rfl⟩

end Pass

end Code

end ContractCompiler.Ssa
