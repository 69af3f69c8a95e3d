import ContractCompiler.Proofs.Pipeline
import ContractCompiler.Proofs.Ssa.ValidModule

/-!
# What instructions and functions yield

An instruction has a result unless its type is unit, and so does a function return a value: code is
made for both from their types alone.

- `InstData.yields`, `InstData.isSilent`: the instructions that always and never have a result;
- `Inst.Typed.isSome_result`, `Inst.Typed.result_eq_none`: typed instructions have results
  accordingly;
- `Module.Returns`: functions that return nothing are of type unit;
- `Module.KeepsEndings`: a module whose blocks lead to the same blocks, and return nothing only
  where they did before;
- `FromDocument.returns`: modules made from documents return as they declare.
-/

namespace ContractCompiler

variable {types types' : TypePool}

theorem TypePool.Standard.ne_unit_of_refElem? (h : types.Standard) {t e : TypeId}
    (ht : types.refElem? t = some e) : t ≠ Builtin.unit.id := by
  refine h.ne_unit fun heq => ?_
  unfold TypePool.builtin? at heq
  rw [TypePool.shapes_of_refElem? ht] at heq
  cases heq

/-- Types that are added are no structs. -/
theorem TypePool.Valued.mono (h : types.Valued) (hext : types.Extends types') : types'.Valued := by
  unfold TypePool.Valued
  rw [hext.structs]
  exact h

namespace Ssa

variable {m m' m'' : Module}

/-! ## Results -/

/-- Instructions that are made for their result. -/
def InstData.yields : InstData → Bool
  | .call .. | .resultValue _ | .refStore .. | .stateWrite .. | .emit .. => false
  | _ => true

/-- Instructions that are made for their effect. -/
def InstData.isSilent : InstData → Bool
  | .refStore .. | .stateWrite .. | .emit .. => true
  | _ => false

section Results

variable {Γ : TypeContext} {d : InstData} {t : TypeId} {inst : Inst}

theorem TypeContext.OfMode.ne_unit {mode : ArithMode} {a : TypeId} (h : Γ.OfMode mode a t)
    (hstandard : Γ.types.Standard) (ha : Γ.types.isInteger a = true) : t ≠ Builtin.unit.id := by
  unfold TypeContext.OfMode at h
  split at h
  · exact hstandard.ne_unit_of_resultElem? h
  · exact h ▸ hstandard.ne_unit_of_isInteger ha

/-- The result of an instruction that is made for it is of a type of values. -/
theorem InstType.ne_unit (h : InstType Γ d t) (hstandard : Γ.types.Standard)
    (hvalued : Γ.types.Valued) (hd : d.yields = true) : t ≠ Builtin.unit.id := by
  cases h with
  | constInt ht | bitNot _ ht | cast _ _ ht => exact hstandard.ne_unit_of_isInteger ht
  | constBool ht | not _ ht | compare _ _ _ _ _ ht | resultIsOk _ _ ht | stateHas _ _ ht =>
    exact hstandard.ne_unit_of_isBool ht
  | constBytes ht | digest _ _ ht => exact hstandard.ne_unit_of_isBytes ht
  | neg _ ha ht | arith _ _ _ ha _ ht => exact ht.ne_unit hstandard ha
  | makeStruct ht _ | insert _ ht _ _ => exact hstandard.ne_unit_of_structDecl? ht
  | extract _ hs ht => exact hvalued.field hs (List.mem_of_getElem? ht)
  | ok ht _ | err ht _ | stateRead _ _ _ ht => exact hstandard.ne_unit_of_resultElem? ht
  | resultCode _ _ ht => exact ht ▸ (nofun : Builtin.i32.id ≠ Builtin.unit.id)
  | refNew _ ht => exact hstandard.ne_unit_of_refElem? ht
  | refLoad _ ht => exact ht
  | context ht =>
    exact ht.elim hstandard.ne_unit_of_isBytes (hstandard.ne_unit_of_isBuiltin nofun)
  | bytesLength _ _ ht => exact hstandard.ne_unit_of_isBuiltin (b := .u64) nofun ht
  | call | resultValue | refStore | stateWrite | emit => cases hd

theorem InstType.isUnit (h : InstType Γ d t) (hd : d.isSilent = true) :
    Γ.types.isUnit t = true := by
  cases h with
  | refStore _ _ ht | stateWrite _ _ _ ht | emit _ ht => exact ht
  | _ => cases hd

theorem Inst.Typed.isSome_result (h : inst.Typed Γ) (hsound : Γ.types.Sound)
    (hvalued : Γ.types.Valued) (hd : inst.data.yields = true) : inst.result.isSome = true := by
  obtain ⟨t, ht, -, hunit⟩ := h
  cases hresult : inst.result with
  | some r => rfl
  | none =>
    exact absurd (hsound.unit_unique t (hunit hresult)) (ht.ne_unit hsound.standard hvalued hd)

theorem Inst.Typed.result_eq_none (h : inst.Typed Γ) (hsound : Γ.types.Sound)
    (hd : inst.data.isSilent = true) : inst.result = none := by
  obtain ⟨t, ht, hr, -⟩ := h
  cases hresult : inst.result with
  | none => rfl
  | some r => exact absurd (hsound.unit_unique t (ht.isUnit hd)) (hr r hresult).2

/-- A call has a result unless the type of the callee is unit. -/
theorem Inst.Typed.isSome_result_call (h : inst.Typed Γ) (hsound : Γ.types.Sound) {callee : FuncId}
    {args : List ValueId} (hd : inst.data = .call callee args) : ∃ params t,
      Γ.signature callee = some (params, t) ∧ inst.result.isSome = !Γ.types.isUnit t := by
  obtain ⟨t, ht, hr, hunit⟩ := h
  rw [hd] at ht
  cases ht with
  | @call _ _ params _ hcallee _ =>
    refine ⟨params, t, hcallee, ?_⟩
    cases hresult : inst.result with
    | none => rw [hunit hresult]; rfl
    | some r =>
      have hne : Γ.types.isUnit t = false :=
        Bool.eq_false_iff.mpr fun htrue => (hr r hresult).2 (hsound.unit_unique t htrue)
      rw [hne]
      rfl

end Results

/-! ## Returns -/

/-- A function that returns nothing somewhere is of type unit. -/
def Module.Returns (m : Module) : Prop :=
  ∀ f ∈ m.functions, ∀ b ∈ f.blocks, (m.block b).term = some (.ret none) → f.ret = Builtin.unit.id

/-- A module with the same functions, whose blocks lead to the same blocks and return nothing only
where they did before. -/
structure Module.KeepsEndings (m m' : Module) : Prop where
  functions : m'.functions = m.functions
  size : m'.blocks.size = m.blocks.size
  successors : ∀ b, (m'.block b).successors = (m.block b).successors
  rets : ∀ b, (m'.block b).term = some (.ret none) → (m.block b).term = some (.ret none)

theorem Module.Restricts.returns (h : m.Restricts m') (hm : m.Returns) : m'.Returns := by
  intro g hg b hb hret
  obtain ⟨f, hf, hfg⟩ := h.exists_function hg
  rw [hfg.ret]
  exact hm f hf b (hfg.blocks b hb) (h.rets b none hret)

namespace Module.KeepsEndings

theorem refl (m : Module) : m.KeepsEndings m := ⟨rfl, rfl, fun _ => rfl, fun _ h => h⟩

theorem trans (h : m.KeepsEndings m') (h' : m'.KeepsEndings m'') : m.KeepsEndings m'' :=
  ⟨h'.functions.trans h.functions, h'.size.trans h.size,
    fun b => (h'.successors b).trans (h.successors b),
    fun b hb => h.rets b (h'.rets b hb)⟩

theorem returns (h : m.KeepsEndings m') (hm : m.Returns) : m'.Returns := by
  intro f hf b hb hret
  rw [h.functions] at hf
  exact hm f hf b hb (h.rets b hret)

end Module.KeepsEndings

/-- Replacing operands leaves endings what they are. -/
theorem keepsEndings_substitute (m : Module) (s : Substitution) :
    m.KeepsEndings (m.substitute s) := by
  unfold Module.substitute
  split
  · exact .refl m
  · refine ⟨rfl, Array.size_map, fun b => Module.successors_mapOperands m _ b, fun b hb => ?_⟩
    rw [block_mapOperands] at hb
    obtain ⟨term, hterm, hmap⟩ := Option.map_eq_some_iff.mp hb
    cases term with
    | ret value =>
      rw [Option.map_eq_none_iff.mp (Terminator.ret.inj hmap)] at hterm
      exact hterm
    | _ => cases hmap

/-! ### Folding -/

theorem keepsEndings_foldInst (r : FoldRound) (i : InstId) :
    r.module.KeepsEndings (r.foldInst types i).module := by
  unfold FoldRound.foldInst
  split
  · exact .refl _
  · split
    · exact ⟨rfl, rfl, fun _ => rfl, fun _ h => h⟩
    · split
      · split
        · exact .refl _
        · exact ⟨rfl, rfl, fun _ => rfl, fun _ h => h⟩
      · exact .refl _

theorem keepsEndings_foldOnce (m : Module) (done : Array Bool) :
    m.KeepsEndings (foldOnce types m done).module := by
  refine Module.KeepsEndings.trans ?_ (keepsEndings_substitute _ _)
  refine FoldRound.foldBlocks_keeps (P := fun r => m.KeepsEndings r.module) ?_ _ (.refl m)
  intro r i hr
  exact hr.trans (keepsEndings_foldInst r i)

theorem keepsEndings_constFold (m : Module) : m.KeepsEndings (m.constFold types).1 :=
  foldRounds_keeps (P := m.KeepsEndings) (fun m' done h => h.trans (keepsEndings_foldOnce m' done))
    _ (.refl m) _ false

/-! ### Inlining -/

theorem keepsEndings_tables (m : Module) (insts : Array Inst) (values : Array Value)
    (counts : PassCounts) :
    m.KeepsEndings { m with insts, values, counts } :=
  ⟨rfl, rfl, fun _ => rfl, fun _ h => h⟩

theorem keepsEndings_copyInsts (span : Span) (insts : List Inst) (renamed : Substitution)
    (m : Module) :
    m.KeepsEndings (copyInsts span insts renamed m).2.2 := by
  induction insts generalizing renamed m with
  | nil => exact .refl m
  | cons inst rest ih =>
    unfold copyInsts
    dsimp only
    split
    · exact Module.KeepsEndings.trans (keepsEndings_tables m _ m.values m.counts) (ih renamed _)
    · exact Module.KeepsEndings.trans (keepsEndings_tables m _ _ m.counts) (ih _ _)

theorem keepsEndings_inlineInst (maxInsts : Nat) (caller : FuncId) (s : Inlining) (i : InstId) :
    s.module.KeepsEndings (inlineInst maxInsts caller s i).module := by
  unfold inlineInst
  dsimp only
  split
  · split
    · split
      · obtain ⟨m, insts, results, changed⟩ := s
        exact (keepsEndings_copyInsts _ _ _ m).trans ⟨rfl, rfl, fun _ => rfl, fun _ h => h⟩
      · exact .refl _
    · exact .refl _
  · exact .refl _

theorem keepsEndings_inlineInsts (maxInsts : Nat) (caller : FuncId) (is : List InstId)
    (s : Inlining) :
    s.module.KeepsEndings (is.foldl (inlineInst maxInsts caller) s).module := by
  induction is generalizing s with
  | nil => exact .refl _
  | cons i is ih => exact (keepsEndings_inlineInst maxInsts caller s i).trans (ih _)

theorem keepsEndings_setInsts (m : Module) (b : BlockId) (insts : List InstId) :
    m.KeepsEndings { m with blocks := m.blocks.modify b fun block => { block with insts } } := by
  have hterm (k : BlockId) :
      ({ m with blocks := m.blocks.modify b fun block => { block with insts } }.block k).term =
      (m.block k).term := by
    rcases getD_modify_cases m.blocks b (fun block => { block with insts }) k with heq | ⟨-, heq⟩
    · exact Eq.trans (congrArg Block.term heq) rfl
    · exact Eq.trans (congrArg Block.term heq) rfl
  refine ⟨rfl, Array.size_modify, fun k => ?_, fun k hk => (hterm k).symm.trans hk⟩
  unfold Block.successors
  rw [hterm]

theorem keepsEndings_inlineBlock (maxInsts : Nat) (caller : FuncId) (m : Module) (b : BlockId) :
    m.KeepsEndings (inlineBlock maxInsts caller m b).1 := by
  have hinsts := keepsEndings_inlineInsts maxInsts caller (m.block b).insts { module := m }
  unfold inlineBlock
  dsimp only
  generalize (m.block b).insts.foldl (inlineInst maxInsts caller) { module := m } = s at hinsts ⊢
  split
  · exact hinsts.trans ((keepsEndings_setInsts s.module b s.insts).trans
      (keepsEndings_substitute _ _))
  · exact .refl m

theorem keepsEndings_inlineBlocks (maxInsts : Nat) (bs : List (FuncId × BlockId)) (m : Module) :
    m.KeepsEndings (inlineBlocks maxInsts bs m).1 := by
  induction bs generalizing m with
  | nil => exact .refl m
  | cons b bs ih => exact (keepsEndings_inlineBlock maxInsts b.1 m b.2).trans (ih _)

/-- The passes do not make functions return nothing. -/
theorem returns_optimize (types : TypePool) (opt : PassOptions) (hm : m.Returns) :
    (m.optimize types opt).Returns := by
  unfold Module.optimize
  split
  · exact hm
  · dsimp only
    refine (restricts_simplifyCfg _).returns ?_
    refine (restricts_removeDeadCode _).returns ?_
    refine (keepsEndings_constFold _).returns ?_
    refine (keepsEndings_inlineBlocks _ _ _).returns ?_
    exact (keepsEndings_constFold _).returns ((restricts_simplifyCfg m).returns hm)

/-- Code that is complete returns as it declares. -/
theorem Module.Complete.returns {functions : Array Hir.Function}
    {signature : FuncId → Option (List TypeId × TypeId)} {disjoint : Prop}
    (h : m.Complete functions signature disjoint types) : m.Returns := by
  intro f hf b hb hret
  cases hexcl : f.excluded with
  | true =>
    rw [h.excluded f hf hexcl] at hb
    cases hb
  | false =>
    obtain ⟨K, -, hbody⟩ := h.body f hf hexcl
    obtain ⟨A, hcode⟩ := hbody.code
    exact hbody.ret.trans (((hcode.valid.block b hb).term _ hret).unit rfl)

end Ssa

open Ssa

/-! ## Modules made from documents -/

/-- What is known of the types of a module that is made from a document. -/
theorem FromDocument.types_spec {m : Module} (hm : FromDocument m types) :
    types.Sound ∧ types.Valued := by
  induction hm with
  | built hdoc hok =>
    subst hdoc
    obtain ⟨hsound, htyped⟩ := Hir.typed_readDocument _ _ TypePool.sound_default _
    obtain ⟨-, hvalued⟩ := Hir.scoped_readDocument _ _ _
    obtain ⟨hext, hbuilt⟩ := typed_buildResult (htyped hok) hsound _
    exact ⟨hbuilt.types, hvalued.mono hext⟩
  | renamed _ _ ih | excludedFailed _ _ _ ih | excludedCallers _ _ ih | optimized _ _ ih => exact ih

/-- Modules made from documents return as they declare. -/
theorem FromDocument.returns {m : Module} (hm : FromDocument m types) : m.Returns := by
  induction hm with
  | built hdoc hok =>
    subst hdoc
    obtain ⟨hsound, htyped⟩ := Hir.typed_readDocument _ _ TypePool.sound_default _
    obtain ⟨hscoped, hvalued⟩ := Hir.scoped_readDocument _ _ _
    exact (complete_buildModule (htyped hok) hsound hvalued hscoped _
      fun _ _ _ _ (hfalse : False) => hfalse.elim).returns
  | renamed _ _ ih => exact ih
  | excludedFailed passed reason _ ih => exact (restricts_excludeFailed _ passed reason).returns ih
  | excludedCallers reason _ ih => exact (restricts_excludeCallers _ reason).returns ih
  | optimized opt _ ih => exact returns_optimize _ opt ih

end ContractCompiler
