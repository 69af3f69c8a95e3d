import ContractCompiler.Proofs.Ssa.Typing
import ContractCompiler.Ssa.Exclude
import ContractCompiler.Ssa.Optimize

/-!
# Passes keep modules typed

Most passes only leave something out. Those that replace values replace them by ones of the same
types, and inlining copies typed instructions.

- `Module.Restricts`: a module from which functions, blocks or instructions were left out;
- `Substitution.Typed`: a substitution of values by ones of the same types;
- `FoldsTo`: what an instruction is folded into;
- `typed_constFold`, `typed_inlineCalls`, `typed_optimize`: the passes keep modules typed.
-/

namespace ContractCompiler.Ssa

variable {m m' m'' : Module} {types : TypePool}

/-! ## Leaving out -/

/-- A function that has at most the blocks of another one, and its signature. -/
structure Function.Restricts (f g : Function) : Prop where
  paramTypes : g.paramTypes = f.paramTypes
  ret : g.ret = f.ret
  entry : g.entry = f.entry
  blocks : ∀ b ∈ g.blocks, b ∈ f.blocks

theorem Function.Restricts.refl (f : Function) : f.Restricts f := ⟨rfl, rfl, rfl, fun _ hb => hb⟩

theorem Function.Restricts.trans {f g h : Function} (hfg : f.Restricts g) (hgh : g.Restricts h) :
    f.Restricts h :=
  ⟨hgh.paramTypes.trans hfg.paramTypes, hgh.ret.trans hfg.ret, hgh.entry.trans hfg.entry,
    fun b hb => hfg.blocks b (hgh.blocks b hb)⟩

/-- A module with the same instructions and values, in which functions and blocks list at most the
same blocks and instructions, and blocks return at most the same. -/
structure Module.Restricts (m m' : Module) : Prop where
  insts : m'.insts = m.insts
  values : m'.values = m.values
  functions : ∀ id : FuncId, Option.Rel Function.Restricts m.functions[id]? m'.functions[id]?
  params : ∀ b, (m'.block b).params = (m.block b).params
  rets : ∀ b value, (m'.block b).term = some (.ret value) → (m.block b).term = some (.ret value)

theorem Option.rel_refl_of {α : Type} {R : α → α → Prop} (hR : ∀ a, R a a) (x : Option α) :
    Option.Rel R x x := by
  cases x with
  | none => exact .none
  | some a => exact .some (hR a)

namespace Module.Restricts

theorem refl (m : Module) : m.Restricts m :=
  ⟨rfl, rfl, fun _ => Option.rel_refl_of Function.Restricts.refl _, fun _ => rfl, fun _ _ hv => hv⟩

theorem trans (h : m.Restricts m') (h' : m'.Restricts m'') : m.Restricts m'' := by
  refine ⟨h'.insts.trans h.insts, h'.values.trans h.values, fun id => ?_,
    fun b => (h'.params b).trans (h.params b), fun b v hv => h.rets b v (h'.rets b v hv)⟩
  have hf := h.functions id
  have hf' := h'.functions id
  revert hf hf'
  generalize m.functions[id]? = f, m'.functions[id]? = f', m''.functions[id]? = f''
  intro hf hf'
  cases hf with
  | none => exact hf'
  | some hfg =>
    cases hf' with
    | some hgh => exact .some (hfg.trans hgh)

theorem typeContext (h : m.Restricts m') : m'.typeContext types = m.typeContext types := by
  have hsignature : (fun f : FuncId => (m'.functions[f]?).map fun f => (f.paramTypes, f.ret)) =
      fun f => (m.functions[f]?).map fun f => (f.paramTypes, f.ret) := by
    funext id
    have hf := h.functions id
    revert hf
    generalize m.functions[id]? = f, m'.functions[id]? = f'
    intro hf
    cases hf with
    | none => rfl
    | some hfg =>
      rw [Option.map_some, Option.map_some, hfg.paramTypes, hfg.ret]
  unfold Module.typeContext
  rw [hsignature, h.values]

theorem exists_function (h : m.Restricts m') {g : Function} (hg : g ∈ m'.functions) :
    ∃ f ∈ m.functions, f.Restricts g := by
  obtain ⟨id, hid⟩ := Array.mem_iff_getElem?.mp hg
  have hf := h.functions id
  rw [hid] at hf
  cases hm : m.functions[id]? with
  | none =>
    rw [hm] at hf
    cases hf
  | some f =>
    rw [hm] at hf
    cases hf with
    | some hfg => exact ⟨f, Array.mem_of_getElem? hm, hfg⟩

/-- Leaving something out keeps a module typed. -/
theorem typed (h : m.Restricts m') (htyped : m.Typed types) : m'.Typed types := by
  have hctx : m'.typeContext types = m.typeContext types := h.typeContext
  refine ⟨?_, fun g hg e he => ?_, fun g hg b hb v hv => ?_⟩
  · rw [hctx, h.insts, h.values]
    exact htyped.toTablesTyped
  · obtain ⟨f, hf, hfg⟩ := h.exists_function hg
    rw [h.params, h.values, hfg.paramTypes]
    exact htyped.entry f hf e (hfg.entry ▸ he)
  · obtain ⟨f, hf, hfg⟩ := h.exists_function hg
    rw [hctx, hfg.ret]
    refine htyped.ret f hf b ?_ v (h.rets b _ hv)
    rcases hb with hb | hb
    · exact .inl (hfg.blocks b hb)
    · exact .inr (hfg.entry ▸ hb)

end Module.Restricts

/-! ### Functions -/

theorem restricts_functions (m : Module) {functions : Array Function} (counts : PassCounts)
    (unit : String)
    (h : ∀ id : FuncId, Option.Rel Function.Restricts m.functions[id]? functions[id]?) :
    m.Restricts { m with functions, counts, unit } :=
  ⟨rfl, rfl, h, fun _ => rfl, fun _ _ hv => hv⟩

theorem restricts_exclude (m : Module) (id : FuncId) : m.Restricts (m.exclude id) := by
  refine restricts_functions m m.counts m.unit fun f => ?_
  rw [Array.getElem?_modify]
  split
  · cases m.functions[f]? with
    | none => exact .none
    | some fn => exact .some ⟨rfl, rfl, rfl, fun _ hb => hb⟩
  · exact Option.rel_refl_of Function.Restricts.refl _

section Exclusion

variable {P : Module → Prop} (hexclude : ∀ m id, P m → P (m.exclude id))

include hexclude

/-- What leaving out a function keeps is kept when the functions that failed are left out. -/
theorem excludeFailed_of_exclude (hm : P m) (passed : FuncId → Bool) (reason : String) :
    P (m.excludeFailed passed reason).module := by
  have hin (ids : List FuncId) (m : Module) (hm : P m) :
      P (excludeFailedIn passed reason ids m).module := by
    induction ids generalizing m with
    | nil => exact hm
    | cons id ids ih =>
      unfold excludeFailedIn
      split
      · exact ih m hm
      · split
        · exact ih m hm
        · exact ih _ (hexclude m id hm)
  exact hin _ m hm

/-- So it is when callers of functions that are left out are left out. -/
theorem excludeCallers_of_exclude (hm : P m) (reason : String) :
    P (m.excludeCallers reason).module := by
  have hin (ids : List FuncId) (m : Module) (hm : P m) :
      P (excludeCallersIn reason ids m).module := by
    induction ids generalizing m with
    | nil => exact hm
    | cons id ids ih =>
      unfold excludeCallersIn
      split
      · exact ih m hm
      · split
        · exact ih m hm
        · split
          · exact ih m hm
          · exact ih _ (hexclude m id hm)
  have hrounds (n : Nat) (m : Module) (hm : P m) : P (excludeCallersRounds reason n m).module := by
    induction n generalizing m with
    | zero => exact hm
    | succ n ih =>
      unfold excludeCallersRounds
      dsimp only
      split
      · exact hin _ m hm
      · exact ih _ (hin _ m hm)
  exact hrounds _ m hm

end Exclusion

theorem restricts_excludeFailed (m : Module) (passed : FuncId → Bool) (reason : String) :
    m.Restricts (m.excludeFailed passed reason).module :=
  excludeFailed_of_exclude (fun _ id h => h.trans (restricts_exclude _ id)) (.refl m) passed reason

theorem restricts_excludeCallers (m : Module) (reason : String) :
    m.Restricts (m.excludeCallers reason).module :=
  excludeCallers_of_exclude (fun _ id h => h.trans (restricts_exclude _ id)) (.refl m) reason

/-! ### Blocks -/

/-- A change to one block that keeps its parameters and does not make it return. -/
theorem restricts_modify (m : Module) (b : BlockId) {f : Block → Block} (counts : PassCounts)
    (hparams : ∀ block, (f block).params = block.params)
    (hret : ∀ value, (f (m.block b)).term = some (.ret value) →
      (m.block b).term = some (.ret value)) :
    m.Restricts { m with blocks := m.blocks.modify b f, counts } := by
  refine ⟨rfl, rfl, fun _ => Option.rel_refl_of Function.Restricts.refl _, fun k => ?_,
    fun k v hv => ?_⟩
  · rcases getD_modify_cases m.blocks b f k with heq | ⟨-, heq⟩
    · exact congrArg Block.params heq
    · exact (congrArg Block.params heq).trans (hparams _)
  · rcases getD_modify_cases m.blocks b f k with heq | ⟨rfl, heq⟩
    · exact (congrArg Block.term heq).symm.trans hv
    · exact hret v ((congrArg Block.term heq).symm.trans hv)

theorem simplifyBranch_ne_ret {t term : Terminator} {folded : Bool}
    (h : simplifyBranch m t = some (term, folded)) (v : Option ValueId) : term ≠ .ret v := by
  unfold simplifyBranch at h
  split at h
  · split at h
    · obtain ⟨rfl, -⟩ := Prod.mk.inj (Option.some.inj h)
      split <;> exact nofun
    · split at h
      · obtain ⟨rfl, -⟩ := Prod.mk.inj (Option.some.inj h)
        exact nofun
      · cases h
  · cases h

theorem restricts_simplifyBlock (m : Module) (b : BlockId) : m.Restricts (m.simplifyBlock b).1 := by
  unfold Module.simplifyBlock
  split
  · exact .refl m
  · rename_i term folded hterm
    obtain ⟨t, -, ht⟩ := Option.bind_eq_some_iff.mp hterm
    refine restricts_modify m b _ (fun _ => rfl) fun v hv => ?_
    exact absurd (Option.some.inj hv) (simplifyBranch_ne_ret ht _)

theorem restricts_simplifyBlocks (bs : List BlockId) (m : Module) :
    m.Restricts (Module.simplifyBlocks bs m).1 := by
  induction bs generalizing m with
  | nil => exact .refl m
  | cons b bs ih => exact (restricts_simplifyBlock m b).trans (ih _)

theorem restricts_dropUnreachable (m : Module) (f : Function) :
    f.Restricts (m.dropUnreachable f) := by
  unfold Module.dropUnreachable
  dsimp only
  split
  · exact .refl f
  · exact ⟨rfl, rfl, rfl, fun b hb => List.mem_of_mem_filter hb⟩

theorem restricts_simplifyCfg (m : Module) : m.Restricts m.simplifyCfg.1 := by
  refine (restricts_simplifyBlocks _ m).trans (restricts_functions _ _ _ fun id => ?_)
  rw [Array.getElem?_map]
  cases ((m.simplifyBlocks (m.functions.toList.flatMap (·.blocks))).1.functions)[id]? with
  | none => exact .none
  | some f => exact .some (restricts_dropUnreachable _ f)

theorem restricts_pruneBlocks (uses : Array Nat) (bs : List BlockId) (m : Module) :
    m.Restricts (Module.pruneBlocks uses bs m) := by
  induction bs generalizing m with
  | nil => exact .refl m
  | cons b bs ih =>
    unfold Module.pruneBlocks
    refine Module.Restricts.trans ?_ (ih _)
    exact restricts_modify m b _ (fun _ => rfl) fun _ hv => hv

theorem restricts_pruneRounds (n : Nat) (m : Module) (changed : Bool) :
    m.Restricts (m.pruneRounds n changed).1 := by
  induction n generalizing m changed with
  | zero => exact .refl m
  | succ n ih =>
    unfold Module.pruneRounds
    dsimp only
    split
    · exact .refl m
    · exact (restricts_pruneBlocks _ _ m).trans (ih _ _)

theorem restricts_removeDeadCode (m : Module) : m.Restricts m.removeDeadCode.1 :=
  restricts_pruneRounds _ m false

/-! ## Replacing -/

/-- A substitution of values by operands of the same types. -/
def Substitution.Typed (Γ : TypeContext) (s : Substitution) : Prop :=
  ∀ v w, s[v]? = some w → ∃ t, Γ.valueType v = some t ∧ Γ.Operand w t

namespace Substitution

variable {Γ Γ' : TypeContext} {s : Substitution}

theorem typed_empty (Γ : TypeContext) : Typed Γ {} := by
  intro v w h
  rw [Std.HashMap.getElem?_empty] at h
  cases h

theorem Typed.insert (h : s.Typed Γ) {v w : ValueId} {t : TypeId} (hv : Γ.valueType v = some t)
    (hw : Γ.Operand w t) : Typed Γ (s.insert v w) := by
  intro v' w' hget
  rw [Std.HashMap.getElem?_insert] at hget
  split at hget
  · rename_i heq
    obtain rfl := beq_iff_eq.mp heq
    obtain rfl := Option.some.inj hget
    exact ⟨t, hv, hw⟩
  · exact h v' w' hget

theorem Typed.mono (h : s.Typed Γ) (hext : Γ.Extends Γ') : s.Typed Γ' := by
  intro v w hget
  obtain ⟨t, hv, hw⟩ := h v w hget
  exact ⟨t, hext.valueType v t hv, hw.imp_right (hext.valueType w t)⟩

/-- A replaced operand has the type of the operand. A missing one is not replaced. -/
theorem Typed.operand (h : s.Typed Γ) (hinvalid : Γ.valueType invalidId = none) {v w : ValueId}
    {t : TypeId} (hv : Γ.Operand v t) (hget : s[v]? = some w) : Γ.Operand w t := by
  obtain ⟨t', hv', hw⟩ := h v w hget
  rcases hv with rfl | hv
  · cases hinvalid.symm.trans hv'
  · obtain rfl := Option.some.inj (hv.symm.trans hv')
    exact hw

theorem Typed.followFor (h : s.Typed Γ) (hinvalid : Γ.valueType invalidId = none) (n : Nat)
    {v : ValueId} {t : TypeId} (hv : Γ.Operand v t) : Γ.Operand (s.followFor n v) t := by
  induction n generalizing v with
  | zero => exact hv
  | succ n ih =>
    unfold Substitution.followFor
    split
    · exact hv
    · rename_i w hget
      split
      · exact hv
      · exact ih (h.operand hinvalid hv hget)

theorem Typed.renames_follow (h : s.Typed Γ) (hinvalid : Γ.valueType invalidId = none) :
    Γ.Renames Γ s.follow :=
  ⟨.refl _, fun _ _ hf => hf, fun _ _ hv => h.followFor hinvalid _ hv⟩

theorem Typed.renames_rename (h : s.Typed Γ) (hinvalid : Γ.valueType invalidId = none) :
    Γ.Renames Γ s.rename := by
  refine ⟨.refl _, fun _ _ hf => hf, fun v t hv => ?_⟩
  unfold Substitution.rename
  cases hget : s[v]? with
  | none => exact hv
  | some w => exact h.operand hinvalid hv hget

end Substitution

theorem valueType_invalidId (hfits : m.values.size ≤ invalidId) :
    (m.typeContext types).valueType invalidId = none := by
  show typeIn m.values invalidId = none
  unfold typeIn
  rw [Array.getElem?_eq_none hfits]
  rfl

theorem block_mapOperands (m : Module) (σ : ValueId → ValueId) (b : BlockId) :
    (m.mapOperands σ).block b =
      { m.block b with term := (m.block b).term.map (·.mapOperands σ) } := by
  unfold Module.block Module.mapOperands
  dsimp only
  rw [Array.getD_eq_getD_getElem?, Array.getD_eq_getD_getElem?, Array.getElem?_map]
  cases m.blocks[b]? with
  | none => rfl
  | some block => rfl

/-- Blocks lead to the same blocks after their operands were renamed. -/
theorem Module.successors_mapOperands (m : Module) (σ : ValueId → ValueId) (b : BlockId) :
    ((m.mapOperands σ).block b).successors = (m.block b).successors := by
  rw [block_mapOperands]
  unfold Block.successors
  dsimp only
  cases (m.block b).term with
  | none => rfl
  | some term => exact Terminator.successors_mapOperands σ term

/-- Renaming operands to ones of the same types keeps a module typed. -/
theorem Module.Typed.mapOperands (h : m.Typed types) {σ : ValueId → ValueId}
    (hσ : (m.typeContext types).Renames (m.typeContext types) σ) :
    (m.mapOperands σ).Typed types := by
  refine ⟨⟨fun i inst hinst => ?_, fun v value i hv hsite => ?_, h.valued⟩, fun f hf e he => ?_,
    fun f hf b hb v hv => ?_⟩
  · obtain ⟨inst₀, hinst₀, rfl⟩ := Option.map_eq_some_iff.mp (Array.getElem?_map.symm.trans hinst)
    obtain ⟨t, hd, hr, hunit⟩ := h.inst i inst₀ hinst₀
    exact ⟨t, hd.mapOperands hσ, hr, hunit⟩
  · obtain ⟨inst, hinst, hresult⟩ := h.site v value i hv hsite
    refine ⟨{ inst with data := inst.data.mapOperands σ }, ?_, hresult⟩
    show (m.insts.map _)[i]? = _
    rw [Array.getElem?_map, hinst]
    rfl
  · rw [block_mapOperands]
    exact h.entry f hf e he
  · rw [block_mapOperands] at hv
    obtain ⟨term, hterm, hmap⟩ := Option.map_eq_some_iff.mp hv
    cases term with
    | ret value =>
      obtain ⟨w, rfl, rfl⟩ := Option.map_eq_some_iff.mp (Terminator.ret.inj hmap)
      exact hσ.operand w f.ret (h.ret f hf b hb w hterm)
    | _ => cases hmap

theorem Module.Typed.substitute (h : m.Typed types) (hfits : m.values.size ≤ invalidId)
    {s : Substitution} (hs : s.Typed (m.typeContext types)) : (m.substitute s).Typed types := by
  unfold Module.substitute
  split
  · exact h
  · exact h.mapOperands (hs.renames_follow (valueType_invalidId hfits))

@[simp] theorem values_substitute (m : Module) (s : Substitution) :
    (m.substitute s).values = m.values := by
  unfold Module.substitute
  split <;> rfl

/-! ## Folding -/

theorem instType_constData {Γ : TypeContext} {t : TypeId}
    (ht : Γ.types.isInteger t = true ∨ Γ.types.isBool t = true) (w : UInt64) :
    InstType Γ (constData (Γ.types.isBool t) w) t := by
  unfold constData
  split
  · rename_i hbool
    exact .constBool hbool
  · rename_i hbool
    exact .constInt (ht.resolve_right hbool)

theorem instType_foldedBinary {Γ : TypeContext} {op : BinOp} {mode : ArithMode}
    {left right : ValueId} {t : TypeId} (hd : InstType Γ (.binary op mode left right) t)
    (hmode : mode ≠ .checked) (w : UInt64) : InstType Γ (constData (Γ.types.isBool t) w) t := by
  refine instType_constData ?_ w
  cases hd with
  | compare _ _ _ _ _ ht => exact .inr ht
  | arith _ _ _ ha _ ht =>
    unfold TypeContext.OfMode at ht
    rw [if_neg hmode] at ht
    exact .inl (ht ▸ ha)

theorem instType_foldedUnary {Γ : TypeContext} {op : UnOp} {mode : ArithMode} {src : ValueId}
    {t : TypeId} (hd : InstType Γ (.unary op mode src) t) {k : IntKind} {a : UInt64}
    {data : InstData} (hfold : foldedUnary? op mode k a = some data) : InstType Γ data t := by
  unfold foldedUnary? at hfold
  cases hd with
  | not _ ht =>
    obtain rfl := Option.some.inj hfold
    exact .constBool ht
  | bitNot _ ht =>
    obtain rfl := Option.some.inj hfold
    exact .constInt ht
  | neg _ ha ht =>
    dsimp only at hfold
    split at hfold
    · cases hfold
    · rename_i hmode
      unfold TypeContext.OfMode at ht
      rw [if_neg hmode] at ht
      obtain ⟨w, -, rfl⟩ := Option.map_eq_some_iff.mp hfold
      exact .constInt (ht ▸ ha)

/-- What an instruction with a result of a type is folded into, by what its operands are defined
as. -/
inductive FoldsTo (types : TypePool) (m : Module) (t : TypeId) : InstData → InstData → Prop where
  | binary {op : BinOp} {mode : ArithMode} {left right : ValueId} {a b w : UInt64}
      (hmode : mode ≠ .checked) (ha : m.constWord? left = some a) (hb : m.constWord? right = some b)
      (hw : Folded.word? (foldBinOp op mode (types.intKind (m.valueType left)) a b) = some w) :
      FoldsTo types m t (.binary op mode left right) (constData (types.isBool t) w)
  | unary {op : UnOp} {mode : ArithMode} {src : ValueId} {a : UInt64} {data : InstData}
      (ha : m.constWord? src = some a) (hdata : foldedUnary? op mode (types.intKind t) a =
        some data) :
      FoldsTo types m t (.unary op mode src) data
  | cast {mode : CastMode} {target : TypeId} {src : ValueId} {a w : UInt64}
      (ha : m.constWord? src = some a) (hw : Folded.word?
        (foldCast mode (types.intKind (m.valueType src)) (types.intKind target) a) = some w) :
      FoldsTo types m t (.cast mode target src) (.constInt w)
  | resultIsOk {src : ValueId} {made : Inst} {ok : Bool} {value : Option ValueId}
      (hdef : m.definition? src = some made) (hmade : made.data = .makeResult ok value) :
      FoldsTo types m t (.resultIsOk src) (.constBool ok)

theorem foldsTo_of_foldedData? {inst : Inst} {data : InstData}
    (h : foldedData? types m inst = some data) :
    ∃ r, inst.result = some r ∧ FoldsTo types m (m.valueType r) inst.data data := by
  unfold foldedData? at h
  obtain ⟨r, hr, h⟩ := Option.bind_eq_some_iff.mp h
  refine ⟨r, hr, ?_⟩
  split at h
  · rename_i hdata
    rw [hdata]
    split at h
    · cases h
    · rename_i hmode
      obtain ⟨a, ha, h⟩ := Option.bind_eq_some_iff.mp h
      obtain ⟨b, hb, h⟩ := Option.bind_eq_some_iff.mp h
      obtain ⟨w, hw, h⟩ := Option.bind_eq_some_iff.mp h
      obtain rfl := Option.some.inj h
      exact .binary hmode ha hb hw
  · rename_i hdata
    rw [hdata]
    obtain ⟨a, ha, h⟩ := Option.bind_eq_some_iff.mp h
    exact .unary ha h
  · rename_i hdata
    rw [hdata]
    obtain ⟨a, ha, h⟩ := Option.bind_eq_some_iff.mp h
    obtain ⟨w, hw, h⟩ := Option.bind_eq_some_iff.mp h
    obtain rfl := Option.some.inj h
    exact .cast ha hw
  · rename_i hdata
    rw [hdata]
    obtain ⟨made, hdef, h⟩ := Option.bind_eq_some_iff.mp h
    split at h
    · rename_i hmade
      obtain rfl := Option.some.inj h
      exact .resultIsOk hdef hmade
    · cases h
  · cases h

/-- A constant has the type of the instruction that it stands for. -/
theorem instType_foldedData {i : InstId} {inst : Inst} {data : InstData}
    (hfold : foldedData? types m inst = some data) {t : TypeId}
    (hd : InstType (m.typeContext types) inst.data t)
    (hr : ∀ r, inst.result = some r → ResultOf m.values i t r) :
    InstType (m.typeContext types) data t := by
  obtain ⟨r, hresult, hfolds⟩ := foldsTo_of_foldedData? hfold
  rw [valueType_eq (hr r hresult).typeIn] at hfolds
  generalize inst.data = source at hd hfolds
  cases hfolds with
  | binary hmode => exact instType_foldedBinary hd hmode _
  | unary _ hdata => exact instType_foldedUnary hd hdata
  | cast =>
    cases hd with
    | cast _ _ ht => exact .constInt ht
  | resultIsOk =>
    cases hd with
    | resultIsOk _ _ ht => exact .constBool ht

/-- A field that was put into a struct has the type of the field that is taken out of it. -/
theorem operand_forwarded (h : m.Typed types) (hfits : m.values.size ≤ invalidId) {data : InstData}
    {w : ValueId} (hw : forwarded? m data = some w) {t : TypeId}
    (hd : InstType (m.typeContext types) data t) : (m.typeContext types).Operand w t := by
  unfold forwarded? at hw
  split at hw
  · rename_i base index
    split at hw
    · rename_i fields effect result span hdef
      obtain ⟨s, hstruct, hbase⟩ := h.definition hdef
      cases hd with
      | @extract _ _ decl name s' _ hbase' hs ht =>
        rcases hbase' with rfl | hbase'
        · have hnone : (m.typeContext types).valueType invalidId = none := valueType_invalidId hfits
          cases hnone.symm.trans hbase
        · obtain rfl := Option.some.inj (hbase.symm.trans hbase')
          cases hstruct with
          | @makeStruct _ decl' _ ht' hfields =>
            obtain rfl := Option.some.inj (hs.symm.trans ht')
            obtain ⟨t', ht', hwt⟩ := getElem?_of_forall₂ hfields hw
            rw [List.getElem?_map, ht] at ht'
            obtain rfl := Option.some.inj ht'
            exact hwt
    · cases hw
  · cases hw

theorem TablesTyped.setInst {Γ : TypeContext} {insts : Array Inst} {values : Array Value}
    (h : TablesTyped Γ insts values) {i : InstId} {inst inst' : Inst}
    (hinst : insts[i]? = some inst) (hresult : inst'.result = inst.result)
    (hinst' : InstTyped Γ values i inst') : TablesTyped Γ (insts.setIfInBounds i inst') values := by
  refine ⟨fun j inst'' hj => ?_, fun v value j hv hsite => ?_, h.valued⟩
  · rw [Array.getElem?_setIfInBounds] at hj
    split at hj
    · rename_i heq
      subst heq
      split at hj
      · obtain rfl := Option.some.inj hj
        exact hinst'
      · cases hj
    · exact h.inst j inst'' hj
  · obtain ⟨inst'', hj, hr⟩ := h.site v value j hv hsite
    rw [Array.getElem?_setIfInBounds]
    split
    · rename_i heq
      subst heq
      obtain rfl := Option.some.inj (hinst.symm.trans hj)
      rw [if_pos (Array.getElem?_eq_some_iff.mp hinst).1]
      exact ⟨inst', rfl, hresult.trans hr⟩
    · exact ⟨inst'', hj, hr⟩

/-! ### Rounds -/

/-- A round of folding whose module and replacements are typed. -/
structure FoldRound.Typed (types : TypePool) (r : FoldRound) : Prop where
  module : r.module.Typed types
  replaced : r.replaced.Typed (r.module.typeContext types)

namespace FoldRound

variable {r : FoldRound}

@[simp] theorem values_foldInst (r : FoldRound) (i : InstId) :
    (r.foldInst types i).module.values = r.module.values := by
  unfold FoldRound.foldInst
  split
  · rfl
  · split
    · rfl
    · split
      · split <;> rfl
      · rfl

/-- What every instruction keeps is kept by folding blocks. -/
theorem foldBlocks_keeps {P : FoldRound → Prop}
    (hstep : ∀ r i, P r → P (FoldRound.foldInst types r i)) (blocks : List BlockId) (h : P r) :
    P (r.foldBlocks types blocks) := by
  unfold FoldRound.foldBlocks
  refine List.foldlRecOn (motive := P) blocks _ h fun r hr b _ => ?_
  exact List.foldlRecOn (motive := P) (r.module.block b).insts _ hr fun r hr i _ => hstep r i hr

@[simp] theorem values_foldBlocks (blocks : List BlockId) (r : FoldRound) :
    (r.foldBlocks types blocks).module.values = r.module.values :=
  foldBlocks_keeps (P := fun r' => r'.module.values = r.module.values)
    (fun r' i h => (values_foldInst r' i).trans h) blocks rfl

/-- Folding an instruction keeps a round typed. -/
theorem Typed.foldInst (h : r.Typed types) (hfits : r.module.values.size ≤ invalidId) (i : InstId) :
    (r.foldInst types i).Typed types := by
  unfold FoldRound.foldInst
  split
  · exact h
  · rename_i inst hinst
    obtain ⟨t, hd, hr, hunit⟩ := h.module.inst i inst hinst
    split
    · rename_i data hfold
      have hdata := instType_foldedData hfold hd hr
      exact ⟨⟨h.module.toTablesTyped.setInst hinst rfl ⟨t, hdata, hr, hunit⟩, h.module.entry,
        h.module.ret⟩,
        h.replaced⟩
    · split
      · rename_i v w hresult hforward
        split
        · exact h
        · have hv : typeIn r.module.values v = some t := (hr v hresult).typeIn
          have hw := operand_forwarded h.module hfits hforward hd
          exact ⟨⟨h.module.toTablesTyped, h.module.entry, h.module.ret⟩, h.replaced.insert hv hw⟩
      · exact h

theorem Typed.foldBlocks (blocks : List BlockId) (h : r.Typed types)
    (hfits : r.module.values.size ≤ invalidId) : (r.foldBlocks types blocks).Typed types := by
  refine (foldBlocks_keeps (P := fun r => r.Typed types ∧
    r.module.values.size ≤ invalidId) ?_ blocks ⟨h, hfits⟩).1
  intro r i ⟨h, hfits⟩
  exact ⟨h.foldInst hfits i, by rwa [values_foldInst]⟩

end FoldRound

@[simp] theorem values_foldOnce (m : Module) (done : Array Bool) :
    (foldOnce types m done).module.values = m.values := by
  unfold foldOnce
  dsimp only
  rw [values_substitute, FoldRound.values_foldBlocks]

theorem typed_foldOnce (h : m.Typed types) (hfits : m.values.size ≤ invalidId) (done : Array Bool) :
    (foldOnce types m done).module.Typed types := by
  have hstart : FoldRound.Typed types { module := m, done } := ⟨h, Substitution.typed_empty _⟩
  have hround := hstart.foldBlocks
      ((m.functions.toList.filter (!·.excluded)).flatMap (·.blocks)) hfits
  refine hround.module.substitute ?_ hround.replaced
  rwa [FoldRound.values_foldBlocks]

/-- What every round keeps is kept by any number of them. -/
theorem foldRounds_keeps {P : Module → Prop}
    (hround : ∀ m done, P m → P (foldOnce types m done).module) (n : Nat) {m : Module} (h : P m)
    (done : Array Bool) (changed : Bool) : P (foldRounds types n m done changed).1 := by
  induction n generalizing m done changed with
  | zero => exact h
  | succ n ih =>
    unfold foldRounds
    dsimp only
    split
    · exact ih (hround m done h) _ true
    · exact hround m done h

@[simp] theorem values_foldRounds (n : Nat) (m : Module) (done : Array Bool) (changed : Bool) :
    (foldRounds types n m done changed).1.values = m.values :=
  foldRounds_keeps (P := fun m' => m'.values = m.values)
    (fun m' done h => (values_foldOnce m' done).trans h) n rfl done changed

theorem typed_foldRounds (n : Nat) {m : Module} (h : m.Typed types)
    (hfits : m.values.size ≤ invalidId) (done : Array Bool) (changed : Bool) :
    (foldRounds types n m done changed).1.Typed types := by
  refine (foldRounds_keeps (P := fun m => m.Typed types ∧ m.values.size ≤ invalidId) ?_ n
    ⟨h, hfits⟩ done changed).1
  intro m done ⟨h, hfits⟩
  exact ⟨typed_foldOnce h hfits done, by rwa [values_foldOnce]⟩

@[simp] theorem values_constFold (m : Module) : (m.constFold types).1.values = m.values :=
  values_foldRounds _ m _ false

/-- Folding keeps a module typed. -/
theorem typed_constFold (h : m.Typed types) (hfits : m.values.size ≤ invalidId) :
    (m.constFold types).1.Typed types :=
  typed_foldRounds _ h hfits _ false

/-! ## Inlining -/

/-- A module with more instructions and values, and the same functions and blocks. -/
structure Module.Adds (types : TypePool) (m m' : Module) : Prop where
  typed : m'.Typed types
  functions : m'.functions = m.functions
  blocks : m'.blocks = m.blocks
  insts : ∀ (i : InstId) inst, m.insts[i]? = some inst → m'.insts[i]? = some inst
  values : ∀ v t, typeIn m.values v = some t → typeIn m'.values v = some t

theorem Module.Typed.adds (h : m.Typed types) : m.Adds types m :=
  ⟨h, rfl, rfl, fun _ _ hi => hi, fun _ _ hv => hv⟩

theorem Module.Adds.trans (h : m.Adds types m') (h' : m'.Adds types m'') : m.Adds types m'' :=
  ⟨h'.typed, h'.functions.trans h.functions, h'.blocks.trans h.blocks,
    fun i inst hi => h'.insts i inst (h.insts i inst hi),
    fun v t hv => h'.values v t (h.values v t hv)⟩

theorem Module.Adds.extends (h : m.Adds types m') :
    (m.typeContext types).Extends (m'.typeContext types) := by
  refine ⟨.refl _, fun f sig hf => ?_, h.values⟩
  show (m'.functions[f]?).map _ = some sig
  rw [h.functions]
  exact hf

/-- Adding to the tables keeps a module typed if the tables are. -/
theorem Module.Typed.add (h : m.Typed types) {insts : Array Inst} {values : Array Value}
    (htables : TablesTyped ⟨types, (m.typeContext types).signature, typeIn values⟩ insts values)
    (hinsts : ∀ (i : InstId) inst, m.insts[i]? = some inst → insts[i]? = some inst)
    (hvalues : ∀ v t, typeIn m.values v = some t → typeIn values v = some t) :
    m.Adds types { m with insts, values } :=
  ⟨⟨htables, fun f hf e he => (h.entry f hf e he).imp fun v t hv => hvalues v t hv,
    fun f hf b hb v hv => (h.ret f hf b hb v hv).imp_right (hvalues v _)⟩, rfl, rfl,
    hinsts, hvalues⟩

/-- An instruction is typed, and its result has its type. It has none if and only if its type is
unit. -/
def Inst.Typed (Γ : TypeContext) (inst : Inst) : Prop :=
  ∃ t, InstType Γ inst.data t ∧
    (∀ r, inst.result = some r → Γ.valueType r = some t ∧ t ≠ Builtin.unit.id) ∧
    (inst.result = none → Γ.types.isUnit t = true)

theorem Inst.Typed.mono {Γ Γ' : TypeContext} (hext : Γ.Extends Γ') {inst : Inst}
    (h : inst.Typed Γ) :
    inst.Typed Γ' := by
  obtain ⟨t, hd, hr, hunit⟩ := h
  exact ⟨t, hd.mono hext, fun r hresult => (hr r hresult).imp_left (hext.valueType r t),
    fun hnone => hext.types.isUnit (hunit hnone)⟩

theorem Module.Typed.instTyped (h : m.Typed types) {i : InstId} {inst : Inst}
    (hinst : m.insts[i]? = some inst) : inst.Typed (m.typeContext types) := by
  obtain ⟨t, hd, hr, hunit⟩ := h.inst i inst hinst
  refine ⟨t, hd, fun r hresult => ⟨(hr r hresult).typeIn, ?_⟩, hunit⟩
  obtain ⟨value, hvalue, hsite, rfl⟩ := hr r hresult
  exact h.valued r value i hvalue hsite

theorem type_getD {values : Array Value} {v : ValueId} {t : TypeId} (h : typeIn values v = some t) :
    (values.getD v {}).type = t := by
  obtain ⟨value, hvalue, rfl⟩ := Option.map_eq_some_iff.mp h
  rw [Array.getD_eq_getD_getElem?, hvalue]
  rfl

/-- The copy of an instruction without a result. -/
theorem adds_copyInst (h : m.Typed types) {renamed : Substitution}
    (hrenamed : renamed.Typed (m.typeContext types)) (hfits : m.values.size ≤ invalidId)
    {inst : Inst} (hinst : inst.Typed (m.typeContext types)) (span : Span)
    (hnone : inst.result = none) : m.Adds types { m with
      insts := m.insts.push { inst with data := inst.data.mapOperands renamed.rename, span } } := by
  obtain ⟨t, hd, -, hunit⟩ := hinst
  have hdata := hd.mapOperands (hrenamed.renames_rename (valueType_invalidId hfits))
  exact h.add (h.toTablesTyped.pushInst hdata hnone (hunit hnone))
    (fun _ _ => getElem?_push_of_some) fun _ _ hv => hv

/-- The copy of an instruction together with its result. -/
theorem adds_copyResult (h : m.Typed types) {renamed : Substitution}
    (hrenamed : renamed.Typed (m.typeContext types)) (hfits : m.values.size ≤ invalidId)
    {inst : Inst} (hinst : inst.Typed (m.typeContext types)) (span : Span) {r : ValueId}
    (hr : inst.result = some r) : m.Adds types { m with
        insts := m.insts.push
          { inst with
            data := inst.data.mapOperands renamed.rename, span, result := some m.values.size }
        values := m.values.push { m.values.getD r {} with site := .inst m.insts.size } } ∧
      ∃ t, typeIn m.values r = some t ∧ (m.values.getD r {}).type = t := by
  obtain ⟨t, hd, hresult, -⟩ := hinst
  obtain ⟨hvalue, hvalued⟩ := hresult r hr
  have hdata := hd.mapOperands (hrenamed.renames_rename (valueType_invalidId hfits))
  have htype : (m.values.getD r {}).type = t := type_getD hvalue
  have hvalues : ∀ v t, typeIn m.values v = some t →
      typeIn (m.values.push { m.values.getD r {} with site := .inst m.insts.size }) v = some t :=
    fun _ _ => typeIn_push_of_some
  refine ⟨h.add ?_ (fun _ _ => getElem?_push_of_some) hvalues, t, hvalue, htype⟩
  refine (h.toTablesTyped.pushResult ?_ rfl rfl ?_).mono ⟨.refl _, fun _ _ hf => hf, hvalues⟩
  · rw [htype]
    exact hdata
  · rw [htype]
    exact hvalued

/-- Copying typed instructions adds typed instructions, and values become ones of the same types. -/
theorem adds_copyInsts (types : TypePool) (span : Span) (insts : List Inst) (renamed : Substitution)
    (m : Module) :
    m.values.size ≤ (copyInsts span insts renamed m).2.2.values.size ∧
      ((copyInsts span insts renamed m).2.2.values.size ≤ invalidId → m.Typed types →
        renamed.Typed (m.typeContext types) → (∀ inst ∈ insts, inst.Typed (m.typeContext types)) →
          m.Adds types (copyInsts span insts renamed m).2.2 ∧
            (copyInsts span insts renamed m).2.1.Typed
              ((copyInsts span insts renamed m).2.2.typeContext types)) := by
  induction insts generalizing renamed m with
  | nil => exact ⟨Nat.le_refl _, fun _ h hrenamed _ => ⟨h.adds, hrenamed⟩⟩
  | cons inst rest ih =>
    unfold copyInsts
    dsimp only
    split
    · rename_i hnone
      obtain ⟨hsize, hadds⟩ := ih renamed
        { m with
          insts := m.insts.push { inst with data := inst.data.mapOperands renamed.rename, span } }
      refine ⟨hsize, fun hfits h hrenamed hinsts => ?_⟩
      have hcopy := adds_copyInst h hrenamed (hsize.trans hfits)
          (hinsts inst List.mem_cons_self) span hnone
      obtain ⟨hadds', hrenamed'⟩ := hadds hfits hcopy.typed (hrenamed.mono hcopy.extends)
          fun inst' hinst' =>
        (hinsts inst' (List.mem_cons_of_mem _ hinst')).mono hcopy.extends
      exact ⟨hcopy.trans hadds', hrenamed'⟩
    · rename_i r hr
      obtain ⟨hsize, hadds⟩ := ih (renamed.insert r m.values.size) { m with
        insts := m.insts.push
          { inst with
            data := inst.data.mapOperands renamed.rename, span, result := some m.values.size }
        values := m.values.push { m.values.getD r {} with site := .inst m.insts.size } }
      have hle := (Nat.le_succ _).trans ((Array.size_push _).ge.trans hsize)
      refine ⟨hle, fun hfits h hrenamed hinsts => ?_⟩
      obtain ⟨hcopy, t, ht, htype⟩ :=
        adds_copyResult h hrenamed (hle.trans hfits) (hinsts inst List.mem_cons_self) span hr
      have hnew := (hrenamed.mono hcopy.extends).insert (hcopy.values r t ht) (w := m.values.size)
        (.inr ((typeIn_push_size _ _).trans (congrArg some htype)))
      obtain ⟨hadds', hrenamed'⟩ := hadds hfits hcopy.typed hnew fun inst' hinst' =>
        (hinsts inst' (List.mem_cons_of_mem _ hinst')).mono hcopy.extends
      exact ⟨hcopy.trans hadds', hrenamed'⟩

theorem Substitution.typed_params {Γ : TypeContext} {ps as : List ValueId} {ts : List TypeId}
    (hps : List.Forall₂ (fun p t => Γ.valueType p = some t) ps ts)
    (has : List.Forall₂ Γ.Operand as ts) {s : Substitution} (hs : s.Typed Γ) :
    Substitution.Typed Γ ((ps.zip as).foldl (fun s (k, v) => s.insert k v) s) := by
  induction hps generalizing as s with
  | nil =>
    cases has
    exact hs
  | cons hp _ ih =>
    cases has with
    | cons ha has => exact ih has (hs.insert hp ha)

theorem inlinable?_eq_some {maxInsts : Nat} {caller callee : FuncId} {b : Block}
    {value : Option ValueId} (h : m.inlinable? maxInsts caller callee = some (b, value)) :
    ∃ f e, m.functions[callee]? = some f ∧ f.entry = some e ∧ m.blocks[e]? = some b ∧
      b.term = some (.ret value) := by
  unfold Module.inlinable? at h
  obtain ⟨f, hf, h⟩ := Option.bind_eq_some_iff.mp h
  obtain ⟨e, he, h⟩ := Option.bind_eq_some_iff.mp h
  obtain ⟨b', hb, h⟩ := Option.bind_eq_some_iff.mp h
  obtain ⟨term, hterm, h⟩ := Option.bind_eq_some_iff.mp h
  obtain ⟨value', hvalue, h⟩ := Option.bind_eq_some_iff.mp h
  split at h
  · obtain ⟨rfl, rfl⟩ := Prod.mk.inj (Option.some.inj h)
    refine ⟨f, e, hf, he, hb, ?_⟩
    cases term with
    | ret v =>
      obtain rfl := Option.some.inj hvalue
      exact hterm
    | _ => cases hvalue
  · cases h

/-- A block while its calls are inlined: the module and the replacements of results are typed. -/
structure Inlining.Typed (types : TypePool) (s : Inlining) : Prop where
  module : s.module.Typed types
  results : s.results.Typed (s.module.typeContext types)

/-- Inlining a call adds values, and keeps what is typed typed. -/
theorem typed_inlineCall (s : Inlining) {i : InstId} {call : Inst}
    (hcall : s.module.insts[i]? = some call) {callee : FuncId} {args : List ValueId}
    (hdata : call.data = .call callee args) {maxInsts : Nat} {caller : FuncId} {b : Block}
    {value : Option ValueId} (hb : s.module.inlinable? maxInsts caller callee = some (b, value)) :
    s.module.values.size ≤ (inlineCall s call args b value).module.values.size ∧
      ((inlineCall s call args b value).module.values.size ≤ invalidId → s.Typed types →
        (inlineCall s call args b value).Typed types) := by
  obtain ⟨m, insts, results, changed⟩ := s
  obtain ⟨f, e, hf, he, hblock, hterm⟩ := inlinable?_eq_some hb
  have hblock' : m.block e = b := by
    unfold Module.block
    rw [Array.getD_eq_getD_getElem?, hblock]
    rfl
  unfold inlineCall
  dsimp only
  obtain ⟨hsize, hadds⟩ := adds_copyInsts types call.span ((m.blockInsts b).map (·.2))
    ((b.params.zip args).foldl (fun p (k, v) => p.insert k v) {}) m
  refine ⟨hsize, fun hfits ⟨h, hresults⟩ => ?_⟩
  obtain ⟨t, hd, hr, -⟩ := h.instTyped hcall
  rw [hdata] at hd
  cases hd with
  | @call _ _ params _ hcallee hargs =>
    obtain ⟨rfl, rfl⟩ : f.paramTypes = params ∧ f.ret = t := by
      have hsig : (m.functions[callee]?).map (fun f => (f.paramTypes, f.ret)) = some (params, t) :=
        hcallee
      rw [hf] at hsig
      exact Prod.mk.inj (Option.some.inj hsig)
    have hentry := h.entry f (Array.mem_of_getElem? hf) e he
    rw [hblock'] at hentry
    have hinsts : ∀ inst ∈ (m.blockInsts b).map (·.2), inst.Typed (m.typeContext types) := by
      intro inst hinst
      obtain ⟨⟨j, inst'⟩, hmem, rfl⟩ := List.mem_map.mp hinst
      obtain ⟨j', -, hj⟩ := List.mem_filterMap.mp hmem
      obtain ⟨inst'', hinst'', heq⟩ := Option.map_eq_some_iff.mp hj
      obtain ⟨rfl, rfl⟩ := Prod.mk.inj heq
      exact h.instTyped hinst''
    obtain ⟨hadds, hrenamed⟩ := hadds hfits h
      (Substitution.typed_params hentry hargs (Substitution.typed_empty _)) hinsts
    refine ⟨⟨hadds.typed.toTablesTyped, hadds.typed.entry, hadds.typed.ret⟩, ?_⟩
    have hresults' := hresults.mono hadds.extends
    dsimp only
    split
    · rename_i r v hresult
      refine hresults'.insert (hadds.extends.valueType r f.ret (hr r hresult).1) ?_
      refine (hrenamed.renames_rename (valueType_invalidId hfits)).operand v f.ret ?_
      have hret := h.ret f (Array.mem_of_getElem? hf) e (.inr he) v (by rw [hblock', hterm])
      exact hret.imp_right (hadds.values v f.ret)
    · exact hresults'

theorem typed_inlineInst (types : TypePool) (maxInsts : Nat) (caller : FuncId) (s : Inlining)
    (i : InstId) :
    s.module.values.size ≤ (inlineInst maxInsts caller s i).module.values.size ∧
      ((inlineInst maxInsts caller s i).module.values.size ≤ invalidId → s.Typed types →
        (inlineInst maxInsts caller s i).Typed types) := by
  have hkeep : s.module.values.size ≤ s.module.values.size ∧ (s.module.values.size ≤ invalidId →
      s.Typed types → Inlining.Typed types { s with insts := s.insts ++ [i] }) :=
    ⟨Nat.le_refl _, fun _ h => ⟨h.module, h.results⟩⟩
  unfold inlineInst
  dsimp only
  split
  · rename_i inst hinst
    split
    · rename_i callee args hdata
      split
      · rename_i b value hb
        exact typed_inlineCall s hinst hdata hb
      · exact hkeep
    · exact hkeep
  · exact hkeep

theorem typed_inlineInsts (types : TypePool) (maxInsts : Nat) (caller : FuncId) (is : List InstId)
    (s : Inlining) :
    s.module.values.size ≤ (is.foldl (inlineInst maxInsts caller) s).module.values.size ∧
      ((is.foldl (inlineInst maxInsts caller) s).module.values.size ≤ invalidId → s.Typed types →
        (is.foldl (inlineInst maxInsts caller) s).Typed types) := by
  induction is generalizing s with
  | nil => exact ⟨Nat.le_refl _, fun _ h => h⟩
  | cons i is ih =>
    obtain ⟨hsize, htyped⟩ := typed_inlineInst types maxInsts caller s i
    obtain ⟨hsize', htyped'⟩ := ih (inlineInst maxInsts caller s i)
    exact ⟨hsize.trans hsize', fun hfits h => htyped' hfits (htyped (hsize'.trans hfits) h)⟩

/-- A pass adds values at most, and keeps a module typed as long as its values have numbers. -/
structure Module.Preserves (types : TypePool) (m m' : Module) : Prop where
  size_le : m.values.size ≤ m'.values.size
  typed : m'.values.size ≤ invalidId → m.Typed types → m'.Typed types

theorem Module.Preserves.refl (m : Module) : m.Preserves types m := ⟨Nat.le_refl _, fun _ h => h⟩

theorem Module.Preserves.trans (h : m.Preserves types m') (h' : m'.Preserves types m'') :
    m.Preserves types m'' :=
  ⟨h.size_le.trans h'.size_le,
    fun hfits htyped => h'.typed hfits (h.typed (h'.size_le.trans hfits) htyped)⟩

theorem Module.Restricts.preserves (h : m.Restricts m') : m.Preserves types m' :=
  ⟨h.values ▸ Nat.le_refl _, fun _ htyped => h.typed htyped⟩

theorem preserves_constFold (m : Module) : m.Preserves types (m.constFold types).1 := by
  refine ⟨(congrArg Array.size (values_constFold m)).ge, fun hfits h => typed_constFold h ?_⟩
  rwa [values_constFold] at hfits

theorem preserves_inlineBlock (maxInsts : Nat) (caller : FuncId) (m : Module) (b : BlockId) :
    m.Preserves types (inlineBlock maxInsts caller m b).1 := by
  obtain ⟨hsize, htyped⟩ :=
    typed_inlineInsts types maxInsts caller (m.block b).insts { module := m }
  unfold inlineBlock
  dsimp only
  generalize (m.block b).insts.foldl (inlineInst maxInsts caller) { module := m } =
    s at hsize htyped ⊢
  split
  · refine ⟨?_, fun hfits h => ?_⟩
    · rw [values_substitute]
      exact hsize
    · rw [values_substitute] at hfits
      obtain ⟨hmodule, hresults⟩ := htyped hfits ⟨h, Substitution.typed_empty _⟩
      have hrestricts := restricts_modify s.module b
          (f := fun block => { block with insts := s.insts })
        s.module.counts (fun _ => rfl) fun _ hv => hv
      refine (hrestricts.typed hmodule).substitute hfits ?_
      rw [hrestricts.typeContext]
      exact hresults
  · exact .refl m

theorem preserves_inlineBlocks (maxInsts : Nat) (bs : List (FuncId × BlockId)) (m : Module) :
    m.Preserves types (inlineBlocks maxInsts bs m).1 := by
  induction bs generalizing m with
  | nil => exact .refl m
  | cons b bs ih => exact (preserves_inlineBlock maxInsts b.1 m b.2).trans (ih _)

/-- The passes keep a module typed. -/
theorem preserves_optimize (types : TypePool) (m : Module) (opt : PassOptions) :
    m.Preserves types (m.optimize types opt) := by
  unfold Module.optimize
  split
  · exact .refl m
  · dsimp only
    refine Module.Preserves.trans ?_ (restricts_simplifyCfg _).preserves
    refine Module.Preserves.trans ?_ (restricts_removeDeadCode _).preserves
    refine Module.Preserves.trans ?_ (preserves_constFold _)
    refine Module.Preserves.trans ?_ (preserves_inlineBlocks _ _ _)
    exact (restricts_simplifyCfg m).preserves.trans (preserves_constFold _)

end ContractCompiler.Ssa
