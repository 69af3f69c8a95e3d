import ContractCompiler.Proofs.Ssa.BuildStmt

/-!
# Modules that are built are typed

The parameters of a function's entry get the types of its signature. Its blocks come after those of
the functions before it, which are left alone.

- `ensures_lowerFunction`: the code of a typed function is typed;
- `BuildResult.Typed`: what has been built so far is typed;
- `typed_buildModule`: the module that is built from a typed program is typed.
-/

namespace ContractCompiler.Ssa

open Hir (Expr Stmt SymbolId PassMode)
open Build Builder

variable {K : BuildContext} {Γ : Hir.TypeContext} {b b' : Builder}

/-! ## Parameters -/

theorem params_addParam {k : BlockId} (hk : k < b.blocks.size) (type : TypeId) (span : Span) :
    (((addParam k type span).run b).2.block k).params =
      (b.block k).params ++ [((addParam k type span).run b).1] := by
  show ((b.blocks.modify k _).getD k {}).params = (b.blocks.getD k {}).params ++ [b.values.size]
  rw [Array.getD_eq_getD_getElem?, Array.getElem?_modify, if_pos rfl, Array.getElem?_eq_getElem hk,
    Array.getD_eq_getD_getElem?, Array.getElem?_eq_getElem hk]
  rfl

/-- A parameter that is bound, and its type in the entry block. -/
def ParamBound (K : BuildContext) (types : TypePool) (p : Hir.Param × TypeId) : Prop :=
  (∃ s, K.symbols[p.1.sym]? = some s ∧ s.type = p.1.type ∧ s.pass = some p.1.pass) ∧
    ParamType types (p.1.type, p.1.pass) p.2

theorem ParamBound.binds {p : Hir.Param × TypeId} (h : ParamBound K b.types p) {v : ValueId}
    (hv : typeIn b.values v = some p.2) : b.Binds K p.1.sym v := by
  obtain ⟨⟨s, hs, htype, hpass⟩, hparam⟩ := h
  have href : isReference K.symbols p.1.sym = decide (p.1.pass = .exclusive) := by
    unfold isReference
    rw [hs, Option.any_some, hpass]
    cases p.1.pass <;> rfl
  have hbinding : bindingType K.symbols p.1.sym = p.1.type := by
    unfold bindingType
    rw [hs, ← htype]
    rfl
  refine ⟨p.2, hv, ?_⟩
  rw [href, hbinding]
  unfold ParamType at hparam
  split
  · rename_i hexcl
    rwa [if_pos (of_decide_eq_true hexcl)] at hparam
  · rename_i hexcl
    rwa [if_neg (fun heq => hexcl (decide_eq_true heq))] at hparam

theorem ensures_lowerParams {entry : BlockId} (hentry : K.sealed ≤ entry)
    (ps : List (Hir.Param × TypeId)) {b : Builder} (h : b.Typed K) (hlt : entry < b.blocks.size)
    (hps : ∀ p ∈ ps, ParamBound K b.types p) : (lowerParams entry ps).Ensures K b fun _ b' => ∃ vs,
      (b'.block entry).params = (b.block entry).params ++ vs ∧
        List.Forall₂ (fun v t => typeIn b'.values v = some t) vs (ps.map (·.2)) := by
  induction ps generalizing b with
  | nil => exact ensures_pure h ⟨[], (List.append_nil _).symm, .nil⟩
  | cons p ps ih =>
    obtain ⟨p, t⟩ := p
    unfold lowerParams
    have hadd : (addParam entry t p.span).Ensures K b fun v b' => typeIn b'.values v = some t ∧
        (b'.block entry).params = (b.block entry).params ++ [v] :=
      ⟨(ensures_addParam h hentry t p.span).1, (ensures_addParam h hentry t p.span).2.1,
        params_addParam hlt t p.span⟩
    refine hadd.bind fun v b₁ h₁ ⟨hv, hparams₁⟩ => ?_
    have hp : ParamBound K b₁.types (p, t) := by
      obtain ⟨hbound, hparam⟩ := hps _ List.mem_cons_self
      exact ⟨hbound, ParamType.mono h₁.types hparam⟩
    have hbind : (Build.bind p.sym (some v)).Ensures K b₁ fun _ b' =>
        b'.blocks = b₁.blocks ∧ b'.types = b₁.types := by
      refine ⟨(ensures_bind h₁.typed fun w hw => ?_).1, rfl, rfl⟩
      obtain rfl := Option.some.inj hw
      exact hp.binds hv
    refine hbind.bind fun _ b₂ h₂ ⟨hblocks, htypes⟩ => ?_
    refine (ih h₂.typed ?_ fun q hq => ?_).imp fun _ b₃ h₃ ⟨vs, hparams, hvs⟩ => ?_
    · rw [hblocks]
      exact hlt.trans_le h₁.size_le
    · obtain ⟨hbound, hparam⟩ := hps q (List.mem_cons_of_mem _ hq)
      rw [htypes]
      exact ⟨hbound, ParamType.mono h₁.types hparam⟩
    · refine ⟨v :: vs, ?_, .cons ((h₂.trans h₃).values v t hv) hvs⟩
      have hblock : b₂.block entry = b₁.block entry := by
        unfold Builder.block
        rw [hblocks]
      rw [hparams, hblock, hparams₁, List.append_assoc]
      rfl

/-! ## Functions -/

/-- Blocks may be sealed once they have all their parameters. -/
theorem Builder.Typed.seal (h : b.Typed K) {n : BlockId} (hle : K.first ≤ n)
    (hn : n ≤ b.blocks.size) :
    b.Typed { K with sealed := n } :=
  ⟨h.types, h.tables, h.env, h.signature, h.ret, h.current, h.owned, hle, hn, h.bindings⟩

theorem Builder.Advances.unseal {n : BlockId} (h : b.Advances { K with sealed := n } b')
    (hle : K.first ≤ K.sealed) (hn : K.sealed ≤ n) : b.Advances K b' :=
  ⟨h.typed.seal hle (hn.trans h.typed.sealed_le), h.types, h.values,
    fun k hk => h.params k (hk.trans_le hn), h.rets, h.size_le⟩

theorem Build.Ensures.unseal {α : Type} {x : Build α} {n : BlockId} {Q : α → Builder → Prop}
    (h : x.Ensures { K with sealed := n } b Q) (hle : K.first ≤ K.sealed) (hn : K.sealed ≤ n) :
    x.Ensures K b Q :=
  ⟨h.1.unseal hle hn, h.2⟩

theorem paramBound_of_typed (hΓ : K.Reads Γ) {types : TypePool} {ps : List Hir.Param}
    (hps : ∀ p ∈ ps, Γ.Bound p) {ts : List TypeId}
    (hts : List.Forall₂ (ParamType types) (ps.map fun p => (p.type, p.pass)) ts) :
    (∀ p ∈ ps.zip ts, ParamBound K types p) ∧ (ps.zip ts).map (·.2) = ts := by
  induction ps generalizing ts with
  | nil =>
    cases hts
    exact ⟨nofun, rfl⟩
  | cons p ps ih =>
    cases hts with
    | @cons _ t _ ts hp hts =>
      obtain ⟨hrest, hmap⟩ := ih (fun q hq => hps q (List.mem_cons_of_mem _ hq)) hts
      refine ⟨fun q hq => ?_, congrArg (t :: ·) hmap⟩
      rcases List.mem_cons.mp hq with rfl | hq
      · have hbound := hps p List.mem_cons_self
        unfold Hir.TypeContext.Bound at hbound
        rw [hΓ.symbols] at hbound
        exact ⟨hbound, hp⟩
      · exact hrest q hq

/-- The code of a typed function is typed: it begins where the tables ended, and the parameters of
its entry have the types given. -/
theorem ensures_lowerFunction (hΓ : K.Reads Γ) {f : Hir.Function} (hf : f.Typed Γ)
    (hret : K.ret = f.ret) {paramTypes : List TypeId} (h : b.Typed K)
    (hext : Γ.types.Extends b.types) (hsealed : K.sealed = b.blocks.size)
    (hparams : List.Forall₂ (ParamType b.types) f.signature.1 paramTypes) :
    (lowerFunction K.functions K.symbols f paramTypes).Ensures K b fun entry b' =>
      entry = b.blocks.size ∧ entry < b'.blocks.size ∧ List.Forall₂
        (fun v t => typeIn b'.values v = some t) (b'.block entry).params paramTypes := by
  have hnew : newBlock.Ensures K b fun k b' => k = b.blocks.size ∧ b'.blocks = b.blocks.push {} ∧
      b'.types = b.types :=
    ⟨(ensures_newBlock h).1, rfl, rfl, rfl⟩
  unfold lowerFunction
  refine hnew.bind fun entry b₁ h₁ ⟨hentry, hblocks₁, htypes₁⟩ => ?_
  have hle : K.sealed ≤ entry := (hsealed.trans hentry.symm).le
  have hmove : (moveTo (some entry)).Ensures K b₁ fun _ b' => b'.blocks = b₁.blocks ∧
      b'.types = b₁.types := by
    refine ⟨(ensures_moveTo h₁.typed fun k hk => ?_).1, rfl, rfl⟩
    obtain rfl := Option.some.inj hk
    exact h.first_le.trans hle
  refine hmove.bind fun _ b₂ h₂ ⟨hblocks₂, htypes₂⟩ => ?_
  have hblocks : b₂.blocks = b.blocks.push {} := hblocks₂.trans hblocks₁
  have hlt : entry < b₂.blocks.size := by
    rw [hblocks, hentry, Array.size_push]
    exact Nat.lt_succ_self _
  have hempty : (b₂.block entry).params = [] := by
    unfold Builder.block
    rw [hblocks, hentry, Array.getD_eq_getD_getElem?, Array.getElem?_push_size]
    rfl
  obtain ⟨hbound, hmap⟩ := paramBound_of_typed hΓ hf.params hparams
  rw [← htypes₁, ← htypes₂] at hbound
  refine (ensures_lowerParams hle _ h₂.typed hlt hbound).bind fun _ b₃ h₃ ⟨vs, hvs, htyped⟩ => ?_
  rw [hempty, List.nil_append] at hvs
  rw [hmap] at htyped
  -- The entry has its parameters now, so that the body leaves them alone.
  have hlt₃ : entry < b₃.blocks.size := hlt.trans_le h₃.size_le
  refine Ensures.unseal (n := entry + 1) ?_ h.first_le (hle.trans (Nat.le_succ _))
  have hΓ' : BuildContext.Reads { K with sealed := entry + 1 } Γ := ⟨hΓ.symbols, hΓ.signature⟩
  have hseal := h₃.typed.seal (n := entry + 1) (h.first_le.trans (hle.trans (Nat.le_succ _))) hlt₃
  have hbody : ∀ s ∈ f.body, LowersStmt { K with sealed := entry + 1 } Γ s := by
    intro s hs
    have htyped : s.Typed Γ K.ret false := by
      rw [hret]
      exact hf.body s hs
    exact lowersStmt_of_typed hΓ' htyped
  have hext₃ : Γ.types.Extends b₃.types := ((hext.trans h₁.types).trans h₂.types).trans h₃.types
  have hend : ∀ b₄, b₃.Advances { K with sealed := entry + 1 } b₄ → entry = b.blocks.size ∧
      entry < b₄.blocks.size ∧
        List.Forall₂ (fun v t => typeIn b₄.values v = some t) (b₄.block entry).params
          paramTypes := by
    intro b₄ h₄
    refine ⟨hentry, hlt₃.trans_le h₄.size_le, ?_⟩
    rw [h₄.params entry (Nat.lt_succ_self _), hvs]
    exact htyped.imp fun v t hv => h₄.values v t hv
  refine (ensures_lowerBlock hbody hseal hext₃).bind fun _ b₄ h₄ _ => ?_
  refine ensures_isOpen ?_
  split
  · refine ensures_get ?_
    refine (ensures_terminate h₄.typed fun v hv => ?_).bind fun _ b₅ h₅ _ => ?_
    · split at hv <;> cases hv
    · exact ensures_pure h₅.typed (hend b₅ (h₄.trans h₅))
  · exact ensures_pure h₄.typed (hend b₄ h₄)

/-! ## Signatures -/

theorem signatureTypes_spec (ps : List Hir.Param) {types : TypePool} (h : types.Sound) :
    types.Extends (signatureTypes types ps).2 ∧ (signatureTypes types ps).2.Sound ∧
      List.Forall₂ (ParamType (signatureTypes types ps).2) (ps.map fun p => (p.type, p.pass))
        (signatureTypes types ps).1 := by
  induction ps generalizing types with
  | nil => exact ⟨.refl _, h, .nil⟩
  | cons p ps ih =>
    unfold signatureTypes
    by_cases hpass : p.pass = .exclusive
    · simp only [if_pos hpass]
      obtain ⟨hext, hsound, hts⟩ := ih (h.ref p.type)
      refine ⟨(TypePool.extends_ref types p.type).trans hext, hsound, .cons ?_ hts⟩
      unfold ParamType
      rw [if_pos hpass]
      exact hext.refElem? (TypePool.refElem?_ref types p.type)
    · simp only [if_neg hpass]
      obtain ⟨hext, hsound, hts⟩ := ih h
      refine ⟨hext, hsound, .cons ?_ hts⟩
      unfold ParamType
      rw [if_neg hpass]

/-- A function without code has the signature of one of the program. -/
structure Declares (types : TypePool) (source : Hir.Function) (f : Function) : Prop where
  ret : f.ret = source.ret
  params : List.Forall₂ (ParamType types) source.signature.1 f.paramTypes
  entry : f.entry = none
  blocks : f.blocks = []

theorem Declares.mono {types types' : TypePool} (hext : types.Extends types')
    {source : Hir.Function} {f : Function} (h : Declares types source f) :
    Declares types' source f :=
  { h with params := h.params.imp fun _ _ => ParamType.mono hext }

theorem signatures_spec (sources : List (Hir.Function × Bool)) {types : TypePool}
    (h : types.Sound) :
    types.Extends (signatures types sources).2 ∧ (signatures types sources).2.Sound ∧
      List.Forall₂ (Declares (signatures types sources).2) (sources.map (·.1))
        (signatures types sources).1 := by
  induction sources generalizing types with
  | nil => exact ⟨.refl _, h, .nil⟩
  | cons source sources ih =>
    obtain ⟨source, excluded⟩ := source
    obtain ⟨hext, hsound, hts⟩ := signatureTypes_spec source.params h
    obtain ⟨hext', hsound', hfs⟩ := ih hsound
    exact ⟨hext.trans hext', hsound',
      .cons ⟨rfl, hts.imp fun _ _ => ParamType.mono hext', rfl, rfl⟩ hfs⟩

/-! ## Modules -/

/-- What has been built so far is typed, for signatures of all functions. -/
structure BuildResult.Typed (signature : FuncId → Option (List TypeId × TypeId)) (r : BuildResult) :
    Prop where
  types : r.types.Sound
  tables : TablesTyped ⟨r.types, signature, typeIn r.module.values⟩ r.module.insts r.module.values
  entry : ∀ f ∈ r.module.functions, ∀ e, f.entry = some e → e < r.module.blocks.size ∧
    List.Forall₂ (fun v t => typeIn r.module.values v = some t) (r.module.block e).params
      f.paramTypes
  ret : ∀ f ∈ r.module.functions, ∀ k, k ∈ f.blocks ∨ f.entry = some k → k < r.module.blocks.size ∧
    ∀ v, (r.module.block k).term = some (.ret (some v)) →
      v = invalidId ∨ typeIn r.module.values v = some f.ret

/-- What every function of a program declares stays the same while code is added. -/
structure Signed (hir : Hir.Module) (signature : FuncId → Option (List TypeId × TypeId))
    (types : TypePool) : Prop where
  declared : ∀ (f : FuncId) fn, hir.functions[f]? = some fn → ∃ params,
    signature f = some (params, fn.ret) ∧ List.Forall₂ (ParamType types) fn.signature.1 params

theorem Signed.mono {hir : Hir.Module} {signature : FuncId → Option (List TypeId × TypeId)}
    {types types' : TypePool} (hext : types.Extends types') (h : Signed hir signature types) :
    Signed hir signature types' := by
  refine ⟨fun f fn hf => ?_⟩
  obtain ⟨params, hsig, hparams⟩ := h.declared f fn hf
  exact ⟨params, hsig, hparams.imp fun _ _ => ParamType.mono hext⟩

section Bodies

variable {hir : Hir.Module} {signature : FuncId → Option (List TypeId × TypeId)} {types₀ : TypePool}
  {unit : String} {functions : Array Function} {blocks : Array Block} {insts : Array Inst}
  {values : Array Value} {counts : PassCounts} {types : TypePool} {built joinParams : Nat}

/-- What stays fixed while the code of a function is added to tables. -/
def bodyContext (hir : Hir.Module) (signature : FuncId → Option (List TypeId × TypeId))
    (ret : TypeId) (blocks : Array Block) : BuildContext :=
  { functions := hir.functions, symbols := hir.symbols, signature, ret, first := blocks.size,
    sealed := blocks.size }

theorem bindingType_ne_unit (hsymbols : ∀ symbol ∈ hir.symbols, symbol.type ≠ Builtin.unit.id)
    (sym : SymbolId) : bindingType hir.symbols sym ≠ Builtin.unit.id := by
  unfold bindingType
  cases hs : hir.symbols[sym]? with
  | none =>
    show TypeId.invalid ≠ Builtin.unit.id
    decide
  | some symbol => exact hsymbols symbol (Array.mem_of_getElem? hs)

/-- The state in which the construction of a function begins is typed. -/
theorem typed_start (hhir : hir.Typed types₀)
    (h : BuildResult.Typed signature
      ⟨⟨unit, functions, blocks, insts, values, counts⟩, types, built, joinParams⟩)
    (hsigned : Signed hir signature types) (ret : TypeId) :
    Builder.Typed (bodyContext hir signature ret blocks)
      { blocks, insts, values, types, env := Array.replicate hir.symbols.size none } := by
  refine ⟨h.types, h.tables, fun sym v hv => ?_, hsigned.declared, fun k hk v hv => ?_, nofun,
    fun k hk => ?_, Nat.le_refl _, Nat.le_refl _, bindingType_ne_unit hhir.symbols⟩
  · rw [Array.getD_eq_getD_getElem?, Array.getElem?_replicate] at hv
    split at hv <;> cases hv
  · unfold Builder.block at hv
    rw [Array.getD_eq_getD_getElem?, Array.getElem?_eq_none hk] at hv
    cases hv
  · simp at hk

/-- A function without code may be added. -/
theorem typed_pushExcluded
    (h : BuildResult.Typed signature
      ⟨⟨unit, functions, blocks, insts, values, counts⟩, types, built, joinParams⟩)
    {source : Hir.Function} {f : Function} (hf : Declares types source f) :
    BuildResult.Typed signature
      ⟨⟨unit, functions.push f, blocks, insts, values, counts⟩, types, built, joinParams⟩ := by
  refine ⟨h.types, h.tables, fun g hg e he => ?_, fun g hg k hk => ?_⟩
  · rcases Array.mem_push.mp hg with hg | rfl
    · exact h.entry g hg e he
    · cases hf.entry.symm.trans he
  · rcases Array.mem_push.mp hg with hg | rfl
    · exact h.ret g hg k hk
    · rw [hf.entry, hf.blocks] at hk
      simp at hk

/-- Adding the code of a function leaves what is built typed. -/
theorem typed_buildBody (hhir : hir.Typed types₀)
    (h : BuildResult.Typed signature
      ⟨⟨unit, functions, blocks, insts, values, counts⟩, types, built, joinParams⟩)
    (hsigned : Signed hir signature types) (hext : types₀.Extends types) {source : Hir.Function}
    (hsource : source ∈ hir.functions) {f : Function} (hf : Declares types source f)
    {entry : BlockId} {b : Builder}
    (hrun : (lowerFunction hir.functions hir.symbols source f.paramTypes).run
        { blocks, insts, values, types, env := Array.replicate hir.symbols.size none } =
      (entry, b)) :
    types.Extends b.types ∧ BuildResult.Typed signature
      ⟨⟨unit, functions.push { f with blocks := b.owned.toList, entry := some entry },
        b.blocks, b.insts,
        b.values, counts⟩, b.types, built + 1, joinParams + b.joinParams⟩ := by
  have hlower := ensures_lowerFunction (K := bodyContext hir signature f.ret blocks)
    (Γ := hir.typeContext types₀) ⟨rfl, fun _ => rfl⟩ (hhir.functions source hsource) hf.ret
    (typed_start hhir h hsigned f.ret) hext rfl hf.params
  have hrun' : (lowerFunction (bodyContext hir signature f.ret blocks).functions
      (bodyContext hir signature f.ret blocks).symbols source f.paramTypes).run _ =
      (entry, b) := hrun
  unfold Ensures at hlower
  rw [hrun'] at hlower
  obtain ⟨hadv, hentry, hlt, hparams⟩ := hlower
  refine ⟨hadv.types, hadv.typed.types, hadv.typed.tables, fun g hg e he => ?_, fun g hg k hk => ?_⟩
  · rcases Array.mem_push.mp hg with hg | rfl
    · obtain ⟨hlt, hentry⟩ := h.entry g hg e he
      refine ⟨hlt.trans_le hadv.size_le, ?_⟩
      show List.Forall₂ _ (b.block e).params g.paramTypes
      rw [hadv.params e hlt]
      exact hentry.imp fun v t hv => hadv.values v t hv
    · obtain rfl := Option.some.inj he
      exact ⟨hlt, hparams⟩
  · rcases Array.mem_push.mp hg with hg | rfl
    · obtain ⟨hlt, hret⟩ := h.ret g hg k hk
      refine ⟨hlt.trans_le hadv.size_le, fun v hv => ?_⟩
      exact (hret v (hadv.rets k hlt v hv)).imp_right (hadv.values v g.ret)
    · have hk : blocks.size ≤ k ∧ k < b.blocks.size := by
        rcases hk with hk | hk
        · exact hadv.typed.owned k (Array.mem_toList_iff.mp hk)
        · obtain rfl := Option.some.inj hk
          exact ⟨hentry.ge, hlt⟩
      exact ⟨hk.2, hadv.typed.ret k hk.1⟩

end Bodies

/-- Adding the code of functions leaves what is built typed, and types are only added. -/
theorem typed_buildBodies {hir : Hir.Module} {types₀ : TypePool} (hhir : hir.Typed types₀)
    {signature : FuncId → Option (List TypeId × TypeId)} (sources : List (Hir.Function × Function))
    {r : BuildResult} (h : r.Typed signature) (hsigned : Signed hir signature r.types)
    (hext : types₀.Extends r.types)
    (hsources : ∀ p ∈ sources, p.1 ∈ hir.functions ∧ Declares r.types p.1 p.2) :
    r.types.Extends (buildBodies hir sources r).types ∧
    (buildBodies hir sources r).Typed signature := by
  induction sources generalizing r with
  | nil => exact ⟨.refl _, h⟩
  | cons p rest ih =>
    obtain ⟨source, f⟩ := p
    obtain ⟨⟨unit, functions, blocks, insts, values, counts⟩, types, built, joinParams⟩ := r
    obtain ⟨hsource, hf⟩ := hsources _ List.mem_cons_self
    unfold buildBodies
    dsimp only
    split
    · exact ih (typed_pushExcluded h hf) hsigned hext
        fun q hq => hsources q (List.mem_cons_of_mem _ hq)
    · cases hrun : (lowerFunction hir.functions hir.symbols source f.paramTypes).run
          { blocks, insts, values, types, env := Array.replicate hir.symbols.size none } with
      | mk entry b =>
      obtain ⟨hext', hbody⟩ := typed_buildBody hhir h hsigned hext hsource hf hrun
      obtain ⟨hrest, htyped⟩ := ih hbody (hsigned.mono hext') (hext.trans hext') fun q hq =>
        (hsources q (List.mem_cons_of_mem _ hq)).imp_right (Declares.mono hext')
      exact ⟨hext'.trans hrest, htyped⟩

/-- Adding the code of functions changes nothing else about them. -/
theorem map_functions_buildBodies {α : Type} (g : Function → α)
    (hg : ∀ f blocks entry, g { f with blocks, entry } = g f) (hir : Hir.Module)
    (sources : List (Hir.Function × Function)) (r : BuildResult) :
    (buildBodies hir sources r).module.functions.toList.map g =
      (r.module.functions.toList ++ sources.map (·.2)).map g := by
  induction sources generalizing r with
  | nil => simp [buildBodies]
  | cons p rest ih =>
    obtain ⟨source, f⟩ := p
    obtain ⟨⟨unit, functions, blocks, insts, values, counts⟩, types, built, joinParams⟩ := r
    unfold buildBodies
    dsimp only
    split
    · rw [ih]
      simp
    · split
      rw [ih]
      simp [hg]

/-! ## Signatures of a module -/

theorem signatures_flags (sources : List (Hir.Function × Bool)) (types : TypePool) :
    List.Forall₂ (fun source f => f.paramModes = source.1.params.map (·.pass) ∧
      f.excluded = source.2) sources (signatures types sources).1 := by
  induction sources generalizing types with
  | nil => exact .nil
  | cons source sources ih => exact .cons ⟨rfl, rfl⟩ (ih _)

/-- The functions of a module before their code is built. -/
structure SignaturesOf (hir : Hir.Module) (skip : Hir.FuncId → Bool) (types : TypePool)
    (fs : List Function) (types' : TypePool) : Prop where
  extends_types : types.Extends types'
  sound : types'.Sound
  declares : List.Forall₂ (Declares types') hir.functions.toList fs
  flags : ∀ (id : FuncId) source f, hir.functions[id]? = some source → fs[id]? = some f →
    f.paramModes = source.params.map (·.pass) ∧ f.excluded = skip id

theorem buildModule_of_signatures {hir : Hir.Module} {types types' : TypePool}
    {skip : Hir.FuncId → Bool} {fs : List Function}
    (h : signatures types (hir.functions.toList.zipIdx.map fun p => (p.1, skip p.2)) =
      (fs, types')) :
    buildModule hir types skip = buildBodies hir (hir.functions.toList.zip fs)
      { module := { unit := hir.unit }, types := types' } := by
  simp only [buildModule, h]

/-- A module is built by adding code to the functions that its signatures give. -/
theorem buildModule_eq (hir : Hir.Module) {types : TypePool} (htypes : types.Sound)
    (skip : Hir.FuncId → Bool) : ∃ fs types', SignaturesOf hir skip types fs types' ∧
      buildModule hir types skip = buildBodies hir (hir.functions.toList.zip fs)
        { module := { unit := hir.unit }, types := types' } := by
  have hsources : (hir.functions.toList.zipIdx.map fun p => (p.1, skip p.2)).map (·.1) =
      hir.functions.toList := by
    rw [List.map_map]
    exact List.zipIdx_map_fst 0 _
  obtain ⟨hext, hsound, hdeclares⟩ :=
    signatures_spec (hir.functions.toList.zipIdx.map fun p => (p.1, skip p.2)) htypes
  have hflags := signatures_flags (hir.functions.toList.zipIdx.map fun p => (p.1, skip p.2)) types
  rw [hsources] at hdeclares
  refine ⟨_, _, ⟨hext, hsound, hdeclares, fun id source f hsource hf => ?_⟩,
    buildModule_of_signatures rfl⟩
  rw [← Array.getElem?_toList] at hsource
  have hflag : (hir.functions.toList.zipIdx.map fun p => (p.1, skip p.2))[id]? =
      some (source, skip id) := by
    rw [List.getElem?_map, List.getElem?_zipIdx, hsource, Option.map_some, Option.map_some,
      Nat.zero_add]
  obtain ⟨f', hf', hflag⟩ := getElem?_of_forall₂ hflags hflag
  rwa [Option.some.inj (hf.symm.trans hf')]

namespace SignaturesOf

variable {hir : Hir.Module} {skip : Hir.FuncId → Bool} {types types' : TypePool}
  {fs : List Function}

theorem signed (h : SignaturesOf hir skip types fs types') :
    Signed hir (fun f => (fs[f]?).map fun f => (f.paramTypes, f.ret)) types' := by
  refine ⟨fun f fn hf => ?_⟩
  rw [← Array.getElem?_toList] at hf
  obtain ⟨g, hg, hdeclare⟩ := getElem?_of_forall₂ h.declares hf
  exact ⟨g.paramTypes, by rw [hg, Option.map_some, hdeclare.ret], hdeclare.params⟩

/-- What the functions of the module are, apart from their code. -/
theorem map_functions (h : SignaturesOf hir skip types fs types') {α : Type} (g : Function → α)
    (hg : ∀ f blocks entry, g { f with blocks, entry } = g f) (f : FuncId) :
    ((buildBodies hir (hir.functions.toList.zip fs)
      { module := { unit := hir.unit }, types := types' }).module.functions[f]?).map g =
        (fs[f]?).map g := by
  rw [← Array.getElem?_toList, ← List.getElem?_map, ← List.getElem?_map,
    map_functions_buildBodies g hg, List.map_snd_zip h.declares.length_eq.ge]
  rfl

end SignaturesOf

/-! ## Modules that are built -/

/-- What is built from a typed program is typed, and types are only added. -/
theorem typed_buildResult {hir : Hir.Module} {types : TypePool} (hhir : hir.Typed types)
    (htypes : types.Sound) (skip : Hir.FuncId → Bool) :
    types.Extends (buildModule hir types skip).types ∧ (buildModule hir types skip).Typed
      ((buildModule hir types skip).module.typeContext
        (buildModule hir types skip).types).signature := by
  obtain ⟨fs, types', hsigs, heq⟩ := buildModule_eq hir htypes skip
  rw [heq]
  have hempty : BuildResult.Typed (fun f => (fs[f]?).map fun f => (f.paramTypes, f.ret))
      { module := { unit := hir.unit }, types := types' } :=
    ⟨hsigs.sound, ⟨by simp, by simp, by simp⟩, by simp, by simp⟩
  have hzip : ∀ p ∈ hir.functions.toList.zip fs, p.1 ∈ hir.functions ∧ Declares types' p.1 p.2 := by
    intro p hp
    exact ⟨Array.mem_toList_iff.mp (List.of_mem_zip hp).1, List.forall₂_zip hsigs.declares hp⟩
  obtain ⟨hext, htyped⟩ := typed_buildBodies hhir _ hempty hsigs.signed hsigs.extends_types hzip
  rw [← funext (hsigs.map_functions (fun f => (f.paramTypes, f.ret)) fun _ _ _ => rfl)] at htyped
  exact ⟨hsigs.extends_types.trans hext, htyped⟩

/-- The module that is built from a typed program is typed. -/
theorem typed_buildModule {hir : Hir.Module} {types : TypePool} (hhir : hir.Typed types)
    (htypes : types.Sound) (skip : Hir.FuncId → Bool) :
    (buildModule hir types skip).module.Typed (buildModule hir types skip).types := by
  obtain ⟨-, htyped⟩ := typed_buildResult hhir htypes skip
  exact ⟨htyped.tables, fun f hf e he => (htyped.entry f hf e he).2,
    fun f hf k hk => (htyped.ret f hf k hk).2⟩

end ContractCompiler.Ssa
