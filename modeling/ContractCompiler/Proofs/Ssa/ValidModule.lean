import ContractCompiler.Proofs.Ssa.ValidLoop

/-!
# Modules that are built are valid

The code of a function begins with its entry, whose parameters are what its bindings stand for, and
ends with every block ended. It is added to the tables behind the code of the functions before it,
which stays in order.

- `Code.Complete`: the code of a function is in order and has all of its endings;
- `Code.Extends`: tables in which the code of further functions was added;
- `leads_lowerFunction`: the code of a function is complete;
- `Module.Complete`: the code of every function is complete, and no two functions share a block;
- `complete_buildModule`: the module that is built from a program is complete.
-/

namespace ContractCompiler.Ssa

open Hir (Expr Stmt SymbolId PassMode)
open Build Code

variable {K : BodyContext} {A A' : Avail} {b b' : Builder} {c c' : Code} {k : BlockId}

/-! ## Tables to which code is added -/

namespace Code

/-- Later tables, in which the blocks that there were are left alone. -/
structure Extends (c c' : Code) : Prop where
  types : c.types.Extends c'.types
  values : ∀ (v : ValueId) value, c.values[v]? = some value → c'.values[v]? = some value
  insts : ∀ (i : InstId) inst, c.insts[i]? = some inst → c'.insts[i]? = some inst
  size_le : c.blocks.size ≤ c'.blocks.size
  block : ∀ k, k < c.blocks.size → c'.block k = c.block k

/-- The code of a function is in order, and every block has an ending. -/
structure Complete (K : BodyContext) (A : Avail) (c : Code) : Prop where
  valid : c.Valid K A
  entry : K.entry ∈ c.owned
  ended : ∀ k ∈ c.owned, (c.block k).term.isSome = true

theorem Extends.grows (h : c.Extends c') (howned : c'.owned = c.owned) (A : Avail) :
    Grows A c A c' := by
  refine ⟨h.types, h.values, h.insts, h.size_le, fun k hk => howned ▸ hk, fun k v hv => ?_,
    fun _ _ h => h⟩
  have hlt : k < c.blocks.size := by
    by_contra hge
    unfold Defines at hv
    rw [block_of_size_le (Nat.not_lt.mp hge)] at hv
    simp at hv
  unfold Defines at hv ⊢
  rw [h.block k hlt]
  exact hv.imp_right fun ⟨i, hi, inst, hinst, hresult⟩ =>
    ⟨i, hi, inst, h.insts i inst hinst, hresult⟩

/-- Code that is complete stays so when code is added elsewhere. -/
theorem Complete.mono (hc : c.Complete K A) (h : c.Extends c') (howned : c'.owned = c.owned)
    (htypes : c'.types.Sound) : c'.Complete K A := by
  have hlt {k : BlockId} (hk : k ∈ c.owned) : k < c.blocks.size := (hc.valid.owned k hk).2
  have hg := h.grows howned A
  refine ⟨hc.valid.of_grows hg htypes howned hc.valid.start
    (fun k v hv => (hc.valid.unborn k v hv).trans_le h.size_le) (fun k hk => ?_)
    fun k hk k' hk' i hi hi' => ?_, howned ▸ hc.entry, fun k hk => ?_⟩
  · refine (hc.valid.block k hk).mono hg (h.block k (hlt hk))
      fun t ht e he => ⟨?_, fun v hv => .inl hv⟩
    rw [h.block e.1 (hlt (hc.valid.target_owned hk ht he))]
  · rw [h.block k (hlt hk)] at hi
    rw [h.block k' (hlt hk')] at hi'
    exact hc.valid.once k hk k' hk' i hi hi'
  · rw [howned] at hk
    rw [h.block k (hlt hk)]
    exact hc.ended k hk

/-! ## Parameters -/

theorem types_addParams (c : Code) (k : BlockId) (ps : List (TypeId × Span)) :
    (c.addParams k ps).types = c.types := by
  induction ps generalizing c with
  | nil => rfl
  | cons p ps ih => exact ih _

theorem owned_addParams (c : Code) (k : BlockId) (ps : List (TypeId × Span)) :
    (c.addParams k ps).owned = c.owned := by
  induction ps generalizing c with
  | nil => rfl
  | cons p ps ih => exact ih _

theorem term_addParams (c : Code) (k j : BlockId) (ps : List (TypeId × Span)) :
    ((c.addParams k ps).block j).term = (c.block j).term := by
  induction ps generalizing c with
  | nil => rfl
  | cons p ps ih => exact (ih _).trans (term_addParam c k p.1 p.2 j)

theorem Valid.addParams (h : c.Valid K A) (hk : k ∈ c.owned) (hfrom : c.EdgesFrom k [])
    (ps : List (TypeId × Span)) : (c.addParams k ps).Valid K A := by
  induction ps generalizing c with
  | nil => exact h
  | cons p ps ih => exact ih (h.addParam hk hfrom p.1 p.2) hk (hfrom.addParams [p])

end Code

theorem leads_addParam (block : BlockId) (type : TypeId) (span : Span) :
    (addParam block type span).Leads b fun p b' => p = b.code.values.size ∧
      b'.code = b.code.addParam block type span ∧ b.Agrees b' ∧ b'.current = b.current := by
  refine ⟨rfl, ?_, ⟨rfl, rfl, rfl⟩, rfl⟩
  unfold Code.addParam
  rw [← Builder.params_length]
  rfl

/-- The parameters of a function are bound to the parameters that its entry gets. -/
theorem leads_lowerParams (entry : BlockId) (ps : List (Hir.Param × TypeId)) {b : Builder} :
    (lowerParams entry ps).Leads b fun _ b' =>
      b'.code = b.code.addParams entry (ps.map fun p => (p.2, p.1.span)) ∧
        b'.env = bindAll b.env ((ps.map (·.1.sym)).zip (List.range' b.code.values.size ps.length)) ∧
          b'.loops = b.loops ∧ b'.current = b.current := by
  induction ps generalizing b with
  | nil => exact leads_pure ⟨rfl, rfl, rfl, rfl⟩
  | cons p ps ih =>
    obtain ⟨p, t⟩ := p
    unfold lowerParams
    refine (leads_addParam entry t p.span).bind
      fun v b₁ hv => leads_bind (ih.imp fun _ b₂ hb₂ => ?_)
    obtain ⟨rfl, hcode, hagrees, hcurrent⟩ := hv
    obtain ⟨hcode₂, henv₂, hloops₂, hcurrent₂⟩ := hb₂
    have hvalues : b₁.code.values.size = b.code.values.size + 1 := by
      rw [hcode]
      exact Array.size_push _
    refine ⟨hcode₂.trans ?_, henv₂.trans ?_, hloops₂.trans hagrees.loops, hcurrent₂.trans hcurrent⟩
    · show b₁.code.addParams entry _ = _
      rw [hcode]
      rfl
    · show bindAll (b₁.env.setIfInBounds p.sym (some b.code.values.size))
        ((ps.map (·.1.sym)).zip (List.range' b₁.code.values.size ps.length)) = _
      rw [hvalues, hagrees.env, List.length_cons, List.range'_succ]
      rfl

theorem mem_of_bindAll {env : Bindings} (ps : List (SymbolId × ValueId)) {sym : SymbolId}
    {v : ValueId} (h : (bindAll env ps).getD sym none = some v) :
    (sym, v) ∈ ps ∨ env.getD sym none = some v := by
  induction ps generalizing env with
  | nil => exact .inr h
  | cons p ps ih =>
    rcases ih h with hmem | hset
    · exact .inl (List.mem_cons_of_mem _ hmem)
    · by_cases heq : sym = p.1
      · have hlt := lt_size_of_isSome (hset ▸ rfl :
          ((env.setIfInBounds p.1 (some p.2)).getD sym none).isSome = true)
        rw [Array.size_setIfInBounds] at hlt
        rw [← heq, getD_set_self hlt] at hset
        obtain rfl := Option.some.inj hset
        exact .inl (heq ▸ List.mem_cons_self)
      · exact .inr ((getD_set_of_ne heq _).symm.trans hset)

/-! ## The entry -/

/-- What the bindings of a function stand for where its body begins: the parameters of the entry,
which are numbered from the first value that is free. -/
def startBindings (symbols : Array Hir.Symbol) (source : Hir.Function)
    (first : ValueId) : Bindings :=
  bindAll (Array.replicate symbols.size none)
    ((source.params.map (·.sym)).zip (List.range' first source.params.length))

theorem startBindings_eq_some {symbols : Array Hir.Symbol} {source : Hir.Function}
    {first v : ValueId} {sym : SymbolId}
    (h : (startBindings symbols source first).getD sym none = some v) :
    ∃ i p, source.params[i]? = some p ∧ p.sym = sym ∧ v = first + i := by
  rcases mem_of_bindAll _ h with hmem | hnone
  · obtain ⟨i, hi⟩ := List.getElem?_of_mem hmem
    obtain ⟨hsym, hv⟩ := List.getElem?_zip_eq_some.mp hi
    rw [List.getElem?_map] at hsym
    obtain ⟨p, hp, rfl⟩ := Option.map_eq_some_iff.mp hsym
    obtain ⟨hlt, hv⟩ := List.getElem?_eq_some_iff.mp hv
    refine ⟨i, p, hp, rfl, hv.symm.trans ?_⟩
    rw [List.getElem_range', Nat.one_mul]
  · rw [Array.getD_eq_getD_getElem?, Array.getElem?_replicate] at hnone
    split at hnone <;> cases hnone

/-- The parameters of a function have values where its body begins. -/
theorem isSome_startBindings {Γ : Hir.TypeContext} {source : Hir.Function}
    (hsource : source.Typed Γ) (first : ValueId) {sym : SymbolId}
    (hsym : sym ∈ (source.params.map (·.sym)).reverse) :
    ((startBindings Γ.symbols source first).getD sym none).isSome = true := by
  obtain ⟨p, hp, rfl⟩ := List.mem_map.mp (List.mem_reverse.mp hsym)
  obtain ⟨symbol, hsymbol, -⟩ := hsource.params p hp
  refine isSome_bindAll _ ?_ (.inr ?_)
  · rw [Array.size_replicate]
    exact (Array.getElem?_eq_some_iff.mp hsymbol).1
  · rw [List.map_fst_zip (by simp)]
    exact List.mem_map_of_mem hp

/-- What stays fixed while the code of a function is added to tables. -/
def functionContext (hir : Hir.Module) (signature : FuncId → Option (List TypeId × TypeId))
    (disjoint : Prop) (source : Hir.Function) (entry : BlockId) (first : ValueId) : BodyContext :=
  { functions := hir.functions, symbols := hir.symbols, signature, ret := source.ret, entry
    modes := source.params.map (·.pass), start := startBindings hir.symbols source first, disjoint }

section Functions

variable {hir : Hir.Module} {types₀ types : TypePool} {disjoint : Prop} {source : Hir.Function}
  {signature : FuncId → Option (List TypeId × TypeId)} {entry : BlockId} {first : ValueId}

theorem reads_functionContext (hhir : hir.Typed types₀) (hvalued : types₀.Valued) :
    (functionContext hir signature disjoint source entry first).Reads (hir.typeContext types₀) := by
  refine ⟨rfl, fun _ => rfl, bindingType_ne_unit hhir.symbols, fun f sig hsig p hp => ?_, hvalued,
    fun s s' v _ _ hs hs' => ?_⟩
  · obtain ⟨fn, hfn, rfl⟩ := Option.map_eq_some_iff.mp hsig
    obtain ⟨q, hq, rfl⟩ := List.mem_map.mp hp
    obtain ⟨symbol, hsymbol, htype, -⟩ :=
      (hhir.functions fn (Array.mem_of_getElem? hfn)).params q hq
    exact htype ▸ hhir.symbols symbol (Array.mem_of_getElem? hsymbol)
  · obtain ⟨i, p, hp, rfl, hv⟩ := startBindings_eq_some hs
    obtain ⟨i', p', hp', rfl, hv'⟩ := startBindings_eq_some hs'
    obtain rfl := Nat.add_left_cancel (hv.symm.trans hv')
    rw [Option.some.inj (hp.symm.trans hp')]

/-- A parameter of the entry is what a parameter of the function stands for. -/
theorem binds_param {Γ : Hir.TypeContext} (hΓ : K.Reads Γ) {p : Hir.Param} {v : ValueId}
    {t : TypeId} (hp : Γ.Bound p) (htype : Builder.ParamType c.types (p.type, p.pass) t)
    (hkind : c.kind? K v = some (t, decide (p.pass = .exclusive))) : c.Binds K p.sym v := by
  obtain ⟨s, hs, hstype, hspass⟩ := hp
  have href : isReference K.symbols p.sym = decide (p.pass = .exclusive) := by
    unfold isReference
    rw [← hΓ.symbols, hs, Option.any_some, hspass]
    cases p.pass <;> rfl
  have hbinding : bindingType K.symbols p.sym = p.type := (hΓ.bindingType hs).trans hstype
  unfold Binds
  rw [href, hbinding]
  unfold Builder.ParamType at htype
  by_cases hexcl : p.pass = .exclusive
  · rw [if_pos hexcl] at htype
    rw [if_pos (decide_eq_true hexcl)]
    rw [decide_eq_true hexcl] at hkind
    exact ⟨t, hkind, htype⟩
  · rw [if_neg hexcl] at htype
    rw [if_neg fun h => hexcl (of_decide_eq_true h)]
    rw [decide_eq_false hexcl, htype] at hkind
    exact hkind

/-! ## Functions -/

section Code

variable {blocks : Array Block} {insts : Array Inst} {values : Array Value}
  {paramTypes : List TypeId}

/-- Where the body of a function begins, its parameters stand for the parameters of the entry. -/
theorem ready_entry (hhir : hir.Typed types₀) (hvalued : types₀.Valued) (htypes : types.Sound)
    (hsigned : Signed hir signature types) (hsource : source ∈ hir.functions)
    (hparams : List.Forall₂ (Builder.ParamType types) source.signature.1 paramTypes)
    (hcode : b.code = (Code.mk blocks insts values types []).addBlock.addParams blocks.size
      ((source.params.zip paramTypes).map fun p => (p.2, p.1.span)))
    (henv : b.env = startBindings hir.symbols source values.size)
    (hcurrent : b.current = some blocks.size) (hloops : b.loops = []) :
    b.Ready (functionContext hir signature disjoint source blocks.size values.size)
      (fun _ _ => False) blocks.size := by
  have hempty : (Code.mk blocks insts values types []).Valid
      (functionContext hir signature disjoint source blocks.size values.size) fun _ _ => False :=
    ⟨htypes, hsigned.declared, nofun, .nil, fun _ h => h, nofun, nofun, nofun⟩
  have hlt : blocks.size < (Code.mk blocks insts values types []).addBlock.blocks.size := by
    show blocks.size < (blocks.push {}).size
    rw [Array.size_push]
    exact Nat.lt_succ_self _
  have hblock := hempty.empty_addBlock.1
  refine ⟨?_, hcurrent, ?_, ?_, ⟨fun sym v hv => ?_, fun sym _ => ?_⟩, ?_, fun l hl => ?_⟩
  · rw [hcode]
    exact (hempty.addBlock (Nat.le_refl _)).addParams mem_addBlock hempty.edgesFrom_addBlock _
  · rw [hcode, owned_addParams]
    exact mem_addBlock
  · rw [hcode, term_addParams]
    exact congrArg Block.term hblock
  · rw [henv] at hv
    obtain ⟨i, p, hp, rfl, rfl⟩ := startBindings_eq_some hv
    have hsig : source.signature.1[i]? = some (p.type, p.pass) := by
      show (source.params.map _)[i]? = _
      rw [List.getElem?_map, hp, Option.map_some]
    obtain ⟨t, ht, htype⟩ := getElem?_of_forall₂ hparams hsig
    have hzip : (source.params.zip paramTypes)[i]? = some (p, t) :=
      List.getElem?_zip_eq_some.mpr ⟨hp, ht⟩
    have hentry : ((source.params.zip paramTypes).map fun p => (p.2, p.1.span))[i]? =
        some (t, p.span) := by
      rw [List.getElem?_map, hzip, Option.map_some]
    -- the parameter of the entry is a reference exactly if the binding is passed exclusively
    obtain ⟨hdefines, hkind⟩ := kind?_addParams
      (K := functionContext hir signature disjoint source blocks.size values.size) hlt _ hentry
    have hmode : (source.params.map (·.pass))[i]? = some p.pass := by
      rw [List.getElem?_map, hp, Option.map_some]
    rw [show (Block.params _) = [] from congrArg Block.params hblock, List.length_nil, Nat.zero_add,
      show (BodyContext.modes _)[i]? = _ from hmode,
      show decide (blocks.size = BodyContext.entry _) = true from decide_eq_true rfl,
      Bool.true_and] at hkind
    simp only [Option.some.injEq] at hkind
    rw [hcode]
    refine ⟨.inr hdefines, binds_param (reads_functionContext hhir hvalued)
      ((hhir.functions source hsource).params p (List.mem_of_getElem? hp)) ?_ hkind⟩
    rw [types_addParams]
    exact htype
  · rw [henv]
    rfl
  · rw [henv]
    exact (size_bindAll _ _).trans Array.size_replicate
  · rw [hloops] at hl
    cases hl

/-- Code that goes on nowhere is complete if the function had no other block than its entry
before. -/
theorem Adds.complete (h : Adds K A b K.entry A' b') (hcurrent : b'.current = none)
    (howned : ∀ j ∈ b.code.owned, j = K.entry) : b'.code.Complete K A' := by
  refine ⟨h.part.valid, h.part.grows.owned _ h.part.base.owned,
    fun j hj => h.part.closed j hj ?_ ?_⟩
  · by_cases hlt : j < b.code.blocks.size
    · exact .inl (howned j (h.part.born j hj hlt))
    · exact .inr (Nat.not_lt.mp hlt)
  · rw [hcurrent]
    exact List.not_mem_nil

/-- A part that is added behind what there was leaves that alone. -/
theorem Part.extends {todo : List BlockId} (h : Part K A b k A' c' todo) {B : Avail}
    (hg : Grows B c A b.code) (hblock : ∀ j, j < c.blocks.size → b.code.block j = c.block j)
    (hk : c.blocks.size ≤ k) : c.Extends c' := by
  have hgrows := hg.trans h.grows
  refine ⟨hgrows.types, hgrows.values, hgrows.insts, hgrows.blocks, fun j hj => ?_⟩
  rw [(h.frame j fun hfree => ?_).1, hblock j hj]
  rcases hfree with rfl | hle
  · exact absurd hj (Nat.not_lt.mpr hk)
  · exact absurd (hj.trans_le hg.blocks) (Nat.not_lt.mpr hle)

variable (blocks insts values) in
/-- The code of a function is complete. It is added behind what there was. -/
theorem leads_lowerFunction (hhir : hir.Typed types₀) (hvalued : types₀.Valued)
    (htypes : types.Sound) (hext : types₀.Extends types) (hsigned : Signed hir signature types)
    (hsource : source ∈ hir.functions) (hscoped : source.Scoped)
    (hparams : List.Forall₂ (Builder.ParamType types) source.signature.1 paramTypes)
    (hsep : disjoint → ∀ call ∈ Hir.callsOfBlock source.body, SeparateCall hir.functions call) :
    (lowerFunction hir.functions hir.symbols source paramTypes).Leads
      { blocks, insts, values, types, env := Array.replicate hir.symbols.size none } fun entry b =>
        entry = blocks.size ∧ (Code.mk blocks insts values types []).Extends b.code ∧
          ∃ A, b.code.Complete (functionContext hir signature disjoint source blocks.size
            values.size) A := by
  set K := functionContext hir signature disjoint source blocks.size values.size
  set c₀ : Code := ⟨blocks, insts, values, types, []⟩
  have hf := hhir.functions source hsource
  have hlength : source.params.length = paramTypes.length :=
    (List.length_map _).symm.trans hparams.length_eq
  have hsyms : (source.params.zip paramTypes).map (·.1.sym) = source.params.map (·.sym) := by
    have := congrArg (List.map Hir.Param.sym) (List.map_fst_zip hlength.le)
    rwa [List.map_map] at this
  unfold lowerFunction
  refine leads_newBlock (leads_moveTo ((leads_lowerParams _ _).bind fun _ b₁ hb₁ => ?_))
  obtain ⟨hcode, henv, hloops, hcurrent⟩ := hb₁
  have hcode₁ : b₁.code = c₀.addBlock.addParams blocks.size
      ((source.params.zip paramTypes).map fun p => (p.2, p.1.span)) := by
    rw [hcode, Builder.code_moved, Builder.code_grown]
    rfl
  have henv₁ : b₁.env = startBindings hir.symbols source values.size := by
    rw [henv, hsyms, List.length_zip, ← hlength, Nat.min_self]
    rfl
  -- the body starts in the entry block, whose parameters are the bindings of the function
  have hready : b₁.Ready K (fun _ _ => False) blocks.size :=
    ready_entry hhir hvalued htypes hsigned hsource hparams hcode₁ henv₁ hcurrent hloops
  have hserves : b₁.Serves K (source.params.map (·.sym)).reverse (readsOfStmts source.body) := by
    refine ⟨fun sym hsym _ => ?_, fun sym hsym _ => isSome_startBindings hf _ hsym⟩
    rw [henv₁]
    exact isSome_startBindings hf _ hsym
  have htypes₁ : b₁.types = types := by
    rw [show b₁.types = b₁.code.types from rfl, hcode₁, types_addParams]
    rfl
  refine (leads_lowerBlock (fun s hs => lowersStmtTo_of_typed (reads_functionContext hhir hvalued)
    (hf.body s hs)) hready (htypes₁ ▸ hext) hscoped hserves nofun hsep).bind fun _ b₂ hb₂ => ?_
  obtain ⟨A, hadds, -⟩ := hb₂
  -- once no block is open the code is complete
  have hend {A' : Avail} {b₃ : Builder} (h : Adds K (fun _ _ => False) b₁ blocks.size A' b₃)
      (hnone : b₃.current = none) : blocks.size = blocks.size ∧ c₀.Extends b₃.code ∧
        ∃ A, b₃.code.Complete K A := by
    have hlt : blocks.size < c₀.addBlock.blocks.size := by
      show blocks.size < (blocks.push {}).size
      rw [Array.size_push]
      exact Nat.lt_succ_self _
    refine ⟨rfl, h.part.extends (B := fun _ _ => False) ?_ (fun j hj => ?_) (Nat.le_refl _), A',
      h.complete hnone fun j hj => ?_⟩
    · rw [hcode₁]
      exact (grows_addBlock _ c₀).trans (grows_addParams _ hlt _)
    · rw [hcode₁, block_addParams_of_ne hj.ne, block_addBlock]
    · rw [hcode₁, owned_addParams] at hj
      exact List.mem_singleton.mp hj
  have hopen : isOpen.Leads b₂ fun r b' => r = b₂.current.isSome ∧ b' = b₂ := ⟨rfl, rfl⟩
  refine hopen.bind fun r b' hr => ?_
  obtain ⟨rfl, rfl⟩ := hr
  cases hcurrent₂ : b'.current with
  | none => exact leads_pure (hend hadds hcurrent₂)
  | some k =>
    -- a body that does not end returns nothing
    refine leads_get (leads_terminate (leads_pure (hend (hadds.trans hcurrent₂
      ((hadds.ready k hcurrent₂).ended (t := _) ?_ ?_)) rfl)))
    · split
      · rename_i hunit
        exact ⟨nofun, nofun, nofun, fun _ => hadds.part.valid.types.unit_unique _ hunit⟩
      · exact ⟨nofun, nofun, nofun, nofun⟩
    · split <;> exact nofun

end Code

end Functions

/-! ## Modules -/

/-- The tables of a module, for one of its functions. -/
def Module.codeOf (m : Module) (types : TypePool) (f : Function) : Code :=
  ⟨m.blocks, m.insts, m.values, types, f.blocks⟩

/-- The code of a function of a module is complete. -/
structure Function.Complete (K : BodyContext) (m : Module) (types : TypePool)
    (f : Function) : Prop where
  entry : f.entry = some K.entry
  ret : f.ret = K.ret
  modes : f.paramModes = K.modes
  code : ∃ A, (m.codeOf types f).Complete K A

/-- What the code of all functions of a program has in common. -/
structure BodyContext.Within (functions : Array Hir.Function)
    (signature : FuncId → Option (List TypeId × TypeId)) (disjoint : Prop)
    (K : BodyContext) : Prop where
  functions : K.functions = functions
  signature : K.signature = signature
  disjoint : K.disjoint = disjoint

/-- The code of the functions of a module is complete, but for those that are left out. No two
functions share a block. -/
structure Module.Complete (functions : Array Hir.Function)
    (signature : FuncId → Option (List TypeId × TypeId)) (disjoint : Prop) (m : Module)
    (types : TypePool) :
    Prop where
  sound : types.Sound
  body : ∀ f ∈ m.functions, f.excluded = false →
      ∃ K, BodyContext.Within functions signature disjoint K ∧
    f.Complete K m types
  excluded : ∀ f ∈ m.functions, f.excluded = true → f.blocks = []
  apart : m.functions.toList.Pairwise fun f g => ∀ k ∈ f.blocks, k ∉ g.blocks

/-- A function of a program is to be built. -/
structure Buildable (functions : Array Hir.Function) (disjoint : Prop) (source : Hir.Function)
    (f : Function) : Prop where
  inScope : source.Scoped
  modes : f.paramModes = source.params.map (·.pass)
  separate : f.excluded = false → disjoint → ∀ call ∈ Hir.callsOfBlock source.body,
    SeparateCall functions call

section Bodies

variable {hir : Hir.Module} {types₀ types : TypePool} {disjoint : Prop}
  {signature : FuncId → Option (List TypeId × TypeId)} {unit : String} {functions : Array Function}
  {blocks : Array Block} {insts : Array Inst} {values : Array Value} {counts : PassCounts}

theorem Module.Complete.lt_size {m : Module} (h : m.Complete hir.functions signature disjoint types)
    {f : Function} (hf : f ∈ m.functions) {k : BlockId} (hk : k ∈ f.blocks) :
    k < m.blocks.size := by
  cases hexcl : f.excluded with
  | false =>
    obtain ⟨K, -, hbody⟩ := h.body f hf hexcl
    obtain ⟨A, hcode⟩ := hbody.code
    exact (hcode.valid.owned k hk).2
  | true =>
    rw [h.excluded f hf hexcl] at hk
    cases hk

theorem Module.Complete.pushExcluded
    (h : (Module.mk unit functions blocks insts values counts).Complete hir.functions signature
      disjoint types) {f : Function} (hexcl : f.excluded = true) (hblocks : f.blocks = []) :
    (Module.mk unit (functions.push f) blocks insts values counts).Complete hir.functions
      signature disjoint types := by
  refine ⟨h.sound, fun g hg hincl => ?_, fun g hg hg' => ?_, ?_⟩
  · rcases Array.mem_push.mp hg with hg | rfl
    · obtain ⟨K, hK, hbody⟩ := h.body g hg hincl
      exact ⟨K, hK, hbody.entry, hbody.ret, hbody.modes, hbody.code⟩
    · cases hexcl.symm.trans hincl
  · rcases Array.mem_push.mp hg with hg | rfl
    · exact h.excluded g hg hg'
    · exact hblocks
  · show (functions.push f).toList.Pairwise _
    rw [Array.toList_push]
    refine List.pairwise_append.mpr ⟨h.apart, List.pairwise_singleton _ _, fun g _ f' hf' k _ => ?_⟩
    rw [List.mem_singleton.mp hf', hblocks]
    exact List.not_mem_nil

/-- The code of a function that is added is complete, and so is that of the functions before it. -/
theorem Module.Complete.pushBody
    (h : (Module.mk unit functions blocks insts values counts).Complete hir.functions signature
      disjoint types)
    {f : Function} {b : Builder} {K : BodyContext} (hK : K.Within hir.functions signature disjoint)
    (hentry : K.entry = blocks.size) (hret : f.ret = K.ret) (hmodes : f.paramModes = K.modes)
    (hincl : f.excluded = false) (hext : (Code.mk blocks insts values types []).Extends b.code)
    (hcode : ∃ A, b.code.Complete K A) :
    (Module.mk unit (functions.push { f with blocks := b.owned.toList, entry := some K.entry })
      b.blocks b.insts b.values counts).Complete hir.functions signature disjoint b.types := by
  obtain ⟨A, hcode⟩ := hcode
  have hsound : b.types.Sound := hcode.valid.types
  refine ⟨hsound, fun g hg hg' => ?_, fun g hg hg' => ?_, ?_⟩
  · rcases Array.mem_push.mp hg with hg | rfl
    · obtain ⟨K', hK', hbody⟩ := h.body g hg hg'
      obtain ⟨A', hcode'⟩ := hbody.code
      refine ⟨K', hK', hbody.entry, hbody.ret, hbody.modes, A', hcode'.mono ?_ rfl hsound⟩
      exact ⟨hext.types, hext.values, hext.insts, hext.size_le, hext.block⟩
    · exact ⟨K, hK, rfl, hret, hmodes, A, hcode⟩
  · rcases Array.mem_push.mp hg with hg | rfl
    · exact h.excluded g hg hg'
    · cases hincl.symm.trans hg'
  · show (functions.push _).toList.Pairwise _
    rw [Array.toList_push]
    refine List.pairwise_append.mpr ⟨h.apart, List.pairwise_singleton _ _,
      fun g hg f' hf' k hk hk' => ?_⟩
    rw [List.mem_singleton.mp hf'] at hk'
    have hlt := h.lt_size (Array.mem_toList_iff.mp hg) hk
    exact absurd hlt (Nat.not_lt.mpr (hentry ▸ (hcode.valid.owned k hk').1))

end Bodies

/-- Adding the code of functions leaves what is built complete. -/
theorem complete_buildBodies {hir : Hir.Module} {types₀ : TypePool} (hhir : hir.Typed types₀)
    (hvalued : types₀.Valued) {disjoint : Prop} {signature : FuncId → Option (List TypeId × TypeId)}
    (sources : List (Hir.Function × Function)) {r : BuildResult}
    (h : r.module.Complete hir.functions signature disjoint r.types)
    (hsigned : Signed hir signature r.types) (hext : types₀.Extends r.types)
    (hsources : ∀ p ∈ sources, p.1 ∈ hir.functions ∧ Declares r.types p.1 p.2 ∧
      Buildable hir.functions disjoint p.1 p.2) :
    (buildBodies hir sources r).module.Complete hir.functions signature disjoint
      (buildBodies hir sources r).types := by
  induction sources generalizing r with
  | nil => exact h
  | cons p rest ih =>
    obtain ⟨source, f⟩ := p
    obtain ⟨⟨unit, functions, blocks, insts, values, counts⟩, types, built, joinParams⟩ := r
    obtain ⟨hsource, hf, hbuild⟩ := hsources _ List.mem_cons_self
    have hrest := fun q hq => hsources q (List.mem_cons_of_mem _ hq)
    unfold buildBodies
    dsimp only
    split
    · rename_i hexcl
      exact ih (h.pushExcluded hexcl hf.blocks) hsigned hext hrest
    · rename_i hincl
      have hincl : f.excluded = false := Bool.eq_false_iff.mpr hincl
      have hlower := leads_lowerFunction blocks insts values hhir hvalued h.sound hext hsigned
        hsource hbuild.inScope hf.params (hbuild.separate hincl)
      unfold Leads at hlower
      split
      rename_i entry b hrun
      rw [hrun] at hlower
      obtain ⟨rfl, hextends, hcode⟩ := hlower
      refine ih (h.pushBody ⟨rfl, rfl, rfl⟩ rfl hf.ret hbuild.modes hincl hextends hcode)
        (hsigned.mono hextends.types) (hext.trans hextends.types) fun q hq => ?_
      obtain ⟨hq, hdeclares, hbuild⟩ := hrest q hq
      exact ⟨hq, hdeclares.mono hextends.types, hbuild⟩

/-- The module that is built from a program is complete, with the signatures that its functions
declare. If the calls of the functions that are built pass different bindings exclusively, so does
the code. -/
theorem complete_buildModule {hir : Hir.Module} {types : TypePool} (hhir : hir.Typed types)
    (htypes : types.Sound) (hvalued : types.Valued) (hscoped : ∀ f ∈ hir.functions, f.Scoped)
    (skip : Hir.FuncId → Bool) {disjoint : Prop}
    (hsep : ∀ (id : Hir.FuncId) source, hir.functions[id]? = some source →
      skip id = false → disjoint →
      ∀ call ∈ Hir.callsOfBlock source.body, SeparateCall hir.functions call) :
    (buildModule hir types skip).module.Complete hir.functions
      ((buildModule hir types skip).module.typeContext (buildModule hir types skip).types).signature
        disjoint (buildModule hir types skip).types := by
  obtain ⟨fs, types', hsigs, heq⟩ := buildModule_eq hir htypes skip
  rw [heq]
  have hzip : ∀ p ∈ hir.functions.toList.zip fs, p.1 ∈ hir.functions ∧ Declares types' p.1 p.2 ∧
      Buildable hir.functions disjoint p.1 p.2 := by
    intro p hp
    obtain ⟨id, hid⟩ := List.getElem?_of_mem hp
    obtain ⟨hsource, hf⟩ := List.getElem?_zip_eq_some.mp hid
    rw [Array.getElem?_toList] at hsource
    obtain ⟨hmodes, hexcl⟩ := hsigs.flags id p.1 p.2 hsource hf
    exact ⟨Array.mem_of_getElem? hsource, List.forall₂_zip hsigs.declares hp,
      hscoped p.1 (Array.mem_of_getElem? hsource), hmodes,
      fun hincl => hsep id p.1 hsource (hexcl.symm.trans hincl)⟩
  have hempty : (Module.mk hir.unit #[] #[] #[] #[] {}).Complete hir.functions
      (fun f => (fs[f]?).map fun f => (f.paramTypes, f.ret)) disjoint types' :=
    ⟨hsigs.sound, by simp, by simp, .nil⟩
  have hcomplete := complete_buildBodies hhir hvalued (hir.functions.toList.zip fs)
    (r := { module := { unit := hir.unit }, types := types' })
      hempty hsigs.signed hsigs.extends_types hzip
  rw [← funext (hsigs.map_functions (fun f => (f.paramTypes, f.ret)) fun _ _ _ => rfl)] at hcomplete
  exact hcomplete

end ContractCompiler.Ssa
