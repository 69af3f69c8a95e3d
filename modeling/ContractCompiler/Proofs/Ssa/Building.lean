import ContractCompiler.Proofs.Hir.Typing
import ContractCompiler.Proofs.Ssa.Typing
import ContractCompiler.Ssa.Build

/-!
# What a construction step ensures

While a function is built, instructions, values and types are only added, and blocks of other
functions are left alone.

- `BuildContext`: what stays fixed while a function is built;
- `Builder.Typed`: the tables are typed, and bindings stand for values of their types;
- `Builder.Advances`: a later state of the construction, in which everything known before is known;
- `Builder.Keeps`: a state in which the bindings that had values still have some;
- `Build.Ensures`: a step leads to a later state and its result has a property;
- `ensures_emit`, `ensures_terminate`, `ensures_enterJoin` and their like: what the basic steps
  ensure.
-/

namespace ContractCompiler.Ssa

open Hir (Expr Stmt SymbolId PassMode)

/-- What stays fixed while a function is built. -/
structure BuildContext where
  functions : Array Hir.Function
  symbols : Array Hir.Symbol
  /-- The types of the parameters and of the result of every function. -/
  signature : FuncId → Option (List TypeId × TypeId)
  /-- The result type of the function. -/
  ret : TypeId
  /-- The blocks from this one on belong to the function. -/
  first : BlockId
  /-- The blocks before this one have all their parameters. -/
  sealed : BlockId

namespace Builder

variable {K : BuildContext} {b b' b'' : Builder}

/-- What a state of the construction knows. -/
def context (K : BuildContext) (b : Builder) : TypeContext :=
  ⟨b.types, K.signature, typeIn b.values⟩

/-- A block. -/
def block (b : Builder) (k : BlockId) : Block := b.blocks.getD k {}

/-- A value that a binding may stand for. -/
def Binds (K : BuildContext) (b : Builder) (sym : SymbolId) (v : ValueId) : Prop :=
  ∃ t, typeIn b.values v = some t ∧
    if isReference K.symbols sym then b.types.refElem? t = some (bindingType K.symbols sym)
    else t = bindingType K.symbols sym

/-- Bindings that stand for values of their types. -/
def EnvTyped (K : BuildContext) (b : Builder) (env : Bindings) : Prop :=
  ∀ sym v, env.getD sym none = some v → b.Binds K sym v

/-- The type of the parameter of the entry block that a parameter becomes. -/
def ParamType (types : TypePool) (p : TypeId × PassMode) (t : TypeId) : Prop :=
  if p.2 = .exclusive then types.refElem? t = some p.1 else t = p.1

/-- A state of the construction in which everything is typed. -/
structure Typed (K : BuildContext) (b : Builder) : Prop where
  types : b.types.Sound
  tables : TablesTyped (b.context K) b.insts b.values
  env : b.EnvTyped K b.env
  signature : ∀ (f : FuncId) fn, K.functions[f]? = some fn → ∃ params,
    K.signature f = some (params, fn.ret) ∧ List.Forall₂ (ParamType b.types) fn.signature.1 params
  ret : ∀ k, K.first ≤ k → ∀ v, (b.block k).term = some (.ret (some v)) →
    (b.context K).Operand v K.ret
  current : ∀ k, b.current = some k → K.first ≤ k
  owned : ∀ k ∈ b.owned, K.first ≤ k ∧ k < b.blocks.size
  first_le : K.first ≤ K.sealed
  sealed_le : K.sealed ≤ b.blocks.size
  bindings : ∀ sym, bindingType K.symbols sym ≠ Builtin.unit.id

/-- A later state of the construction. -/
structure Advances (K : BuildContext) (b b' : Builder) : Prop where
  typed : b'.Typed K
  types : b.types.Extends b'.types
  values : ∀ v t, typeIn b.values v = some t → typeIn b'.values v = some t
  /-- The parameters of blocks that have all theirs are left alone. -/
  params : ∀ k, k < K.sealed → (b'.block k).params = (b.block k).params
  /-- What other functions return is left alone. -/
  rets : ∀ k, k < K.first → ∀ v, (b'.block k).term = some (.ret (some v)) →
    (b.block k).term = some (.ret (some v))
  size_le : b.blocks.size ≤ b'.blocks.size

theorem Typed.refl (h : b.Typed K) : b.Advances K b :=
  ⟨h, .refl _, fun _ _ hv => hv, fun _ _ => rfl, fun _ _ _ hv => hv, Nat.le_refl _⟩

theorem Advances.trans (h : b.Advances K b') (h' : b'.Advances K b'') : b.Advances K b'' :=
  ⟨h'.typed, h.types.trans h'.types, fun v t hv => h'.values v t (h.values v t hv),
    fun k hk => (h'.params k hk).trans (h.params k hk),
    fun k hk v hv => h.rets k hk v (h'.rets k hk v hv), Nat.le_trans h.size_le h'.size_le⟩

theorem Advances.binds (h : b.Advances K b') {sym : SymbolId} {v : ValueId} (hv : b.Binds K sym v) :
    b'.Binds K sym v := by
  obtain ⟨t, ht, hsym⟩ := hv
  refine ⟨t, h.values v t ht, ?_⟩
  split
  · rename_i href
    rw [if_pos href] at hsym
    exact h.types.refElem? hsym
  · rename_i href
    rw [if_neg href] at hsym
    exact hsym

theorem Advances.envTyped (h : b.Advances K b') {env : Bindings} (henv : b.EnvTyped K env) :
    b'.EnvTyped K env :=
  fun sym v hv => h.binds (henv sym v hv)

/-- A parameter of the type of a value that a binding may stand for is one, too. -/
theorem Binds.param {sym : SymbolId} {v w : ValueId} {t : TypeId} (hv : b.Binds K sym v)
    (ht : typeIn b.values v = some t) (hw : typeIn b.values w = some t) : b.Binds K sym w := by
  obtain ⟨t', ht', hsym⟩ := hv
  obtain rfl := Option.some.inj (ht'.symm.trans ht)
  exact ⟨t', hw, hsym⟩

/-- Bindings that had values still have some. -/
structure Keeps (b b' : Builder) : Prop where
  size : b'.env.size = b.env.size
  isSome : ∀ sym, (b.env.getD sym none).isSome = true → (b'.env.getD sym none).isSome = true

theorem Keeps.of_env (h : b'.env = b.env) : b.Keeps b' :=
  ⟨by rw [h], fun sym hsym => by rw [h]; exact hsym⟩

theorem Keeps.trans (h : b.Keeps b') (h' : b'.Keeps b'') : b.Keeps b'' :=
  ⟨h'.size.trans h.size, fun sym hsym => h'.isSome sym (h.isSome sym hsym)⟩

/-- A value, if there is one, has a type. -/
def Yields (b : Builder) (r : Option ValueId) (t : TypeId) : Prop :=
  ∀ v, r = some v → typeIn b.values v = some t

theorem Yields.operand {r : Option ValueId} {t : TypeId} (h : b.Yields r t) (K : BuildContext) :
    (b.context K).Operand (r.getD invalidId) t := by
  cases r with
  | none => exact .inl rfl
  | some v => exact .inr (h v rfl)

theorem Advances.yields (h : b.Advances K b') {r : Option ValueId} {t : TypeId}
    (hr : b.Yields r t) :
    b'.Yields r t :=
  fun v hv => h.values v t (hr v hv)

theorem Advances.operand (h : b.Advances K b') {v : ValueId} {t : TypeId}
    (hv : (b.context K).Operand v t) : (b'.context K).Operand v t :=
  hv.imp_right (h.values v t)

end Builder

namespace Build

open Builder

variable {α β : Type} {K : BuildContext} {b : Builder}

/-- A step leads to a later state, where its result has a property. -/
def Ensures (x : Build α) (K : BuildContext) (b : Builder) (Q : α → Builder → Prop) : Prop :=
  b.Advances K (x.run b).2 ∧ Q (x.run b).1 (x.run b).2

/-! ## Rules -/

theorem Ensures.imp {x : Build α} {Q Q' : α → Builder → Prop} (h : x.Ensures K b Q)
    (hQ : ∀ a b', b.Advances K b' → Q a b' → Q' a b') : x.Ensures K b Q' :=
  ⟨h.1, hQ _ _ h.1 h.2⟩

theorem Ensures.bind {x : Build α} {k : α → Build β} {Q : α → Builder → Prop}
    {Q' : β → Builder → Prop} (h : x.Ensures K b Q)
    (hk : ∀ a b', b.Advances K b' → Q a b' → (k a).Ensures K b' Q') : (x >>= k).Ensures K b Q' := by
  obtain ⟨hadv, hQ'⟩ := hk _ _ h.1 h.2
  exact ⟨h.1.trans hadv, hQ'⟩

theorem ensures_pure (h : b.Typed K) {Q : α → Builder → Prop} {a : α} (hQ : Q a b) :
    (pure a : Build α).Ensures K b Q :=
  ⟨h.refl, hQ⟩

/-! ## Looking at the state -/

theorem ensures_get {k : Builder → Build α} {Q : α → Builder → Prop} (h : (k b).Ensures K b Q) :
    ((get : Build Builder) >>= k).Ensures K b Q := h

theorem ensures_valueOf {sym : SymbolId} {k : Option ValueId → Build α} {Q : α → Builder → Prop}
    (h : (k (b.env.getD sym none)).Ensures K b Q) : (valueOf sym >>= k).Ensures K b Q := h

theorem ensures_typeOf {v : ValueId} {t : TypeId} (hv : typeIn b.values v = some t)
    {k : TypeId → Build α} {Q : α → Builder → Prop} (h : (k t).Ensures K b Q) :
    (typeOf v >>= k).Ensures K b Q := by
  have hrun : ((typeOf v >>= k).run b) = (k ((typeIn b.values v).getD TypeId.invalid)).run b := rfl
  unfold Ensures
  rw [hrun, hv]
  exact h

/-! ## Blocks -/

theorem block_modify (b : Builder) (k : BlockId) (f : Block → Block) (j : BlockId) :
    Builder.block { b with blocks := b.blocks.modify k f } j = b.block j ∨
      (j = k ∧ Builder.block { b with blocks := b.blocks.modify k f } j = f (b.block j)) :=
  getD_modify_cases b.blocks k f j

/-- Blocks may change where they are not sealed, as long as the function returns what it
declares. -/
theorem advances_withBlocks (h : b.Typed K) (blocks : Array Block)
    (hsize : b.blocks.size ≤ blocks.size)
    (hparams : ∀ k, k < K.sealed → (blocks.getD k {}).params = (b.block k).params)
    (hret : ∀ k v, (blocks.getD k {}).term = some (.ret (some v)) →
      (b.block k).term = some (.ret (some v)) ∨ K.first ≤ k ∧ (b.context K).Operand v K.ret) :
    b.Advances K { b with blocks } := by
  refine ⟨⟨h.types, h.tables, h.env, h.signature, fun k hk v hv => ?_, h.current, fun k hk => ?_,
    h.first_le, h.sealed_le.trans hsize, h.bindings⟩, .refl _, fun _ _ hv => hv, hparams,
    fun k hk v hv => ?_, hsize⟩
  · rcases hret k v hv with hv | ⟨-, hv⟩
    · exact h.ret k hk v hv
    · exact hv
  · exact ⟨(h.owned k hk).1, (h.owned k hk).2.trans_le hsize⟩
  · rcases hret k v hv with hv | ⟨hle, -⟩
    · exact hv
    · exact absurd hk (Nat.not_lt.mpr hle)

/-- A change to one block that keeps its parameters and does not make it return. -/
theorem advances_modify (h : b.Typed K) {k : BlockId} {f : Block → Block}
    (hparams : ∀ block, (f block).params = block.params)
    (hret : ∀ block v, (f block).term = some (.ret (some v)) → block.term = some (.ret (some v))) :
    b.Advances K { b with blocks := b.blocks.modify k f } := by
  refine advances_withBlocks h _ (by rw [Array.size_modify]) (fun j _ => ?_) fun j v hv => .inl ?_
  · rcases block_modify b k f j with heq | ⟨-, heq⟩
    · exact congrArg Block.params heq
    · exact (congrArg Block.params heq).trans (hparams _)
  · rcases block_modify b k f j with heq | ⟨-, heq⟩
    · exact (congrArg Block.term heq).symm.trans hv
    · exact hret _ v ((congrArg Block.term heq).symm.trans hv)

theorem ensures_newBlock (h : b.Typed K) :
    newBlock.Ensures K b fun k b' => K.sealed ≤ k ∧ b'.env = b.env := by
  have hsize : b.blocks.size < (b.blocks.push {}).size := by
    rw [Array.size_push]
    exact Nat.lt_succ_self _
  have hblock (k : BlockId) : (b.blocks.push {}).getD k {} = b.block k := by
    unfold Builder.block
    rw [Array.getD_eq_getD_getElem?, Array.getD_eq_getD_getElem?, Array.getElem?_push]
    split
    · rename_i heq
      rw [heq, Array.getElem?_eq_none (Nat.le_refl _)]
      rfl
    · rfl
  have hadv : b.Advances K { b with blocks := b.blocks.push {} } := by
    refine advances_withBlocks h _ hsize.le (fun k _ => by rw [hblock]) fun k v hv => .inl ?_
    rw [hblock] at hv
    exact hv
  refine ⟨⟨{ hadv.typed with owned := fun k hk => ?_ }, hadv.types, hadv.values,
    hadv.params, hadv.rets,
    hadv.size_le⟩, h.sealed_le, rfl⟩
  rcases Array.mem_push.mp hk with hk | rfl
  · exact hadv.typed.owned k hk
  · exact ⟨h.first_le.trans h.sealed_le, hsize⟩

/-- The state with another current block. -/
theorem advances_withCurrent (h : b.Typed K) (current : Option BlockId)
    (hcurrent : ∀ k, current = some k → K.first ≤ k) : b.Advances K { b with current } :=
  ⟨{ h with current := hcurrent }, .refl _, fun _ _ hv => hv, fun _ _ => rfl, fun _ _ _ hv => hv,
    Nat.le_refl _⟩

theorem ensures_moveTo (h : b.Typed K) {k : Option BlockId}
    (hk : ∀ k', k = some k' → K.first ≤ k') :
    (moveTo k).Ensures K b fun _ b' => b'.env = b.env :=
  ⟨advances_withCurrent h k hk, rfl⟩

/-- Ending the current block: what it returns has the type that the function declares. -/
theorem ensures_terminate (h : b.Typed K) {t : Terminator}
    (ht : ∀ v, t = .ret (some v) → (b.context K).Operand v K.ret) :
    (terminate t).Ensures K b fun _ b' => b'.env = b.env := by
  refine ⟨?_, rfl⟩
  show b.Advances K { b with current := none, blocks := _ }
  cases hcurrent : b.current with
  | none => exact advances_withCurrent h none nofun
  | some k =>
    have hk := h.current k hcurrent
    have hadv : b.Advances K
        { b with blocks := b.blocks.modify k fun block => { block with term := some t } } := by
      refine advances_withBlocks h _ (by rw [Array.size_modify]) (fun j _ => ?_) fun j v hv => ?_
      · rcases block_modify b k (fun block => { block with term := some t }) j with heq | ⟨-, heq⟩
        · exact congrArg Block.params heq
        · exact (congrArg Block.params heq).trans rfl
      · rcases block_modify b k (fun block => { block with term := some t }) j with heq | ⟨rfl, heq⟩
        · exact .inl ((congrArg Block.term heq).symm.trans hv)
        · have hterm : some t = some (.ret (some v)) := (congrArg Block.term heq).symm.trans hv
          exact .inr ⟨hk, ht v (Option.some.inj hterm)⟩
    exact hadv.trans (advances_withCurrent hadv.typed none nofun)

/-! ## Values -/

theorem advances_pushParam (h : b.Typed K) (value : Value) (hsite : ∀ i, value.site ≠ .inst i) :
    b.Advances K { b with values := b.values.push value } := by
  have hvalues : ∀ v t, typeIn b.values v = some t → typeIn (b.values.push value) v = some t :=
    fun _ _ => typeIn_push_of_some
  have hctx : (b.context K).Extends (Builder.context K { b with values := b.values.push value }) :=
    ⟨.refl _, fun _ _ hf => hf, hvalues⟩
  refine ⟨⟨h.types, (h.tables.pushValue hsite).mono hctx, fun sym v hv => ?_, h.signature,
    fun k hk v hv => ?_, h.current, h.owned, h.first_le, h.sealed_le,
    h.bindings⟩, .refl _, hvalues, fun _ _ => rfl,
    fun _ _ _ hv => hv, Nat.le_refl _⟩
  · obtain ⟨t, ht, hsym⟩ := h.env sym v hv
    exact ⟨t, hvalues v t ht, hsym⟩
  · exact (h.ret k hk v hv).imp_right (hvalues v _)

theorem ensures_addParam (h : b.Typed K) {k : BlockId} (hk : K.sealed ≤ k) (type : TypeId)
    (span : Span) :
    (addParam k type span).Ensures K b fun v b' => typeIn b'.values v = some type ∧
    b'.env = b.env := by
  let value : Value :=
    { type, site := .param k (((b.blocks[k]?).map (·.params.length)).getD 0), span }
  have hpush := advances_pushParam h value nofun
  have hblocks := advances_withBlocks hpush.typed
    (b.blocks.modify k fun block => { block with params := block.params ++ [b.values.size] })
    (by rw [Array.size_modify]) (fun j hj => ?_) fun j v hv => .inl ?_
  · exact ⟨hpush.trans hblocks, typeIn_push_size b.values value, rfl⟩
  all_goals
    rcases block_modify b k (fun block => { block with params := block.params ++ [b.values.size] })
      j with
      heq | ⟨rfl, heq⟩
  · exact congrArg Block.params heq
  · exact absurd hj (Nat.not_lt.mpr hk)
  · exact (congrArg Block.term heq).symm.trans hv
  · exact (congrArg Block.term heq).symm.trans hv

theorem ensures_addJoinParam (h : b.Typed K) {k : BlockId} (hk : K.sealed ≤ k) (type : TypeId) :
    (addJoinParam k type).Ensures K b fun v b' => typeIn b'.values v = some type ∧
    b'.env = b.env := by
  have hcount : b.Advances K { b with joinParams := b.joinParams + 1 } :=
    ⟨{ h with }, .refl _, fun _ _ hv => hv, fun _ _ => rfl, fun _ _ _ hv => hv, Nat.le_refl _⟩
  obtain ⟨hadv, hparam⟩ := ensures_addParam hcount.typed hk type {}
  exact ⟨hcount.trans hadv, hparam⟩

/-! ## Instructions -/

/-- Listing an instruction in the current block. -/
theorem advances_list (h : b.Typed K) (i : InstId) (current : Option BlockId) :
    b.Advances K { b with
      blocks := match current with
        | some k => b.blocks.modify k fun k => { k with insts := k.insts ++ [i] }
        | none => b.blocks } := by
  cases current with
  | none => exact h.refl
  | some k => exact advances_modify h (fun _ => rfl) fun _ _ hv => hv

theorem advances_pushInst (h : b.Typed K) (inst : Inst) {t : TypeId}
    (hd : InstType (b.context K) inst.data t) (hnone : inst.result = none)
    (hunit : b.types.isUnit t = true) : b.Advances K { b with insts := b.insts.push inst } :=
  ⟨{ h with tables := h.tables.pushInst hd hnone hunit }, .refl _, fun _ _ hv => hv, fun _ _ => rfl,
    fun _ _ _ hv => hv, Nat.le_refl _⟩

theorem advances_pushResult (h : b.Typed K) (inst : Inst) (value : Value)
    (hd : InstType (b.context K) inst.data value.type) (hr : inst.result = some b.values.size)
    (hsite : value.site = .inst b.insts.size) (hvalued : value.type ≠ Builtin.unit.id) :
    b.Advances K { b with insts := b.insts.push inst, values := b.values.push value } := by
  have hvalues : ∀ v t, typeIn b.values v = some t → typeIn (b.values.push value) v = some t :=
    fun _ _ => typeIn_push_of_some
  refine ⟨⟨h.types, (h.tables.pushResult hd hr hsite hvalued).mono
    ⟨.refl _, fun _ _ hf => hf, hvalues⟩,
    fun sym v hv => ?_, h.signature, fun k hk v hv => ?_, h.current, h.owned, h.first_le,
    h.sealed_le,
    h.bindings⟩,
    .refl _, hvalues, fun _ _ => rfl, fun _ _ _ hv => hv, Nat.le_refl _⟩
  · obtain ⟨t, ht, hsym⟩ := h.env sym v hv
    exact ⟨t, hvalues v t ht, hsym⟩
  · exact (h.ret k hk v hv).imp_right (hvalues v _)

/-- Adding a typed instruction. Its result has its type; only one of type unit has none. -/
theorem ensures_emit (h : b.Typed K) {data : InstData} {t : TypeId}
    (hd : InstType (b.context K) data t) {type : Option TypeId}
    (htype : type = some t ∨ type = none ∧ b.types.isUnit t = true) (effect : Effect)
    (span : Span) :
    (emit data type effect span).Ensures K b fun r b' => b'.Yields r t ∧ b'.env = b.env ∧
      (t ≠ Builtin.unit.id → r.isSome = true) := by
  cases hunit : b.types.isUnit t with
  | true =>
    have hfilter : (type.filter fun t => !b.types.isUnit t) = none := by
      rcases htype with rfl | ⟨rfl, -⟩
      · simp [hunit]
      · rfl
    have hpush := advances_pushInst h { data, effect, result := none, span } hd rfl hunit
    have hlist := advances_list hpush.typed b.insts.size b.current
    unfold Ensures emit
    simp only [StateT.run_modifyGet, hfilter]
    exact ⟨hpush.trans hlist, nofun, rfl, fun hne => absurd (h.types.unit_unique t hunit) hne⟩
  | false =>
    have hsome : type = some t := by
      rcases htype with rfl | ⟨-, htrue⟩
      · rfl
      · cases hunit.symm.trans htrue
    have hfilter : (type.filter fun t => !b.types.isUnit t) = some t := by
      rw [hsome]
      simp [hunit]
    let value : Value := { type := t, effect, site := .inst b.insts.size, span }
    have hvalued : t ≠ Builtin.unit.id := by
      rintro rfl
      cases hunit.symm.trans (h.types.standard.isBuiltin .unit)
    have hpush := advances_pushResult h
        { data, effect, result := some b.values.size, span } value hd rfl rfl hvalued
    have hlist := advances_list hpush.typed b.insts.size b.current
    unfold Ensures emit
    simp only [StateT.run_modifyGet, hfilter]
    refine ⟨hpush.trans hlist, fun v hv => ?_, rfl, fun _ => rfl⟩
    obtain rfl := Option.some.inj hv
    exact typeIn_push_size b.values value

/-! ## Bindings -/

theorem advances_withEnv (h : b.Typed K) {env : Bindings} (henv : b.EnvTyped K env) :
    b.Advances K { b with env } :=
  ⟨{ h with env := henv }, .refl _, fun _ _ hv => hv, fun _ _ => rfl, fun _ _ _ hv => hv,
    Nat.le_refl _⟩

theorem ensures_setEnv (h : b.Typed K) {env : Bindings} (henv : b.EnvTyped K env) :
    (setEnv env).Ensures K b fun _ b' => b'.env = env :=
  ⟨advances_withEnv h henv, rfl⟩

theorem envTyped_set {env : Bindings} (henv : b.EnvTyped K env) {sym : SymbolId}
    {value : Option ValueId} (hvalue : ∀ v, value = some v → b.Binds K sym v) :
    b.EnvTyped K (env.setIfInBounds sym value) := by
  intro sym' v hv
  rw [Array.getD_eq_getD_getElem?, Array.getElem?_setIfInBounds] at hv
  split at hv
  · rename_i heq
    subst heq
    split at hv
    · exact hvalue v hv
    · cases hv
  · refine henv sym' v ?_
    rw [Array.getD_eq_getD_getElem?]
    exact hv

theorem ensures_bind (h : b.Typed K) {sym : SymbolId} {value : Option ValueId}
    (hvalue : ∀ v, value = some v → b.Binds K sym v) :
    (bind sym value).Ensures K b fun _ _ => True :=
  ⟨advances_withEnv h (envTyped_set h.env hvalue), trivial⟩

/-! ## Joins -/

theorem ret_of_appendArg {join : BlockId} {arg v : ValueId} {term : Option Terminator}
    (h : term.map (appendArg join arg) = some (.ret (some v))) : term = some (.ret (some v)) := by
  obtain ⟨t, rfl, ht⟩ := Option.map_eq_some_iff.mp h
  cases t with
  | ret value => exact congrArg some ht
  | _ => cases ht

theorem advances_appendArgs (join : BlockId) (edges : List (BlockId × Option ValueId)) {b : Builder}
    (h : b.Typed K) :
    b.Advances K { b with
      blocks := edges.foldl
        (fun blocks (source, arg) => blocks.modify source fun k =>
          { k with term := k.term.map (appendArg join (arg.getD invalidId)) }) b.blocks } := by
  induction edges generalizing b with
  | nil => exact h.refl
  | cons edge edges ih =>
    obtain ⟨source, arg⟩ := edge
    have hadv : b.Advances K { b with blocks := b.blocks.modify source fun k =>
        { k with term := k.term.map (appendArg join (arg.getD invalidId)) } } :=
      advances_modify h (fun _ => rfl) fun _ _ hv => ret_of_appendArg hv
    exact hadv.trans (ih hadv.typed)

theorem ensures_passToJoin (h : b.Typed K) {join : BlockId} (hjoin : K.sealed ≤ join)
    (type : TypeId) (edges : List (BlockId × Option ValueId)) :
    (passToJoin join type edges).Ensures K b fun v b' => typeIn b'.values v = some type ∧
      b'.env = b.env := by
  unfold passToJoin
  refine (ensures_addJoinParam h hjoin type).bind fun param b₁ h₁ ⟨hparam, henv⟩ => ?_
  have h₂ := advances_appendArgs join edges h₁.typed
  exact ⟨h₂, h₂.values _ _ hparam, henv⟩

/-- What a join makes of a binding: a value that it may stand for, and one that there is if there is
one on all edges and nothing is left out. -/
theorem ensures_joinBinding (h : b.Typed K) {join : BlockId} (hjoin : K.sealed ≤ join)
    {edges : List Edge} (hedges : ∀ e ∈ edges, b.EnvTyped K e.env) (onlyLive : Bool)
    (sym : SymbolId) :
    (joinBinding join edges onlyLive sym).Ensures K b fun r b' =>
      (∀ v, r = some v → b'.Binds K sym v) ∧
      b'.env = b.env ∧ (onlyLive = false → edges ≠ [] →
        (∀ e ∈ edges, (e.env.getD sym none).isSome = true) → r.isSome = true) := by
  unfold joinBinding
  extract_lets incoming
  have hincoming : ∀ p ∈ incoming, ∀ v, p.2 = some v → b.Binds K sym v := by
    intro p hp v hv
    obtain ⟨e, he, rfl⟩ := List.mem_map.mp hp
    exact hedges e he sym v hv
  have hdefined : (∀ e ∈ edges, (e.env.getD sym none).isSome = true) →
      ∀ p ∈ incoming, p.2.isSome = true := by
    intro hall p hp
    obtain ⟨e, he, rfl⟩ := List.mem_map.mp hp
    exact hall e he
  have hnil : incoming = [] → edges = [] := List.map_eq_nil_iff.mp
  clear_value incoming
  split
  · exact ensures_pure h ⟨nofun, rfl, fun _ hne => absurd (hnil rfl) hne⟩
  · rename_i source first rest
    have hmem : (source, first) ∈ (source, first) :: rest := List.mem_cons_self
    split
    · exact ensures_pure h ⟨hincoming _ hmem, rfl, fun _ _ hall => hdefined hall _ hmem⟩
    · split
      · exact ensures_pure h ⟨nofun, rfl, fun _ _ hall => hdefined hall _ hmem⟩
      · rename_i v _
        obtain ⟨t, ht, hsym⟩ := hincoming _ hmem v rfl
        split
        · rename_i hundefined
          refine ensures_pure h ⟨nofun, rfl, fun _ _ hall => ?_⟩
          obtain ⟨p, hp, hnone⟩ := List.any_eq_true.mp hundefined
          have hsome := hdefined hall p (List.mem_cons_of_mem _ hp)
          rw [Option.isNone_iff_eq_none.mp hnone] at hsome
          exact hsome
        · have hlive : (isLiveAfter sym).Ensures K b fun _ b' => b'.env = b.env := ⟨h.refl, rfl⟩
          refine hlive.bind fun live b₁ h₁ henv₁ => ?_
          split
          · rename_i hdead
            exact ensures_pure h₁.typed ⟨nofun, henv₁, fun hall => by simp [hall] at hdead⟩
          · refine ensures_typeOf (h₁.values v t ht) ?_
            refine (ensures_passToJoin h₁.typed hjoin t _).bind
              fun param b₂ h₂ ⟨hparam, henv₂⟩ => ?_
            refine ensures_pure h₂.typed ⟨fun w hw => ?_, henv₂.trans henv₁, fun _ _ _ => rfl⟩
            obtain rfl := Option.some.inj hw
            have hadv := h₁.trans h₂
            exact Binds.param (hadv.binds ⟨t, ht, hsym⟩) (hadv.values v t ht) hparam

/-- Bindings in which those are defined that are defined on all edges. -/
def Defined (edges : List Edge) (env : Bindings) : Prop :=
  ∀ sym, sym < env.size → (∀ e ∈ edges, (e.env.getD sym none).isSome = true) →
    (env.getD sym none).isSome = true

/-- The values of bindings after a join, one binding after the other. -/
theorem ensures_joinBindings {join : BlockId} (hjoin : K.sealed ≤ join) {edges : List Edge}
    (onlyLive : Bool) (count : Nat) {env : Bindings} {b : Builder} (h : b.Typed K)
    (hedges : ∀ e ∈ edges, b.EnvTyped K e.env) (henv : b.EnvTyped K env)
    (hdefined : onlyLive = false → edges ≠ [] → Defined edges env) :
    (joinBindings join edges onlyLive (List.range' env.size count) env).Ensures K b
      fun env' b' => b'.EnvTyped K env' ∧ env'.size = env.size + count ∧
        (onlyLive = false → edges ≠ [] → Defined edges env') := by
  induction count generalizing env b with
  | zero => exact ensures_pure h ⟨henv, rfl, hdefined⟩
  | succ count ih =>
    rw [List.range'_succ]
    unfold joinBindings
    refine (ensures_joinBinding h hjoin hedges onlyLive env.size).bind
      fun v b₁ h₁ ⟨hv, _, hsome⟩ => ?_
    have hpush : b₁.EnvTyped K (env.push v) := by
      intro sym w hw
      rw [Array.getD_eq_getD_getElem?, Array.getElem?_push] at hw
      split at hw
      · rename_i heq
        subst heq
        exact hv w hw
      · refine h₁.envTyped henv sym w ?_
        rw [Array.getD_eq_getD_getElem?]
        exact hw
    have hdefined' : onlyLive = false → edges ≠ [] → Defined edges (env.push v) := by
      intro hall hne sym hlt hedge
      rw [Array.size_push] at hlt
      rw [Array.getD_eq_getD_getElem?, Array.getElem?_push]
      split
      · rename_i heq
        subst heq
        exact hsome hall hne hedge
      · rename_i hne'
        have hlt' : sym < env.size := Nat.lt_of_le_of_ne (Nat.lt_succ_iff.mp hlt) hne'
        have := hdefined hall hne sym hlt' hedge
        rwa [Array.getD_eq_getD_getElem?] at this
    have hsize : env.size + 1 = (env.push v).size := (Array.size_push v).symm
    rw [hsize]
    refine (ih h₁.typed (fun e he => h₁.envTyped (hedges e he)) hpush hdefined').imp ?_
    rintro env' b₂ h₂ ⟨henv', hsize', hrest⟩
    refine ⟨henv', ?_, hrest⟩
    rw [hsize', ← hsize]
    omega

/-- Going on at a join. If nothing is left out, bindings that are defined on all edges stay
defined. -/
theorem ensures_enterJoin (h : b.Typed K) {join : BlockId} (hjoin : K.sealed ≤ join)
    {edges : List Edge} (hedges : ∀ e ∈ edges, b.EnvTyped K e.env) (onlyLive : Bool) :
    (enterJoin join edges onlyLive).Ensures K b fun _ b' => b'.env.size = b.env.size ∧
      (onlyLive = false → edges ≠ [] → Defined edges b'.env) := by
  unfold enterJoin
  refine ensures_get ?_
  extract_lets count
  have hempty : b.EnvTyped K #[] := fun sym v hv => by simp at hv
  have hjoined := ensures_joinBindings hjoin onlyLive count h hedges hempty fun _ _ _ hlt => by
    simp at hlt
  rw [List.range_eq_range']
  refine hjoined.bind fun env b₁ h₁ ⟨henv, hsize, hdefined⟩ => ?_
  have h₂ := advances_withEnv h₁.typed henv
  have h₃ := advances_withCurrent h₂.typed (some join) fun k hk => by
    obtain rfl := Option.some.inj hk
    exact h.first_le.trans hjoin
  refine ⟨h₂.trans h₃, ?_, hdefined⟩
  show env.size = b.env.size
  rw [hsize]
  simp [count]

theorem ensures_enterValueJoin (h : b.Typed K) {join : BlockId} (hjoin : K.sealed ≤ join)
    {edges : List Edge} (hedges : ∀ e ∈ edges, b.EnvTyped K e.env) (type : TypeId) :
    (enterValueJoin join edges type).Ensures K b fun v b' => typeIn b'.values v = some type ∧
      b'.env.size = b.env.size ∧ (edges ≠ [] → Defined edges b'.env) := by
  refine (ensures_enterJoin h hjoin hedges false).bind fun _ b₁ h₁ ⟨hsize, hdefined⟩ => ?_
  refine (ensures_passToJoin h₁.typed hjoin type _).imp fun v b₂ _ ⟨hv, henv⟩ => ?_
  rw [henv]
  exact ⟨hv, hsize, hdefined rfl⟩

end Build

end ContractCompiler.Ssa
