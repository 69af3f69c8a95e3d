import ContractCompiler.Proofs.Hir.Reader.Scope
import ContractCompiler.Proofs.Ssa.BuildModule

/-!
# Valid code under construction

While the body of a function is built, its blocks are in order: every operand is a value that is
known where it is used, on every path that gets there. What is known at the start of a block is
followed along with the construction; an edge may lead to a block only from where all of it is
known.

- `Code`: the tables that the body of a function is built in;
- `Code.kind?`: the type of a value, and whether it is a cell;
- `Code.Known`: a value is known in a block, given what is known at the start of blocks;
- `Code.Valid`: the blocks of the function are in order;
- `Code.Grows`: a later state of the construction;
- `InstValid.mono`, `BlockValid.mono`: what is left alone stays in order.
-/

namespace ContractCompiler.Ssa

open Hir (Expr Stmt SymbolId PassMode)

/-! ## Tables -/

/-- The tables that the body of a function is built in. -/
structure Code where
  blocks : Array Block
  insts : Array Inst
  values : Array Value
  types : TypePool
  /-- The blocks of the function. -/
  owned : List BlockId

/-- The tables of a function under construction. -/
def Builder.code (b : Builder) : Code := ⟨b.blocks, b.insts, b.values, b.types, b.owned.toList⟩

/-- The edges out of a block, each with its arguments. -/
def Terminator.edges : Terminator → List (BlockId × List ValueId)
  | .jump target args => [(target, args)]
  | .branch _ t targs e eargs => [(t, targs), (e, eargs)]
  | .ret _ | .revert _ | .panic _ | .unreachable => []

namespace Code

/-- A block. -/
def block (c : Code) (k : BlockId) : Block := c.blocks.getD k {}

end Code

/-! ## Kinds of values -/

/-- Whether an instruction makes a cell. -/
def InstData.makesCell : InstData → Bool
  | .refNew _ => true
  | _ => false

/-- The type of a value of a function, and whether it is a cell: a parameter of the entry that is
passed exclusively, or a cell that was made. -/
def kindIn (entry : BlockId) (modes : List PassMode) (insts : Array Inst) (values : Array Value)
    (v : ValueId) : Option (TypeId × Bool) :=
  (values[v]?).bind fun value =>
    match value.site with
    | .none => none
    | .param k i => some (value.type, decide (k = entry) && decide (modes[i]? = some .exclusive))
    | .inst i => (insts[i]?).map fun inst => (value.type, inst.data.makesCell)

/-- The arguments that are passed exclusively. -/
def exclusiveOf {α : Type} (modes : List PassMode) (args : List α) : List α :=
  ((modes.zip args).filter (·.1 == .exclusive)).map (·.2)

/-- What stays fixed while the body of a function is built. -/
structure BodyContext where
  functions : Array Hir.Function
  symbols : Array Hir.Symbol
  /-- The types of the parameters and of the result of every function. -/
  signature : FuncId → Option (List TypeId × TypeId)
  /-- The result type of the function. -/
  ret : TypeId
  entry : BlockId
  /-- How the parameters of the entry are passed. -/
  modes : List PassMode
  /-- What bindings stand for where the body begins. -/
  start : Bindings
  /-- No two exclusive arguments of a call are the same. -/
  disjoint : Prop

/-- The values that are known at the start of blocks. -/
abbrev Avail := BlockId → ValueId → Prop

/-- More is known at the start of a block. -/
def Avail.add (A : Avail) (k : BlockId) (S : ValueId → Prop) : Avail :=
  fun j v => A j v ∨ j = k ∧ S v

namespace Code

variable {K : BodyContext} {A A' A'' : Avail} {c c' c'' : Code} {k : BlockId} {v : ValueId}

/-- The type of a value, and whether it is a cell. -/
def kind? (K : BodyContext) (c : Code) (v : ValueId) : Option (TypeId × Bool) :=
  kindIn K.entry K.modes c.insts c.values v

/-- A value that is no cell. -/
def Plain (K : BodyContext) (c : Code) (v : ValueId) : Prop := ∃ t, c.kind? K v = some (t, false)

/-- A cell for values of a type. -/
def Cell (K : BodyContext) (c : Code) (v : ValueId) (t : TypeId) : Prop :=
  ∃ r, c.kind? K v = some (r, true) ∧ c.types.refElem? r = some t

/-! ## Valid blocks -/

/-- A block defines a value. -/
def Defines (c : Code) (k : BlockId) (v : ValueId) : Prop :=
  v ∈ (c.block k).params ∨
    ∃ i ∈ (c.block k).insts, ∃ inst, c.insts[i]? = some inst ∧ inst.result = some v

/-- A value is known in a block, at its start or because the block defines it. -/
def Known (A : Avail) (c : Code) (k : BlockId) (v : ValueId) : Prop := A k v ∨ c.Defines k v

/-- A value is no result of an instruction that is not before a given one. -/
def Before (c : Code) (i : InstId) (v : ValueId) : Prop :=
  ∀ value j, c.values[v]? = some value → value.site = .inst j → j < i

/-- An instruction takes operands of the right kinds. Calls take what the function declares. -/
def Fits (K : BodyContext) (c : Code) : InstData → Prop
  | .call f args => (∃ params ret, K.signature f = some (params, ret) ∧
        List.Forall₂ (fun v t => typeIn c.values v = some t) args params) ∧
      List.Forall₂ (fun v mode => ∃ t, c.kind? K v = some (t, decide (mode = .exclusive))) args
        (passModes K.functions f) ∧
      (K.disjoint → (exclusiveOf (passModes K.functions f) args).Nodup)
  | .refLoad ref => ∃ t, c.Cell K ref t
  | .refStore ref value => (∃ t, c.Cell K ref t) ∧ c.Plain K value
  | d => ∀ v ∈ d.operands, c.Plain K v

/-- An instruction of a block uses what is known there, and defines its result. -/
structure InstValid (K : BodyContext) (A : Avail) (c : Code) (k : BlockId) (i : InstId)
    (inst : Inst) :
    Prop where
  fits : c.Fits K inst.data
  uses : ∀ v ∈ inst.data.operands, c.Known A k v ∧ c.Before i v
  result : ∀ v, inst.result = some v → ∃ value : Value, c.values[v]? = some value ∧
      value.site = .inst i

/-- Arguments are of the types of the parameters of a block. -/
def Matches (c : Code) (args : List ValueId) (target : BlockId) : Prop :=
  List.Forall₂ (fun v p => ∃ t, typeIn c.values v = some t ∧ typeIn c.values p = some t) args
    (c.block target).params

/-- An edge leads to a block of the function at whose start nothing is known that is not known in
the block that it comes from. -/
structure EdgeValid (K : BodyContext) (A : Avail) (c : Code) (k : BlockId)
    (e : BlockId × List ValueId) :
    Prop where
  owned : e.1 ∈ c.owned
  ne_entry : e.1 ≠ K.entry
  avail : ∀ v, A e.1 v → c.Known A k v
  args : c.Matches e.2 e.1

/-- The ending of a block uses what is known there. -/
structure EndValid (K : BodyContext) (A : Avail) (c : Code) (k : BlockId)
    (t : Terminator) : Prop where
  uses : ∀ v ∈ t.operands, c.Known A k v ∧ c.Plain K v
  edges : ∀ e ∈ t.edges, c.EdgeValid K A k e
  ret : ∀ v, t = .ret (some v) → typeIn c.values v = some K.ret
  unit : t = .ret none → K.ret = Builtin.unit.id

/-- A block is in order. -/
structure BlockValid (K : BodyContext) (A : Avail) (c : Code) (k : BlockId) : Prop where
  params : ∀ i v, (c.block k).params[i]? = some v → ∃ value : Value, c.values[v]? = some value ∧
    value.site = .param k i
  insts : ∀ i ∈ (c.block k).insts, ∃ inst, c.insts[i]? = some inst ∧ c.InstValid K A k i inst
  sorted : (c.block k).insts.Pairwise (· < ·)
  term : ∀ t, (c.block k).term = some t → c.EndValid K A k t

/-- The blocks of the function are in order. -/
structure Valid (K : BodyContext) (A : Avail) (c : Code) : Prop where
  types : c.types.Sound
  signature : ∀ (f : FuncId) fn, K.functions[f]? = some fn → ∃ params,
    K.signature f = some (params, fn.ret) ∧
      List.Forall₂ (Builder.ParamType c.types) fn.signature.1 params
  owned : ∀ k ∈ c.owned, K.entry ≤ k ∧ k < c.blocks.size
  nodup : c.owned.Nodup
  /-- Nothing is known where the function starts. -/
  start : ∀ v, ¬A K.entry v
  /-- Nothing is known in blocks that there are not. -/
  unborn : ∀ k v, A k v → k < c.blocks.size
  block : ∀ k ∈ c.owned, c.BlockValid K A k
  /-- No instruction stands in two blocks. -/
  once : ∀ k ∈ c.owned, ∀ k' ∈ c.owned, ∀ i, i ∈ (c.block k).insts → i ∈ (c.block k').insts → k = k'

/-- The edges to a block come from some blocks only. -/
def EdgesFrom (c : Code) (target : BlockId) (sources : List BlockId) : Prop :=
  ∀ k ∈ c.owned, ∀ t, (c.block k).term = some t → ∀ e ∈ t.edges, e.1 = target → k ∈ sources

/-- A later state of the construction, in which everything known before is known. -/
structure Grows (A : Avail) (c : Code) (A' : Avail) (c' : Code) : Prop where
  types : c.types.Extends c'.types
  values : ∀ (v : ValueId) value, c.values[v]? = some value → c'.values[v]? = some value
  insts : ∀ (i : InstId) inst, c.insts[i]? = some inst → c'.insts[i]? = some inst
  blocks : c.blocks.size ≤ c'.blocks.size
  owned : ∀ k ∈ c.owned, k ∈ c'.owned
  defines : ∀ k v, c.Defines k v → c'.Defines k v
  avail : ∀ k v, A k v → A' k v

/-! ## What is known stays known -/

theorem Grows.refl (A : Avail) (c : Code) : Grows A c A c :=
  ⟨.refl _, fun _ _ h => h, fun _ _ h => h, Nat.le_refl _, fun _ h => h, fun _ _ h => h,
    fun _ _ h => h⟩

theorem Grows.trans (h : Grows A c A' c') (h' : Grows A' c' A'' c'') : Grows A c A'' c'' :=
  ⟨h.types.trans h'.types, fun v x hv => h'.values v x (h.values v x hv),
    fun i x hi => h'.insts i x (h.insts i x hi), Nat.le_trans h.blocks h'.blocks,
    fun k hk => h'.owned k (h.owned k hk), fun k v hv => h'.defines k v (h.defines k v hv),
    fun k v hv => h'.avail k v (h.avail k v hv)⟩

theorem exists_value_of_kind? {x : TypeId × Bool} (h : c.kind? K v = some x) :
    ∃ value : Value, c.values[v]? = some value ∧ x.1 = value.type ∧
      ∀ i, value.site = .inst i → ∃ inst, c.insts[i]? = some inst ∧ x.2 = inst.data.makesCell := by
  unfold kind? kindIn at h
  obtain ⟨value, hvalue, hkind⟩ := Option.bind_eq_some_iff.mp h
  refine ⟨value, hvalue, ?_⟩
  split at hkind
  · cases hkind
  · rename_i hsite
    obtain rfl := Option.some.inj hkind
    exact ⟨rfl, fun i hi => by rw [hsite] at hi; cases hi⟩
  · rename_i i hsite
    obtain ⟨inst, hinst, rfl⟩ := Option.map_eq_some_iff.mp hkind
    refine ⟨rfl, fun j hj => ?_⟩
    rw [hsite] at hj
    obtain rfl := DefSite.inst.inj hj
    exact ⟨inst, hinst, rfl⟩

theorem typeIn_of_kind? {t : TypeId} {cell : Bool} (h : c.kind? K v = some (t, cell)) :
    typeIn c.values v = some t := by
  obtain ⟨value, hvalue, ht, -⟩ := exists_value_of_kind? h
  exact Option.map_eq_some_iff.mpr ⟨value, hvalue, ht.symm⟩

theorem lt_size_of_kind? {x : TypeId × Bool} (h : c.kind? K v = some x) : v < c.values.size := by
  obtain ⟨value, hvalue, -⟩ := exists_value_of_kind? h
  exact (Array.getElem?_eq_some_iff.mp hvalue).1

/-- An operand that there is stems from no instruction yet to come. -/
theorem before_of_kind? {x : TypeId × Bool} (h : c.kind? K v = some x) :
    c.Before c.insts.size v := by
  intro value j hvalue hsite
  obtain ⟨value', hvalue', -, hinst⟩ := exists_value_of_kind? h
  obtain rfl := Option.some.inj (hvalue.symm.trans hvalue')
  obtain ⟨inst, hinst, -⟩ := hinst j hsite
  exact (Array.getElem?_eq_some_iff.mp hinst).1

namespace Grows

variable (h : Grows A c A' c')

include h

theorem kind? {x : TypeId × Bool} (hv : c.kind? K v = some x) : c'.kind? K v = some x := by
  unfold Code.kind? kindIn at hv ⊢
  obtain ⟨value, hvalue, hkind⟩ := Option.bind_eq_some_iff.mp hv
  rw [h.values v value hvalue, Option.bind_some]
  split at hkind
  · cases hkind
  · exact hkind
  · obtain ⟨inst, hinst, rfl⟩ := Option.map_eq_some_iff.mp hkind
    rw [h.insts _ inst hinst, Option.map_some]

theorem typeIn {t : TypeId} (hv : typeIn c.values v = some t) : typeIn c'.values v = some t := by
  unfold Ssa.typeIn at hv ⊢
  obtain ⟨value, hvalue, ht⟩ := Option.map_eq_some_iff.mp hv
  rw [h.values v value hvalue, Option.map_some, ht]

theorem plain (hv : c.Plain K v) : c'.Plain K v := by
  obtain ⟨t, ht⟩ := hv
  exact ⟨t, h.kind? ht⟩

theorem cell {t : TypeId} (hv : c.Cell K v t) : c'.Cell K v t := by
  obtain ⟨r, hr, ht⟩ := hv
  exact ⟨r, h.kind? hr, h.types.refElem? ht⟩

theorem known (hv : c.Known A k v) : c'.Known A' k v :=
  hv.imp (h.avail k v) (h.defines k v)

theorem before {i : InstId} {x : TypeId × Bool} (hx : c.kind? K v = some x) (hv : c.Before i v) :
    c'.Before i v := by
  obtain ⟨value, hvalue, -⟩ := exists_value_of_kind? hx
  intro value' j hvalue' hsite
  obtain rfl := Option.some.inj ((h.values v value hvalue).symm.trans hvalue')
  exact hv value j hvalue hsite

theorem fits {d : InstData} (hd : c.Fits K d) : c'.Fits K d := by
  unfold Fits at hd ⊢
  split at hd
  · obtain ⟨⟨params, ret, hsig, hargs⟩, hmodes, hdisjoint⟩ := hd
    refine ⟨⟨params, ret, hsig, hargs.imp fun _ _ => h.typeIn⟩, hmodes.imp ?_, hdisjoint⟩
    rintro v mode ⟨t, ht⟩
    exact ⟨t, h.kind? ht⟩
  · obtain ⟨t, ht⟩ := hd
    exact ⟨t, h.cell ht⟩
  · obtain ⟨⟨t, ht⟩, hplain⟩ := hd
    exact ⟨⟨t, h.cell ht⟩, h.plain hplain⟩
  · exact fun v hv => h.plain (hd v hv)

/-- Arguments match a block that keeps its parameters. -/
theorem «matches» {args : List ValueId} (hparams : (c'.block k).params = (c.block k).params)
    (hargs : c.Matches args k) : c'.Matches args k := by
  unfold Matches at hargs ⊢
  rw [hparams]
  refine hargs.imp fun v p hv => ?_
  obtain ⟨t, ht, ht'⟩ := hv
  exact ⟨t, h.typeIn ht, h.typeIn ht'⟩

end Grows

/-- The operands of an instruction that fits are of some kind. -/
theorem Fits.kind {d : InstData} (h : c.Fits K d) (hv : v ∈ d.operands) :
    ∃ x, c.kind? K v = some x := by
  unfold Fits at h
  split at h
  · obtain ⟨-, hmodes, -⟩ := h
    obtain ⟨i, hi⟩ := List.getElem?_of_mem hv
    obtain ⟨mode, -, t, ht⟩ := getElem?_of_forall₂ hmodes hi
    exact ⟨_, ht⟩
  · obtain ⟨t, r, hr, -⟩ := h
    rw [show v = _ from List.mem_singleton.mp hv]
    exact ⟨_, hr⟩
  · obtain ⟨⟨t, r, hr, -⟩, t', ht'⟩ := h
    rcases List.mem_cons.mp hv with rfl | hv
    · exact ⟨_, hr⟩
    · rw [show v = _ from List.mem_singleton.mp hv]
      exact ⟨_, ht'⟩
  · obtain ⟨t, ht⟩ := h v hv
    exact ⟨_, ht⟩

theorem InstValid.mono (h : Grows A c A' c') {i : InstId} {inst : Inst}
    (hi : c.InstValid K A k i inst) :
    c'.InstValid K A' k i inst := by
  refine ⟨h.fits hi.fits, fun v hv => ?_, fun v hv => ?_⟩
  · obtain ⟨hknown, hbefore⟩ := hi.uses v hv
    obtain ⟨x, hx⟩ := hi.fits.kind hv
    exact ⟨h.known hknown, h.before hx hbefore⟩
  · obtain ⟨value, hvalue, hsite⟩ := hi.result v hv
    exact ⟨value, h.values v value hvalue, hsite⟩

/-- The target of an edge keeps its parameters, and nothing more is known at its start than is known
where the edge comes from. -/
def Same (A : Avail) (c : Code) (A' : Avail) (c' : Code) (k target : BlockId) : Prop :=
  (c'.block target).params = (c.block target).params ∧ ∀ v, A' target v → A target v ∨ c.Known A k v

theorem EndValid.mono (h : Grows A c A' c') {t : Terminator} (ht : c.EndValid K A k t)
    (hsame : ∀ e ∈ t.edges, Same A c A' c' k e.1) : c'.EndValid K A' k t := by
  refine ⟨fun v hv => ?_, fun e he => ?_, fun v hv => h.typeIn (ht.ret v hv), ht.unit⟩
  · obtain ⟨hknown, hplain⟩ := ht.uses v hv
    exact ⟨h.known hknown, h.plain hplain⟩
  · obtain ⟨howned, hentry, havail, hargs⟩ := ht.edges e he
    obtain ⟨hparams, hA⟩ := hsame e he
    exact ⟨h.owned _ howned, hentry, fun v hv => h.known ((hA v hv).elim (havail v) id),
      h.matches hparams hargs⟩

/-- A block that is left alone stays in order. -/
theorem BlockValid.mono (h : Grows A c A' c') (hblock : c'.block k = c.block k)
    (hc : c.BlockValid K A k)
    (hsame : ∀ t, (c.block k).term = some t → ∀ e ∈ t.edges, Same A c A' c' k e.1) :
    c'.BlockValid K A' k := by
  refine ⟨fun i v hv => ?_, fun i hi => ?_, ?_, fun t ht => ?_⟩
  · rw [hblock] at hv
    obtain ⟨value, hvalue, hsite⟩ := hc.params i v hv
    exact ⟨value, h.values v value hvalue, hsite⟩
  · rw [hblock] at hi
    obtain ⟨inst, hinst, hvalid⟩ := hc.insts i hi
    exact ⟨inst, h.insts i inst hinst, hvalid.mono h⟩
  · rw [hblock]
    exact hc.sorted
  · rw [hblock] at ht
    exact (hc.term t ht).mono h (hsame t ht)

namespace Valid

theorem target_owned (h : c.Valid K A) (hk : k ∈ c.owned) {t : Terminator}
    (ht : (c.block k).term = some t) {e : BlockId × List ValueId} (he : e ∈ t.edges) :
    e.1 ∈ c.owned :=
  (((h.block k hk).term t ht).edges e he).owned

theorem inst_lt (h : c.Valid K A) (hk : k ∈ c.owned) {i : InstId} (hi : i ∈ (c.block k).insts) :
    i < c.insts.size := by
  obtain ⟨inst, hinst, -⟩ := (h.block k hk).insts i hi
  exact (Array.getElem?_eq_some_iff.mp hinst).1

/-- What the steps have in common that leave the list of blocks alone. -/
theorem of_grows (h : c.Valid K A) (hg : Grows A c A' c') (htypes : c'.types.Sound)
    (howned : c'.owned = c.owned) (hstart : ∀ v, ¬A' K.entry v)
    (hunborn : ∀ k v, A' k v → k < c'.blocks.size) (hblock : ∀ k ∈ c.owned, c'.BlockValid K A' k)
    (honce : ∀ k ∈ c.owned, ∀ k' ∈ c.owned, ∀ i, i ∈ (c'.block k).insts → i ∈ (c'.block k').insts →
      k = k') : c'.Valid K A' := by
  refine ⟨htypes, fun f fn hf => ?_, fun k hk => ?_, howned ▸ h.nodup, hstart, hunborn,
    howned ▸ hblock,
    howned ▸ honce⟩
  · obtain ⟨params, hsig, hparams⟩ := h.signature f fn hf
    exact ⟨params, hsig, hparams.imp fun _ _ => ParamType.mono hg.types⟩
  · rw [howned] at hk
    exact ⟨(h.owned k hk).1, (h.owned k hk).2.trans_le hg.blocks⟩

end Valid

end Code

end ContractCompiler.Ssa
