import ContractCompiler.Proofs.Domain.Collection
import ContractCompiler.Proofs.Domain.KeyRefinement
import ContractCompiler.Proofs.Ssa.FoldedWords
import ContractCompiler.Proofs.Ssa.InlineCopies

/-!
# Searches across passes

Every step of the optimiser takes the values of a module to values of the module after it, such that
what bounds a search for the constants of the one bounds the search for those of the other.

- `edge_keySearch`: the edges that a search in a function goes back along;
- `Module.Rewrites`: a module whose endings come from those of another one, with operands renamed;
- `Rewrites.refines`: searches in such a module, if the definitions of its values match;
- `refines_of_prunes`, `refines_of_fold`, `refines_of_forward`, `refines_finish`: the steps;
- `refines_copies`: searches in a function that was inlined, and in the one that has the copies.
-/

namespace ContractCompiler

open Ssa Relation

variable {m m' : Module} {types : TypePool} {f g : Function} {maxKeys : Nat}

/-- A search goes back along the edges between blocks of the function. -/
theorem edge_keySearch {block : BlockId} {args : List ValueId} :
    (keySearch m types maxKeys f).Edge block args ↔ block ∈ f.blocks ∧ block < m.blocks.size ∧
      ∃ p ∈ f.blocks, ∃ term, (m.block p).term = some term ∧ args ∈ term.argsTo block := by
  have hsize : (m.cfg f).predecessors.size = m.blocks.size := Cfg.size_predecessors _
  constructor
  · rintro ⟨preds, hpreds, p, hp, term, hterm, hargs⟩
    have hmem : p ∈ (m.cfg f).predecessors.getD block [] := by
      rw [Array.getD_eq_getD_getElem?, show (m.cfg f).predecessors[block]? = some preds from hpreds]
      exact hp
    obtain ⟨hblock, hsucc, -⟩ := Cfg.mem_predecessors.mp hmem
    obtain ⟨-, htarget, hlt⟩ := Module.mem_successors_cfg.mp hsucc
    exact ⟨htarget, hlt, p, hblock, term, hterm, hargs⟩
  · rintro ⟨htarget, hlt, p, hp, term, hterm, hargs⟩
    have hsucc : block ∈ (m.block p).successors := by
      unfold Block.successors
      rw [hterm]
      exact mem_successors_of_argsTo hargs
    have hmem : p ∈ (m.cfg f).predecessors.getD block [] :=
      Cfg.mem_predecessors.mpr ⟨hp, Module.mem_successors_cfg.mpr ⟨hsucc, htarget, hlt⟩, hlt⟩
    have hget := Array.getElem?_eq_getElem (hsize.symm ▸ hlt)
    rw [Array.getD_eq_getD_getElem?, hget] at hmem
    exact ⟨_, hget, p, hmem, term, hterm, hargs⟩

/-! ## Rewritten modules -/

/-- A module with at most the blocks of functions of another one, whose blocks end as they did or
along some of the edges, with operands renamed. -/
structure Ssa.Module.Rewrites (σ : ValueId → ValueId) (m m' : Module) : Prop where
  trims : m.Trims m'
  unit : m'.unit = m.unit
  size : m'.blocks.size = m.blocks.size
  site : ∀ v site, m.siteOf? v = some site → m'.siteOf? v = some site
  ending : ∀ p term', (m'.block p).term = some term' → ∃ term, (m.block p).term = some term ∧
    ∀ b, term'.argsTo b ⊆ (term.argsTo b).map (·.map σ)

namespace Ssa.Module.Rewrites

variable {σ : ValueId → ValueId} (h : m.Rewrites σ m')

include h

theorem exists_edge (htrims : f.Trims g) {block : BlockId} {args' : List ValueId}
    (hedge : (keySearch m' types maxKeys g).Edge block args') :
    ∃ args, (keySearch m types maxKeys f).Edge block args ∧ args' = args.map σ := by
  obtain ⟨htarget, hlt, p, hp, term', hterm', hargs'⟩ := edge_keySearch.mp hedge
  obtain ⟨term, hterm, hends⟩ := h.ending p term' hterm'
  obtain ⟨args, hargs, rfl⟩ := List.mem_map.mp (hends block hargs')
  refine ⟨args, ?_, rfl⟩
  exact edge_keySearch.mpr ⟨htrims.blocks htarget, h.size ▸ hlt, p, htrims.blocks hp, term,
    hterm, hargs⟩

/-- Searches in a rewritten module, where values that are not parameters may have become others. -/
theorem refines (htrims : f.Trims g) {R : ValueId → ValueId → Prop} (hσ : ∀ u, R u (σ u))
    (htype : ∀ v x n T, R v x → (keySearch m types maxKeys f).Within n v T →
      m'.valueType x = m.valueType v)
    (hdata : ∀ v x data n T, R v x → m.dataOf? v = some data →
      (keySearch m types maxKeys f).Within n v T →
      m'.dataOf? x = some (data.mapOperands σ) ∨
      (∃ w, (keySearch m types maxKeys f).lookup? data = some (.same w) ∧ R w x) ∨
      ∃ k, (keySearch m' types maxKeys g).lookupAt? x = some (.constant k) ∧ k ∈ T)
    (hmade : ∀ v x data, R v x → m.dataOf? v = some data → data.isMade = true →
      m'.dataOf? x = some (data.mapOperands σ))
    (hparam : ∀ v x block index, R v x → m.siteOf? v = some (.param block index) → x = v) :
    (keySearch m types maxKeys f).Refines (keySearch m' types maxKeys g) R where
  types := rfl
  maxKeys := rfl
  entry _ := h.trims.isEntry_iff.mp
  type := htype
  data v x data n T hR hv hw := (hdata v x data n T hR hv hw).imp_left
    fun heq => ⟨σ, heq, fun u _ => hσ u⟩
  made v x data hR hv hm := ⟨σ, hmade v x data hR hv hm, fun u _ => hσ u⟩
  param v x block index hR hsite _ := by
    obtain rfl := hparam v x block index hR hsite
    refine ⟨h.site x _ hsite, fun args' hargs' => ?_⟩
    obtain ⟨args, hargs, rfl⟩ := h.exists_edge htrims hargs'
    exact ⟨args, σ, hargs, rfl, hparam x (σ x) block index (hσ x) hsite, fun a _ => hσ a⟩

end Ssa.Module.Rewrites

/-! ## Leaving out -/

theorem Ssa.Module.Prunes.rewrites (h : m.Prunes m') : m.Rewrites id m' := by
  refine ⟨h.trims, h.unit, h.size, fun v site hsite => ?_, fun p term' hterm' => ?_⟩
  · rwa [h.shrinks.siteOf?_eq]
  · obtain ⟨term, hterm, hwithin⟩ := (h.block p).of_term hterm'
    refine ⟨term, hterm, fun b args hargs => List.mem_map.mpr ⟨args, hwithin.2 b hargs, ?_⟩⟩
    exact List.map_id args

/-- Searches after something was left out. -/
theorem refines_of_prunes (h : m.Prunes m') (htrims : f.Trims g) :
    (keySearch m types maxKeys f).Refines (keySearch m' types maxKeys g) Eq := by
  have hdata : ∀ v data, m.dataOf? v = some data → m'.dataOf? v = some (data.mapOperands id) := by
    intro v data hv
    rw [h.dataOf?_eq, hv, Ssa.mapOperands_id]
  refine h.rewrites.refines htrims (fun _ => rfl) ?_ ?_ ?_ ?_
  · rintro v _ n T rfl -
    unfold Module.valueType
    rw [h.values]
  · rintro v _ data n T rfl hv -
    exact .inl (hdata v data hv)
  · rintro v _ data rfl hv -
    exact hdata v data hv
  · rintro v _ block index rfl -
    rfl

/-! ## Folding -/

/-- A word that is a constant is found as one. -/
theorem lookup?_of_constWord? (s : KeySearch) {data : InstData} {w : UInt64}
    (h : data.constWord? = some w) :
    s.lookup? data = some (.constant (.word w)) := by
  unfold InstData.constWord? at h
  split at h
  · rw [← Option.some.inj h]
    rfl
  · rw [← Option.some.inj h]
    rfl
  · cases h

section Within

variable {s : KeySearch} {n : Nat} {v : ValueId} {T : KeyConsts} {data : InstData}

/-- What bounds a search for the result of an instruction bounds what is looked up there. -/
theorem exists_lookup_of_within (hdata : s.module.dataOf? v = some data) (h : s.Within n v T) :
    ∃ n' l, s.lookup? data = some l ∧ l.Within s.maxKeys (s.Within n') T := by
  cases n with
  | zero => exact h.elim
  | succ n =>
    rcases h with ⟨l, hl, hbound⟩ | ⟨block, index, hsite, -⟩
    · unfold KeySearch.lookupAt? at hl
      rw [hdata, Option.bind_some] at hl
      exact ⟨n, l, hl, hbound⟩
    · obtain ⟨i, _, hsite', -⟩ := Module.dataOf?_eq_some.mp hdata
      cases hsite.symm.trans hsite'

/-- A search for a parameter of a function is not bounded. -/
theorem not_within_of_entry {block : BlockId} {index : Nat}
    (hsite : s.module.siteOf? v = some (.param block index)) (hentry : s.module.IsEntry block) :
    ¬s.Within n v T := by
  intro h
  cases n with
  | zero => exact h
  | succ n =>
    rcases h with ⟨l, hl, -⟩ | ⟨block', index', hsite', hinner, -⟩
    · obtain ⟨data, hdata, -⟩ := Option.bind_eq_some_iff.mp hl
      obtain ⟨_, _, hsite', -⟩ := Module.dataOf?_eq_some.mp hdata
      cases hsite.symm.trans hsite'
    · cases hsite.symm.trans hsite'
      exact hinner hentry

/-- A value that is a constant is not bounded without it. -/
theorem mem_of_constWord? (h : s.Within n v T) {w : UInt64} (hw : s.module.constWord? v = some w) :
    .word w ∈ T := by
  obtain ⟨inst, hdef, hconst⟩ := Option.bind_eq_some_iff.mp hw
  have hdata : s.module.dataOf? v = some inst.data := by
    unfold Module.dataOf?
    rw [hdef, Option.map_some]
  obtain ⟨n', l, hl, hbound⟩ := exists_lookup_of_within hdata h
  obtain rfl := Option.some.inj (hl.symm.trans (lookup?_of_constWord? s hconst))
  exact hbound

theorem exists_mapped {src : ValueId} {op : UInt64 → Option UInt64}
    (h : (Lookup.mapped src op).Within s.maxKeys (s.Within n) T) {a : UInt64}
    (ha : s.module.constWord? src = some a) : ∃ u, op a = some u ∧ .word u ∈ T := by
  obtain ⟨S, hS, -, hwords⟩ := h
  obtain ⟨w, u, hw, hu, hmem⟩ := hwords _ (mem_of_constWord? hS ha)
  cases hw
  exact ⟨u, hu, hmem⟩

theorem exists_paired {left right : ValueId} {op : UInt64 → UInt64 → Option UInt64}
    (h : (Lookup.paired left right op).Within s.maxKeys (s.Within n) T) {a b : UInt64}
    (ha : s.module.constWord? left = some a) (hb : s.module.constWord? right = some b) :
    ∃ u, op a b = some u ∧ .word u ∈ T := by
  obtain ⟨S, S', hS, hS', -, -, -, hwords⟩ := h
  obtain ⟨w, w', u, hw, hw', hu, hmem⟩ := hwords _ (mem_of_constWord? hS ha) _
    (mem_of_constWord? hS' hb)
  cases hw
  cases hw'
  exact ⟨u, hu, hmem⟩

end Within

theorem binaryWord_eq (op : BinOp) (mode : ArithMode) (k : IntKind) (a b : UInt64) :
    KeySearch.binaryWord op mode k a b = Folded.word? (foldBinOp op mode k a b) := by
  unfold KeySearch.binaryWord
  cases foldBinOp op mode k a b <;> rfl

theorem castWord_eq (mode : CastMode) (k target : IntKind) (w : UInt64) :
    KeySearch.castWord mode k target w = Folded.word? (foldCast mode k target w) := by
  unfold KeySearch.castWord
  cases foldCast mode k target w <;> rfl

/-- Where a search for the result of an instruction is bounded, what the instruction is folded into
is a constant of the bound. -/
theorem constant_of_fold {s : KeySearch} (htyped : s.module.Typed s.types)
    (hfits : s.module.values.size ≤ invalidId) {i : InstId} {inst : Inst} {data : InstData}
    (hinst : s.module.insts[i]? = some inst) (hfold : foldedData? s.types s.module inst = some data)
    {v : ValueId} (hv : s.module.dataOf? v = some inst.data) {n : Nat} {T : KeyConsts}
    (h : s.Within n v T) : ∃ k, s.lookup? data = some (.constant k) ∧ k ∈ T := by
  obtain ⟨n', l, hl, hbound⟩ := exists_lookup_of_within hv h
  obtain ⟨t, htype, hresult, -⟩ := htyped.inst i inst hinst
  obtain ⟨r, hr, hfolds⟩ := foldsTo_of_foldedData? hfold
  obtain rfl := valueType_eq (hresult r hr).typeIn
  suffices hword : ∃ w, data.constWord? = some w ∧ .word w ∈ T by
    obtain ⟨w, hw, hmem⟩ := hword
    exact ⟨.word w, lookup?_of_constWord? s hw, hmem⟩
  generalize inst.data = source at hl htype hfolds
  cases hfolds with
  | binary hmode ha hb hw =>
    dsimp only [KeySearch.lookup?] at hl
    rw [if_neg hmode] at hl
    obtain ⟨k, hk, rfl⟩ := Option.map_eq_some_iff.mp hl
    obtain rfl := (KeySearch.kind?_eq_some hk).1
    obtain ⟨u, hu, hmem⟩ := exists_paired hbound ha hb
    rw [binaryWord_eq] at hu
    obtain rfl := Option.some.inj (hw.symm.trans hu)
    exact ⟨_, word_of_foldedBinary htype hmode hw, hmem⟩
  | unary ha hdata =>
    obtain ⟨k, hk, rfl⟩ := Option.map_eq_some_iff.mp hl
    obtain rfl := (KeySearch.kind?_eq_some hk).1
    obtain ⟨u, hu, hmem⟩ := exists_mapped hbound ha
    obtain ⟨w, hw, -, hword⟩ := word_of_foldedUnary htyped hfits htype ha hdata
    obtain rfl := Option.some.inj (hword.symm.trans hu)
    exact ⟨_, hw, hmem⟩
  | cast ha hw =>
    obtain ⟨k, hk, hl⟩ := Option.bind_eq_some_iff.mp hl
    obtain ⟨k', hk', rfl⟩ := Option.map_eq_some_iff.mp hl
    obtain rfl := (KeySearch.kind?_eq_some hk).1
    obtain rfl := Option.some.inj (Option.filter_eq_some_iff.mp hk').1
    obtain ⟨u, hu, hmem⟩ := exists_mapped hbound ha
    rw [castWord_eq] at hu
    obtain rfl := Option.some.inj (hw.symm.trans hu)
    exact ⟨_, rfl, hmem⟩
  | resultIsOk => cases hl

/-- Constants are found in the same way everywhere. -/
theorem lookup?_of_constant {s : KeySearch} {data : InstData} {k : KeyConst}
    (h : s.lookup? data = some (.constant k)) (s' : KeySearch) :
    s'.lookup? data = some (.constant k) := by
  cases data with
  | constInt _ | constBool _ | constBytes _ => exact h
  | cast mode type src =>
    obtain ⟨_, -, h⟩ := Option.bind_eq_some_iff.mp h
    obtain ⟨_, -, h⟩ := Option.map_eq_some_iff.mp h
    cases h
  | binary op mode left right =>
    dsimp only [KeySearch.lookup?] at h
    split at h
    · cases h
    · obtain ⟨_, -, h⟩ := Option.map_eq_some_iff.mp h
      cases h
  | unary | extract | resultValue =>
    obtain ⟨_, -, h⟩ := Option.map_eq_some_iff.mp h
    cases h
  | _ => cases h

/-- What puts values together is not folded. -/
theorem foldedData?_of_isMade {inst : Inst} (h : inst.data.isMade = true) :
    foldedData? types m inst = none := by
  unfold foldedData?
  cases hdata : inst.data with
  | makeStruct | insert | makeResult => cases inst.result <;> rfl
  | _ =>
    rw [hdata] at h
    cases h

theorem rewrites_setData (m : Module) (i : InstId) (inst : Inst) (data : InstData) :
    m.Rewrites id (m.setData i inst data) := by
  refine ⟨.of_eq rfl, rfl, rfl, fun v site hsite => hsite, fun p term hterm => ⟨term, hterm, ?_⟩⟩
  exact fun b args hargs => List.mem_map.mpr ⟨args, hargs, List.map_id args⟩

/-- Searches after an instruction was folded. -/
theorem refines_of_fold (htyped : m.Typed types) (hfits : m.values.size ≤ invalidId) {i : InstId}
    {inst : Inst} {data : InstData} (hinst : m.insts[i]? = some inst)
    (hfold : foldedData? types m inst = some data) (htrims : f.Trims g) :
    (keySearch m types maxKeys f).Refines (keySearch (m.setData i inst data) types maxKeys g)
      Eq := by
  refine (rewrites_setData m i inst data).refines htrims (fun _ => rfl) ?_ ?_ ?_ ?_
  · rintro v _ n T rfl -
    rfl
  · rintro v _ data' n T rfl hv hbound
    rcases dataOf?_setData hinst v with heq | ⟨-, hv', hnew⟩
    · exact .inl (by rw [heq, hv, Ssa.mapOperands_id])
    · obtain ⟨k, hk, hmem⟩ :=
        constant_of_fold (s := keySearch m types maxKeys f) htyped hfits hinst hfold hv' hbound
      refine .inr (.inr ⟨k, ?_, hmem⟩)
      show ((m.setData i inst data).dataOf? v).bind _ = _
      rw [hnew]
      exact lookup?_of_constant hk _
  · rintro v _ data' rfl hv hmade
    rcases dataOf?_setData hinst v with heq | ⟨-, hv', hnew⟩
    · rw [heq, hv, Ssa.mapOperands_id]
    · obtain rfl := Option.some.inj (hv'.symm.trans hv)
      cases (foldedData?_of_isMade hmade).symm.trans hfold
  · rintro v _ block index rfl -
    rfl

/-! ## Forwarding -/

/-- A search for a field goes on with the value that was put into it. -/
theorem lookup?_of_forwards {s : KeySearch} {v w : ValueId} (h : s.module.Forwards v w)
    {data : InstData} (hv : s.module.dataOf? v = some data) : s.lookup? data = some (.same w) := by
  obtain ⟨base, index, fields, hextract, hbase, hw⟩ := h
  obtain rfl := Option.some.inj (hextract.symm.trans hv)
  obtain ⟨made, hmade, hfields⟩ := Module.definition?_of_dataOf? hbase
  have hfield : s.module.fieldWithin index maxKeyDepth base = some w := by
    unfold maxKeyDepth
    rw [KeySearch.fieldWithin_succ hmade, hfields]
    exact hw
  show (s.module.fieldWithin index maxKeyDepth base).map _ = _
  rw [hfield, Option.map_some]

/-- A value leads to another one by replacements. -/
def Ssa.Substitution.LeadsTo (s : Substitution) : ValueId → ValueId → Prop :=
  ReflTransGen fun v w => s[v]? = some w

theorem Ssa.Substitution.leadsTo_followFor (s : Substitution) (n : Nat) (v : ValueId) :
    s.LeadsTo v (s.followFor n v) := by
  induction n generalizing v with
  | zero => exact .refl
  | succ n ih =>
    unfold followFor
    split
    · exact .refl
    · rename_i w hw
      split
      · exact .refl
      · exact .head hw (ih w)

theorem Ssa.Substitution.LeadsTo.eq_of_none {s : Substitution} {v x : ValueId} (h : s.LeadsTo v x)
    (hv : s[v]? = none) : x = v := by
  cases h using ReflTransGen.head_induction_on with
  | refl => rfl
  | head hw _ => cases hv.symm.trans hw

theorem rewrites_substitute (m : Module) (s : Substitution) :
    m.Rewrites s.follow (m.substitute s) := by
  rw [substitute_eq]
  refine ⟨.of_eq rfl, rfl, Array.size_map, fun v site hsite => hsite, fun p term' hterm' => ?_⟩
  rw [block_mapOperands] at hterm'
  obtain ⟨term, hterm, rfl⟩ := Option.map_eq_some_iff.mp hterm'
  refine ⟨term, hterm, fun b => ?_⟩
  rw [argsTo_mapOperands]
  exact List.Subset.refl _

section Forward

variable {s : Substitution} (hs : s.Forwards m)

include hs

theorem getElem?_of_not_extract {v : ValueId}
    (h : ∀ base index, m.dataOf? v ≠ some (.extract base index)) :
    s[v]? = none := by
  cases hw : s[v]? with
  | none => rfl
  | some w =>
    obtain ⟨base, index, _, hv, -⟩ := hs v w hw
    exact absurd hv (h base index)

/-- A value that is searched has the type of the value that it is replaced by. -/
theorem valueType_of_leadsTo (htyped : m.Typed types) (hfits : m.values.size ≤ invalidId)
    {v x : ValueId} (h : s.LeadsTo v x) {n : Nat} {T : KeyConsts}
    (hv : (keySearch m types maxKeys f).Within n v T) : m.valueType x = m.valueType v := by
  induction h using ReflTransGen.head_induction_on generalizing n with
  | refl => rfl
  | @head v w hw _ ih =>
    have hforward := hs v w hw
    obtain ⟨base, index, _, hdata, -⟩ := hs v w hw
    obtain ⟨n', l, hl, hbound⟩ := exists_lookup_of_within
      (s := keySearch m types maxKeys f) hdata hv
    obtain rfl := Option.some.inj (hl.symm.trans (lookup?_of_forwards hforward hdata))
    obtain ⟨value, hvalue⟩ := KeySearch.Within.exists_value
      (s := keySearch m types maxKeys f) hbound
    have hlt : w < m.values.size := (Array.getElem?_eq_some_iff.mp hvalue).1
    exact (ih hbound).trans (hforward.valueType_eq htyped hfits hlt)

/-- Searches after fields were replaced by the values that were put into them. -/
theorem refines_of_forward (htyped : m.Typed types) (hfits : m.values.size ≤ invalidId)
    (htrims : f.Trims g) :
    (keySearch m types maxKeys f).Refines (keySearch (m.substitute s) types maxKeys g)
      s.LeadsTo := by
  have hdata : ∀ v, (m.substitute s).dataOf? v = (m.dataOf? v).map (·.mapOperands s.follow) := by
    rw [substitute_eq]
    exact m.dataOf?_mapOperands s.follow
  refine (rewrites_substitute m s).refines htrims (s.leadsTo_followFor _) ?_ ?_ ?_ ?_
  · intro v x n T hvx hv
    unfold Module.valueType
    rw [values_substitute]
    exact valueType_of_leadsTo hs htyped hfits hvx hv
  · intro v x data n T hvx hv _
    cases hvx using ReflTransGen.head_induction_on with
    | refl => exact .inl (by rw [hdata, hv, Option.map_some])
    | @head _ w hw hwx =>
      refine .inr (.inl ⟨w, ?_, hwx⟩)
      exact lookup?_of_forwards (s := keySearch m types maxKeys f) (hs v w hw) hv
  · intro v x data hvx hv hmade
    have hnone : s[v]? = none := by
      refine getElem?_of_not_extract hs fun base index hextract => ?_
      obtain rfl := Option.some.inj (hv.symm.trans hextract)
      cases hmade
    rw [hvx.eq_of_none hnone, hdata, hv, Option.map_some]
  · intro v x block index hvx hsite
    refine hvx.eq_of_none (getElem?_of_not_extract hs fun base index hextract => ?_)
    obtain ⟨_, _, hsite', -⟩ := Module.dataOf?_eq_some.mp hextract
    cases hsite.symm.trans hsite'

end Forward

/-! ## Inlining -/

section Inline

variable {b : BlockId} {s : Inlining} (h : s.Copies m b)

include h

theorem rewrites_finish : m.Rewrites s.results.follow (s.finish b) := by
  refine ⟨.of_eq h.grows.functions, h.grows.unit, h.size_blocks_finish,
    fun v site => h.grows.siteOf?,
    fun p term' hterm' => ?_⟩
  rw [h.term_finish] at hterm'
  obtain ⟨term, hterm, rfl⟩ := Option.map_eq_some_iff.mp hterm'
  refine ⟨term, hterm, fun k => ?_⟩
  rw [argsTo_mapOperands]
  exact List.Subset.refl _

/-- Only results of calls are replaced. -/
theorem follow_of_not_call {v : ValueId}
    (hv : ∀ callee args, m.dataOf? v ≠ some (.call callee args)) :
    s.results.follow v = v := by
  refine Substitution.followFor_eq ?_ _
  cases hw : s.results[v]? with
  | none => rfl
  | some w =>
    obtain ⟨c, hdata, -⟩ := h.results v w hw
    exact absurd hdata (hv _ _)

theorem follow_of_site {v : ValueId} {block : BlockId} {index : Nat}
    (hsite : m.siteOf? v = some (.param block index)) : s.results.follow v = v := by
  refine follow_of_not_call h fun callee args hcall => ?_
  obtain ⟨_, _, hsite', -⟩ := Module.dataOf?_eq_some.mp hcall
  cases hsite.symm.trans hsite'

/-- A search that is bounded is not for the result of a call. -/
theorem follow_of_within {v : ValueId} {n : Nat} {T : KeyConsts}
    (hv : (keySearch m types maxKeys f).Within n v T) : s.results.follow v = v := by
  refine follow_of_not_call h fun callee args hcall => ?_
  obtain ⟨_, _, hl, -⟩ := exists_lookup_of_within (s := keySearch m types maxKeys f) hcall hv
  cases hl

/-- Nothing becomes of a value that is not the result of a call. -/
theorem dataOf?_finish_of {v : ValueId} {data : InstData} (hv : m.dataOf? v = some data) :
    (s.finish b).dataOf? v = some (data.mapOperands s.results.follow) := by
  rw [dataOf?_finish, h.grows.dataOf? hv, Option.map_some]

theorem follow_of_isMade {v : ValueId} {data : InstData} (hv : m.dataOf? v = some data)
    (hmade : data.isMade = true) : s.results.follow v = v := by
  refine follow_of_not_call h fun callee args hcall => ?_
  obtain rfl := Option.some.inj (hv.symm.trans hcall)
  cases hmade

theorem valueType_finish {v : ValueId} (hlt : v < m.values.size) :
    (s.finish b).valueType v = m.valueType v :=
  h.grows.valueType hlt

/-- Searches in a function that calls were inlined in. -/
theorem refines_finish (htrims : f.Trims g) :
    (keySearch m types maxKeys f).Refines (keySearch (s.finish b) types maxKeys g)
      fun v x => x = s.results.follow v := by
  refine (rewrites_finish h).refines htrims (fun _ => rfl) ?_ ?_ ?_ ?_
  · rintro v _ n T rfl hv
    obtain ⟨value, hvalue⟩ := KeySearch.Within.exists_value (s := keySearch m types maxKeys f) hv
    rw [follow_of_within h hv]
    exact valueType_finish h (Array.getElem?_eq_some_iff.mp hvalue).1
  · rintro v _ data n T rfl hdata hv
    rw [follow_of_within h hv]
    exact .inl (dataOf?_finish_of h hdata)
  · rintro v _ data rfl hdata hmade
    rw [follow_of_isMade h hdata hmade]
    exact dataOf?_finish_of h hdata
  · rintro v _ block index rfl hsite
    exact follow_of_site h hsite

end Inline

/-- A value of a function that is inlined, which parameters of inner blocks have no part in, with
what it becomes in the function that has the copies. -/
def Ssa.Inlining.Becomes (m : Module) (s : Inlining) {b : BlockId} (c : InlinedCall m b)
    (v x : ValueId) :
    Prop :=
  (∀ avoided, ¬m.IsEntry avoided → m.Clear avoided v) ∧
    ∃ y, Copied m s.module c.entry c.args v y ∧ x = s.results.follow y

section Copies

variable {b : BlockId} {s : Inlining} (h : s.Copies m b) (hm : m.Orderly) (c : InlinedCall m b)

include hm in
/-- What is used in a function that is inlined becomes what is used in its place. -/
theorem becomes_of_use {u y : ValueId} (hu : u ∈ m.usesOfBlock c.entry)
    (hy : Copied m s.module c.entry c.args u y) : s.Becomes m c u (s.results.follow y) :=
  ⟨fun _ hinner => c.clear hm hinner u hu, y, hy, rfl⟩

include hm in
theorem site_of_param {p : ValueId} (hp : p ∈ (m.block c.entry).params) :
    ∃ index, m.siteOf? p = some (.param c.entry index) :=
  hm.params c.function (Array.mem_of_getElem? c.function_eq) c.live c.entry c.entry_eq p hp

include h

theorem follow_of_new {y : ValueId} (hnew : m.values.size ≤ y) : s.results.follow y = y := by
  refine follow_of_not_call h fun callee args hcall => ?_
  exact absurd (lt_size_of_dataOf? hcall) (Nat.not_lt.mpr hnew)

include hm

/-- The definition of a value that is no call is the same on what the operands become. -/
theorem exists_data_of_becomes {v x : ValueId} (hvx : s.Becomes m c v x) {data : InstData}
    (hv : m.dataOf? v = some data) (hcall : data.callee? = none) :
    ∃ ρ, (s.finish b).dataOf? x = some (data.mapOperands ρ) ∧
      ∀ u ∈ data.operands, s.Becomes m c u (ρ u) := by
  obtain ⟨hclear, y, hcopied, rfl⟩ := hvx
  have hoperand : ∀ u ∈ data.operands, ∀ avoided, ¬m.IsEntry avoided → m.Clear avoided u :=
    fun u hu avoided hinner => (hclear avoided hinner).depends (Module.Uses.depends ⟨data, hv, hu⟩)
  cases hcopied with
  | same =>
    have hfollow : s.results.follow v = v := by
      refine follow_of_not_call h fun callee args hdata => ?_
      obtain rfl := Option.some.inj (hv.symm.trans hdata)
      cases hcall
    rw [hfollow]
    exact ⟨_, dataOf?_finish_of h hv, fun u hu => ⟨hoperand u hu, u, .same u, rfl⟩⟩
  | arg hp _ =>
    obtain ⟨index, hsite⟩ := site_of_param hm c hp
    obtain ⟨_, _, hsite', -⟩ := Module.dataOf?_eq_some.mp hv
    cases hsite.symm.trans hsite'
  | @result _ _ data' ρ hdata _ hcopy hnew _ hρ =>
    obtain rfl := Option.some.inj (hv.symm.trans hdata)
    refine ⟨s.results.follow ∘ ρ, ?_, fun u hu => ⟨hoperand u hu, ρ u, hρ u hu, rfl⟩⟩
    rw [follow_of_new h hnew, dataOf?_finish, hcopy, Option.map_some,
      InstData.mapOperands_mapOperands]

/-- A value that is searched has the type of what it becomes. -/
theorem valueType_of_becomes {v x : ValueId} (hvx : s.Becomes m c v x) {n : Nat} {T : KeyConsts}
    (hv : (keySearch m types maxKeys f).Within n v T) :
    (s.finish b).valueType x = m.valueType v := by
  obtain ⟨-, y, hcopied, rfl⟩ := hvx
  cases hcopied with
  | same =>
    obtain ⟨value, hvalue⟩ := KeySearch.Within.exists_value (s := keySearch m types maxKeys f) hv
    rw [follow_of_within h hv]
    exact valueType_finish h (Array.getElem?_eq_some_iff.mp hvalue).1
  | arg hp _ =>
    obtain ⟨index, hsite⟩ := site_of_param hm c hp
    exact absurd hv (not_within_of_entry hsite c.isEntry)
  | result _ _ _ hnew htype _ =>
    rw [follow_of_new h hnew]
    exact htype

/-- Searches in a function that was inlined, and in one that has a copy of it. -/
theorem refines_copies :
    (keySearch m types maxKeys c.function).Refines (keySearch (s.finish b) types maxKeys f)
      (s.Becomes m c) where
  types := rfl
  maxKeys := rfl
  entry _ := h.isEntry_finish.mp
  type _ _ _ _ hvx hv := valueType_of_becomes h hm c hvx hv
  data v x data n T hvx hdata hv := by
    refine .inl (exists_data_of_becomes h hm c hvx hdata ?_)
    obtain ⟨_, _, hl, -⟩ := exists_lookup_of_within (s := keySearch m types maxKeys c.function)
      hdata hv
    cases data with
    | call => cases hl
    | _ => rfl
  made v x data hvx hdata hmade := by
    refine exists_data_of_becomes h hm c hvx hdata ?_
    cases data with
    | call => cases hmade
    | _ => rfl
  param v x block index hvx hsite hinner :=
    absurd hsite ((hvx.1 block hinner v (.refl m v)).2 index)

end Copies

end ContractCompiler
