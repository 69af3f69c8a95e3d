import ContractCompiler.Json.Reader
import ContractCompiler.Proofs.Ssa.Dominance
import ContractCompiler.Proofs.Ssa.ValidModule
import ContractCompiler.Proofs.Ssa.Verified

/-!
# Complete modules have no faults

What is known at the start of a block is known on every path from the entry, so the block that
defines it is on every such path: the definition of an operand dominates its use. The other checks
of the verifier read off what it means for code to be complete.

- `enterDefinitions_of_sited`: definitions of different values that know of them are entered without
  faults;
- `not_avail_of_reach`: nothing is known on a path that no definition of it is on;
- `isAvailable_of_known`: what is known in a block is available there;
- `bodyFaults_eq_nil`, `sharedBlockFaults_eq_nil`: complete functions have no faults;
- `verify_buildModule`: the modules that are built from documents have none.
-/

namespace ContractCompiler.Ssa

open Code

variable {m : Module} {types : TypePool} {f : Function} {K : BodyContext} {A : Avail}

/-! ## Definitions -/

/-- A definition is of a value that knows of it. -/
def Definition.Sited (m : Module) (d : Definition) : Prop :=
  ∃ value : Value, m.values[d.value]? = some value ∧ value.site = d.site

theorem Definition.Sited.lt_size {d : Definition} (h : d.Sited m) : d.value < m.values.size := by
  obtain ⟨value, hvalue, -⟩ := h
  exact (Array.getElem?_eq_some_iff.mp hvalue).1

/-- A value knows of one definition only. -/
theorem Definition.Sited.site_eq {d d' : Definition} (h : d.Sited m) (h' : d'.Sited m)
    (heq : d.value = d'.value) : d.site = d'.site := by
  obtain ⟨value, hvalue, hsite⟩ := h
  obtain ⟨value', hvalue', hsite'⟩ := h'
  rw [heq, hvalue'] at hvalue
  rw [← hsite, ← hsite', Option.some.inj hvalue]

/-- Entries of definitions at different places. -/
def SitesDiffer (e e' : Except Fault Definition) : Prop :=
  ∀ d d', e = .ok d → e' = .ok d' → d.site ≠ d'.site

/-- Definitions at different places, of values that know of them, are entered without faults. -/
theorem enterDefinitions_of_sited {name : String} {es : List (Except Fault Definition)}
    (hes : ∀ e ∈ es, ∃ d : Definition, e = .ok d ∧ d.Sited m) (hdiffer : es.Pairwise SitesDiffer)
    {table : DefinitionTable} (hsize : table.size = m.values.size)
    (hfree : ∀ d : Definition, .ok d ∈ es → table.getD d.value none = none) :
    (enterDefinitions m name es table).1 = [] ∧
      (∀ v d, table.getD v none = some d →
        (enterDefinitions m name es table).2.getD v none = some d) ∧
      ∀ d : Definition, .ok d ∈ es →
        (enterDefinitions m name es table).2.getD d.value none = some d := by
  induction es generalizing table with
  | nil => exact ⟨rfl, fun _ _ h => h, nofun⟩
  | cons e es ih =>
    obtain ⟨d, rfl, hd⟩ := hes e List.mem_cons_self
    obtain ⟨hhead, htail⟩ := List.pairwise_cons.mp hdiffer
    have hempty := hfree d List.mem_cons_self
    have hlt : d.value < table.size := hsize ▸ hd.lt_size
    have hrest (d' : Definition) (hd' : .ok d' ∈ es) : d'.value ≠ d.value := by
      obtain ⟨d'', heq, hsited⟩ := hes _ (List.mem_cons_of_mem _ hd')
      obtain rfl := Except.ok.inj heq
      exact fun heq => hhead _ hd' d d' rfl rfl (hd.site_eq hsited heq.symm)
    have hsize' : (table.setIfInBounds d.value (some d)).size = m.values.size := by
      rwa [Array.size_setIfInBounds]
    obtain ⟨hfaults, hkept, hentered⟩ := ih (fun e he => hes e (List.mem_cons_of_mem _ he))
      htail hsize' fun d' hd' => by
        rw [getD_set_of_ne (hrest d' hd')]
        exact hfree d' (List.mem_cons_of_mem _ hd')
    obtain ⟨value, hvalue, hsite⟩ := hd
    have hstep : enterDefinitions m name (.ok d :: es) table =
        enterDefinitions m name es (table.setIfInBounds d.value (some d)) := by
      rw [enterDefinitions]
      simp only [hvalue, hsite, hempty, if_true, List.nil_append]
      rfl
    rw [hstep]
    refine ⟨hfaults, fun v d' hv => hkept v d' ?_, fun d' hd' => ?_⟩
    · rw [getD_set_of_ne fun heq => ?_, hv]
      rw [heq, hempty] at hv
      cases hv
    · rcases List.mem_cons.mp hd' with heq | hd'
      · obtain rfl := Except.ok.inj heq
        exact hkept _ _ (getD_set_self hlt _)
      · exact hentered d' hd'

theorem site_of_result {b : BlockId} {i : InstId} {k : Nat}
    {e : Except Fault Definition} {d : Definition} (he : (match m.insts[i]? with
      | none => some (.error (.noInst b i))
      | some inst => inst.result.map fun r =>
          .ok { value := r, block := b, position := some k, site := .inst i }) = some e)
          (hd : e = .ok d) :
    d.site = .inst i := by
  subst hd
  split at he
  · cases he
  · obtain ⟨r, -, heq⟩ := Option.map_eq_some_iff.mp he
    cases heq
    rfl

/-- The place of a definition is in its block. -/
def DefSite.In (m : Module) (b : BlockId) : DefSite → Prop
  | .none => False
  | .param k _ => k = b
  | .inst i => i ∈ (m.block b).insts

/-! ## Values and calls -/

theorem lt_size_of_typeIn {v : ValueId} {t : TypeId} (hv : typeIn m.values v = some t) :
    v < m.values.size := by
  obtain ⟨value, hvalue, -⟩ := Option.map_eq_some_iff.mp hv
  exact (Array.getElem?_eq_some_iff.mp hvalue).1

theorem valueFaults_eq_nil {place : Mention} {owner : Nat} {v : ValueId} (hv : v < m.values.size) :
    valueFaults m place owner v = [] :=
  if_pos (decide_eq_true hv)

theorem entryParamFaults_eq_nil {entry : BlockId} {params : List ValueId}
    (hparams : List.Forall₂ (fun p t => typeIn m.values p = some t) params f.paramTypes) :
    entryParamFaults m f entry params = [] := by
  unfold entryParamFaults
  rw [if_neg (not_not.mpr hparams.length_eq)]
  refine List.flatMap_eq_nil_iff.mpr fun p hp => ?_
  obtain ⟨⟨p, declared⟩, index⟩ := p
  have htype := List.forall₂_zip hparams (List.fst_mem_of_mem_zipIdx hp)
  have hhas : m.hasValue p = true := decide_eq_true (lt_size_of_typeIn htype)
  simp [hhas, valueType_eq htype]

theorem instFaults_eq_nil (hsignature : K.signature = (m.typeContext types).signature) {i : InstId}
    {d : InstData} (hd : (m.codeOf types f).Fits K d) : instFaults m i d = [] := by
  refine List.append_eq_nil_iff.mpr ⟨List.flatMap_eq_nil_iff.mpr fun v hv => ?_, ?_⟩
  · obtain ⟨x, hx⟩ := hd.kind hv
    exact valueFaults_eq_nil (lt_size_of_kind? hx)
  · split
    · rename_i callee args
      obtain ⟨⟨params, ret, hsig, hargs⟩, -, -⟩ := hd
      rw [hsignature] at hsig
      obtain ⟨fn, hfn, heq⟩ := Option.map_eq_some_iff.mp hsig
      obtain ⟨rfl, -⟩ := Prod.mk.inj heq
      unfold callFaults
      simp only [hfn]
      rw [if_neg (not_not.mpr hargs.length_eq)]
      refine List.filterMap_eq_nil_iff.mpr fun p hp => ?_
      obtain ⟨⟨arg, declared⟩, index⟩ := p
      have htype := List.forall₂_zip hargs (List.fst_mem_of_mem_zipIdx hp)
      simp only [valueType_eq htype, bne_self_eq_false, Bool.and_false]
      rfl
    · rfl

/-! ## Paths -/

theorem successors_eq_edges (t : Terminator) : t.successors = t.edges.map (·.1) := by
  cases t <;> rfl

theorem mem_edges_of_successor {b s : BlockId} (hs : s ∈ (m.block b).successors) :
    ∃ t e, (m.block b).term = some t ∧ e ∈ t.edges ∧ e.1 = s := by
  unfold Block.successors at hs
  cases ht : (m.block b).term with
  | none =>
    rw [ht] at hs
    cases hs
  | some t =>
    rw [ht, Option.map_some, Option.getD_some, successors_eq_edges] at hs
    obtain ⟨e, he, heq⟩ := List.mem_map.mp hs
    exact ⟨t, e, rfl, he, heq⟩

/-- What is smaller stands before in a list that is in order. -/
theorem index_lt_of_sorted {l : List Nat} (hl : l.Pairwise (· < ·)) {k k' i i' : Nat}
    (hi : l[k]? = some i) (hi' : l[k']? = some i') (hlt : i' < i) : k' < k := by
  obtain ⟨hk, rfl⟩ := List.getElem?_eq_some_iff.mp hi
  obtain ⟨hk', rfl⟩ := List.getElem?_eq_some_iff.mp hi'
  by_contra hle
  rcases Nat.lt_or_eq_of_le (Nat.not_lt.mp hle) with hgt | rfl
  · exact absurd (List.pairwise_iff_getElem.mp hl k k' hk hk' hgt) (Nat.not_lt.mpr hlt.le)
  · exact absurd hlt (Nat.lt_irrefl _)

section Complete

variable (h : (m.codeOf types f).Complete K A)

include h

theorem sited_of_complete {b : BlockId} (hb : b ∈ f.blocks) {e : Except Fault Definition}
    (he : e ∈ blockDefinitions m b) : ∃ d : Definition, e = .ok d ∧ d.Sited m ∧ d.site.In m b := by
  have hblock := h.valid.block b hb
  rcases mem_blockDefinitions he with ⟨i, p, hp, rfl⟩ | ⟨k, i, hi, he⟩
  · exact ⟨_, rfl, hblock.params i p hp, rfl⟩
  · obtain ⟨inst, hinst, hvalid⟩ := hblock.insts i (List.mem_of_getElem? hi)
    obtain ⟨r, hr, rfl⟩ := he inst hinst
    exact ⟨_, rfl, hvalid.result r hr, List.mem_of_getElem? hi⟩

/-- No two blocks define at one place. -/
theorem block_eq_of_site {b b' : BlockId} (hb : b ∈ f.blocks) (hb' : b' ∈ f.blocks) {site : DefSite}
    (hsite : site.In m b) (hsite' : site.In m b') : b = b' := by
  cases site with
  | none => exact hsite.elim
  | param k i => exact hsite.symm.trans hsite'
  | inst i => exact h.valid.once b hb b' hb' i hsite hsite'

theorem pairwise_blockDefinitions {b : BlockId} (hb : b ∈ f.blocks) :
    (blockDefinitions m b).Pairwise SitesDiffer := by
  have hblock := h.valid.block b hb
  unfold blockDefinitions
  refine List.pairwise_append.mpr ⟨?_, ?_, fun e he e' he' d d' hd hd' => ?_⟩
  · refine List.pairwise_map.mpr (List.Pairwise.imp (R := fun p q => p.2 < q.2) ?_ ?_)
    · rintro p q hlt d d' hd hd'
      cases hd
      cases hd'
      exact fun heq => absurd (DefSite.param.inj heq).2 hlt.ne
    · rw [← List.pairwise_map (f := fun p : ValueId × Nat => p.2) (R := (· < ·)),
        List.zipIdx_map_snd]
      exact List.pairwise_lt_range'
  · refine List.pairwise_filterMap.mpr (List.Pairwise.imp (R := fun p q => p.1 < q.1) ?_ ?_)
    · intro p q hlt e he e' he' d d' hd hd'
      rw [site_of_result he hd, site_of_result he' hd']
      exact fun heq => absurd (DefSite.inst.inj heq) hlt.ne
    · rw [← List.pairwise_map (f := fun p : InstId × Nat => p.1) (R := (· < ·)),
        List.zipIdx_map_fst]
      exact hblock.sorted
  · obtain ⟨p, -, rfl⟩ := List.mem_map.mp he
    obtain ⟨q, -, he'⟩ := List.mem_filterMap.mp he'
    cases hd
    rw [site_of_result he' hd']
    exact DefSite.noConfusion

/-- The definitions of a complete function are entered without faults. -/
theorem definitions_of_complete : (m.definitions f).1 = [] ∧
    ∀ b ∈ f.blocks, ∀ d : Definition, .ok d ∈ blockDefinitions m b →
      (m.definitions f).2.getD d.value none = some d := by
  have hdiffer : (f.blocks.flatMap (blockDefinitions m)).Pairwise SitesDiffer := by
    refine List.pairwise_flatMap.mpr ⟨fun b hb => pairwise_blockDefinitions h hb, ?_⟩
    refine h.valid.nodup.imp_of_mem fun {b b'} hb hb' hne e he e' he' d d' hd hd' heq => ?_
    obtain ⟨d₁, rfl, -, hin⟩ := sited_of_complete h hb he
    obtain ⟨d₂, rfl, -, hin'⟩ := sited_of_complete h hb' he'
    obtain rfl := Except.ok.inj hd
    obtain rfl := Except.ok.inj hd'
    exact hne (block_eq_of_site h hb hb' hin (heq ▸ hin'))
  have hsited : ∀ e ∈ f.blocks.flatMap (blockDefinitions m), ∃ d : Definition, e = .ok d ∧
      d.Sited m := by
    intro e he
    obtain ⟨b, hb, he⟩ := List.mem_flatMap.mp he
    obtain ⟨d, hd, hsited, -⟩ := sited_of_complete h hb he
    exact ⟨d, hd, hsited⟩
  have hempty (v : ValueId) :
      (Array.replicate m.values.size (none : Option Definition)).getD v none = none := by
    rw [Array.getD_eq_getD_getElem?, Array.getElem?_replicate]
    split <;> rfl
  obtain ⟨hfaults, -, hentered⟩ :=
    enterDefinitions_of_sited hsited hdiffer Array.size_replicate fun d _ => hempty d.value
  exact ⟨hfaults, fun b hb d hd => hentered d (List.mem_flatMap.mpr ⟨b, hb, hd⟩)⟩

/-- The definition of what a block defines is found, at its place in the block. -/
theorem exists_definition {b : BlockId} (hb : b ∈ f.blocks) {v : ValueId}
    (hv : (m.codeOf types f).Defines b v) :
    ∃ d : Definition, (m.definitions f).2.getD v none = some d ∧
      d.block = b ∧ ∀ k, d.position = some k → ∃ i inst, (m.block b).insts[k]? = some i ∧
        m.insts[i]? = some inst ∧ inst.result = some v := by
  obtain ⟨-, hentered⟩ := definitions_of_complete h
  rcases hv with hv | ⟨i, hi, inst, hinst, hresult⟩
  · obtain ⟨i, hi⟩ := List.getElem?_of_mem hv
    exact ⟨_, hentered b hb _ (param_mem_blockDefinitions hi), rfl, nofun⟩
  · obtain ⟨k, hk⟩ := List.getElem?_of_mem hi
    have hmem : .ok { value := v, block := b, position := some k, site := .inst i } ∈
        blockDefinitions m b := by
      unfold blockDefinitions
      refine List.mem_append_right _ (List.mem_filterMap.mpr
        ⟨(i, k), List.mem_zipIdx_iff_getElem?.mpr hk, ?_⟩)
      simp only [show m.insts[i]? = some inst from hinst, hresult, Option.map_some]
    refine ⟨_, hentered b hb _ hmem, rfl, fun k' hk' => ?_⟩
    obtain rfl := Option.some.inj hk'
    exact ⟨i, inst, hk, hinst, hresult⟩

/-- A value is defined in one block only. -/
theorem definer_unique {b b' : BlockId} (hb : b ∈ f.blocks) (hb' : b' ∈ f.blocks) {v : ValueId}
    (hv : (m.codeOf types f).Defines b v) (hv' : (m.codeOf types f).Defines b' v) : b = b' := by
  obtain ⟨d, hd, rfl, -⟩ := exists_definition h hb hv
  obtain ⟨d', hd', rfl, -⟩ := exists_definition h hb' hv'
  rw [Option.some.inj (hd.symm.trans hd')]

/-- Nothing is known on a path from the entry that no definition of it is on. -/
theorem not_avail_of_reach {v : ValueId} {next : BlockId → List BlockId} {S : BlockId → Prop}
    (hS : ∀ x ∈ f.blocks, S x → ¬(m.codeOf types f).Defines x v) (hentry : S K.entry)
    (hnext : ∀ x, ∀ y ∈ next x, y ∈ (m.cfg f).successors x ∧ S y) {b : BlockId}
    (hb : Walk.Reach next K.entry b) : ¬A b v := by
  have hpath : b ∈ f.blocks ∧ S b ∧ ¬A b v := by
    refine hb.mem_of_closed (P := fun x => x ∈ f.blocks ∧ S x ∧ ¬A x v)
      ⟨h.entry, hentry, h.valid.start v⟩ ?_
    rintro x ⟨hx, hSx, hAx⟩ y hy
    obtain ⟨hstep, hSy⟩ := hnext x y hy
    obtain ⟨hsucc, hmem, -⟩ := Module.mem_successors_cfg.mp hstep
    obtain ⟨t, e, ht, he, rfl⟩ := mem_edges_of_successor hsucc
    refine ⟨hmem, hSy, fun hAy => ?_⟩
    exact ((((h.valid.block x hx).term t ht).edges e he).avail v hAy).elim hAx (hS x hx hSx)
  exact hpath.2.2

/-- What is known at the start of a block that is reached is defined in a block that dominates
it. -/
theorem exists_dominator (hentry : f.entry = some K.entry) {b : BlockId} (hb : b ∈ f.blocks)
    (hreached : (m.cfg f).dominance.isReached b = true) {v : ValueId} (hv : A b v) :
    ∃ y ∈ f.blocks, (m.codeOf types f).Defines y v ∧ (m.cfg f).dominance.dominates y b = true := by
  have hlt : K.entry < m.blocks.size := (h.valid.owned _ h.entry).2
  have hreach := (isReached_iff hentry hlt).mp hreached
  have hdefiner : ∃ y ∈ f.blocks, (m.codeOf types f).Defines y v := by
    by_contra hnone
    refine not_avail_of_reach h (S := fun _ => True)
      (fun x hx _ hdef => hnone ⟨x, hx, hdef⟩) trivial (fun x y hy => ⟨hy, trivial⟩) hreach hv
  obtain ⟨y, hy, hdef⟩ := hdefiner
  refine ⟨y, hy, hdef, ?_⟩
  have hblocks : ∀ x ∈ f.blocks, x < m.blocks.size := fun x hx => (h.valid.owned x hx).2
  refine (dominates_eq_true_iff hentry hblocks h.entry).mpr ⟨hy, hb, .inr ⟨hreached, ?_⟩⟩
  rintro ⟨hne, hpath⟩
  refine not_avail_of_reach h (S := (· ≠ y)) (fun x hx hxy hdef' => ?_) hne
    (fun x z hz => ?_) hpath hv
  · exact hxy (definer_unique h hx hy hdef' hdef)
  · obtain ⟨hz, hzy⟩ := List.mem_filter.mp hz
    exact ⟨hz, bne_iff_ne.mp hzy⟩

/-- What is known in a block that is reached is available at a place of it, unless an instruction
that is not before the place defines it. -/
theorem isAvailable_of_known (hentry : f.entry = some K.entry) {b : BlockId} (hb : b ∈ f.blocks)
    (hreached : (m.cfg f).dominance.isReached b = true) {v : ValueId}
    (hv : (m.codeOf types f).Known A b v) {position : Nat}
    (hbefore : ∀ (k : Nat) i inst, (m.block b).insts[k]? = some i →
      m.insts[i]? = some inst → inst.result = some v → k < position) :
    isAvailable (m.cfg f).dominance (m.definitions f).2 b position v = true := by
  have hhere (hdef : (m.codeOf types f).Defines b v) :
      isAvailable (m.cfg f).dominance (m.definitions f).2 b position v = true := by
    obtain ⟨d, hd, hblock, hposition⟩ := exists_definition h hb hdef
    unfold isAvailable
    simp only [hd, hblock, if_true]
    cases hpos : d.position with
    | none => rfl
    | some k =>
      obtain ⟨i, inst, hi, hinst, hresult⟩ := hposition k hpos
      exact decide_eq_true (hbefore k i inst hi hinst hresult)
  rcases hv with hv | hdef
  · obtain ⟨y, hy, hdef, hdominates⟩ := exists_dominator h hentry hb hreached hv
    by_cases hyb : y = b
    · exact hhere (hyb ▸ hdef)
    · obtain ⟨d, hd, hblock, -⟩ := exists_definition h hy hdef
      unfold isAvailable
      simp only [hd, hblock, if_neg hyb]
      exact hdominates
  · exact hhere hdef

theorem useFaults_eq_nil (hentry : f.entry = some K.entry) {b : BlockId} (hb : b ∈ f.blocks)
    (hreached : (m.cfg f).dominance.isReached b = true) :
    useFaults m (m.cfg f).dominance (m.definitions f).2 b = [] := by
  have hblock := h.valid.block b hb
  unfold useFaults
  extract_lets block missing
  have hmissing {position : Nat} {vs : List ValueId} (hvs : ∀ v ∈ vs,
      isAvailable (m.cfg f).dominance (m.definitions f).2 b position v = true) :
      missing position vs = [] := by
    refine List.filter_eq_nil_iff.mpr fun v hv => ?_
    rw [hvs v hv]
    simp
  refine List.append_eq_nil_iff.mpr ⟨List.flatMap_eq_nil_iff.mpr fun p hp => ?_, ?_⟩
  · obtain ⟨i, k⟩ := p
    have hk := List.mem_zipIdx_iff_getElem?.mp hp
    obtain ⟨inst, hinst, hvalid⟩ := hblock.insts i (List.mem_of_getElem? hk)
    simp only [show m.insts[i]? = some inst from hinst]
    rw [hmissing, List.map_nil]
    intro v hv
    obtain ⟨hknown, hbefore⟩ := hvalid.uses v hv
    refine isAvailable_of_known h hentry hb hreached hknown fun k' i' inst' hi' hinst' hresult => ?_
    obtain ⟨inst'', hinst'', hvalid'⟩ := hblock.insts i' (List.mem_of_getElem? hi')
    obtain rfl := Option.some.inj (hinst'.symm.trans hinst'')
    obtain ⟨value, hvalue, hsite⟩ := hvalid'.result v hresult
    exact index_lt_of_sorted hblock.sorted hk hi' (hbefore value i' hvalue hsite)
  · cases hterm : block.term with
    | none => rfl
    | some t =>
      show (missing _ _).map _ = []
      rw [hmissing, List.map_nil]
      intro v hv
      refine isAvailable_of_known h hentry hb hreached ((hblock.term t hterm).uses v hv).1
        fun k i inst hi _ _ => ?_
      exact (List.getElem?_eq_some_iff.mp hi).1

/-- Every operand's definition dominates its use. -/
theorem dominanceFaults_eq_nil (hentry : f.entry = some K.entry) :
    dominanceFaults m f (m.definitions f).2 false = [] := by
  unfold dominanceFaults
  refine List.flatMap_eq_nil_iff.mpr fun p hp => ?_
  obtain ⟨b, reached⟩ := p
  cases reached with
  | false => rfl
  | true =>
    obtain ⟨hb, hreached⟩ := mem_reachedBlocks.mp hp
    exact useFaults_eq_nil h hentry hb hreached

/-- Nothing leads to the entry. -/
theorem entryPredecessorFaults_eq_nil : entryPredecessorFaults m f K.entry = [] := by
  have hnone : (m.cfg f).predecessors.getD K.entry [] = [] := by
    refine List.eq_nil_iff_forall_not_mem.mpr fun b hb => ?_
    obtain ⟨hmem, hsucc, -⟩ := Cfg.mem_predecessors.mp hb
    obtain ⟨t, e, ht, he, heq⟩ := mem_edges_of_successor (Module.mem_successors_cfg.mp hsucc).1
    exact (((h.valid.block b hmem).term t ht).edges e he).ne_entry heq
  unfold entryPredecessorFaults
  rw [hnone]
  rfl

theorem edgeFaults_eq_nil {b : BlockId} {e : BlockId × List ValueId}
    (he : (m.codeOf types f).EdgeValid K A b e) (edge : EdgeKind) :
    edgeFaults m f b edge e.1 e.2 = [] := by
  obtain ⟨target, args⟩ := e
  have howned : target ∈ f.blocks := he.owned
  have hlt : target < m.blocks.size := (h.valid.owned target howned).2
  have hblock : m.block target = m.blocks[target] := by
    unfold Module.block
    rw [Array.getD_eq_getD_getElem?, Array.getElem?_eq_getElem hlt]
    rfl
  have hargs : List.Forall₂ (fun v p => ∃ t, typeIn m.values v = some t ∧
      typeIn m.values p = some t) args m.blocks[target].params := hblock ▸ he.args
  unfold edgeFaults
  simp only [Array.getElem?_eq_getElem hlt]
  rw [if_neg (by simpa using howned), if_neg (not_not.mpr hargs.length_eq)]
  refine List.append_eq_nil_iff.mpr ⟨List.flatMap_eq_nil_iff.mpr fun v hv => ?_,
    List.filterMap_eq_nil_iff.mpr fun p hp => ?_⟩
  · obtain ⟨i, hi⟩ := List.getElem?_of_mem hv
    obtain ⟨p, -, t, ht, -⟩ := getElem?_of_forall₂ hargs hi
    exact valueFaults_eq_nil (lt_size_of_typeIn ht)
  · obtain ⟨⟨arg, param⟩, index⟩ := p
    obtain ⟨t, ht, ht'⟩ := List.forall₂_zip hargs (List.fst_mem_of_mem_zipIdx hp)
    simp only [valueType_eq ht, valueType_eq ht', bne_self_eq_false, Bool.and_false]
    rfl

theorem terminatorFaults_eq_nil (hret : f.ret = K.ret) {b : BlockId} {t : Terminator}
    (ht : (m.codeOf types f).EndValid K A b t) : terminatorFaults m f b t = [] := by
  have hplain {v : ValueId} (hv : v ∈ t.operands) : v < m.values.size := by
    obtain ⟨-, x, hx⟩ := ht.uses v hv
    exact lt_size_of_kind? hx
  cases t with
  | ret value =>
    cases value with
    | none => rfl
    | some v =>
      have htype := ht.ret v rfl
      have hhas : m.hasValue v = true := decide_eq_true (hplain List.mem_cons_self)
      simp [terminatorFaults, hhas, valueType_eq htype, hret]
  | jump target args => exact edgeFaults_eq_nil h (ht.edges _ List.mem_cons_self) _
  | branch cond t targs e eargs =>
    exact List.append_eq_nil_iff.mpr ⟨List.append_eq_nil_iff.mpr
      ⟨valueFaults_eq_nil (hplain List.mem_cons_self),
        edgeFaults_eq_nil h (ht.edges (t, targs) List.mem_cons_self) _⟩,
      edgeFaults_eq_nil h (ht.edges (e, eargs) (List.mem_cons_of_mem _ List.mem_cons_self)) _⟩
  | _ => rfl

theorem blockFaults_eq_nil (hsignature : K.signature = (m.typeContext types).signature)
    (hret : f.ret = K.ret) {b : BlockId} (hb : b ∈ f.blocks) : blockFaults m f b = [] := by
  have hblock := h.valid.block b hb
  obtain ⟨t, ht⟩ := Option.isSome_iff_exists.mp (h.ended b hb)
  unfold blockFaults
  simp only [show (m.block b).term = some t from ht]
  refine List.append_eq_nil_iff.mpr ⟨terminatorFaults_eq_nil h hret (hblock.term t ht),
    List.flatMap_eq_nil_iff.mpr fun p hp => ?_⟩
  obtain ⟨i, hi, heq⟩ := List.mem_filterMap.mp hp
  obtain ⟨inst, hinst, hvalid⟩ := hblock.insts i hi
  rw [show m.insts[i]? = some inst from hinst] at heq
  obtain rfl := Option.some.inj heq
  exact instFaults_eq_nil hsignature hvalid.fits

end Complete

/-! ## Functions and modules -/

theorem bodyFaults_eq_nil (hm : m.Typed types) (hf : f ∈ m.functions)
    (hsignature : K.signature = (m.typeContext types).signature) (h : f.Complete K m types) :
    bodyFaults m f false = [] := by
  obtain ⟨A, hcode⟩ := h.code
  have hentry : K.entry ∈ f.blocks := hcode.entry
  have hlt {b : BlockId} (hb : b ∈ f.blocks) : b < m.blocks.size := (hcode.valid.owned b hb).2
  have hfind : (f.blocks.find? fun b => !decide (b < m.blocks.size)) = none :=
    List.find?_eq_none.mpr fun b hb => by simpa using hlt hb
  unfold bodyFaults
  simp only [h.entry, Option.filter_some, hlt hentry, decide_true, if_true, hfind]
  rw [if_neg (by simpa using hentry), entryParamFaults_eq_nil (hm.entry f hf _ h.entry),
    entryPredecessorFaults_eq_nil hcode, (definitions_of_complete hcode).1,
    dominanceFaults_eq_nil hcode h.entry, List.flatMap_eq_nil_iff.mpr fun b hb =>
      blockFaults_eq_nil hcode hsignature h.ret hb]
  rfl

/-- The functions that are noted for blocks list them. -/
def OwnersOf (m : Module) (owners : Array (Option FuncId)) : Prop :=
  ∀ b id, owners.getD b none = some id → ∃ f, m.functions.toList[id]? = some f ∧ b ∈ f.blocks

theorem OwnersOf.modify {owners : Array (Option FuncId)} (h : OwnersOf m owners) {b : BlockId}
    {id : FuncId} (hf : m.functions.toList[id]? = some f) (hb : b ∈ f.blocks) :
    OwnersOf m (owners.modify b fun owner => owner <|> some id) := by
  intro b' id' hid'
  rw [Array.getD_eq_getD_getElem?, Array.getElem?_modify] at hid'
  split at hid'
  · rename_i heq
    subst heq
    cases howner : owners[b]? with
    | none =>
      rw [howner] at hid'
      cases hid'
    | some owner =>
      rw [howner] at hid'
      cases owner with
      | none =>
        obtain rfl := Option.some.inj hid'
        exact ⟨f, hf, hb⟩
      | some owner =>
        refine h b id' ?_
        rw [Array.getD_eq_getD_getElem?, howner]
        exact hid'
  · rw [← Array.getD_eq_getD_getElem?] at hid'
    exact h b' id' hid'

theorem ownersOf_blockOwners (m : Module) : OwnersOf m m.blockOwners := by
  unfold Module.blockOwners
  refine List.foldlRecOn _ _ (motive := OwnersOf m) (fun b id hid => ?_)
    fun owners howners p hp => ?_
  · rw [Array.getD_eq_getD_getElem?, Array.getElem?_replicate] at hid
    split at hid <;> cases hid
  · exact List.foldlRecOn _ _ (motive := OwnersOf m) howners fun owners howners b hb =>
      howners.modify (List.mem_zipIdx_iff_getElem?.mp hp) hb

/-- If no two functions share a block, none is found that is shared. -/
theorem sharedBlockFaults_eq_nil
    (h : m.functions.toList.Pairwise fun f g => ∀ k ∈ f.blocks, k ∉ g.blocks) :
    sharedBlockFaults m = [] := by
  unfold sharedBlockFaults
  refine List.flatMap_eq_nil_iff.mpr fun p hp => List.filterMap_eq_nil_iff.mpr fun b hb => ?_
  obtain ⟨f, id⟩ := p
  have hf := List.mem_zipIdx_iff_getElem?.mp hp
  split
  · rename_i owner howner
    obtain ⟨g, hg, hb'⟩ := ownersOf_blockOwners m b owner howner
    obtain ⟨hid, hf⟩ := List.getElem?_eq_some_iff.mp hf
    obtain ⟨howner, hg⟩ := List.getElem?_eq_some_iff.mp hg
    refine if_pos ?_
    have hapart := List.pairwise_iff_getElem.mp h
    rcases Nat.lt_trichotomy owner id with hlt | heq | hgt
    · exact absurd (hf ▸ hb) (hapart owner id howner hid hlt b (hg ▸ hb'))
    · exact heq
    · exact absurd (hg ▸ hb') (hapart id owner hid howner hgt b (hf ▸ hb))
  · rfl

/-- A complete module has no faults. -/
theorem verify_of_complete {functions : Array Hir.Function} {disjoint : Prop} (hm : m.Typed types)
    (h : m.Complete functions (m.typeContext types).signature disjoint types) : m.verify = [] := by
  unfold Module.verify
  refine List.append_eq_nil_iff.mpr ⟨sharedBlockFaults_eq_nil h.apart, List.flatMap_eq_nil_iff.mpr
    fun id hid => ?_⟩
  have hlt := List.mem_range.mp hid
  unfold Module.verifyFunction
  simp only [Array.getElem?_eq_getElem hlt]
  split
  · rfl
  · rename_i hincl
    obtain ⟨K, hK, hcomplete⟩ := h.body _ (Array.getElem_mem hlt) (Bool.eq_false_iff.mpr hincl)
    exact bodyFaults_eq_nil hm (Array.getElem_mem hlt) hK.signature hcomplete

/-- The module that is built from a document has no faults, whichever functions are left out. -/
theorem verify_buildModule [Json.Library] {text docName : String} {sources : Sources}
    {doc : Hir.ReadOutcome} (hdoc : Hir.readDocument text docName {} sources = doc)
    (hok : doc.ok = true) (skip : Hir.FuncId → Bool) :
    (buildModule doc.module doc.types skip).module.verify = [] := by
  subst hdoc
  obtain ⟨hsound, htyped⟩ := Hir.typed_readDocument text docName TypePool.sound_default sources
  obtain ⟨hscoped, hvalued⟩ := Hir.scoped_readDocument text docName sources
  exact verify_of_complete (typed_buildModule (htyped hok) hsound skip)
    (complete_buildModule (htyped hok) hsound hvalued hscoped skip
      fun _ _ _ _ (hfalse : False) => hfalse.elim)

/-- The loop that moves a byte string out of a binding and back carries the binding. -/
theorem verify_buildModule_shuttle :
    (buildModule Hir.shuttleHir {} fun _ => false).module.verify = [] := by
  obtain ⟨doc, hdoc, hmodule, htypes, hok⟩ := Hir.read_shuttleText
  have hverify := @verify_buildModule .standard _ _ _ _ hdoc hok fun _ => false
  rwa [hmodule, htypes] at hverify

end ContractCompiler.Ssa
