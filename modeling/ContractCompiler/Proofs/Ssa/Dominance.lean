import ContractCompiler.Proofs.Ssa.Dominators

/-!
# Dominance is about paths

What the search and the rounds behind `Dominance` find, in terms of paths from the entry.

- `isReached_iff`: the blocks found by the search are those that a path leads to;
- `inRow_dominance_iff`, `dominates_iff`: of two different blocks, the first dominates the second
  exactly if a path leads to the second, and none that the first is not on;
- `dominance_exact`: the same for lists of blocks, of which each has an edge to the next, and that
  the rounds come to an end;
- `not_dominates_entry`, `dominates_of_edge`: how dominance follows the edges. Nothing but the entry
  dominates the entry, and what dominates the target of an edge dominates its start or is the start.
-/

namespace ContractCompiler.Ssa

open BitSet (InRow)

variable {m : Module} {f : Function}

/-! ## Blocks that are reached -/

section Cfg

variable {entry : BlockId} (hentry : f.entry = some entry) (hlt : entry < m.blocks.size)

include hentry hlt

theorem entry_cfg : (m.cfg f).entry = some entry := by
  unfold Module.cfg
  dsimp only
  rw [hentry, Option.filter_some, if_pos (decide_eq_true hlt)]

/-- A block is reached exactly if a path from the entry leads to it. -/
theorem isReached_iff {b : BlockId} : (m.cfg f).dominance.isReached b = true ↔
    Walk.Reach (m.cfg f).successors entry b := by
  have hnext : ∀ n, ∀ c ∈ (m.cfg f).successors n, c < (m.cfg f).size :=
    fun _ _ hc => (Module.mem_successors_cfg.mp hc).2.2
  have hns : ∀ n ∈ (some entry).toList, n < (m.cfg f).size :=
    fun n hn => List.mem_singleton.mp hn ▸ hlt
  show (m.cfg f).walk.Seen b ↔ _
  unfold Cfg.walk
  rw [entry_cfg hentry hlt, Walk.seen_visitAll_iff hnext hns]
  simp

/-- An edge from a block that is reached leads to a block that is reached. -/
theorem isReached_of_edge {b target : BlockId} (hreached : (m.cfg f).dominance.isReached b = true)
    (hedge : target ∈ (m.cfg f).successors b) : (m.cfg f).dominance.isReached target = true := by
  rw [isReached_iff hentry hlt] at hreached ⊢
  exact hreached.trans (.single hedge)

end Cfg

theorem mem_reachedPredecessors {p b : BlockId} :
    p ∈ (m.cfg f).reachedPredecessors.getD b [] ↔
      p ∈ f.blocks ∧ b ∈ (m.cfg f).successors p ∧ (m.cfg f).dominance.isReached p = true := by
  have hpreds : (m.cfg f).reachedPredecessors.getD b []
      = ((m.cfg f).predecessors.getD b []).filter fun p => (m.cfg f).dominance.isReached p := by
    unfold Cfg.reachedPredecessors Dominance.isReached
    simp only [Array.getD_eq_getD_getElem?, Array.getElem?_map]
    cases (m.cfg f).predecessors[b]? <;> rfl
  rw [hpreds, List.mem_filter, Cfg.mem_predecessors]
  constructor
  · rintro ⟨⟨hp, hedge, -⟩, hreached⟩
    exact ⟨hp, hedge, hreached⟩
  · rintro ⟨hp, hedge, hreached⟩
    exact ⟨⟨hp, hedge, (Module.mem_successors_cfg.mp hedge).2.2⟩, hreached⟩

/-- The blocks that the verifier looks into are the blocks of the function that can be reached. -/
theorem mem_reachedBlocks {d : Dominance} {bs : List BlockId} {b : BlockId} :
    (b, true) ∈ d.reachedBlocks bs ↔ b ∈ bs ∧ d.isReached b = true := by
  induction bs with
  | nil => simp [Dominance.reachedBlocks]
  | cons x bs ih =>
    simp only [Dominance.reachedBlocks, List.mem_cons, ih, Prod.mk.injEq]
    constructor
    · rintro (⟨rfl, htrue⟩ | ⟨hmem, hreached⟩)
      · exact ⟨.inl rfl, (Bool.and_eq_true_iff.mp htrue.symm).2⟩
      · exact ⟨.inr hmem, hreached⟩
    · rintro ⟨hmem, hreached⟩
      -- only the last mention of a block counts
      by_cases hlater : b ∈ bs
      · exact .inr ⟨hlater, hreached⟩
      · obtain rfl := hmem.resolve_right hlater
        exact .inl ⟨rfl, by simp [hlater, hreached]⟩

/-! ## Ways around a block -/

/-- A way from the entry to a block that another block is not on. -/
def Around (m : Module) (f : Function) (entry avoided b : BlockId) : Prop :=
  entry ≠ avoided ∧ Walk.Reach (fun x => ((m.cfg f).successors x).filter (· != avoided)) entry b

theorem Around.edge {entry avoided b target : BlockId} (h : Around m f entry avoided b)
    (hedge : target ∈ (m.cfg f).successors b) (hne : avoided ≠ target) :
    Around m f entry avoided target :=
  ⟨h.1, h.2.trans (.single (List.mem_filter.mpr ⟨hedge, bne_iff_ne.mpr hne.symm⟩))⟩

section Edges

variable {entry : BlockId} (hentry : f.entry = some entry)
  (hblocks : ∀ b ∈ f.blocks, b < m.blocks.size)
  (hmem : entry ∈ f.blocks)

include hentry hblocks hmem

/-- The blocks that there is no way around are borne out by the predecessors: a way around one of
them to a predecessor goes on along the edge. -/
theorem supported_around : (m.cfg f).Supported (m.cfg f).reachedPredecessors fun b a =>
    a ∈ f.blocks ∧ (a = b ∨ (m.cfg f).dominance.isReached b = true ∧ ¬Around m f entry a b) where
  listed _ _ ha := ha.1
  entry b hb a ha := by
    obtain rfl : entry = b := Option.some.inj
      ((entry_cfg hentry (hblocks entry hmem)).symm.trans hb)
    by_contra hne
    obtain ⟨-, havoid⟩ := ha.2.resolve_left hne
    exact havoid ⟨Ne.symm hne, .refl _⟩
  pred b hb hne a ha := by
    obtain ⟨hlisted, rfl | ⟨hreached, havoid⟩⟩ := ha
    · exact .inl rfl
    · by_cases hab : a = b
      · exact .inl hab
      · right
        constructor
        · -- the last edge of a way to the block comes from a predecessor
          intro hnone
          rcases ((isReached_iff hentry (hblocks entry hmem)).mp hreached).cases_tail with rfl |
            ⟨p, hp, hedge⟩
          · exact hne (entry_cfg hentry (hblocks b hb))
          · have hpred : p ∈ (m.cfg f).reachedPredecessors.getD b [] := by
              refine mem_reachedPredecessors.mpr ⟨?_, hedge,
                (isReached_iff hentry (hblocks entry hmem)).mpr hp⟩
              exact Walk.Reach.mem_of_closed (P := (· ∈ f.blocks)) hp hmem fun _ _ _ hy =>
                (Module.mem_successors_cfg.mp hy).2.1
            rw [hnone] at hpred
            exact absurd hpred List.not_mem_nil
        · intro p hp
          obtain ⟨-, hedge, hreachedPred⟩ := mem_reachedPredecessors.mp hp
          exact ⟨hlisted, .inr ⟨hreachedPred, fun h => havoid (h.edge hedge hab)⟩⟩

/-- What a family that is borne out by the predecessors has for a block, there is no way around
it. -/
theorem not_around_of_supported {D : BlockId → BlockId → Prop}
    (hD : (m.cfg f).Supported (m.cfg f).reachedPredecessors D) {a b : BlockId} (ha : D b a) :
    ¬Around m f entry a b := by
  rintro ⟨hstart, hpath⟩
  -- along a way around `a`, no block has `a` as a dominator
  suffices hnone : b ∈ f.blocks ∧ b ≠ a ∧ (m.cfg f).dominance.isReached b = true ∧
    ¬D b a from hnone.2.2.2 ha
  refine hpath.mem_of_closed (P := fun x =>
    x ∈ f.blocks ∧ x ≠ a ∧ (m.cfg f).dominance.isReached x = true ∧ ¬D x a) ?_ ?_
  · refine ⟨hmem, hstart, (isReached_iff hentry (hblocks entry hmem)).mpr (.refl _), fun h => ?_⟩
    exact hstart (hD.entry entry (entry_cfg hentry (hblocks entry hmem)) a h).symm
  · rintro x ⟨hx, -, hreached, hnot⟩ y hy
    obtain ⟨hedge, hya⟩ := List.mem_filter.mp hy
    have hya : y ≠ a := bne_iff_ne.mp hya
    have hlisted := (Module.mem_successors_cfg.mp hedge).2.1
    refine ⟨hlisted, hya, isReached_of_edge hentry (hblocks entry hmem) hreached hedge, fun h => ?_⟩
    by_cases hy_entry : (m.cfg f).entry = some y
    · exact hya (hD.entry y hy_entry a h).symm
    · rcases hD.pred y hlisted hy_entry a h with heq | ⟨-, hall⟩
      · exact hya heq.symm
      · exact hnot (hall x (mem_reachedPredecessors.mpr ⟨hx, hedge, hreached⟩))

/-- What a family that is borne out by the predecessors has for a block that is not reached is the
block itself. -/
theorem eq_of_not_reached {D : BlockId → BlockId → Prop}
    (hD : (m.cfg f).Supported (m.cfg f).reachedPredecessors D) {a b : BlockId} (hb : b ∈ f.blocks)
    (ha : D b a) (hreached : (m.cfg f).dominance.isReached b ≠ true) : a = b := by
  have hlt := hblocks entry hmem
  by_cases hb_entry : (m.cfg f).entry = some b
  · exact hD.entry b hb_entry a ha
  · rcases hD.pred b hb hb_entry a ha with heq | ⟨hsome, -⟩
    · exact heq
    · obtain ⟨p, hp⟩ := List.exists_mem_of_ne_nil _ hsome
      obtain ⟨-, hedge, hpred⟩ := mem_reachedPredecessors.mp hp
      exact absurd (isReached_of_edge hentry hlt hpred hedge) hreached

/-- The rounds end, with sets that another round leaves as they are and that hold what the blocks
have of every family that is borne out by the predecessors. -/
theorem dominance_rounds :
    (m.cfg f).dominatorRound (m.cfg f).reachedPredecessors (m.cfg f).dominance.sets
        = (m.cfg f).dominance.sets ∧
      (m.cfg f).Supported (m.cfg f).reachedPredecessors (InRow (m.cfg f).dominance.sets) ∧
      (∃ n ≤ f.blocks.length * f.blocks.length, (m.cfg f).dominance.sets
        = ((m.cfg f).dominatorRound (m.cfg f).reachedPredecessors)^[n] (m.cfg f).firstDominators) ∧
      ∀ D, (m.cfg f).Supported (m.cfg f).reachedPredecessors D →
        ∀ b < m.blocks.size, ∀ a, D b a → InRow (m.cfg f).dominance.sets b a := by
  refine Cfg.settle_dominatorRound hblocks (fun b hb => ?_)
    fun b p hp => hblocks p (mem_reachedPredecessors.mp hp).1
  exact Option.some.inj ((entry_cfg hentry (hblocks entry hmem)).symm.trans hb) ▸ hmem

/-- The rounds end with the blocks that there is no way around. -/
theorem inRow_dominance_iff {a b : BlockId} (hb : b ∈ f.blocks) :
    InRow (m.cfg f).dominance.sets b a ↔
      a ∈ f.blocks ∧ (a = b ∨ (m.cfg f).dominance.isReached b = true ∧ ¬Around m f entry a b) := by
  obtain ⟨-, hsupported, -, hgreatest⟩ := dominance_rounds hentry hblocks hmem
  constructor
  · intro ha
    refine ⟨hsupported.listed b a ha, ?_⟩
    by_cases hab : a = b
    · exact .inl hab
    · right
      refine ⟨?_, not_around_of_supported hentry hblocks hmem hsupported ha⟩
      by_contra hreached
      exact hab (eq_of_not_reached hentry hblocks hmem hsupported hb ha hreached)
  · exact hgreatest _ (supported_around hentry hblocks hmem) b (hblocks b hb) a

theorem dominates_eq_true_iff {a b : BlockId} :
    (m.cfg f).dominance.dominates a b = true ↔ a ∈ f.blocks ∧ b ∈ f.blocks ∧
      (a = b ∨ (m.cfg f).dominance.isReached b = true ∧ ¬Around m f entry a b) := by
  have hunfold : (m.cfg f).dominance.dominates a b = true ↔
      (a ∈ f.blocks ∧ b ∈ f.blocks) ∧ InRow (m.cfg f).dominance.sets b a := by
    simp only [Dominance.dominates, InRow, Bool.and_eq_true, List.contains_iff_mem]
    rfl
  rw [hunfold]
  constructor
  · rintro ⟨⟨ha, hb⟩, hrow⟩
    exact ⟨ha, hb, ((inRow_dominance_iff hentry hblocks hmem hb).mp hrow).2⟩
  · rintro ⟨ha, hb, hdom⟩
    exact ⟨⟨ha, hb⟩, (inRow_dominance_iff hentry hblocks hmem hb).mpr ⟨ha, hdom⟩⟩

/-! ## Dominance along edges -/

theorem dominates_iff {a b : BlockId} (hne : a ≠ b) :
    (m.cfg f).dominance.dominates a b = true ↔
      a ∈ f.blocks ∧ b ∈ f.blocks ∧ (m.cfg f).dominance.isReached b = true ∧
      ¬Around m f entry a b := by
  rw [dominates_eq_true_iff hentry hblocks hmem]
  simp [hne]

theorem not_dominates_entry {a : BlockId} (hne : a ≠ entry) :
    (m.cfg f).dominance.dominates a entry = false := by
  refine Bool.eq_false_iff.mpr fun hdom => ?_
  obtain ⟨-, -, -, havoid⟩ := (dominates_iff hentry hblocks hmem hne).mp hdom
  exact havoid ⟨hne.symm, .refl _⟩

/-- What dominates the target of an edge from a block that is reached dominates the block, or is the
block. -/
theorem dominates_of_edge {a b target : BlockId} (hb : b ∈ f.blocks)
    (hreached : (m.cfg f).dominance.isReached b = true) (hedge : target ∈ (m.cfg f).successors b)
    (hne : a ≠ target) (hdom : (m.cfg f).dominance.dominates a target = true) :
    a = b ∨ (m.cfg f).dominance.dominates a b = true := by
  by_cases hab : a = b
  · exact .inl hab
  · right
    obtain ⟨ha, -, -, havoid⟩ := (dominates_iff hentry hblocks hmem hne).mp hdom
    refine (dominates_iff hentry hblocks hmem hab).mpr ⟨ha, hb, hreached, ?_⟩
    exact fun haround => havoid (haround.edge hedge hne)

end Edges

/-! ## Paths -/

/-- A path through blocks of a function: the list of its blocks, from the first to the last. -/
inductive Module.Path (m : Module) (f : Function) : BlockId → List BlockId → BlockId → Prop
  | here (b : BlockId) : Path m f b [b] b
  | step {b next target : BlockId} {path : List BlockId} (hedge : next ∈ (m.block b).successors)
      (hnext : next ∈ f.blocks) (hpath : Path m f next path target) : Path m f b (b :: path) target

theorem Module.Path.target_mem {b target : BlockId} {path : List BlockId}
    (h : m.Path f b path target) :
    target ∈ path := by
  induction h with
  | here b => exact List.mem_cons_self
  | step _ _ _ ih => exact List.mem_cons_of_mem _ ih

section Paths

variable (hblocks : ∀ b ∈ f.blocks, b < m.blocks.size)

include hblocks

/-- Paths that keep out of some of the blocks are steps along edges to the others. -/
theorem exists_path_iff (S : BlockId → Bool) {b target : BlockId} :
    (∃ path, m.Path f b path target ∧ ∀ x ∈ path, S x = true) ↔
      S b = true ∧ Walk.Reach (fun x => ((m.cfg f).successors x).filter S) b target := by
  constructor
  · rintro ⟨path, hpath, hall⟩
    induction hpath with
    | here b => exact ⟨hall b List.mem_cons_self, .refl b⟩
    | step hedge hnext _ ih =>
      obtain ⟨hS, hreach⟩ := ih fun x hx => hall x (List.mem_cons_of_mem _ hx)
      refine ⟨hall _ List.mem_cons_self, Walk.Reach.trans (.single ?_) hreach⟩
      exact List.mem_filter.mpr ⟨Module.mem_successors_cfg.mpr ⟨hedge, hnext, hblocks _ hnext⟩, hS⟩
  · rintro ⟨hS, hreach⟩
    induction hreach using Relation.ReflTransGen.head_induction_on with
    | refl => exact ⟨[target], .here target, by simpa using hS⟩
    | @head b next hstep _ ih =>
      obtain ⟨hedge, hnext⟩ := List.mem_filter.mp hstep
      obtain ⟨hedge, hlisted, -⟩ := Module.mem_successors_cfg.mp hedge
      obtain ⟨path, hpath, hall⟩ := ih hnext
      exact ⟨b :: path, .step hedge hlisted hpath, List.forall_mem_cons.mpr ⟨hS, hall⟩⟩

theorem exists_path_around_iff {entry a b : BlockId} :
    (∃ path, m.Path f entry path b ∧ a ∉ path) ↔ Around m f entry a b := by
  have havoid (path : List BlockId) : (∀ x ∈ path, (x != a) = true) ↔ a ∉ path := by
    constructor
    · intro hall ha
      exact bne_iff_ne.mp (hall a ha) rfl
    · intro hnot x hx
      exact bne_iff_ne.mpr fun heq => hnot (heq ▸ hx)
  have hpath : (∃ path, m.Path f entry path b ∧ ∀ x ∈ path, (x != a) = true) ↔ _ :=
    exists_path_iff hblocks (· != a)
  simp only [havoid] at hpath
  rw [hpath, bne_iff_ne]
  exact Iff.rfl

theorem isReached_iff_path {entry b : BlockId} (hentry : f.entry = some entry)
    (hmem : entry ∈ f.blocks) :
    (m.cfg f).dominance.isReached b = true ↔ ∃ path, m.Path f entry path b := by
  rw [isReached_iff hentry (hblocks entry hmem)]
  have hpath : (∃ path, m.Path f entry path b ∧ ∀ x ∈ path, true = true) ↔ _ :=
    exists_path_iff hblocks fun _ => true
  simpa using hpath.symm

end Paths

/-- The rounds that find the dominators end because one changes nothing; the blocks found to be
reached are those that a path from the entry leads to, a block dominates one of them exactly if it
is on all paths to it, and the other blocks are dominated by themselves alone. -/
theorem dominance_exact {m : Module} {f : Function} {entry : BlockId}
    (hentry : f.entry = some entry) (hmem : entry ∈ f.blocks)
    (hblocks : ∀ b ∈ f.blocks, b < m.blocks.size) :
    (∃ n ≤ f.blocks.length * f.blocks.length,
      (m.cfg f).dominance.sets
          = ((m.cfg f).dominatorRound (m.cfg f).reachedPredecessors)^[n] (m.cfg f).firstDominators ∧
        (m.cfg f).dominatorRound (m.cfg f).reachedPredecessors (m.cfg f).dominance.sets
          = (m.cfg f).dominance.sets) ∧
      ∀ b ∈ f.blocks,
        ((m.cfg f).dominance.isReached b = true ↔ ∃ path, m.Path f entry path b) ∧
        ∀ a ∈ f.blocks, ((m.cfg f).dominance.dominates a b = true ↔
          if (m.cfg f).dominance.isReached b then ∀ path, m.Path f entry path b → a ∈ path
            else a = b) := by
  obtain ⟨hend, -, ⟨n, hn, hsets⟩, -⟩ := dominance_rounds hentry hblocks hmem
  refine ⟨⟨n, hn, hsets, hend⟩, fun b hb => ⟨isReached_iff_path hblocks hentry hmem,
    fun a ha => ?_⟩⟩
  rw [dominates_eq_true_iff hentry hblocks hmem]
  by_cases hreached : (m.cfg f).dominance.isReached b = true
  · rw [if_pos hreached]
    constructor
    · rintro ⟨-, -, rfl | ⟨-, havoid⟩⟩ path hpath
      · exact hpath.target_mem
      · by_contra hnot
        exact havoid ((exists_path_around_iff hblocks).mp ⟨path, hpath, hnot⟩)
    · intro hall
      refine ⟨ha, hb, .inr ⟨hreached, fun haround => ?_⟩⟩
      obtain ⟨path, hpath, hnot⟩ := (exists_path_around_iff hblocks).mpr haround
      exact hnot (hall path hpath)
  · rw [if_neg hreached]
    simp [hreached, ha, hb]

/-- Two blocks that lead to each other, each with an edge from the entry, and a block that nothing
leads to and that leads to one of them. -/
def crossing : Module where
  functions := #[{ name := "crossing", blocks := [2, 0, 1, 3], entry := some 0 }]
  blocks := #[{ term := some (.branch 0 1 [] 2 []) }, { term := some (.jump 2 []) },
    { term := some (.jump 1 []) }, { term := some (.jump 1 []) }]

/-- Only the entry dominates each of the two blocks, apart from the block itself. -/
theorem dominance_exact_crossing :
    ((crossing.cfg crossing.functions[0]).dominance.dominates 0 2 = true ∧
      ∀ path, crossing.Path crossing.functions[0] 0 path 2 → 0 ∈ path) ∧
    (crossing.cfg crossing.functions[0]).dominance.dominates 1 2 = false ∧
    ¬∃ path, crossing.Path crossing.functions[0] 0 path 3 := by
  obtain ⟨-, hexact⟩ := dominance_exact (m := crossing)
    (rfl : crossing.functions[0].entry = some 0) (by decide) (by decide)
  have hbelow : (crossing.cfg crossing.functions[0]).dominance.dominates 0 2 = true := by
    decide +kernel
  have hreached : (crossing.cfg crossing.functions[0]).dominance.isReached 2 = true := by
    decide +kernel
  have hpaths := ((hexact 2 (by decide)).2 0 (by decide)).mp hbelow
  rw [if_pos hreached] at hpaths
  refine ⟨⟨hbelow, hpaths⟩, by decide +kernel, ?_⟩
  rw [← (hexact 3 (by decide)).1]
  decide +kernel

end ContractCompiler.Ssa
