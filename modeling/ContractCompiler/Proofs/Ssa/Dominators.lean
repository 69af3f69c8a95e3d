import ContractCompiler.Proofs.BitSet
import ContractCompiler.Proofs.Search
import ContractCompiler.Proofs.Ssa.Cfg
import ContractCompiler.Ssa.Dominance

/-!
# The rounds that find dominators

Every round over the blocks takes blocks out of the sets, and the rounds end with the greatest
family of sets in which the dominators of a block, apart from the block itself, dominate all its
predecessors.

- `Cfg.Bounding`: what holds of the sets after every step, so that a step only takes blocks out;
- `Cfg.Supported`: families of dominators that are borne out by the predecessors;
- `Cfg.inRow_dominatorRound`: no round takes out a member of such a family;
- `Cfg.supported_of_fixed`: sets that a round leaves as they are form such a family;
- `Cfg.settle_dominatorRound`: the rounds end with such sets, after no more of them than there are
  pairs of blocks.
-/

namespace ContractCompiler.Ssa

open BitSet (InRow)

/-! ## Common dominators -/

theorem contains_foldl_inter (sets : Array BitSet) (ps : List BlockId) (s : BitSet) (a : BlockId) :
    (ps.foldl (fun met q => met.inter (sets.getD q .empty)) s).contains a = true ↔
      s.contains a = true ∧ ∀ q ∈ ps, InRow sets q a := by
  induction ps generalizing s with
  | nil => simp
  | cons p ps ih =>
    rw [List.foldl_cons, ih, BitSet.contains_inter, Bool.and_eq_true,
      List.forall_mem_cons, and_assoc]
    rfl

theorem contains_meetDominators {sets : Array BitSet} {b a : BlockId} {ps : List BlockId} :
    (meetDominators sets b ps).contains a = true ↔
    a = b ∨ (ps ≠ [] ∧ ∀ p ∈ ps, InRow sets p a) := by
  cases ps with
  | nil => simp [meetDominators, eq_comm]
  | cons p ps =>
    rw [meetDominators, BitSet.contains_insert, Bool.or_eq_true, decide_eq_true_iff,
      contains_foldl_inter, List.forall_mem_cons, or_comm, @eq_comm Nat b a]
    simp [InRow]

theorem meetDominators_mono {sets sets' : Array BitSet}
    (h : ∀ b a, InRow sets' b a → InRow sets b a) {b a : BlockId} {ps : List BlockId}
    (ha : (meetDominators sets' b ps).contains a = true) :
    (meetDominators sets b ps).contains a = true := by
  rw [contains_meetDominators] at ha ⊢
  exact ha.imp_right fun ⟨hne, hall⟩ => ⟨hne, fun p hp => h p a (hall p hp)⟩

namespace Cfg

variable {g : Cfg} {preds : Array (List BlockId)} {sets sets' : Array BitSet}

/-! ## Steps -/

/-- What holds of the sets after every step: they hold blocks of the function, only the entry
dominates the entry, and no block has lost a dominator that its predecessors have in common. -/
structure Bounding (g : Cfg) (preds : Array (List BlockId)) (sets : Array BitSet) : Prop where
  size_eq : sets.size = g.size
  listed : ∀ b a, InRow sets b a → a ∈ g.blocks
  entry : ∀ b, g.entry = some b → ∀ a, InRow sets b a → a = b
  meets : ∀ b ∈ g.blocks, g.entry ≠ some b → ∀ a,
    (meetDominators sets b (preds.getD b [])).contains a = true → InRow sets b a

@[simp] theorem size_dominatorStep (b : BlockId) :
    (g.dominatorStep preds sets b).size = sets.size := by
  unfold dominatorStep
  split
  · rfl
  · exact Array.size_setIfInBounds

theorem getD_dominatorStep_of_ne {x b : BlockId} (hne : x ≠ b) :
    (g.dominatorStep preds sets b).getD x .empty = sets.getD x .empty := by
  unfold dominatorStep
  split
  · rfl
  · exact BitSet.getD_setIfInBounds_of_ne hne _

theorem inRow_dominatorStep_self {b : BlockId} (hlt : b < sets.size) (hb : g.entry ≠ some b)
    (a : BlockId) : InRow (g.dominatorStep preds sets b) b a ↔
      (meetDominators sets b (preds.getD b [])).contains a = true := by
  unfold InRow dominatorStep
  rw [if_neg hb, BitSet.getD_setIfInBounds_self hlt]

section Step

variable (hblocks : ∀ b ∈ g.blocks, b < g.size) (h : g.Bounding preds sets)

include hblocks h

/-- A step only takes blocks out of the sets. -/
theorem inRow_of_dominatorStep {b : BlockId} (hb : b ∈ g.blocks) {x a : BlockId}
    (ha : InRow (g.dominatorStep preds sets b) x a) : InRow sets x a := by
  by_cases hentry : g.entry = some b
  · rwa [dominatorStep, if_pos hentry] at ha
  · by_cases hx : x = b
    · subst hx
      have hlt : x < sets.size := h.size_eq ▸ hblocks x hb
      exact h.meets x hb hentry a ((inRow_dominatorStep_self hlt hentry a).mp ha)
    · rwa [InRow, getD_dominatorStep_of_ne hx] at ha

theorem Bounding.step {b : BlockId} (hb : b ∈ g.blocks) :
    g.Bounding preds (g.dominatorStep preds sets b) where
  size_eq := (size_dominatorStep b).trans h.size_eq
  listed x a ha := h.listed x a (inRow_of_dominatorStep hblocks h hb ha)
  entry x hx a ha := h.entry x hx a (inRow_of_dominatorStep hblocks h hb ha)
  meets x hx hentry a ha := by
    -- the predecessors have no more than before the step
    have hbefore := meetDominators_mono (fun _ _ => inRow_of_dominatorStep hblocks h hb) ha
    by_cases hxb : x = b
    · subst hxb
      exact (inRow_dominatorStep_self (h.size_eq ▸ hblocks x hx) hentry a).mpr hbefore
    · rw [InRow, getD_dominatorStep_of_ne hxb]
      exact h.meets x hx hentry a hbefore

end Step

/-! ## Rounds -/

section Round

variable (hblocks : ∀ b ∈ g.blocks, b < g.size)

include hblocks

/-- Steps for some of the blocks keep what holds of the sets, take only blocks out of them, and
leave each of the blocks no more than what its predecessors had in common at the start. -/
theorem foldl_dominatorStep (bs : List BlockId) (hbs : ∀ b ∈ bs, b ∈ g.blocks) :
    ∀ sets : Array BitSet, g.Bounding preds sets →
      g.Bounding preds (bs.foldl (g.dominatorStep preds) sets) ∧
      (∀ x a, InRow (bs.foldl (g.dominatorStep preds) sets) x a → InRow sets x a) ∧
      ∀ b ∈ bs, g.entry ≠ some b → ∀ a, InRow (bs.foldl (g.dominatorStep preds) sets) b a →
        (meetDominators sets b (preds.getD b [])).contains a = true := by
  induction bs with
  | nil => exact fun sets h => ⟨h, fun _ _ ha => ha, fun _ hb => absurd hb List.not_mem_nil⟩
  | cons c cs ih =>
    intro sets h
    have hc := hbs c List.mem_cons_self
    have hshrink : ∀ x a, InRow (g.dominatorStep preds sets c) x a → InRow sets x a :=
      fun _ _ => inRow_of_dominatorStep hblocks h hc
    obtain ⟨hbound, hrest, hmeets⟩ := ih (fun b hb => hbs b (List.mem_cons_of_mem c hb))
      (g.dominatorStep preds sets c) (h.step hblocks hc)
    refine ⟨hbound, fun x a ha => hshrink x a (hrest x a ha), fun b hb hentry a ha => ?_⟩
    rcases List.mem_cons.mp hb with rfl | hb
    · exact (inRow_dominatorStep_self (h.size_eq ▸ hblocks b hc) hentry a).mp (hrest b a ha)
    · exact meetDominators_mono hshrink (hmeets b hb hentry a ha)

theorem Bounding.round (h : g.Bounding preds sets) :
    g.Bounding preds (g.dominatorRound preds sets) :=
  (foldl_dominatorStep hblocks g.blocks (fun _ hb => hb) sets h).1

theorem inRow_of_dominatorRound (h : g.Bounding preds sets) {x a : BlockId}
    (ha : InRow (g.dominatorRound preds sets) x a) : InRow sets x a :=
  (foldl_dominatorStep hblocks g.blocks (fun _ hb => hb) sets h).2.1 x a ha

end Round

/-! ## Families of dominators -/

/-- A family of dominators, among the blocks of the function, that is borne out by the predecessors:
what dominates a block, but not trivially, dominates all its predecessors, of which there are
some. -/
structure Supported (g : Cfg) (preds : Array (List BlockId))
    (D : BlockId → BlockId → Prop) : Prop where
  listed : ∀ b a, D b a → a ∈ g.blocks
  entry : ∀ b, g.entry = some b → ∀ a, D b a → a = b
  pred : ∀ b ∈ g.blocks, g.entry ≠ some b → ∀ a, D b a →
    a = b ∨ (preds.getD b [] ≠ [] ∧ ∀ p ∈ preds.getD b [], D p a)

/-- Sets that a round leaves as they are form such a family. -/
theorem supported_of_fixed (hblocks : ∀ b ∈ g.blocks, b < g.size) (h : g.Bounding preds sets)
    (hfixed : g.dominatorRound preds sets = sets) : g.Supported preds (InRow sets) where
  listed := h.listed
  entry := h.entry
  pred b hb hentry a ha := by
    have hmeets := (foldl_dominatorStep hblocks g.blocks (fun _ hb => hb) sets h).2.2 b hb hentry a
    rw [← contains_meetDominators]
    refine hmeets ?_
    show InRow (g.dominatorRound preds sets) b a
    rwa [hfixed]

/-- No round takes out a member of such a family. -/
theorem inRow_dominatorRound {D : BlockId → BlockId → Prop} (hD : g.Supported preds D)
    (hsize : sets.size = g.size) (h : ∀ b < g.size, ∀ a, D b a → InRow sets b a)
    (hpreds : ∀ b, ∀ p ∈ preds.getD b [], p < g.size) :
    ∀ b < g.size, ∀ a, D b a → InRow (g.dominatorRound preds sets) b a := by
  suffices hfold : ∀ (bs : List BlockId), (∀ b ∈ bs, b ∈ g.blocks) → ∀ sets : Array BitSet,
      sets.size = g.size → (∀ b < g.size, ∀ a, D b a → InRow sets b a) →
      ∀ b < g.size, ∀ a, D b a → InRow (bs.foldl (g.dominatorStep preds) sets) b a from
    hfold g.blocks (fun _ hb => hb) sets hsize h
  intro bs
  induction bs with
  | nil => exact fun _ _ _ h => h
  | cons c cs ih =>
    intro hbs sets hsize h
    refine ih (fun b hb => hbs b (List.mem_cons_of_mem c hb)) _
      ((size_dominatorStep c).trans hsize) ?_
    intro b hb a ha
    by_cases hbc : b = c
    · subst hbc
      by_cases hentry : g.entry = some b
      · rw [dominatorStep, if_pos hentry]
        exact h b hb a ha
      · rw [inRow_dominatorStep_self (hsize ▸ hb) hentry, contains_meetDominators]
        exact (hD.pred b (hbs b List.mem_cons_self) hentry a ha).imp_right fun ⟨hne, hall⟩ =>
          ⟨hne, fun p hp => h p (hpreds b p hp) a (hall p hp)⟩
    · rw [InRow, getD_dominatorStep_of_ne hbc]
      exact h b hb a ha

/-! ## The start of the rounds -/

theorem getD_firstDominators {b : BlockId} (hb : b < g.size) :
    g.firstDominators.getD b .empty = if g.entry = some b then .singleton b
      else .ofList g.blocks := by
  unfold firstDominators
  cases g.entry with
  | none => simp [Array.getD_eq_getD_getElem?, hb]
  | some entry =>
    by_cases hentry : entry = b
    · subst hentry
      simp [Array.getD_eq_getD_getElem?, hb]
    · simp [Array.getD_eq_getD_getElem?, hb, hentry]

@[simp] theorem size_firstDominators (g : Cfg) : g.firstDominators.size = g.size := by
  unfold firstDominators
  cases g.entry <;> simp

theorem inRow_firstDominators {b a : BlockId} (hb : b < g.size) :
    InRow g.firstDominators b a ↔ if g.entry = some b then a = b else a ∈ g.blocks := by
  rw [InRow, getD_firstDominators hb]
  split
  · rw [BitSet.contains_singleton, decide_eq_true_iff, eq_comm]
  · exact BitSet.contains_ofList

theorem bounding_firstDominators (hentry : ∀ b, g.entry = some b → b ∈ g.blocks)
    (hblocks : ∀ b ∈ g.blocks, b < g.size) : g.Bounding preds g.firstDominators := by
  have hlisted : ∀ b a, InRow g.firstDominators b a → a ∈ g.blocks := by
    intro b a ha
    have hkept := (inRow_firstDominators (g.size_firstDominators ▸ ha.lt_size)).mp ha
    by_cases hb : g.entry = some b
    · rw [if_pos hb] at hkept
      exact hkept ▸ hentry b hb
    · rwa [if_neg hb] at hkept
  refine ⟨g.size_firstDominators, hlisted, fun b hb a ha => ?_, fun b hb hne a ha => ?_⟩
  · have hkept := (inRow_firstDominators (g.size_firstDominators ▸ ha.lt_size)).mp ha
    rwa [if_pos hb] at hkept
  · rw [inRow_firstDominators (hblocks b hb), if_neg hne]
    rcases contains_meetDominators.mp ha with rfl | ⟨hsome, hall⟩
    · exact hb
    · obtain ⟨p, hp⟩ := List.exists_mem_of_ne_nil _ hsome
      exact hlisted p a (hall p hp)

/-- Every family that is borne out by the predecessors is held by the sets at the start. -/
theorem Supported.inRow_first {D : BlockId → BlockId → Prop} (hD : g.Supported preds D)
    {b a : BlockId} (hb : b < g.size) (ha : D b a) : InRow g.firstDominators b a := by
  rw [inRow_firstDominators hb]
  split
  · exact hD.entry b ‹_› a ha
  · exact hD.listed b a ha

/-! ## The end of the rounds -/

theorem getD_dominatorRound_of_not_mem {x : BlockId} (hx : x ∉ g.blocks) :
    (g.dominatorRound preds sets).getD x .empty = sets.getD x .empty := by
  suffices hfold : ∀ (bs : List BlockId), x ∉ bs → ∀ sets : Array BitSet,
      (bs.foldl (g.dominatorStep preds) sets).getD x .empty =
        sets.getD x .empty from hfold _ hx sets
  intro bs
  induction bs with
  | nil => exact fun _ _ => rfl
  | cons c cs ih =>
    intro hx sets
    obtain ⟨hne, hcs⟩ := not_or.mp (List.mem_cons.not.mp hx)
    rw [List.foldl_cons, ih hcs, getD_dominatorStep_of_ne hne]

section Ending

variable (hblocks : ∀ b ∈ g.blocks, b < g.size)

include hblocks

/-- A round that changes something takes a block out of a set. -/
theorem extent_dominatorRound_lt (h : g.Bounding preds sets)
    (hne : g.dominatorRound preds sets ≠ sets) :
    BitSet.extent g.blocks g.blocks (g.dominatorRound preds sets) <
      BitSet.extent g.blocks g.blocks sets := by
  obtain ⟨b, hb, a, ha, hkept, hdropped⟩ : ∃ b ∈ g.blocks, ∃ a ∈ g.blocks,
      InRow sets b a ∧ ¬InRow (g.dominatorRound preds sets) b a := by
    by_contra hnone
    refine hne (BitSet.ext_inRow ((h.round hblocks).size_eq.trans h.size_eq.symm) fun x a => ?_)
    by_cases hmem : x ∈ g.blocks
    · refine ⟨inRow_of_dominatorRound hblocks h, fun ha => ?_⟩
      by_contra hdropped
      exact hnone ⟨x, hmem, a, h.listed x a ha, ha, hdropped⟩
    · rw [InRow, getD_dominatorRound_of_not_mem hmem]
      exact Iff.rfl
  exact BitSet.extent_lt (fun _ _ => inRow_of_dominatorRound hblocks h) hb ha hkept hdropped

/-- The rounds end with sets that another round leaves as they are: the greatest family of
dominators that is borne out by the predecessors. -/
theorem settle_dominatorRound (hentry : ∀ b, g.entry = some b → b ∈ g.blocks)
    (hpreds : ∀ b, ∀ p ∈ preds.getD b [], p < g.size) :
    let sets := BitSet.settle (g.dominatorRound preds) (g.blocks.length * g.blocks.length + 1)
      g.firstDominators
    g.dominatorRound preds sets = sets ∧ g.Supported preds (InRow sets) ∧
      (∃ n ≤ g.blocks.length * g.blocks.length, sets =
        (g.dominatorRound preds)^[n] g.firstDominators) ∧
      ∀ D, g.Supported preds D → ∀ b < g.size, ∀ a, D b a → InRow sets b a := by
  let P (sets : Array BitSet) : Prop := g.Bounding preds sets ∧
    ∀ D, g.Supported preds D → ∀ b < g.size, ∀ a, D b a → InRow sets b a
  have hle := BitSet.extent_le g.blocks g.blocks g.firstDominators
  have hfirst : P g.firstDominators :=
    ⟨bounding_firstDominators hentry hblocks, fun D hD b hb a ha => hD.inRow_first hb ha⟩
  have hstep (sets : Array BitSet) (h : P sets) : P (g.dominatorRound preds sets) :=
    ⟨h.1.round hblocks, fun D hD => inRow_dominatorRound hD h.1.size_eq (h.2 D hD) hpreds⟩
  obtain ⟨⟨hbounding, hgreatest⟩, hend, n, hn, heq⟩ := BitSet.settle_spec hstep
    (fun sets h hne => extent_dominatorRound_lt hblocks h.1 hne) _ _ hfirst (Nat.lt_succ_of_le hle)
  exact ⟨hend, supported_of_fixed hblocks hbounding hend, ⟨n, hn.trans hle, heq⟩, hgreatest⟩

end Ending

end Cfg

end ContractCompiler.Ssa
