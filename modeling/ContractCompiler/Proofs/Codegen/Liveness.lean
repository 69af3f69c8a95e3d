import ContractCompiler.Proofs.BitSet
import ContractCompiler.Proofs.Codegen.Slots

/-!
# Values that may still be used

The sets of `SlotInput.liveIn` have all values in slots that may still be used, and those of
`SlotInput.conflicts` have what may still be used where a value is written.

- `LiveAt`: a value may still be used from a place in a block on;
- `SlotInput.Growing`: what holds of the sets after every step, so that a step only adds values;
- `SlotInput.inRow_liveIn`: the rounds end, and what is alive before a block is among the values for
  it;
- `SlotInput.contains_of_liveAt`: the sets have every value that may still be used;
- `SlotInput.BlockConflicts`, `SlotInput.conflicts_spec`: the conflicts of the values that are
  written.
-/

namespace ContractCompiler.Codegen

open BitSet (InRow)
open Ssa (ValueId BlockId Inst Terminator)

/-- A value may still be used from a place in a block on, the place before the instructions that are
left of it: some path leads from there to a use of the value, and passes no definition of it. -/
inductive LiveAt (m : Ssa.Module) (v : ValueId) : BlockId → List Inst → Prop where
  | used {b : BlockId} {i : Inst} {rest : List Inst} (huse : v ∈ i.data.operands) :
      LiveAt m v b (i :: rest)
  | later {b : BlockId} {i : Inst} {rest : List Inst} (hdef : i.result ≠ some v)
      (hlive : LiveAt m v b rest) :
      LiveAt m v b (i :: rest)
  | ending {b : BlockId} {term : Terminator} (hterm : (m.block b).term = some term)
      (huse : v ∈ term.operands) :
      LiveAt m v b []
  | edge {b next : BlockId} (hedge : next ∈ (m.block b).successors)
      (hdef : v ∉ (m.block next).params) (hlive : LiveAt m v next (instsOf m next)) :
        LiveAt m v b []

namespace SlotInput

variable {c : SlotInput} {sets sets' : Array BitSet} {x : ValueId}

/-! ## What is alive in a block -/

theorem contains_addUses {vs : List ValueId} {live : BitSet} :
    (c.addUses vs live).contains x = true ↔
      live.contains x = true ∨ (x ∈ vs ∧ c.slotted.contains x = true) := by
  unfold addUses
  induction vs generalizing live with
  | nil => simp
  | cons v vs ih =>
    rw [List.foldl_cons, ih]
    by_cases hv : c.slotted.contains v = true
    · rw [if_pos hv, BitSet.contains_insert, Bool.or_eq_true, decide_eq_true_iff, List.mem_cons]
      constructor
      · rintro ((hlive | rfl) | ⟨hmem, hx⟩)
        · exact .inl hlive
        · exact .inr ⟨.inl rfl, hv⟩
        · exact .inr ⟨.inr hmem, hx⟩
      · rintro (hlive | ⟨rfl | hmem, hx⟩)
        · exact .inl (.inl hlive)
        · exact .inl (.inr rfl)
        · exact .inr ⟨hmem, hx⟩
    · rw [if_neg hv, List.mem_cons]
      constructor
      · exact .imp_right fun ⟨hmem, hx⟩ => ⟨.inr hmem, hx⟩
      · rintro (hlive | ⟨rfl | hmem, hx⟩)
        · exact .inl hlive
        · exact absurd hx hv
        · exact .inr ⟨hmem, hx⟩

theorem contains_throughInst {i : Inst} {live : BitSet} :
    (c.throughInst i live).contains x = true ↔ (live.contains x = true ∧ i.result ≠ some x) ∨
      (x ∈ i.data.operands ∧ c.slotted.contains x = true) := by
  unfold throughInst
  rw [contains_addUses]
  cases i.result with
  | none => simp
  | some r =>
    simp only [BitSet.contains_erase, Bool.and_eq_true, Bool.not_eq_true',
      decide_eq_false_iff_not, ne_eq, Option.some.injEq]

theorem contains_foldl_union (sets : Array BitSet) (bs : List BlockId) (live : BitSet) :
    (bs.foldl (fun live b => live.union (sets.getD b .empty)) live).contains x = true ↔
      live.contains x = true ∨ ∃ b ∈ bs, InRow sets b x := by
  induction bs generalizing live with
  | nil => simp
  | cons b bs ih =>
    rw [List.foldl_cons, ih, BitSet.contains_union, Bool.or_eq_true,
      List.exists_mem_cons_iff, or_assoc]
    rfl

theorem contains_atEnd {b : Ssa.Block} :
    (c.atEnd sets b).contains x = true ↔ (∃ next ∈ b.successors, InRow sets next x) ∨
      (x ∈ (b.term.map (·.operands)).getD [] ∧ c.slotted.contains x = true) := by
  unfold atEnd
  rw [contains_addUses, contains_foldl_union, BitSet.contains_empty]
  simp

theorem contains_intoBlock {b : Ssa.Block} :
    (c.intoBlock sets b).contains x = true ↔ (c.atStart sets b).contains x = true ∧
    x ∉ b.params := by
  unfold intoBlock
  rw [BitSet.contains_diff, Bool.and_eq_true, Bool.not_eq_true', Bool.eq_false_iff, ne_eq,
    BitSet.contains_ofList]

/-- More values are alive before instructions where more are alive after them. -/
theorem contains_foldr_mono {insts : List Inst} {live live' : BitSet}
    (h : live.contains x = true → live'.contains x = true)
    (hx : (insts.foldr c.throughInst live).contains x = true) :
    (insts.foldr c.throughInst live').contains x = true := by
  induction insts with
  | nil => exact h hx
  | cons i is ih =>
    rw [List.foldr_cons, contains_throughInst] at hx ⊢
    exact hx.imp_left fun ⟨hlive, hdef⟩ => ⟨ih hlive, hdef⟩

theorem contains_intoBlock_mono (h : ∀ b, InRow sets b x → InRow sets' b x) {b : Ssa.Block}
    (hx : (c.intoBlock sets b).contains x = true) : (c.intoBlock sets' b).contains x = true := by
  rw [contains_intoBlock] at hx ⊢
  refine hx.imp_left (contains_foldr_mono fun hend => ?_)
  rw [contains_atEnd] at hend ⊢
  exact hend.imp_left fun ⟨next, hnext, hrow⟩ => ⟨next, hnext, h next hrow⟩

/-- Only values that need slots are alive. -/
theorem slotted_of_foldr {insts : List Inst} {live : BitSet}
    (h : live.contains x = true → c.slotted.contains x = true)
    (hx : (insts.foldr c.throughInst live).contains x = true) : c.slotted.contains x = true := by
  induction insts with
  | nil => exact h hx
  | cons i is ih =>
    rw [List.foldr_cons, contains_throughInst] at hx
    exact hx.elim (fun ⟨hlive, _⟩ => ih hlive) fun ⟨_, hslotted⟩ => hslotted

/-! ## Rounds -/

/-- What holds of the sets after every step: they hold values that need slots, and of each block no
more than what is alive before it by the other sets. -/
structure Growing (c : SlotInput) (sets : Array BitSet) : Prop where
  size_eq : sets.size = c.module.blocks.size
  slotted : ∀ b x, InRow sets b x → c.slotted.contains x = true
  alive : ∀ b ∈ c.function.blocks, ∀ x, InRow sets b x →
    (c.intoBlock sets (c.module.block b)).contains x = true

/-- Gives a block what is alive before it. -/
def step (c : SlotInput) (sets : Array BitSet) (b : BlockId) : Array BitSet :=
  sets.setIfInBounds b (c.intoBlock sets (c.module.block b))

section Steps

variable (hblocks : ∀ b ∈ c.function.blocks, b < c.module.blocks.size)

include hblocks

/-- A step only adds values to the sets. -/
theorem inRow_step (h : c.Growing sets) {b : BlockId} (hb : b ∈ c.function.blocks) {row : BlockId}
    (hx : InRow sets row x) : InRow (c.step sets b) row x := by
  by_cases hrow : row = b
  · subst hrow
    rw [InRow, step, BitSet.getD_setIfInBounds_self (h.size_eq ▸ hblocks row hb)]
    exact h.alive row hb x hx
  · rwa [InRow, step, BitSet.getD_setIfInBounds_of_ne hrow]

theorem Growing.step (h : c.Growing sets) {b : BlockId} (hb : b ∈ c.function.blocks) :
    c.Growing (c.step sets b) := by
  have hlt : b < sets.size := h.size_eq ▸ hblocks b hb
  refine ⟨Array.size_setIfInBounds.trans h.size_eq, fun row x hx => ?_, fun row hrow x hx => ?_⟩
  · by_cases hrow : row = b
    · rw [hrow, InRow, SlotInput.step, BitSet.getD_setIfInBounds_self hlt, contains_intoBlock] at hx
      refine slotted_of_foldr (fun hend => ?_) hx.1
      rcases contains_atEnd.mp hend with ⟨next, -, hnext⟩ | ⟨-, hslotted⟩
      · exact h.slotted next x hnext
      · exact hslotted
    · rw [InRow, SlotInput.step, BitSet.getD_setIfInBounds_of_ne hrow] at hx
      exact h.slotted row x hx
  · refine contains_intoBlock_mono (fun _ => inRow_step hblocks h hb) ?_
    by_cases hrowb : row = b
    · subst hrowb
      rwa [InRow, SlotInput.step, BitSet.getD_setIfInBounds_self hlt] at hx
    · rw [InRow, SlotInput.step, BitSet.getD_setIfInBounds_of_ne hrowb] at hx
      exact h.alive row hrow x hx

/-- Steps for some of the blocks add values, among them, for each of the blocks, what was alive
before it at the start. -/
theorem foldl_step (bs : List BlockId) (hbs : ∀ b ∈ bs, b ∈ c.function.blocks) :
    ∀ sets : Array BitSet, c.Growing sets →
      c.Growing (bs.foldl c.step sets) ∧
      (∀ row x, InRow sets row x → InRow (bs.foldl c.step sets) row x) ∧
      ∀ b ∈ bs, ∀ x, (c.intoBlock sets (c.module.block b)).contains x = true →
        InRow (bs.foldl c.step sets) b x := by
  induction bs with
  | nil => exact fun sets h => ⟨h, fun _ _ hx => hx, fun _ hb => absurd hb List.not_mem_nil⟩
  | cons b bs ih =>
    intro sets h
    have hb := hbs b List.mem_cons_self
    have hgrow : ∀ row x, InRow sets row x → InRow (c.step sets b) row x :=
      fun _ _ => inRow_step hblocks h hb
    obtain ⟨hend, hrest, halive⟩ := ih (fun b' hb' => hbs b' (List.mem_cons_of_mem b hb'))
      (c.step sets b) (h.step hblocks hb)
    refine ⟨hend, fun row x hx => hrest row x (hgrow row x hx), fun b' hb' x hx => ?_⟩
    rcases List.mem_cons.mp hb' with rfl | hb'
    · refine hrest b' x ?_
      rwa [InRow, SlotInput.step, BitSet.getD_setIfInBounds_self (h.size_eq ▸ hblocks b' hb)]
    · exact halive b' hb' x (contains_intoBlock_mono (fun row => hgrow row x) hx)

theorem growing_round (h : c.Growing sets) : c.Growing (c.round sets) :=
  (foldl_step hblocks c.function.blocks.reverse (fun _ hb => List.mem_reverse.mp hb) sets h).1

theorem inRow_round (h : c.Growing sets) {row : BlockId} (hx : InRow sets row x) :
    InRow (c.round sets) row x :=
  (foldl_step hblocks c.function.blocks.reverse (fun _ hb => List.mem_reverse.mp hb) sets h).2.1
    row x hx

theorem inRow_round_of_alive (h : c.Growing sets) {b : BlockId} (hb : b ∈ c.function.blocks)
    (hx : (c.intoBlock sets (c.module.block b)).contains x = true) : InRow (c.round sets) b x :=
  (foldl_step hblocks c.function.blocks.reverse (fun _ hb => List.mem_reverse.mp hb) sets h).2.2 b
    (List.mem_reverse.mpr hb) x hx

end Steps

theorem getD_round_of_not_mem {row : BlockId} (hrow : row ∉ c.function.blocks) :
    (c.round sets).getD row .empty = sets.getD row .empty := by
  suffices hfold : ∀ (bs : List BlockId), row ∉ bs → ∀ sets : Array BitSet,
      (bs.foldl c.step sets).getD row .empty = sets.getD row .empty from
    hfold _ (fun hmem => hrow (List.mem_reverse.mp hmem)) sets
  intro bs
  induction bs with
  | nil => exact fun _ _ => rfl
  | cons b bs ih =>
    intro hrow sets
    obtain ⟨hne, hbs⟩ := not_or.mp (List.mem_cons.not.mp hrow)
    rw [List.foldl_cons, ih hbs]
    exact BitSet.getD_setIfInBounds_of_ne hne _

/-! ## The sets at the end -/

section LiveIn

variable (hblocks : ∀ b ∈ c.function.blocks, b < c.module.blocks.size)
  (hslotted : ∀ v, c.slotted.contains v = true → v < c.module.values.size)

include hblocks hslotted

/-- A round that changes something adds a value to a set. -/
theorem extent_round_lt (h : c.Growing sets) (hne : c.round sets ≠ sets) :
    BitSet.extent c.function.blocks (List.range c.module.values.size) sets
      < BitSet.extent c.function.blocks (List.range c.module.values.size) (c.round sets) := by
  have hround := growing_round hblocks h
  obtain ⟨b, hb, v, hnew, hold⟩ : ∃ b ∈ c.function.blocks, ∃ v, InRow (c.round sets) b v ∧
      ¬InRow sets b v := by
    by_contra hnone
    refine hne (BitSet.ext_inRow (hround.size_eq.trans h.size_eq.symm) fun row v => ?_)
    by_cases hrow : row ∈ c.function.blocks
    · refine ⟨fun hnew => ?_, inRow_round hblocks h⟩
      by_contra hold
      exact hnone ⟨row, hrow, v, hnew, hold⟩
    · rw [InRow, getD_round_of_not_mem hrow]
      exact Iff.rfl
  refine BitSet.extent_lt (fun _ _ => inRow_round hblocks h) hb ?_ hnew hold
  exact List.mem_range.mpr (hslotted v (hround.slotted b v hnew))

/-- The rounds end with sets that another round leaves as they are. -/
theorem growing_liveIn : c.Growing c.liveIn ∧ c.round c.liveIn = c.liveIn := by
  have hstart : c.Growing (Array.replicate c.module.blocks.size .empty) := by
    have hnone : ∀ b x, ¬InRow (Array.replicate c.module.blocks.size .empty) b x := by
      intro b x hx
      have hlt := hx.lt_size
      rw [Array.size_replicate] at hlt
      simp [InRow, Array.getD_eq_getD_getElem?, hlt] at hx
    exact ⟨Array.size_replicate, fun b x hx => absurd hx (hnone b x),
      fun b _ x hx => absurd hx (hnone b x)⟩
  -- how many values can still be added
  let missing (sets : Array BitSet) : Nat := c.function.blocks.length * c.module.values.size -
    BitSet.extent c.function.blocks (List.range c.module.values.size) sets
  have hmissing (sets : Array BitSet) (h : c.Growing sets) (hne : c.round sets ≠ sets) :
      missing (c.round sets) < missing sets := by
    have hlt := extent_round_lt hblocks hslotted h hne
    have hle := BitSet.extent_le c.function.blocks (List.range c.module.values.size) (c.round sets)
    rw [List.length_range] at hle
    exact Nat.sub_lt_sub_left (hlt.trans_le hle) hlt
  obtain ⟨hend, hfixed, -⟩ := BitSet.settle_spec (fun sets h => growing_round hblocks h) hmissing
    (c.function.blocks.length * c.module.values.size + 1) _ hstart
      (Nat.lt_succ_of_le (Nat.sub_le _ _))
  exact ⟨hend, hfixed⟩

/-- What is alive before a block is among the values for it. -/
theorem inRow_liveIn {b : BlockId} (hb : b ∈ c.function.blocks)
    (hx : (c.intoBlock c.liveIn (c.module.block b)).contains x = true) : InRow c.liveIn b x := by
  obtain ⟨hgrowing, hfixed⟩ := growing_liveIn hblocks hslotted
  rw [← hfixed]
  exact inRow_round_of_alive hblocks hgrowing hb hx

/-- The sets have every value in a slot that may still be used. -/
theorem contains_of_liveAt
    (hedges : ∀ b ∈ c.function.blocks, ∀ next ∈ (c.module.block b).successors,
    next ∈ c.function.blocks) (hx : c.slotted.contains x = true) {b : BlockId} {rest : List Inst}
    (h : LiveAt c.module x b rest) (hb : b ∈ c.function.blocks) :
    (rest.foldr c.throughInst (c.atEnd c.liveIn (c.module.block b))).contains x = true := by
  induction h with
  | used huse => exact contains_throughInst.mpr (.inr ⟨huse, hx⟩)
  | later hdef _ ih => exact contains_throughInst.mpr (.inl ⟨ih hb, hdef⟩)
  | ending hterm huse =>
    refine contains_atEnd.mpr (.inr ⟨?_, hx⟩)
    rw [hterm]
    exact huse
  | edge hedge hdef _ ih =>
    have hnext := hedges _ hb _ hedge
    refine contains_atEnd.mpr (.inl ⟨_, hedge, inRow_liveIn hblocks hslotted hnext ?_⟩)
    exact contains_intoBlock.mpr ⟨ih hnext, hdef⟩

end LiveIn

/-! ## Conflicts -/

/-- A table with at least the members of another one. -/
structure Extends (sets sets' : Array BitSet) : Prop where
  size_eq : sets'.size = sets.size
  mono : ∀ row x, InRow sets row x → InRow sets' row x

theorem Extends.refl (sets : Array BitSet) : Extends sets sets := ⟨rfl, fun _ _ h => h⟩

theorem Extends.trans {sets'' : Array BitSet} (h : Extends sets sets') (h' : Extends sets' sets'') :
    Extends sets sets'' :=
  ⟨h'.size_eq.trans h.size_eq, fun row x hx => h'.mono row x (h.mono row x hx)⟩

theorem inRow_addConflicts {v : ValueId} {live : BitSet} {row : ValueId} :
    InRow (addConflicts v live sets) row x ↔
      InRow sets row x ∨ (row = v ∧ v < sets.size ∧ live.contains x = true ∧ x ≠ v) := by
  unfold addConflicts InRow
  simp only [Array.getD_eq_getD_getElem?, Array.getElem?_modify]
  by_cases hrow : v = row
  · subst hrow
    by_cases hlt : v < sets.size
    · simp [hlt, @eq_comm Nat v x]
    · simp [hlt]
  · have hne : ¬row = v := fun heq => hrow heq.symm
    simp [hrow, hne]

theorem extends_addConflicts (v : ValueId) (live : BitSet) (sets : Array BitSet) :
    Extends sets (addConflicts v live sets) :=
  ⟨Array.size_modify, fun _ _ hx => inRow_addConflicts.mpr (.inl hx)⟩

/-- The conflicts of the results of instructions, from what is alive after them. -/
theorem instConflicts_spec (insts : List Inst) (live : BitSet) (sets : Array BitSet) :
    (c.instConflicts insts live sets).1 = insts.foldr c.throughInst live ∧
      Extends sets (c.instConflicts insts live sets).2 ∧
      ∀ done i rest r, insts = done ++ i :: rest → i.result = some r → c.slotted.contains r = true →
        r < sets.size → ∀ x, x ≠ r → (rest.foldr c.throughInst live).contains x = true →
          InRow (c.instConflicts insts live sets).2 r x := by
  induction insts with
  | nil =>
    refine ⟨rfl, .refl sets, fun done i rest r heq => ?_⟩
    exact absurd heq.symm (List.append_ne_nil_of_right_ne_nil _ (List.cons_ne_nil _ _))
  | cons i is ih =>
    obtain ⟨hlive, hext, hrest⟩ := ih
    rw [instConflicts]
    generalize c.instConflicts is live sets = found at hlive hext hrest ⊢
    obtain ⟨after, conflicts⟩ := found
    dsimp only at hlive hext hrest ⊢
    subst hlive
    refine ⟨rfl, ?_, fun done j rest r heq hr hslotted hlt x hx hafter => ?_⟩
    · split
      · split
        · exact hext.trans (extends_addConflicts _ _ _)
        · exact hext
      · exact hext
    · cases done with
      | nil =>
        obtain ⟨rfl, rfl⟩ := List.cons.inj heq
        rw [hr]
        dsimp only
        rw [if_pos hslotted]
        exact inRow_addConflicts.mpr (.inr ⟨rfl, hext.size_eq.symm ▸ hlt, hafter, hx⟩)
      | cons k done =>
        have hrow := hrest done j rest r (List.cons.inj heq).2 hr hslotted hlt x hx hafter
        split
        · split
          · exact (extends_addConflicts _ _ _).mono r x hrow
          · exact hrow
        · exact hrow

/-- The conflicts of parameters that are all written at once. -/
theorem foldl_addConflicts_spec (params : List ValueId) (live : BitSet) (sets : Array BitSet) :
    Extends sets (params.foldl (fun conflicts p => addConflicts p live conflicts) sets) ∧
      ∀ p ∈ params, p < sets.size → ∀ x, x ≠ p → live.contains x = true →
        InRow (params.foldl (fun conflicts p => addConflicts p live conflicts) sets) p x := by
  induction params generalizing sets with
  | nil => exact ⟨.refl sets, fun p hp => absurd hp List.not_mem_nil⟩
  | cons q qs ih =>
    have hfirst := extends_addConflicts q live sets
    obtain ⟨hext, hrest⟩ := ih (addConflicts q live sets)
    refine ⟨hfirst.trans hext, fun p hp hlt x hx hlive => ?_⟩
    rcases List.mem_cons.mp hp with rfl | hp
    · exact hext.mono p x (inRow_addConflicts.mpr (.inr ⟨rfl, hlt, hlive, hx⟩))
    · exact hrest p hp (hfirst.size_eq.symm ▸ hlt) x hx hlive

/-- What the conflicts of a block have: a result with what is alive after it, and a parameter with
what is alive at the start and with the other parameters. -/
structure BlockConflicts (c : SlotInput) (b : Ssa.Block) (sets : Array BitSet) : Prop where
  result : ∀ done i rest r, c.insts b = done ++ i :: rest → i.result = some r →
      c.slotted.contains r = true →
    ∀ x, x ≠ r → (rest.foldr c.throughInst (c.atEnd c.liveIn b)).contains x = true → InRow sets r x
  param : ∀ p ∈ b.params, c.slotted.contains p = true → ∀ x, x ≠ p →
    (c.atStart c.liveIn b).contains x = true ∨ (x ∈ b.params ∧ c.slotted.contains x = true) →
    InRow sets p x

theorem BlockConflicts.mono {b : Ssa.Block} (h : BlockConflicts c b sets)
    (hext : Extends sets sets') :
    BlockConflicts c b sets' where
  result done i rest r heq hr hslotted x hx hlive :=
    hext.mono r x (h.result done i rest r heq hr hslotted x hx hlive)
  param p hp hslotted x hx halive := hext.mono p x (h.param p hp hslotted x hx halive)

theorem blockConflicts_spec (hsize : ∀ v, c.slotted.contains v = true → v < sets.size)
    (b : Ssa.Block) :
    Extends sets (c.blockConflicts c.liveIn b sets) ∧
    BlockConflicts c b (c.blockConflicts c.liveIn b sets) := by
  obtain ⟨hlive, hext, hresults⟩ := c.instConflicts_spec (c.insts b) (c.atEnd c.liveIn b) sets
  unfold blockConflicts
  generalize c.instConflicts (c.insts b) (c.atEnd c.liveIn b) sets = found at hlive hext hresults ⊢
  obtain ⟨live, conflicts⟩ := found
  dsimp only at hlive hext hresults ⊢
  obtain ⟨hextParams, hparams⟩ := foldl_addConflicts_spec (b.params.filter c.slotted.contains)
    (live.union (.ofList (b.params.filter c.slotted.contains))) conflicts
  refine ⟨hext.trans hextParams, fun done i rest r heq hr hslotted x hx hafter => ?_,
    fun p hp hslotted x hx halive => ?_⟩
  · exact hextParams.mono r x (hresults done i rest r heq hr hslotted (hsize r hslotted)
      x hx hafter)
  · refine hparams p (List.mem_filter.mpr ⟨hp, hslotted⟩)
      (hext.size_eq.symm ▸ hsize p hslotted) x hx ?_
    rw [BitSet.contains_union, Bool.or_eq_true, BitSet.contains_ofList, List.mem_filter, hlive]
    exact halive

/-- The conflicts of all blocks. -/
theorem conflicts_spec (hslotted : ∀ v, c.slotted.contains v = true → v < c.module.values.size) :
    ∀ b ∈ c.function.blocks, BlockConflicts c (c.module.block b) c.conflicts := by
  suffices hfold : ∀ (bs : List BlockId) (sets : Array BitSet), sets.size = c.module.values.size →
      Extends sets (bs.foldl (fun sets b => c.blockConflicts c.liveIn (c.module.block b) sets)
        sets) ∧
      ∀ b ∈ bs, BlockConflicts c (c.module.block b)
        (bs.foldl (fun sets b => c.blockConflicts c.liveIn (c.module.block b) sets) sets) from
    (hfold c.function.blocks _ Array.size_replicate).2
  intro bs
  induction bs with
  | nil => exact fun sets _ => ⟨.refl sets, fun b hb => absurd hb List.not_mem_nil⟩
  | cons b bs ih =>
    intro sets hsize
    have hbound : ∀ v, c.slotted.contains v = true → v < sets.size :=
      fun v hv => hsize.symm ▸ hslotted v hv
    obtain ⟨hext, hself⟩ := blockConflicts_spec hbound (c.module.block b)
    obtain ⟨hextRest, hrest⟩ := ih _ (hext.size_eq.trans hsize)
    refine ⟨hext.trans hextRest, fun b' hb' => ?_⟩
    rcases List.mem_cons.mp hb' with rfl | hb'
    · exact hself.mono hextRest
    · exact hrest b' hb'

end SlotInput

end ContractCompiler.Codegen
