import ContractCompiler.Proofs.BitSet
import ContractCompiler.Proofs.Ssa.PassSteps

/-!
# The end of folding

A round of folding that changes something turns an instruction into a constant, or replaces the uses
of a field that were not replaced before. Neither is ever undone, so the rounds come to an end,
whatever the replacements lead to: a struct may well be made of its own fields.

- `Inst.isOpen`: an instruction that folding may still change;
- `FoldRound.Advances`: what changes a round leaves fewer of them;
- `RoundsTo`: rounds without a bound on their number, up to the first that changes nothing;
- `constFold_ends`: `Module.constFold` comes to the end of these rounds, of which there is at most
  one more than there are instructions;
- `nothingToFold_constFold`: nothing is left to fold.
-/

namespace ContractCompiler.Ssa

variable {m m' : Module} {types : TypePool} {done : Array Bool}

/-! ## What is left to fold -/

/-- Folding may still change an instruction: an operation is no constant yet, or the uses of a field
have not been replaced. -/
def Inst.isOpen (done : Array Bool) (inst : Inst) : Bool :=
  match inst.data with
  | .unary _ _ _ | .binary _ _ _ _ | .cast _ _ _ | .resultIsOk _ => true
  | .extract _ _ => inst.result.any fun v => !done.getD v false
  | _ => false

/-- An instruction of a table may still be changed. -/
def isOpenAt (insts : Array Inst) (done : Array Bool) (i : InstId) : Bool :=
  (insts[i]?).any (Inst.isOpen done)

/-- How many instructions of a table may still be changed. -/
def openCount (insts : Array Inst) (done : Array Bool) : Nat :=
  (List.range insts.size).countP (isOpenAt insts done)

theorem openCount_le (insts : Array Inst) (done : Array Bool) : openCount insts done ≤ insts.size :=
  List.countP_le_length.trans_eq List.length_range

/-- A change that closes one instruction and opens none. -/
theorem openCount_lt {insts insts' : Array Inst} {done done' : Array Bool}
    (hsize : insts'.size = insts.size)
    (hsub : ∀ j, isOpenAt insts' done' j = true → isOpenAt insts done j = true) {i : InstId}
    (hopen : isOpenAt insts done i = true) (hclosed : isOpenAt insts' done' i = false) :
    openCount insts' done' < openCount insts done := by
  have hlt : i < insts.size := by
    obtain ⟨inst, hinst, -⟩ := (Option.any_eq_true _ _).mp hopen
    exact (Array.getElem?_eq_some_iff.mp hinst).1
  unfold openCount
  rw [hsize]
  exact countP_lt_countP (fun j _ => hsub j) (List.mem_range.mpr hlt) hopen (by simp [hclosed])

theorem isOpen_of_foldedData? {inst : Inst} {data : InstData}
    (h : foldedData? types m inst = some data) (done : Array Bool) : inst.isOpen done = true := by
  obtain ⟨source, effect, result, span⟩ := inst
  obtain ⟨r, -, hfolds⟩ := foldsTo_of_foldedData? h
  cases hfolds <;> rfl

theorem isOpen_of_constWord? {inst : Inst} {w : UInt64} (h : inst.data.constWord? = some w)
    (done : Array Bool) : inst.isOpen done = false := by
  obtain ⟨data, effect, result, span⟩ := inst
  cases data with
  | constInt | constBool => rfl
  | _ => cases h

/-- A field whose uses can be replaced is open until they are. -/
theorem isOpen_of_forwarded? {inst : Inst} {v w : ValueId} (hresult : inst.result = some v)
    (h : forwarded? m inst.data = some w) (done : Array Bool) :
    inst.isOpen done = !done.getD v false := by
  obtain ⟨data, effect, result, span⟩ := inst
  obtain rfl : result = some v := hresult
  cases data with
  | extract => rfl
  | _ => cases h

theorem isOpenAt_mapOperands (m : Module) (σ : ValueId → ValueId) (done : Array Bool) (i : InstId) :
    isOpenAt (m.mapOperands σ).insts done i = isOpenAt m.insts done i := by
  unfold isOpenAt
  rw [Module.getElem?_insts_mapOperands]
  cases m.insts[i]? with
  | none => rfl
  | some inst =>
    obtain ⟨data, effect, result, span⟩ := inst
    cases data <;> rfl

/-- Replacing operands leaves as much to fold as there was. -/
theorem openCount_substitute (m : Module) (s : Substitution) (done : Array Bool) :
    openCount (m.substitute s).insts done = openCount m.insts done := by
  rw [substitute_eq]
  unfold openCount
  rw [show (m.mapOperands s.follow).insts.size = m.insts.size from Array.size_map]
  exact List.countP_congr fun i _ => by rw [isOpenAt_mapOperands]

theorem marked_mark {v : ValueId} (h : v < done.size) :
    (done.setIfInBounds v true).getD v false = true := by
  rw [Array.getD_eq_getD_getElem?, Array.getElem?_setIfInBounds_self_of_lt h, Option.getD_some]

/-- Marks are only set. -/
theorem unmarked_of_mark {v u : ValueId} (h : (done.setIfInBounds v true).getD u false = false) :
    done.getD u false = false := by
  rw [Array.getD_eq_getD_getElem?] at h ⊢
  by_cases heq : v = u
  · subst heq
    by_cases hlt : v < done.size
    · rw [Array.getElem?_setIfInBounds_self_of_lt hlt] at h
      cases h
    · rw [Array.getElem?_eq_none (Nat.le_of_not_lt hlt)]
      rfl
  · rwa [Array.getElem?_setIfInBounds_ne heq] at h

/-- Every result of an instruction is a value that there is a mark for. -/
def ResultsIn (insts : Array Inst) (done : Array Bool) : Prop :=
  ∀ (i : InstId) inst v, insts[i]? = some inst → inst.result = some v → v < done.size

theorem ResultsIn.substitute (h : ResultsIn m.insts done) (s : Substitution) :
    ResultsIn (m.substitute s).insts done := by
  intro i inst v hinst hv
  rw [substitute_eq, Module.getElem?_insts_mapOperands] at hinst
  obtain ⟨inst', hinst', rfl⟩ := Option.map_eq_some_iff.mp hinst
  exact h i inst' v hinst' hv

/-! ## A round -/

namespace FoldRound

variable {r r' r'' : FoldRound}

/-- A round goes on: it is as before, or it has changed something, and fewer instructions are left
that may be changed. -/
structure Advances (r r' : FoldRound) : Prop where
  results : ResultsIn r'.module.insts r'.done
  closer : r' = r ∨
    r'.changed = true ∧ openCount r'.module.insts r'.done < openCount r.module.insts r.done

theorem Advances.trans (h : r.Advances r') (h' : r'.Advances r'') : r.Advances r'' := by
  refine ⟨h'.results, ?_⟩
  rcases h'.closer with rfl | ⟨hchanged', hlt'⟩
  · exact h.closer
  · rcases h.closer with rfl | ⟨-, hlt⟩
    · exact .inr ⟨hchanged', hlt'⟩
    · exact .inr ⟨hchanged', hlt'.trans hlt⟩

theorem advances_foldInst (types : TypePool) (h : ResultsIn r.module.insts r.done) (i : InstId) :
    r.Advances (r.foldInst types i) := by
  have hvisit := visit_foldInst types r i
  revert hvisit
  generalize r.foldInst types i = r'
  intro hvisit
  cases hvisit with
  | skip => exact ⟨h, .inl rfl⟩
  | @fold inst data hinst hfold =>
    obtain ⟨w, hw⟩ := constWord?_of_foldedData? hfold
    -- the constant that the instruction becomes is closed
    have hclosed : isOpenAt (r.module.setData i inst data).insts r.done i = false := by
      unfold isOpenAt
      rw [getElem?_insts_setData hinst, if_pos rfl]
      exact isOpen_of_constWord? hw r.done
    have hother : ∀ j, i ≠ j →
        isOpenAt (r.module.setData i inst data).insts r.done j =
          isOpenAt r.module.insts r.done j := by
      intro j hne
      unfold isOpenAt
      rw [getElem?_insts_setData hinst, if_neg hne]
    refine ⟨fun j inst' v hinst' hv => ?_, .inr ⟨rfl,
      openCount_lt (i := i) ?_ (fun j hj => ?_) ?_ hclosed⟩⟩
    · have hinst' := (getElem?_insts_setData hinst j).symm.trans hinst'
      split at hinst'
      · obtain rfl := Option.some.inj hinst'
        exact h i inst v hinst hv
      · exact h j inst' v hinst' hv
    · exact Array.size_setIfInBounds
    · by_cases heq : i = j
      · subst heq
        cases hclosed.symm.trans hj
      · exact (hother j heq).symm.trans hj
    · exact (Option.any_eq_true _ _).mpr ⟨inst, hinst, isOpen_of_foldedData? hfold r.done⟩
  | @forward inst v w hinst hresult hforward hnew =>
    have hlt : v < r.done.size := h i inst v hinst hresult
    refine ⟨fun j inst' u hinst' hu => ?_, .inr ⟨rfl,
      openCount_lt (i := i) rfl (fun j hj => ?_) ?_ ?_⟩⟩
    · rw [Array.size_setIfInBounds]
      exact h j inst' u hinst' hu
    · obtain ⟨⟨data, effect, result, span⟩, hinst', hopen⟩ := (Option.any_eq_true _ _).mp hj
      refine (Option.any_eq_true _ _).mpr ⟨_, hinst', ?_⟩
      cases data with
      | extract base index =>
        -- the new mark closes fields and opens none
        obtain ⟨u, hu, hmark⟩ := (Option.any_eq_true _ _).mp hopen
        exact (Option.any_eq_true _ _).mpr
          ⟨u, hu, (Bool.not_eq_true' _).mpr (unmarked_of_mark ((Bool.not_eq_true' _).mp hmark))⟩
      | _ => exact hopen
    · refine (Option.any_eq_true _ _).mpr ⟨inst, hinst, ?_⟩
      rw [isOpen_of_forwarded? hresult hforward, hnew]
      rfl
    · show (r.module.insts[i]?).any _ = false
      rw [hinst, Option.any_some, isOpen_of_forwarded? hresult hforward, marked_mark hlt]
      rfl

theorem advances_foldBlocks (types : TypePool) (blocks : List BlockId)
    (h : ResultsIn r.module.insts r.done) : r.Advances (r.foldBlocks types blocks) := by
  refine foldBlocks_keeps ?_ blocks ⟨h, .inl rfl⟩
  intro r' i hr'
  exact hr'.trans (advances_foldInst types hr'.results i)

end FoldRound

/-- The blocks that are folded. -/
def Module.foldedBlocks (m : Module) : List BlockId :=
  (m.functions.toList.filter (!·.excluded)).flatMap (·.blocks)

theorem foldOnce_eq (m : Module) (done : Array Bool) :
    foldOnce types m done =
      let r := FoldRound.foldBlocks types { module := m, done } m.foldedBlocks
      { r with module := r.module.substitute r.replaced } := rfl

theorem ResultsIn.foldOnce (types : TypePool) (h : ResultsIn m.insts done) :
    ResultsIn (foldOnce types m done).module.insts (foldOnce types m done).done :=
  (FoldRound.advances_foldBlocks types (r := { module := m, done })
    m.foldedBlocks h).results.substitute _

/-- A round that changes something leaves fewer instructions that may be changed. -/
theorem openCount_foldOnce_lt (h : ResultsIn m.insts done)
    (hchanged : (foldOnce types m done).changed = true) :
    openCount (foldOnce types m done).module.insts (foldOnce types m done).done <
      openCount m.insts done := by
  have hround := FoldRound.advances_foldBlocks types (r := { module := m, done }) m.foldedBlocks h
  rw [foldOnce_eq] at hchanged ⊢
  dsimp only at hchanged ⊢
  rw [openCount_substitute]
  rcases hround.closer with heq | ⟨-, hlt⟩
  · rw [heq] at hchanged
    cases hchanged
  · exact hlt

/-! ## Rounds -/

/-- A number of rounds that end with one that changes nothing, and the module that is left then. -/
inductive RoundsTo (types : TypePool) (last : Module) : Nat → Module → Array Bool → Prop where
  | last {m : Module} {done : Array Bool} (hchanged : (foldOnce types m done).changed = false)
      (hlast : (foldOnce types m done).module = last) : RoundsTo types last 1 m done
  | more {m : Module} {done : Array Bool} {n : Nat}
      (hchanged : (foldOnce types m done).changed = true) (hrest : RoundsTo types last n
        (foldOnce types m done).module (foldOnce types m done).done) :
      RoundsTo types last (n + 1) m done

/-- A bound that is greater than what is left to fold does not cut the rounds short. -/
theorem roundsTo_foldRounds (n : Nat) (h : ResultsIn m.insts done) (hn : openCount m.insts done < n)
    (changed : Bool) : ∃ k ≤ openCount m.insts done + 1,
      RoundsTo types (foldRounds types n m done changed).1 k m done ∧
        (foldRounds types n m done changed).2 = (changed || decide (1 < k)) := by
  -- `changed` is carried from round to round, so it is not the same in the rest
  induction n generalizing m done changed with
  | zero => exact absurd hn (Nat.not_lt_zero _)
  | succ n ih =>
    unfold foldRounds
    dsimp only
    split
    · rename_i hchanged
      have hlt := openCount_foldOnce_lt h hchanged
      obtain ⟨k, hk, hrest, hflag⟩ := ih (h.foldOnce types) (by omega) true
      have hpos : 0 < k := by
        cases hrest <;> exact Nat.succ_pos _
      refine ⟨k + 1, by omega, .more hchanged hrest, ?_⟩
      rw [hflag, Bool.true_or, decide_eq_true (by omega), Bool.or_true]
    · rename_i hchanged
      exact ⟨1, by omega, .last (Bool.eq_false_of_not_eq_true hchanged) rfl, by simp⟩

/-- The rounds of folding come to an end, however the values that stand for each other are
connected, and there is at most one round more than there are instructions. -/
theorem constFold_ends (types : TypePool)
    (h : ∀ (i : InstId) inst v, m.insts[i]? = some inst → inst.result = some v →
      v < m.values.size) :
    ∃ n ≤ m.insts.size + 1,
      RoundsTo types (m.constFold types).1 n m (Array.replicate m.values.size false) ∧
        (m.constFold types).2 = decide (1 < n) := by
  have hresults : ResultsIn m.insts (Array.replicate m.values.size false) := by
    intro i inst v hinst hv
    rw [Array.size_replicate]
    exact h i inst v hinst hv
  have hopen := openCount_le m.insts (Array.replicate m.values.size false)
  obtain ⟨n, hn, hrounds, hflag⟩ :=
    roundsTo_foldRounds (m.insts.size + 1) hresults (Nat.lt_succ_of_le hopen) false
  exact ⟨n, hn.trans (Nat.succ_le_succ hopen), hrounds, hflag⟩

/-! ## What is left -/

/-- No instruction of a list amounts to a constant. -/
def NothingToFold (types : TypePool) (m : Module) (is : List InstId) : Prop :=
  ∀ i ∈ is, ∀ inst, m.insts[i]? = some inst → foldedData? types m inst = none

namespace FoldRound

variable {r : FoldRound}

/-- Instructions that change nothing do not amount to constants. -/
theorem nothingToFold_of_foldInsts (is : List InstId)
    (h : (is.foldl (FoldRound.foldInst types) r).changed = false) :
    is.foldl (FoldRound.foldInst types) r = r ∧ NothingToFold types r.module is := by
  induction is generalizing r with
  | nil => exact ⟨rfl, nofun⟩
  | cons i is ih =>
    obtain ⟨hsame, hrest⟩ := ih h
    have hfirst : (r.foldInst types i).changed = false := (congrArg changed hsame).symm.trans h
    have hvisit := visit_foldInst types r i
    rw [List.foldl_cons, hsame]
    revert hrest hfirst hvisit
    generalize r.foldInst types i = r'
    intro hrest hfirst hvisit
    cases hvisit with
    | skip hnone => exact ⟨rfl, List.forall_mem_cons.mpr ⟨hnone, hrest⟩⟩
    | fold => cases hfirst
    | forward => cases hfirst

theorem nothingToFold_of_foldBlocks (blocks : List BlockId)
    (h : (r.foldBlocks types blocks).changed = false) :
    r.foldBlocks types blocks = r ∧ ∀ b ∈ blocks, NothingToFold types r.module
      (r.module.block b).insts := by
  unfold FoldRound.foldBlocks at h ⊢
  induction blocks generalizing r with
  | nil => exact ⟨rfl, nofun⟩
  | cons b blocks ih =>
    obtain ⟨hsame, hrest⟩ := ih h
    obtain ⟨hsame', hfirst⟩ :=
      nothingToFold_of_foldInsts (r.module.block b).insts ((congrArg changed hsame).symm.trans h)
    dsimp only at hrest
    rw [hsame'] at hrest
    exact ⟨hsame.trans hsame', List.forall_mem_cons.mpr ⟨hfirst, hrest⟩⟩

end FoldRound

/-- A round that changes nothing finds no instruction that amounts to a constant. -/
theorem nothingToFold_of_foldOnce (h : (foldOnce types m done).changed = false) :
    (foldOnce types m done).module = m ∧ ∀ b ∈ m.foldedBlocks, NothingToFold types m
      (m.block b).insts := by
  rw [foldOnce_eq] at h ⊢
  obtain ⟨hsame, hfolded⟩ := FoldRound.nothingToFold_of_foldBlocks (r := { module := m, done })
    m.foldedBlocks h
  refine ⟨?_, hfolded⟩
  dsimp only
  rw [hsame, substitute_eq, Substitution.follow_of_isEmpty Std.HashMap.isEmpty_empty,
    Module.mapOperands_id]

theorem RoundsTo.nothingToFold {last : Module} {n : Nat} (h : RoundsTo types last n m done) :
    ∀ b ∈ last.foldedBlocks, NothingToFold types last (last.block b).insts := by
  induction h with
  | last hchanged hlast =>
    obtain ⟨hsame, hfolded⟩ := nothingToFold_of_foldOnce hchanged
    obtain rfl := hlast.symm.trans hsame
    exact hfolded
  | more _ _ ih => exact ih

/-- Folding leaves no operation that amounts to a constant in the functions that are generated. -/
theorem nothingToFold_constFold (types : TypePool)
    (h : ∀ (i : InstId) inst v, m.insts[i]? = some inst → inst.result = some v →
      v < m.values.size) :
    ∀ b ∈ (m.constFold types).1.foldedBlocks,
      NothingToFold types (m.constFold types).1 ((m.constFold types).1.block b).insts := by
  obtain ⟨n, -, hrounds, -⟩ := constFold_ends types h
  exact hrounds.nothingToFold

end ContractCompiler.Ssa
