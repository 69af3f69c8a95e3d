import ContractCompiler.Proofs.CallGraph
import ContractCompiler.Ssa.Exclude
import Mathlib.Order.Bounds.Basic

/-!
# Functions that are left out

Leaving out the callers of functions that are left out ends with the least set of functions that
holds those that were left out before and every function with a call to a member.

- `Module.Calls`: a function has a call to another in its blocks;
- `Module.excludedIds`, `Module.CallerClosed`: the functions that are left out, and sets with all
  callers of their members;
- `Module.LeavesOutCallers`: what a pass over functions may do;
- `Module.isLeast_excludeCallers`: the set that is left out in the end.
-/

namespace ContractCompiler.Ssa

namespace Module

variable {m m' : Module} {id c : FuncId} {f : Function} {r r' : Exclusion}

/-- A function has a call to another in one of its blocks. -/
def Calls (m : Module) (id c : FuncId) : Prop :=
  ∃ f, m.functions[id]? = some f ∧ ∃ b ∈ f.blocks, ∃ i ∈ (m.block b).insts, ∃ inst, m.insts[i]? =
    some inst ∧
    inst.data.callee? = some c

/-- The functions that are left out. -/
def excludedIds (m : Module) : Set FuncId :=
  {id | ∃ f, m.functions[id]? = some f ∧ f.excluded = true}

/-- How many functions are left out. -/
def excludedCount (m : Module) : Nat := m.functions.toList.countP (·.excluded)

/-- A set of functions with all callers of its members. -/
def CallerClosed (m : Module) (s : Set FuncId) : Prop := ∀ id c, m.Calls id c → c ∈ s → id ∈ s

/-! ## One function -/

theorem getElem?_exclude (m : Module) (id c : FuncId) :
    (m.exclude id).functions[c]? =
      if id = c then (m.functions[c]?).map fun f => { f with excluded := true }
        else m.functions[c]? :=
  Array.getElem?_modify

theorem calls_exclude (m : Module) (id : FuncId) : (m.exclude id).Calls = m.Calls := by
  funext caller c
  unfold Calls
  rw [getElem?_exclude]
  split
  · simp only [Option.map_eq_some_iff, existsAndEq, and_true]
    rfl
  · rfl

theorem excludedIds_exclude (hf : m.functions[id]? = some f) :
    (m.exclude id).excludedIds = insert id m.excludedIds := by
  ext c
  simp only [excludedIds, Set.mem_ofPred_eq, Set.mem_insert_iff, getElem?_exclude]
  by_cases hc : id = c
  · subst hc
    simp [hf]
  · simp [hc, Ne.symm hc]

theorem countP_modify {α : Type} {p : α → Bool} {g : α → α} {xs : List α} {i : Nat} {x : α}
    (hx : xs[i]? = some x) (hbefore : p x = false) (hafter : p (g x) = true) :
    (xs.modify i g).countP p = xs.countP p + 1 := by
  induction xs generalizing i with
  | nil => cases hx
  | cons y ys ih =>
    cases i with
    | zero =>
      obtain rfl := Option.some.inj hx
      simp [hbefore, hafter]
    | succ i =>
      rw [List.modify_succ_cons, List.countP_cons, List.countP_cons, ih hx]
      omega

theorem excludedCount_exclude (hf : m.functions[id]? = some f) (hincl : f.excluded = false) :
    (m.exclude id).excludedCount = m.excludedCount + 1 := by
  unfold excludedCount exclude
  rw [Array.toList_modify]
  exact countP_modify (by rwa [Array.getElem?_toList]) hincl rfl

/-- A function calls one that is left out exactly if such a callee is found. -/
theorem exists_excludedCallee? (hf : m.functions[id]? = some f) :
    (∃ callee, m.excludedCallee? f = some callee) ↔ ∃ c ∈ m.excludedIds, m.Calls id c := by
  unfold excludedCallee?
  simp only [← Option.isSome_iff_exists, List.findSome?_isSome_iff, Option.isSome_filter,
    mem_callsOf]
  constructor
  · rintro ⟨c, ⟨-, b, hb, i, hi, inst, hinst, hcallee⟩, hexcl⟩
    cases hg : m.functions[c]? with
    | none => simp [hg] at hexcl
    | some g => exact ⟨c, ⟨g, hg, by simpa [hg] using hexcl⟩, f, hf, b, hb, i, hi, inst,
        hinst, hcallee⟩
  · rintro ⟨c, ⟨g, hg, hexcl⟩, f', hf', hcall⟩
    obtain rfl := Option.some.inj (hf.symm.trans hf')
    exact ⟨c, ⟨(Array.getElem?_eq_some_iff.mp hg).1, hcall⟩, by rw [hg]; exact hexcl⟩

/-! ## Passes -/

/-- What a pass may do: leave out some functions, each of them a caller of one that is left out,
with a note for each. -/
structure LeavesOutCallers (m : Module) (r : Exclusion) : Prop where
  size : r.module.functions.size = m.functions.size
  calls : r.module.Calls = m.Calls
  subset : m.excludedIds ⊆ r.module.excludedIds
  least : ∀ s, m.excludedIds ⊆ s → m.CallerClosed s → r.module.excludedIds ⊆ s
  count : r.module.excludedCount = m.excludedCount + r.notes.length

namespace LeavesOutCallers

theorem refl (m : Module) : m.LeavesOutCallers { module := m } :=
  ⟨rfl, rfl, subset_rfl, fun _ hsub _ => hsub, rfl⟩

theorem trans (h : m.LeavesOutCallers r) (h' : r.module.LeavesOutCallers r') :
    m.LeavesOutCallers { r' with notes := r.notes ++ r'.notes } where
  size := h'.size.trans h.size
  calls := h'.calls.trans h.calls
  subset := h.subset.trans h'.subset
  least s hsub hclosed := by
    refine h'.least s (h.least s hsub hclosed) ?_
    unfold CallerClosed
    rw [h.calls]
    exact hclosed
  count := by
    rw [h'.count, h.count, List.length_append, Nat.add_assoc]

/-- Leaving out one caller. -/
theorem exclude (hf : m.functions[id]? = some f) (hincl : f.excluded = false)
    (hc : c ∈ m.excludedIds) (hcall : m.Calls id c) (note : Diagnostic) :
    m.LeavesOutCallers { module := m.exclude id, notes := [note] } where
  size := Array.size_modify
  calls := calls_exclude m id
  subset := by
    rw [excludedIds_exclude hf]
    exact Set.subset_insert id _
  least s hsub hclosed := by
    rw [excludedIds_exclude hf]
    exact Set.insert_subset (hclosed id c hcall (hsub hc)) hsub
  count := excludedCount_exclude hf hincl

end LeavesOutCallers

theorem leavesOutCallers_excludeCallersIn (reason : String) (ids : List FuncId) (m : Module) :
    m.LeavesOutCallers (excludeCallersIn reason ids m) := by
  induction ids generalizing m with
  | nil => exact .refl m
  | cons id ids ih =>
    unfold excludeCallersIn
    split
    · exact ih m
    · rename_i f hf
      split
      · exact ih m
      · rename_i callee hcallee
        split
        · exact ih m
        · rename_i hincl
          obtain ⟨c, hc, hcall⟩ := (exists_excludedCallee? hf).mp ⟨callee, hcallee⟩
          have hone := LeavesOutCallers.exclude hf (Bool.eq_false_iff.mpr hincl) hc hcall
          exact (hone _).trans (ih _)

/-- A pass that leaves out nothing has found no caller to leave out. -/
theorem eq_of_excludeCallersIn {reason : String} {ids : List FuncId}
    (h : (excludeCallersIn reason ids m).notes = []) :
    (excludeCallersIn reason ids m).module = m ∧
      ∀ id ∈ ids, ∀ c ∈ m.excludedIds, m.Calls id c → id ∈ m.excludedIds := by
  induction ids with
  | nil => exact ⟨rfl, nofun⟩
  | cons id ids ih =>
    unfold excludeCallersIn at h ⊢
    -- In each case but that of a new caller the pass goes on with the same module.
    have hrest (hhead : ∀ c ∈ m.excludedIds, m.Calls id c → id ∈ m.excludedIds)
        (htail : (excludeCallersIn reason ids m).notes = []) :
        (excludeCallersIn reason ids m).module = m ∧
          ∀ id' ∈ id :: ids, ∀ c ∈ m.excludedIds, m.Calls id' c → id' ∈ m.excludedIds := by
      obtain ⟨heq, hids⟩ := ih htail
      exact ⟨heq, List.forall_mem_cons.mpr ⟨hhead, hids⟩⟩
    split at h
    · rename_i hnone
      refine hrest ?_ h
      rintro c - ⟨f, hf, -⟩
      cases hnone.symm.trans hf
    · rename_i f hf
      split at h
      · rename_i hnone
        refine hrest (fun c hc hcall => ?_) h
        obtain ⟨callee, hcallee⟩ := (exists_excludedCallee? hf).mpr ⟨c, hc, hcall⟩
        cases hnone.symm.trans hcallee
      · split at h
        · rename_i hexcl
          rw [if_pos hexcl]
          exact hrest (fun _ _ _ => ⟨f, hf, hexcl⟩) h
        · cases h

theorem excludedCount_le (m : Module) : m.excludedCount ≤ m.functions.size := List.countP_le_length

theorem leavesOutCallers_excludeCallersRounds (m : Module) (reason : String) (n : Nat) :
    m.LeavesOutCallers (excludeCallersRounds reason n m) := by
  induction n generalizing m with
  | zero => exact .refl m
  | succ n ih =>
    have hround := leavesOutCallers_excludeCallersIn reason (List.range m.functions.size) m
    unfold excludeCallersRounds
    dsimp only
    split
    · exact hround
    · exact hround.trans (ih _)

/-- Every round but the last leaves out a function, so with more rounds than functions that are not
left out the last one finds nothing. -/
theorem callerClosed_excludeCallersRounds (reason : String) (n : Nat) (m : Module)
    (hn : m.functions.size < m.excludedCount + n) :
    m.CallerClosed (excludeCallersRounds reason n m).module.excludedIds := by
  induction n generalizing m with
  | zero =>
    have := m.excludedCount_le
    omega
  | succ n ih =>
    have hround := leavesOutCallers_excludeCallersIn reason (List.range m.functions.size) m
    unfold excludeCallersRounds
    dsimp only
    split
    · rename_i hempty
      obtain ⟨heq, hids⟩ := eq_of_excludeCallersIn (List.isEmpty_iff.mp hempty)
      rw [heq]
      intro id c hcall hc
      have hlt : id < m.functions.size := by
        obtain ⟨f, hf, -⟩ := hcall
        exact (Array.getElem?_eq_some_iff.mp hf).1
      exact hids id (List.mem_range.mpr hlt) c hc hcall
    · rename_i hnotes
      have hpos : 0 < (excludeCallersIn reason (List.range m.functions.size) m).notes.length := by
        rw [List.length_pos_iff]
        simpa using hnotes
      have hrest := ih (excludeCallersIn reason (List.range m.functions.size) m).module (by
        rw [hround.size, hround.count]
        omega)
      unfold CallerClosed at hrest
      rwa [hround.calls] at hrest

/-- The functions that are left out in the end are the least set with those that were left out
before and all callers of its members. -/
theorem isLeast_excludeCallers (m : Module) (reason : String) :
    IsLeast {s | m.excludedIds ⊆ s ∧ m.CallerClosed s}
      (m.excludeCallers reason).module.excludedIds := by
  have hpasses := m.leavesOutCallers_excludeCallersRounds reason (m.functions.size + 1)
  refine ⟨⟨hpasses.subset, ?_⟩, fun s hs => hpasses.least s hs.1 hs.2⟩
  exact callerClosed_excludeCallersRounds reason _ m (by omega)

end Module

end ContractCompiler.Ssa
