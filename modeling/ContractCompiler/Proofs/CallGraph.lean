import ContractCompiler.Ssa.CallGraph
import Mathlib.Data.List.Nodup
import Mathlib.Data.List.Sort

/-!
# The callees of functions

- `pairwise_mergeSort`, `pairwise_sortedSet`: lists in increasing order;
- `Module.mem_calleesOf`, `Module.pairwise_calleesOf`: the callees of a function are the functions
  of the module that its blocks call, in increasing order.
-/

namespace ContractCompiler.Ssa

/-! ## Lists in increasing order -/

theorem nodup_eraseDups {α : Type} [BEq α] [LawfulBEq α] : ∀ (n : Nat) (l : List α), l.length ≤ n →
    l.eraseDups.Nodup := by
  intro n
  induction n with
  | zero =>
    intro l hl
    rw [List.eq_nil_of_length_eq_zero (Nat.le_zero.mp hl)]
    exact .nil
  | succ n ih =>
    intro l hl
    cases l with
    | nil => exact .nil
    | cons a as =>
      rw [List.eraseDups_cons, List.nodup_cons]
      constructor
      · rw [List.mem_eraseDups, List.mem_filter]
        simp
      · refine ih _ ((List.length_filter_le _ _).trans ?_)
        simpa using hl

theorem eraseDups_sublist {α : Type} [BEq α] [LawfulBEq α] :
    ∀ (n : Nat) (l : List α), l.length ≤ n →
    l.eraseDups.Sublist l := by
  intro n
  induction n with
  | zero =>
    intro l hl
    rw [List.eq_nil_of_length_eq_zero (Nat.le_zero.mp hl)]
    exact List.Sublist.refl _
  | succ n ih =>
    intro l hl
    cases l with
    | nil => exact List.Sublist.refl _
    | cons a as =>
      rw [List.eraseDups_cons]
      have hle : (as.filter fun b => !b == a).length ≤ n :=
        (List.length_filter_le _ _).trans (by simpa using hl)
      exact ((ih _ hle).trans List.filter_sublist).cons_cons a

theorem pairwise_mergeSort {xs : List Nat} (hxs : xs.Nodup) : xs.mergeSort.Pairwise (· < ·) :=
  ((List.pairwise_mergeSort' (· ≤ ·) xs).and (List.nodup_mergeSort.mpr hxs)).imp
    fun ⟨hle, hne⟩ => Nat.lt_of_le_of_ne hle hne

/-- The list of the members of a list is strictly increasing. -/
theorem pairwise_sortedSet (xs : List Nat) : (sortedSet xs).Pairwise (· < ·) := by
  have hsorted : (sortedSet xs).Pairwise (· ≤ ·) :=
    (List.pairwise_mergeSort' (· ≤ ·) xs).sublist (eraseDups_sublist _ _ (Nat.le_refl _))
  have hnodup : (sortedSet xs).Nodup := nodup_eraseDups _ _ (Nat.le_refl _)
  exact (hsorted.and hnodup).imp fun ⟨hle, hne⟩ => Nat.lt_of_le_of_ne hle hne

theorem mem_sortedSet {x : Nat} {xs : List Nat} : x ∈ sortedSet xs ↔ x ∈ xs := by
  rw [sortedSet, List.mem_eraseDups, List.mem_mergeSort]

/-! ## Callees -/

/-- Every call goes to a function of the graph. -/
def CallGraph.Closed (g : CallGraph) : Prop := ∀ f, ∀ c ∈ g.calleesOf f, c < g.size

theorem Module.size_callGraph (m : Module) : m.callGraph.size = m.functions.size := by
  simp [CallGraph.size, callGraph]

theorem Module.mem_callsOf {m : Module} {f : Function} {c : FuncId} :
    c ∈ m.callsOf f ↔ c < m.functions.size ∧ ∃ b ∈ f.blocks, ∃ i ∈ (m.block b).insts, ∃ inst,
      m.insts[i]? = some inst ∧ inst.data.callee? = some c := by
  unfold Module.callsOf Module.blockInsts
  simp only [List.mem_flatMap, List.mem_filter, List.mem_filterMap, Option.map_eq_some_iff,
    decide_eq_true_eq, Prod.exists]
  constructor
  · rintro ⟨b, hb, ⟨j, inst, ⟨i, hi, inst', hinst, heq⟩, hc⟩, hlt⟩
    obtain ⟨rfl, rfl⟩ := Prod.mk.inj heq
    exact ⟨hlt, b, hb, i, hi, inst', hinst, hc⟩
  · rintro ⟨hlt, b, hb, i, hi, inst, hinst, hc⟩
    exact ⟨b, hb, ⟨i, inst, ⟨i, hi, inst, hinst, rfl⟩, hc⟩, hlt⟩

/-- A function calls another if one of its blocks has a call to it and the function is not left
out. -/
theorem Module.mem_calleesOf {m : Module} {f c : FuncId} :
    c ∈ m.callGraph.calleesOf f ↔
      ∃ fn, m.functions[f]? = some fn ∧ fn.excluded = false ∧ c ∈ m.callsOf fn := by
  unfold CallGraph.calleesOf callGraph
  rw [Array.getD_eq_getD_getElem?, Array.getElem?_map]
  cases hf : m.functions[f]? with
  | none => simp
  | some fn =>
    simp only [Option.map_some, Option.getD_some, Option.some.injEq, exists_eq_left']
    cases hexcl : fn.excluded with
    | true => simp
    | false => simp [mem_sortedSet]

/-- The call graph of a module only leads to functions of the module. -/
theorem Module.callGraph_closed (m : Module) : m.callGraph.Closed := by
  intro f c hc
  rw [size_callGraph]
  obtain ⟨fn, -, -, hc⟩ := mem_calleesOf.mp hc
  exact (mem_callsOf.mp hc).1

/-- Callees stand in increasing order. -/
theorem Module.pairwise_calleesOf (m : Module) (f : FuncId) :
    (m.callGraph.calleesOf f).Pairwise (· < ·) := by
  unfold CallGraph.calleesOf callGraph
  rw [Array.getD_eq_getD_getElem?, Array.getElem?_map]
  cases m.functions[f]? with
  | none => exact .nil
  | some fn =>
    show (if fn.excluded then [] else sortedSet (m.callsOf fn)).Pairwise (· < ·)
    split
    · exact .nil
    · exact pairwise_sortedSet _

end ContractCompiler.Ssa
