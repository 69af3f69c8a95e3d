import ContractCompiler.Proofs.Tarjan.Visits
import Mathlib.Algebra.Order.Ring.Nat

/-!
# The groups are the components of the call graph

Two functions are in one group exactly if each leads to the other by calls, and the groups stand in
an order in which a function that is called is never in a later group than its caller.

- `CallGraph.Grouped`: what makes lists of functions the components of a call graph;
- `CallGraph.exists_component`, `CallGraph.components_disjoint`: every function is in one group;
- `CallGraph.callee_before`: a function that is called is in the group of the caller or in an
  earlier one;
- `CallGraph.grouped_components`: the groups that are found are the components;
- `CallGraph.sum_length_components`: how many members the groups have in all;
- `callGraph_grouped`: the call graph of a module, and its groups.
-/

namespace ContractCompiler.Ssa

open Relation

namespace CallGraph

open Walk

variable {g : CallGraph}

/-- Lists of functions are the components of a call graph: every function is in one of them and no
other, two functions are in the same one if they lead to each other by calls, and callees come
first. -/
structure Grouped (g : CallGraph) (groups : List (List FuncId))
    (groupOf : FuncId → Nat) : Prop where
  /-- Groups hold functions of the graph, in increasing order, and at least one. -/
  members_lt : ∀ members ∈ groups, ∀ f ∈ members, f < g.size
  sorted : ∀ members ∈ groups, members.Pairwise (· < ·)
  ne_nil : ∀ members ∈ groups, members ≠ []
  /-- The number of the group of a function, which is in no other group. -/
  place : ∀ f < g.size, ∀ i, (∃ members, groups[i]? = some members ∧ f ∈ members) ↔ i = groupOf f
  /-- Two functions are together exactly if each leads to the other. -/
  together : ∀ f < g.size, ∀ h < g.size,
    (∃ members ∈ groups, f ∈ members ∧ h ∈ members) ↔ Reach g.calleesOf f h ∧ Reach g.calleesOf h f
  /-- A callee that is not in the group of its caller is in an earlier one. -/
  callee_lt : ∀ f < g.size, ∀ c ∈ g.calleesOf f, groupOf c ≠ groupOf f → groupOf c < groupOf f
  /-- A group is cyclic exactly if one of its functions leads to itself by at least one call. -/
  cyclic : ∀ members ∈ groups,
    g.isCyclic members = true ↔ ∃ f ∈ members, TransGen (fun a b => b ∈ g.calleesOf a) f f

/-! ## The groups found -/

section Closed

variable (hg : g.Closed)

include hg

theorem lt_of_mem_components {members : List FuncId} (hmem : members ∈ g.components) {f : FuncId}
    (hf : f ∈ members) : f < g.size :=
  ((tarjan_spec hg).2.2 f).mp (List.mem_flatten.mpr ⟨members, hmem, hf⟩)

/-- Every function is in a group. -/
theorem exists_component {f : FuncId} (hf : f < g.size) : ∃ members ∈ g.components, f ∈ members :=
  List.mem_flatten.mp (((tarjan_spec hg).2.2 f).mpr hf)

theorem pairwise_disjoint_components : g.components.Pairwise List.Disjoint :=
  (List.nodup_flatten.mp (tarjan_spec hg).2.1).2

/-- A function's group has the number that the search noted. -/
theorem groupOf_of_mem {i : Nat} {members : List FuncId} (hi : g.components[i]? = some members)
    {f : FuncId} (hf : f ∈ members) : g.groupOf f = i :=
  (tarjan_spec hg).1.place i members hi f hf

theorem place_iff {f : FuncId} (hf : f < g.size) (i : Nat) :
    (∃ members, g.components[i]? = some members ∧ f ∈ members) ↔ i = g.groupOf f := by
  constructor
  · rintro ⟨members, hi, hfm⟩
    exact (groupOf_of_mem hg hi hfm).symm
  · rintro rfl
    obtain ⟨members, hmem, hfm⟩ := exists_component hg hf
    obtain ⟨i, hi⟩ := List.getElem?_of_mem hmem
    rw [groupOf_of_mem hg hi hfm]
    exact ⟨members, hi, hfm⟩

/-- No function is in two groups. -/
theorem components_disjoint {before after : List (List FuncId)} {members : List FuncId}
    (hsplit : g.components = before ++ members :: after) {f : FuncId} (hf : f ∈ members) :
    (∀ group ∈ before, f ∉ group) ∧ ∀ group ∈ after, f ∉ group := by
  have hdisjoint := pairwise_disjoint_components hg
  rw [hsplit, List.pairwise_append, List.pairwise_cons] at hdisjoint
  obtain ⟨-, ⟨hafter, -⟩, hbefore⟩ := hdisjoint
  constructor
  · exact fun group hgroup hfg => hbefore group hgroup members List.mem_cons_self hfg hf
  · exact fun group hgroup hfg => hafter group hgroup hf hfg

/-- A function that is called is in the group of the caller or in an earlier one. -/
theorem callee_before {before after : List (List FuncId)} {members : List FuncId}
    (hsplit : g.components = before ++ members :: after) {f c : FuncId} (hf : f ∈ members)
    (hc : c ∈ g.calleesOf f) : c ∈ members ∨ ∃ group ∈ before, c ∈ group := by
  have hlater := (tarjan_spec hg).1.callee_later
  change g.components.Pairwise _ at hlater
  obtain ⟨group, hgroup, hcg⟩ := exists_component hg (hg f c hc)
  rw [hsplit, List.pairwise_append, List.pairwise_cons] at hlater
  rw [hsplit, List.mem_append, List.mem_cons] at hgroup
  rcases hgroup with hbefore | rfl | hafter
  · exact .inr ⟨group, hbefore, hcg⟩
  · exact .inl hcg
  · exact absurd hcg (hlater.2.1.1 group hafter f hf c hc)

/-- A callee is in the group of its caller or in one with a lower number. -/
theorem groupOf_callee {f c : FuncId} (hf : f < g.size) (hc : c ∈ g.calleesOf f)
    (hne : g.groupOf c ≠ g.groupOf f) : g.groupOf c < g.groupOf f := by
  obtain ⟨members, hmem, hfm⟩ := exists_component hg hf
  obtain ⟨before, after, hsplit⟩ := List.append_of_mem hmem
  have hplace : g.groupOf f = before.length := groupOf_of_mem hg (by simp [hsplit]) hfm
  rcases callee_before hg hsplit hfm hc with hcm | ⟨group, hgroup, hcg⟩
  · exact absurd ((groupOf_of_mem hg (by simp [hsplit]) hcm).trans hplace.symm) hne
  · obtain ⟨i, hi⟩ := List.getElem?_of_mem hgroup
    have hlt : i < before.length := (List.getElem?_eq_some_iff.mp hi).1
    rw [groupOf_of_mem hg (by rw [hsplit, List.getElem?_append_left hlt, hi]) hcg, hplace]
    exact hlt

theorem mem_iff_mutual {members : List FuncId} (hmem : members ∈ g.components) {f : FuncId}
    (hf : f ∈ members) (h : FuncId) : h ∈ members ↔ Mutual g.calleesOf f h :=
  (tarjan_spec hg).1.mem_iff members hmem f hf h

theorem together_iff {f h : FuncId} (hf : f < g.size) :
    (∃ members ∈ g.components, f ∈ members ∧ h ∈ members) ↔ Mutual g.calleesOf f h := by
  constructor
  · rintro ⟨members, hmem, hfm, hhm⟩
    exact (mem_iff_mutual hg hmem hfm h).mp hhm
  · intro hmutual
    obtain ⟨members, hmem, hfm⟩ := exists_component hg hf
    exact ⟨members, hmem, hfm, (mem_iff_mutual hg hmem hfm h).mpr hmutual⟩

/-- A function that leads to itself calls itself or is not alone in its group. -/
theorem isCyclic_iff {members : List FuncId} (hmem : members ∈ g.components) :
    g.isCyclic members = true ↔ ∃ f ∈ members, TransGen (fun a b => b ∈ g.calleesOf a) f f := by
  have hmutual := fun f hf h => mem_iff_mutual hg hmem (f := f) hf h
  have hsorted := (tarjan_spec hg).1.sorted members hmem
  match members, hmutual, hsorted with
  | [], _, _ => simp [isCyclic]
  | [f], hmutual, _ =>
    simp only [isCyclic, List.contains_iff_mem, List.mem_singleton, exists_eq_left]
    constructor
    · exact fun hcall => .single hcall
    · intro hcycle
      obtain ⟨c, hcall, hback⟩ := TransGen.head'_iff.mp hcycle
      -- the first function on the way back is in the group, so it is the function itself
      have hc := (hmutual f List.mem_cons_self c).mpr ⟨.single hcall, hback⟩
      rwa [List.mem_singleton.mp hc] at hcall
  | f :: h :: rest, hmutual, hsorted =>
    refine iff_of_true (by simp [isCyclic]) ⟨f, List.mem_cons_self, ?_⟩
    obtain ⟨hfh, hhf⟩ := (hmutual f List.mem_cons_self h).mp
      (List.mem_cons_of_mem _ List.mem_cons_self)
    have hne : f ≠ h := Nat.ne_of_lt ((List.pairwise_cons.mp hsorted).1 h List.mem_cons_self)
    exact ((reflTransGen_iff_eq_or_transGen.mp hfh).resolve_left hne.symm).trans_left hhf

/-- The groups that are found are the components of a call graph. -/
theorem grouped_components : g.Grouped g.components g.groupOf where
  members_lt _ hmem _ hf := lt_of_mem_components hg hmem hf
  sorted := (tarjan_spec hg).1.sorted
  ne_nil := (tarjan_spec hg).1.ne_nil
  place _ hf := place_iff hg hf
  together _ hf _ _ := together_iff hg hf
  callee_lt _ hf _ hc := groupOf_callee hg hf hc
  cyclic _ hmem := isCyclic_iff hg hmem

/-- Every function is in one group, so the groups have as many members in all as there are
functions. -/
theorem sum_length_components : (g.components.map List.length).sum = g.size := by
  obtain ⟨-, hnodup, hmem⟩ := tarjan_spec hg
  have hperm : g.components.flatten.Perm (List.range g.size) := by
    refine (List.perm_ext_iff_of_nodup hnodup List.nodup_range).mpr fun f => ?_
    rw [List.mem_range]
    exact hmem f
  rw [← List.length_flatten, hperm.length_eq, List.length_range]

end Closed

end CallGraph

/-- The call graph of a module lists for each function, unless it is left out, the functions of the
module that its blocks call, once each and in increasing order; and its groups are its
components. -/
theorem callGraph_grouped (m : Module) :
    m.callGraph.size = m.functions.size ∧
      (∀ f, (m.callGraph.calleesOf f).Pairwise (· < ·)) ∧
      (∀ f c, c ∈ m.callGraph.calleesOf f ↔ c < m.functions.size ∧
        ∃ fn, m.functions[f]? = some fn ∧ fn.excluded = false ∧
          ∃ b ∈ fn.blocks, ∃ i ∈ (m.block b).insts, ∃ inst, m.insts[i]? = some inst ∧
            inst.data.callee? = some c) ∧
      m.callGraph.Grouped m.callGraph.components m.callGraph.groupOf := by
  refine ⟨m.size_callGraph, m.pairwise_calleesOf, fun f c => ?_,
    CallGraph.grouped_components m.callGraph_closed⟩
  simp only [Module.mem_calleesOf, Module.mem_callsOf]
  constructor
  · rintro ⟨fn, hfn, hlive, hlt, hcall⟩
    exact ⟨hlt, fn, hfn, hlive, hcall⟩
  · rintro ⟨hlt, fn, hfn, hlive, hcall⟩
    exact ⟨fn, hfn, hlive, hlt, hcall⟩

end ContractCompiler.Ssa
