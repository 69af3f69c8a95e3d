import ContractCompiler.Proofs.CallGraph
import ContractCompiler.Proofs.Search

/-!
# The search for groups keeps its invariant

What each step of the search changes, and what holds between visits. `path` lists the functions
whose visits have begun and not ended, the last one first.

- `Tarjan.Sound`: the invariant. A function on the stack leads to those above it and to some
  function of the path that is not above it;
- `Tarjan.Found`: the functions of a group that has been found are exactly those that lead to each
  other;
- `Tarjan.LowOf`: what the low number of a function tells once some of its calls have been followed;
- `Tarjan.Sound.enter`, `Tarjan.Found.addGroup`: a function is entered, a group is found.
-/

namespace ContractCompiler.Ssa.CallGraph

open Walk (Reach Mutual)

namespace Tarjan

variable {g : CallGraph} {s s' : Tarjan} {path : List FuncId} {f h : FuncId}

theorem getD_modify_mark {marks : Array Mark} (hf : f < marks.size) (change : Mark → Mark)
    (h : FuncId) :
    (marks.modify f change).getD h {} = if h = f then change (marks.getD h {})
      else marks.getD h {} := by
  rw [Array.getD_eq_getD_getElem?, Array.getElem?_modify, Array.getD_eq_getD_getElem?]
  by_cases hne : h = f
  · subst hne
    simp [hf]
  · simp [hne, Ne.symm hne]

/-! ## What is known about a function -/

/-- A function has been met. -/
def Met (s : Tarjan) (f : FuncId) : Prop := (s.mark f).index ≠ none

/-- The number of a function that has been met. -/
def num (s : Tarjan) (f : FuncId) : Nat := (s.mark f).index.getD 0

/-- The functions that are in a group. -/
def grouped (s : Tarjan) : List FuncId := s.groups.toList.flatten

theorem Met.index_eq (hf : s.Met f) : (s.mark f).index = some (s.num f) := by
  unfold num
  cases hindex : (s.mark f).index with
  | none => exact absurd hindex hf
  | some i => rfl

theorem Met.lt_size (hf : s.Met f) : f < s.marks.size := by
  by_contra hle
  refine hf ?_
  rw [mark, Array.getD_eq_getD_getElem?, Array.getElem?_eq_none (Nat.le_of_not_lt hle)]
  rfl

theorem met_congr (hindex : (s'.mark f).index = (s.mark f).index) : s'.Met f ↔ s.Met f := by
  rw [Met, Met, hindex]

theorem num_congr (hindex : (s'.mark f).index = (s.mark f).index) : s'.num f = s.num f := by
  rw [num, num, hindex]

/-! ## Steps -/

@[simp] theorem size_enter (s : Tarjan) (f : FuncId) : (s.enter f).marks.size = s.marks.size := by
  simp [enter]

@[simp] theorem stack_enter (s : Tarjan) (f : FuncId) : (s.enter f).stack = f :: s.stack := rfl

@[simp] theorem nextIndex_enter (s : Tarjan) (f : FuncId) :
    (s.enter f).nextIndex = s.nextIndex + 1 := rfl

@[simp] theorem groups_enter (s : Tarjan) (f : FuncId) : (s.enter f).groups = s.groups := rfl

@[simp] theorem grouped_enter (s : Tarjan) (f : FuncId) : (s.enter f).grouped = s.grouped := rfl

theorem mark_enter_self (hf : f < s.marks.size) :
    (s.enter f).mark f = { s.mark f with
      index := some s.nextIndex, low := s.nextIndex, onStack := true } := by
  rw [mark, enter, getD_modify_mark hf, if_pos rfl, mark]

theorem mark_enter_of_ne (hne : h ≠ f) : (s.enter f).mark h = s.mark h := by
  simp [mark, enter, Array.getD_eq_getD_getElem?, Array.getElem?_modify, hne.symm]

theorem met_enter (hf : f < s.marks.size) : (s.enter f).Met h ↔ h = f ∨ s.Met h := by
  by_cases hne : h = f
  · subst hne
    exact iff_of_true (by simp [Met, mark_enter_self hf]) (.inl rfl)
  · rw [Met, mark_enter_of_ne hne]
    exact ⟨.inr, fun hor => hor.resolve_left hne⟩

theorem num_enter_self (hf : f < s.marks.size) : (s.enter f).num f = s.nextIndex := by
  simp [num, mark_enter_self hf]

theorem num_enter_of_ne (hne : h ≠ f) : (s.enter f).num h = s.num h := by
  rw [num, mark_enter_of_ne hne, num]

@[simp] theorem size_lower (s : Tarjan) (f : FuncId) (n : Nat) :
    (s.lower f n).marks.size = s.marks.size := by
  simp [lower]

@[simp] theorem stack_lower (s : Tarjan) (f : FuncId) (n : Nat) :
    (s.lower f n).stack = s.stack := rfl

@[simp] theorem nextIndex_lower (s : Tarjan) (f : FuncId) (n : Nat) :
    (s.lower f n).nextIndex = s.nextIndex := rfl

@[simp] theorem groups_lower (s : Tarjan) (f : FuncId) (n : Nat) :
    (s.lower f n).groups = s.groups := rfl

@[simp] theorem grouped_lower (s : Tarjan) (f : FuncId) (n : Nat) :
    (s.lower f n).grouped = s.grouped := rfl

theorem mark_lower_self (hf : f < s.marks.size) (n : Nat) :
    (s.lower f n).mark f = { s.mark f with low := min (s.mark f).low n } := by
  rw [mark, lower, getD_modify_mark hf, if_pos rfl, mark]

theorem mark_lower_of_ne (hne : h ≠ f) (n : Nat) : (s.lower f n).mark h = s.mark h := by
  simp [mark, lower, Array.getD_eq_getD_getElem?, Array.getElem?_modify, hne.symm]

theorem mark_lower_of_size_le (hf : s.marks.size ≤ f) (n : Nat) :
    (s.lower f n).mark f = s.mark f := by
  simp [mark, lower, Array.getD_eq_getD_getElem?, hf]

/-- Only the low number of a function changes. -/
theorem mark_lower (s : Tarjan) (f : FuncId) (n : Nat) (h : FuncId) :
    ∃ low, (s.lower f n).mark h = { s.mark h with low := low } := by
  by_cases hne : h = f
  · subst hne
    by_cases hlt : h < s.marks.size
    · exact ⟨_, mark_lower_self hlt n⟩
    · exact ⟨_, mark_lower_of_size_le (Nat.le_of_not_lt hlt) n⟩
  · exact ⟨_, mark_lower_of_ne hne n⟩

@[simp] theorem index_lower (s : Tarjan) (f : FuncId) (n : Nat) (h : FuncId) :
    ((s.lower f n).mark h).index = (s.mark h).index := by
  obtain ⟨low, hmark⟩ := mark_lower s f n h
  rw [hmark]

@[simp] theorem onStack_lower (s : Tarjan) (f : FuncId) (n : Nat) (h : FuncId) :
    ((s.lower f n).mark h).onStack = (s.mark h).onStack := by
  obtain ⟨low, hmark⟩ := mark_lower s f n h
  rw [hmark]

@[simp] theorem group_lower (s : Tarjan) (f : FuncId) (n : Nat) (h : FuncId) :
    ((s.lower f n).mark h).group = (s.mark h).group := by
  obtain ⟨low, hmark⟩ := mark_lower s f n h
  rw [hmark]

@[simp] theorem met_lower (s : Tarjan) (f : FuncId) (n : Nat) : (s.lower f n).Met h ↔ s.Met h :=
  met_congr (index_lower s f n h)

@[simp] theorem num_lower (s : Tarjan) (f : FuncId) (n : Nat) : (s.lower f n).num h = s.num h :=
  num_congr (index_lower s f n h)

/-- Taking functions off the stack up to one of them splits the stack after it. -/
theorem takeTo_append {above below : List FuncId} (hf : f ∉ above) :
    takeTo f (above ++ f :: below) = (above ++ [f], below) := by
  induction above with
  | nil => simp [takeTo]
  | cons h above ih =>
    rw [List.mem_cons, not_or] at hf
    simp [takeTo, ih hf.2, Ne.symm hf.1]

theorem getD_foldl_close (group : Nat) (f : FuncId) :
    ∀ (members : List FuncId) (marks : Array Mark),
    (∀ h ∈ members, h < marks.size) →
      (members.foldl (fun marks h => marks.modify h (.close group)) marks).getD f {} =
        if f ∈ members then (marks.getD f {}).close group else marks.getD f {} := by
  intro members
  induction members with
  | nil => simp
  | cons h members ih =>
    intro marks hlt
    have hh := hlt h List.mem_cons_self
    have hrest : ∀ x ∈ members, x < (marks.modify h (.close group)).size := by
      simpa using fun x hx => hlt x (List.mem_cons_of_mem h hx)
    rw [List.foldl_cons, ih _ hrest, getD_modify_mark hh]
    by_cases hfh : f = h <;> by_cases hmem : f ∈ members <;> simp [hfh, hmem, Mark.close]

theorem size_foldl_close (group : Nat) (members : List FuncId) (marks : Array Mark) :
    (members.foldl (fun marks h => marks.modify h (.close group)) marks).size = marks.size := by
  induction members generalizing marks with
  | nil => rfl
  | cons h members ih =>
    rw [List.foldl_cons, ih, Array.size_modify]

@[simp] theorem size_addGroup (s : Tarjan) (members rest : List FuncId) :
    (s.addGroup members rest).marks.size = s.marks.size :=
  size_foldl_close _ _ _

@[simp] theorem stack_addGroup (s : Tarjan) (members rest : List FuncId) :
    (s.addGroup members rest).stack = rest := rfl

@[simp] theorem nextIndex_addGroup (s : Tarjan) (members rest : List FuncId) :
    (s.addGroup members rest).nextIndex = s.nextIndex := rfl

@[simp] theorem groups_addGroup (s : Tarjan) (members rest : List FuncId) :
    (s.addGroup members rest).groups.toList = s.groups.toList ++ [members.mergeSort] := by
  simp [addGroup]

@[simp] theorem grouped_addGroup (s : Tarjan) (members rest : List FuncId) :
    (s.addGroup members rest).grouped = s.grouped ++ members.mergeSort := by
  simp [grouped]

section AddGroup

variable {members : List FuncId} (hmembers : ∀ h ∈ members, h < s.marks.size) (rest : List FuncId)

include hmembers

/-- The members of a group leave the stack and get the number of the group. -/
theorem mark_addGroup (f : FuncId) : (s.addGroup members rest).mark f =
    if f ∈ members then (s.mark f).close s.groups.size else s.mark f :=
  getD_foldl_close _ _ _ _ hmembers

theorem index_addGroup (f : FuncId) :
    ((s.addGroup members rest).mark f).index = (s.mark f).index := by
  rw [mark_addGroup hmembers]
  split <;> rfl

theorem low_addGroup (f : FuncId) : ((s.addGroup members rest).mark f).low = (s.mark f).low := by
  rw [mark_addGroup hmembers]
  split <;> rfl

end AddGroup

/-! ## The invariant -/

/-- The groups that have been found: each holds the functions that lead to one of its members and
that the member leads to, and calls go to groups found before. -/
structure Found (g : CallGraph) (s : Tarjan) : Prop where
  callee : ∀ f ∈ s.grouped, ∀ c ∈ g.calleesOf f, c ∈ s.grouped
  callee_later :
      s.groups.toList.Pairwise fun earlier later => ∀ f ∈ earlier, ∀ c ∈ g.calleesOf f, c ∉ later
  mem_iff : ∀ members ∈ s.groups.toList, ∀ f ∈ members, ∀ h, h ∈ members ↔ Mutual g.calleesOf f h
  sorted : ∀ members ∈ s.groups.toList, members.Pairwise (· < ·)
  ne_nil : ∀ members ∈ s.groups.toList, members ≠ []
  place : ∀ i members, s.groups.toList[i]? = some members → ∀ f ∈ members, (s.mark f).group = i

/-- What holds between visits while the functions of `path` are being visited, the last one
first. -/
structure Sound (g : CallGraph) (path : List FuncId) (s : Tarjan) : Prop where
  size_eq : s.marks.size = g.size
  met_iff : ∀ f, s.Met f ↔ f ∈ s.stack ∨ f ∈ s.grouped
  onStack_iff : ∀ f, (s.mark f).onStack = true ↔ f ∈ s.stack
  nodup : (s.stack ++ s.grouped).Nodup
  length_eq : (s.stack ++ s.grouped).length = s.nextIndex
  num_lt : ∀ f, s.Met f → s.num f < s.nextIndex
  sorted : s.stack.Pairwise fun a b => s.num b < s.num a
  path_sublist : path.Sublist s.stack
  met_callee : ∀ f ∈ s.stack, f ∉ path → ∀ c ∈ g.calleesOf f, s.Met c
  /-- A function on the stack leads to itself and those above it. -/
  reach_above : ∀ a ∈ s.stack, ∀ b ∈ s.stack, s.num a ≤ s.num b → Reach g.calleesOf a b
  /-- A function on the stack leads to one that is being visited. -/
  reach_path : ∀ f ∈ s.stack, ∃ p ∈ path, s.num p ≤ s.num f ∧ Reach g.calleesOf f p
  found : Found g s

/-- What the low number of a function tells once some of its calls have been followed: it is the
number of a function that it leads to, and no call from it or from above it on the stack goes below
that. -/
structure LowOf (g : CallGraph) (s : Tarjan) (f : FuncId) (followed : List FuncId) : Prop where
  le_num : (s.mark f).low ≤ s.num f
  reached : ∃ h, (h = f ∨ h ∈ s.stack) ∧ s.num h = (s.mark f).low ∧ Reach g.calleesOf f h
  le_followed : ∀ c ∈ followed, c ∈ s.stack → (s.mark f).low ≤ s.num c
  le_callee : ∀ h ∈ s.stack, h ≠ f → s.num f ≤ s.num h → ∀ c ∈ g.calleesOf h, c ∈ s.stack →
    (s.mark f).low ≤ s.num c

/-- A search leads to another that has met more functions. -/
structure Continues (s s' : Tarjan) : Prop where
  met : ∀ f, s.Met f → s'.Met f
  num_eq : ∀ f, s.Met f → s'.num f = s.num f
  low_eq : ∀ f, s.Met f → (s'.mark f).low = (s.mark f).low
  mem_stack : ∀ f ∈ s.stack, f ∈ s'.stack
  new : ∀ f ∈ s'.stack, f ∈ s.stack ∨ s.nextIndex ≤ s'.num f
  nextIndex_le : s.nextIndex ≤ s'.nextIndex

theorem Found.congr (hfound : Found g s) (hgroups : s'.groups = s.groups)
    (hgroup : ∀ f, (s'.mark f).group = (s.mark f).group) : Found g s' where
  callee := by
    unfold grouped
    rw [hgroups]
    exact hfound.callee
  callee_later := hgroups ▸ hfound.callee_later
  mem_iff := hgroups ▸ hfound.mem_iff
  sorted := hgroups ▸ hfound.sorted
  ne_nil := hgroups ▸ hfound.ne_nil
  place i members hi f hf := by
    rw [hgroup]
    exact hfound.place i members (hgroups ▸ hi) f hf

/-- A further group: it is disjoint from those before, and calls from it stay in it or go to
them. -/
theorem Found.addGroup (hfound : Found g s) {members rest : List FuncId}
    (hlt : ∀ h ∈ members, h < s.marks.size) (hne : members ≠ []) (hnodup : members.Nodup)
    (hfresh : ∀ h ∈ members, h ∉ s.grouped)
    (hcallee : ∀ h ∈ members, ∀ c ∈ g.calleesOf h, c ∈ members ∨ c ∈ s.grouped)
    (hmutual : ∀ f ∈ members, ∀ h, h ∈ members ↔ Mutual g.calleesOf f h) :
    Found g (s.addGroup members rest) := by
  have hmem : ∀ h, h ∈ members.mergeSort ↔ h ∈ members := fun h => List.mem_mergeSort
  constructor
  case callee =>
    intro h hh c hc
    rw [grouped_addGroup, List.mem_append, hmem] at hh ⊢
    rcases hh with hh | hh
    · exact .inl (hfound.callee h hh c hc)
    · exact (hcallee h hh c hc).symm
  case callee_later =>
    rw [groups_addGroup, List.pairwise_append]
    refine ⟨hfound.callee_later, List.pairwise_singleton _ _, ?_⟩
    intro earlier hearlier later hlater h hh c hc hcl
    rw [List.mem_singleton.mp hlater, hmem] at hcl
    -- calls from a group that was found before go to such a group
    exact hfresh c hcl (hfound.callee h (List.mem_flatten.mpr ⟨earlier, hearlier, hh⟩) c hc)
  case mem_iff =>
    rw [groups_addGroup]
    intro group hgroup f hf h
    rcases List.mem_append.mp hgroup with hgroup | hgroup
    · exact hfound.mem_iff group hgroup f hf h
    · rw [List.mem_singleton.mp hgroup, hmem] at hf ⊢
      exact hmutual f hf h
  case sorted =>
    rw [groups_addGroup]
    intro group hgroup
    rcases List.mem_append.mp hgroup with hgroup | hgroup
    · exact hfound.sorted group hgroup
    · rw [List.mem_singleton.mp hgroup]
      exact pairwise_mergeSort hnodup
  case ne_nil =>
    rw [groups_addGroup]
    intro group hgroup
    rcases List.mem_append.mp hgroup with hgroup | hgroup
    · exact hfound.ne_nil group hgroup
    · rw [List.mem_singleton.mp hgroup]
      obtain ⟨f, hf⟩ := List.exists_mem_of_ne_nil _ hne
      exact List.ne_nil_of_mem ((hmem f).mpr hf)
  case place =>
    intro i group hi f hf
    rw [groups_addGroup, List.getElem?_append] at hi
    rw [mark_addGroup hlt]
    split at hi
    · have hgroup := List.mem_of_getElem? hi
      rw [if_neg fun hfm => hfresh f hfm (List.mem_flatten.mpr ⟨group, hgroup, hf⟩)]
      exact hfound.place i group hi f hf
    · obtain ⟨hlen, rfl⟩ := List.getElem?_eq_some_iff.mp hi
      rw [List.length_singleton] at hlen
      rw [List.getElem_singleton, hmem] at hf
      rw [if_pos hf]
      show s.groups.size = i
      rw [Array.length_toList] at *
      omega

namespace Sound

theorem met (hs : Sound g path s) (hf : f ∈ s.stack) : s.Met f := (hs.met_iff f).mpr (.inl hf)

theorem not_mem_grouped (hs : Sound g path s) (hf : f ∈ s.stack) : f ∉ s.grouped :=
  fun hg => (List.nodup_append.mp hs.nodup).2.2 f hf f hg rfl

theorem lt_size (hs : Sound g path s) (hf : s.Met f) : f < g.size := hs.size_eq ▸ hf.lt_size

/-- A function that is being visited has a higher number than those that were being visited
before. -/
theorem num_lt_of_mem_path (hs : Sound g (f :: path) s) {p : FuncId} (hp : p ∈ path) :
    s.num p < s.num f :=
  List.rel_of_pairwise_cons (hs.sorted.sublist hs.path_sublist) hp

/-- The functions above the one that is being visited are not being visited. -/
theorem not_mem_path_of_le (hs : Sound g (f :: path) s) (hne : h ≠ f) (hle : s.num f ≤ s.num h) :
    h ∉ f :: path := by
  rw [List.mem_cons, not_or]
  refine ⟨hne, fun hpath => ?_⟩
  have := hs.num_lt_of_mem_path hpath
  omega

theorem mem_stack_of_mem_path (hs : Sound g path s) {p : FuncId} (hp : p ∈ path) : p ∈ s.stack :=
  hs.path_sublist.subset hp

/-- There are fewer numbers given than functions as long as a function has not been met. -/
theorem nextIndex_lt (hs : Sound g path s) (hf : f < g.size) (hnew : ¬s.Met f) :
    s.nextIndex < g.size := by
  have hnodup : (f :: (s.stack ++ s.grouped)).Nodup := by
    refine List.nodup_cons.mpr ⟨fun hmem => hnew ((hs.met_iff f).mpr ?_), hs.nodup⟩
    exact List.mem_append.mp hmem
  have hsub : f :: (s.stack ++ s.grouped) ⊆ List.range g.size := by
    intro h hh
    rw [List.mem_range]
    rcases List.mem_cons.mp hh with rfl | hh
    · exact hf
    · exact hs.lt_size ((hs.met_iff h).mpr (List.mem_append.mp hh))
  have hle := (hnodup.subperm hsub).length_le
  rw [List.length_cons, hs.length_eq, List.length_range] at hle
  exact hle

/-- A low number may be lowered: nothing else changes. -/
theorem lower (hs : Sound g path s) (f : FuncId) (n : Nat) : Sound g path (s.lower f n) where
  size_eq := by simpa using hs.size_eq
  met_iff h := by simpa using hs.met_iff h
  onStack_iff h := by simpa using hs.onStack_iff h
  nodup := hs.nodup
  length_eq := hs.length_eq
  num_lt h := by simpa using hs.num_lt h
  sorted := by simpa using hs.sorted
  path_sublist := hs.path_sublist
  met_callee h := by simpa using hs.met_callee h
  reach_above := by simpa using hs.reach_above
  reach_path := by simpa using hs.reach_path
  found := hs.found.congr rfl (group_lower s f n)

/-- A function that the functions being visited lead to may be entered. -/
theorem enter (hs : Sound g path s) (hf : f < g.size) (hnew : ¬s.Met f)
    (hreach : ∀ p ∈ path, Reach g.calleesOf p f) : Sound g (f :: path) (s.enter f) := by
  have hlt : f < s.marks.size := hs.size_eq ▸ hf
  have hne : ∀ h ∈ s.stack, h ≠ f := fun h hh heq => hnew (heq ▸ hs.met hh)
  have hnum : ∀ h ∈ s.stack, (s.enter f).num h = s.num h := fun h hh => num_enter_of_ne (hne h hh)
  have hnext : ∀ h ∈ s.stack, s.num h < s.nextIndex := fun h hh => hs.num_lt h (hs.met hh)
  have hself := num_enter_self hlt
  constructor
  case size_eq => simpa using hs.size_eq
  case met_iff =>
    intro h
    rw [met_enter hlt, hs.met_iff h, stack_enter, List.mem_cons, or_assoc, grouped_enter]
  case onStack_iff =>
    intro h
    rw [stack_enter, List.mem_cons]
    by_cases heq : h = f
    · subst heq
      simp [mark_enter_self hlt]
    · rw [mark_enter_of_ne heq, hs.onStack_iff h]
      exact ⟨.inr, fun hor => hor.resolve_left heq⟩
  case nodup =>
    refine List.nodup_cons.mpr ⟨fun hmem => hnew ((hs.met_iff f).mpr ?_), hs.nodup⟩
    exact List.mem_append.mp hmem
  case length_eq =>
    show (s.stack ++ s.grouped).length + 1 = s.nextIndex + 1
    rw [hs.length_eq]
  case num_lt =>
    intro h hh
    rw [nextIndex_enter]
    by_cases heq : h = f
    · subst heq
      omega
    · rw [num_enter_of_ne heq]
      have := hs.num_lt h (((met_enter hlt).mp hh).resolve_left heq)
      omega
  case sorted =>
    refine List.pairwise_cons.mpr ⟨fun b hb => ?_, hs.sorted.imp_of_mem fun ha hb hab => ?_⟩
    · rw [hself, hnum b hb]
      exact hnext b hb
    · rwa [hnum _ ha, hnum _ hb]
  case path_sublist => exact hs.path_sublist.cons_cons f
  case met_callee =>
    intro h hh hpath c hc
    rw [List.mem_cons, not_or] at hpath
    have hh := (List.mem_cons.mp hh).resolve_left hpath.1
    exact (met_enter hlt).mpr (.inr (hs.met_callee h hh hpath.2 c hc))
  case reach_above =>
    intro a ha b hb hab
    rcases List.mem_cons.mp ha with rfl | ha
    · rcases List.mem_cons.mp hb with rfl | hb
      · exact .refl _
      · -- no function on the stack has a number as high as the new one
        rw [hself, hnum b hb] at hab
        have := hnext b hb
        omega
    · rcases List.mem_cons.mp hb with heq | hb
      · obtain ⟨p, hp, -, hap⟩ := hs.reach_path a ha
        exact heq ▸ hap.trans (hreach p hp)
      · rw [hnum a ha, hnum b hb] at hab
        exact hs.reach_above a ha b hb hab
  case reach_path =>
    intro h hh
    rcases List.mem_cons.mp hh with rfl | hh
    · exact ⟨h, List.mem_cons_self, Nat.le_refl _, .refl h⟩
    · obtain ⟨p, hp, hle, hhp⟩ := hs.reach_path h hh
      refine ⟨p, List.mem_cons_of_mem f hp, ?_, hhp⟩
      rwa [hnum p (hs.mem_stack_of_mem_path hp), hnum h hh]
  case found =>
    refine hs.found.congr rfl fun h => ?_
    by_cases heq : h = f
    · subst heq
      rw [mark_enter_self hlt]
    · rw [mark_enter_of_ne heq]

end Sound

end Tarjan

end ContractCompiler.Ssa.CallGraph
