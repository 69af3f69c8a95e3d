import ContractCompiler.Proofs.Tarjan.Invariant

/-!
# Visits of the search for groups

- `Tarjan.Following`: a visit that has followed some of its calls;
- `Tarjan.Following.mutual_iff_above`: a function whose low number is its own number, and whose
  calls have all been followed, begins its group;
- `Tarjan.Following.leave`: how a visit ends, with or without a group;
- `Tarjan.Following.low_call`: a callee's low number is as good as the calls of the callee and of
  all that its visit leaves on the stack;
- `Tarjan.visitsWell_visit`: what a visit keeps and adds;
- `tarjan_spec`: the whole search puts every function in one group.
-/

namespace ContractCompiler.Ssa.CallGraph

open Walk (Reach Mutual)
open scoped List

namespace Tarjan

variable {g : CallGraph} {s₀ s s' : Tarjan} {path : List FuncId} {f h : FuncId}

/-! ## Leaving a function -/

/-- A visit of `f`, begun in the search `s₀`, that has followed some of its calls. -/
structure Following (g : CallGraph) (path : List FuncId) (s₀ : Tarjan) (f : FuncId) (s : Tarjan)
    (followed : List FuncId) : Prop where
  sound : Sound g (f :: path) s
  continues : Continues s₀ s
  num_self : s.num f = s₀.nextIndex
  met_callee : ∀ c ∈ followed, s.Met c
  low : LowOf g s f followed

/-- What a visit of `f` from the search `s` adds. -/
structure VisitSpec (g : CallGraph) (path : List FuncId) (s : Tarjan) (f : FuncId)
    (s' : Tarjan) : Prop where
  sound : Sound g path s'
  continues : Continues s s'
  met : s'.Met f
  num_self : s'.num f = s.nextIndex
  low : LowOf g s' f (g.calleesOf f)

section Split

variable {above below : List FuncId} (hs : Sound g path s) (hsplit : s.stack = above ++ f :: below)

include hs hsplit

theorem mem_below_iff : h ∈ below ↔ h ∈ s.stack ∧ s.num h < s.num f := by
  have hsorted := hs.sorted
  rw [hsplit, List.pairwise_append, List.pairwise_cons] at hsorted
  obtain ⟨-, ⟨hbelow, -⟩, habove⟩ := hsorted
  rw [hsplit, List.mem_append, List.mem_cons]
  constructor
  · exact fun hh => ⟨.inr (.inr hh), hbelow h hh⟩
  · rintro ⟨hh | rfl | hh, hlt⟩
    · have := habove h hh f List.mem_cons_self
      omega
    · omega
    · exact hh

theorem mem_above_iff : h ∈ above ++ [f] ↔ h ∈ s.stack ∧ s.num f ≤ s.num h := by
  have hsorted := hs.sorted
  rw [hsplit, List.pairwise_append, List.pairwise_cons] at hsorted
  obtain ⟨-, ⟨hbelow, -⟩, habove⟩ := hsorted
  rw [hsplit, List.mem_append, List.mem_append, List.mem_singleton, List.mem_cons]
  constructor
  · rintro (hh | rfl)
    · exact ⟨.inl hh, Nat.le_of_lt (habove h hh f List.mem_cons_self)⟩
    · exact ⟨.inr (.inl rfl), Nat.le_refl _⟩
  · rintro ⟨hh | rfl | hh, hle⟩
    · exact .inl hh
    · exact .inr rfl
    · have := hbelow h hh
      omega

theorem not_mem_above : f ∉ above := by
  intro hf
  have hsorted := hs.sorted
  rw [hsplit, List.pairwise_append] at hsorted
  exact absurd (hsorted.2.2 f hf f List.mem_cons_self) (Nat.lt_irrefl _)

end Split

namespace Following

theorem mem_stack (hv : Following g path s₀ f s (g.calleesOf f)) : f ∈ s.stack :=
  hv.sound.mem_stack_of_mem_path List.mem_cons_self

/-- The stack splits at the function that is being visited. -/
theorem exists_split (hv : Following g path s₀ f s (g.calleesOf f)) :
    ∃ above below, s.stack = above ++ f :: below ∧ path.Sublist below := by
  obtain ⟨front, back, hstack, hf, hsub⟩ := List.cons_sublist_iff.mp hv.sound.path_sublist
  obtain ⟨above, mid, rfl⟩ := List.append_of_mem hf
  exact ⟨above, mid ++ back, by simp [hstack], hsub.trans (List.sublist_append_right mid back)⟩

/-- A function that is above the one being visited leads to it. -/
theorem reach_self (hv : Following g path s₀ f s (g.calleesOf f)) (hh : h ∈ s.stack)
    (hle : s.num f ≤ s.num h) :
    Reach g.calleesOf h f := by
  obtain ⟨p, hp, -, hhp⟩ := hv.sound.reach_path h hh
  refine hhp.trans (hv.sound.reach_above p (hv.sound.mem_stack_of_mem_path hp) f hv.mem_stack ?_)
  rcases List.mem_cons.mp hp with rfl | hp
  · exact Nat.le_refl _
  · exact Nat.le_of_lt (hv.sound.num_lt_of_mem_path hp)

/-- A call from the function that is being visited or from above it goes to a function that has been
met. -/
theorem met_callee_above (hv : Following g path s₀ f s (g.calleesOf f)) (hh : h ∈ s.stack)
    (hle : s.num f ≤ s.num h) {c : FuncId} (hc : c ∈ g.calleesOf h) : s.Met c := by
  by_cases heq : h = f
  · exact hv.met_callee c (heq ▸ hc)
  · exact hv.sound.met_callee h hh (hv.sound.not_mem_path_of_le heq hle) c hc

section Root

variable (hv : Following g path s₀ f s (g.calleesOf f)) (hlow : (s.mark f).low = s.num f)

include hv hlow

/-- Calls from a function that leads to nothing below it, or from above it, stay above it or go to a
group. -/
theorem callee_above (hh : h ∈ s.stack) (hle : s.num f ≤ s.num h) {c : FuncId}
    (hc : c ∈ g.calleesOf h) :
    (c ∈ s.stack ∧ s.num f ≤ s.num c) ∨ c ∈ s.grouped := by
  rcases (hv.sound.met_iff c).mp (hv.met_callee_above hh hle hc) with hstack | hgrouped
  · refine .inl ⟨hstack, hlow ▸ ?_⟩
    by_cases heq : h = f
    · exact hv.low.le_followed c (heq ▸ hc) hstack
    · exact hv.low.le_callee h hh heq hle c hc hstack
  · exact .inr hgrouped

/-- The functions from it on are then its group. -/
theorem mutual_iff_above : (h ∈ s.stack ∧ s.num f ≤ s.num h) ↔ Mutual g.calleesOf f h := by
  constructor
  · rintro ⟨hh, hle⟩
    exact ⟨hv.sound.reach_above f hv.mem_stack h hh hle, hv.reach_self hh hle⟩
  · rintro ⟨hfh, hhf⟩
    have hstay : (h ∈ s.stack ∧ s.num f ≤ s.num h) ∨ h ∈ s.grouped := by
      refine hfh.mem_of_closed (P := fun x => (x ∈ s.stack ∧ s.num f ≤ s.num x) ∨ x ∈ s.grouped)
        (.inl ⟨hv.mem_stack, Nat.le_refl _⟩) ?_
      rintro x (⟨hx, hle⟩ | hx) c hc
      · exact hv.callee_above hlow hx hle hc
      · exact .inr (hv.sound.found.callee x hx c hc)
    refine hstay.resolve_right fun hgrouped => ?_
    -- from a group there is no way back to the stack
    exact hv.sound.not_mem_grouped hv.mem_stack
      (hhf.mem_of_closed (P := (· ∈ s.grouped)) hgrouped hv.sound.found.callee)

/-- Making them a group leaves the invariant for the visits that go on. -/
theorem sound_addGroup {above below : List FuncId} (hsplit : s.stack = above ++ f :: below)
    (hsub : path.Sublist below) : Sound g path (s.addGroup (above ++ [f]) below) := by
  have hs := hv.sound
  have hlt : ∀ h ∈ above ++ [f], h < s.marks.size := fun h hh =>
    (hs.met ((mem_above_iff hs hsplit).mp hh).1).lt_size
  have hmark := mark_addGroup hlt below
  have hmet : ∀ h, (s.addGroup (above ++ [f]) below).Met h ↔ s.Met h :=
    fun h => met_congr (index_addGroup hlt below h)
  have hnum : ∀ h, (s.addGroup (above ++ [f]) below).num h = s.num h :=
    fun h => num_congr (index_addGroup hlt below h)
  have hbelow : ∀ h ∈ below, h ∈ s.stack ∧ s.num h < s.num f :=
    fun h => (mem_below_iff hs hsplit).mp
  have hdisjoint : ∀ h ∈ below, h ∉ above ++ [f] := by
    intro h hh hmem
    have := ((mem_above_iff hs hsplit).mp hmem).2
    have := (hbelow h hh).2
    omega
  -- the group only moves from the stack to the groups
  have hperm : (below ++ (s.grouped ++ (above ++ [f]).mergeSort)).Perm (s.stack ++ s.grouped) := by
    calc below ++ (s.grouped ++ (above ++ [f]).mergeSort)
      _ ~ below ++ (s.grouped ++ (above ++ [f])) :=
        ((List.mergeSort_perm _ _).append_left _).append_left _
      _ ~ (s.grouped ++ (above ++ [f])) ++ below := List.perm_append_comm
      _ = s.grouped ++ s.stack := by simp [hsplit]
      _ ~ s.stack ++ s.grouped := List.perm_append_comm
  constructor
  case size_eq => rw [size_addGroup, hs.size_eq]
  case met_iff =>
    intro h
    rw [hmet, hs.met_iff, stack_addGroup, grouped_addGroup, ← List.mem_append, ← hperm.mem_iff,
      List.mem_append]
  case onStack_iff =>
    intro h
    rw [hmark, stack_addGroup]
    by_cases hh : h ∈ above ++ [f]
    · rw [if_pos hh]
      exact iff_of_false Bool.false_ne_true fun hb => hdisjoint h hb hh
    · rw [if_neg hh, hs.onStack_iff, hsplit, List.mem_append, List.mem_cons]
      rw [List.mem_append, List.mem_singleton, not_or] at hh
      simp [hh.1, hh.2]
  case nodup =>
    rw [stack_addGroup, grouped_addGroup]
    exact hperm.nodup_iff.mpr hs.nodup
  case length_eq =>
    rw [stack_addGroup, grouped_addGroup, hperm.length_eq, hs.length_eq, nextIndex_addGroup]
  case num_lt =>
    intro h hh
    rw [hnum]
    exact hs.num_lt h ((hmet h).mp hh)
  case sorted =>
    have hsorted := hs.sorted
    rw [hsplit, List.pairwise_append, List.pairwise_cons] at hsorted
    simpa [hnum] using hsorted.2.1.2
  case path_sublist => exact hsub
  case met_callee =>
    intro h hh hpath c hc
    refine (hmet c).mpr (hs.met_callee h (hbelow h hh).1 ?_ c hc)
    rw [List.mem_cons, not_or]
    exact ⟨fun heq => hdisjoint h hh (by simp [heq]), hpath⟩
  case reach_above =>
    intro a ha b hb hab
    rw [hnum, hnum] at hab
    exact hs.reach_above a (hbelow a ha).1 b (hbelow b hb).1 hab
  case reach_path =>
    intro h hh
    obtain ⟨hstack, hlth⟩ := hbelow h hh
    obtain ⟨p, hp, hle, hhp⟩ := hs.reach_path h hstack
    refine ⟨p, (List.mem_cons.mp hp).resolve_left ?_, by rwa [hnum, hnum], hhp⟩
    rintro rfl
    omega
  case found =>
    -- it is what `f` leads to and what leads to `f`: nothing above leads below
    have habove : ∀ h, h ∈ above ++ [f] ↔ Mutual g.calleesOf f h := fun h =>
      (mem_above_iff hs hsplit).trans (hv.mutual_iff_above hlow)
    refine hs.found.addGroup hlt (by simp) ?_ ?_ ?_ ?_
    · exact (hs.nodup.of_append_left.sublist (by simp [hsplit]))
    · exact fun h hh => hs.not_mem_grouped ((mem_above_iff hs hsplit).mp hh).1
    · intro h hh c hc
      obtain ⟨hstack, hle⟩ := (mem_above_iff hs hsplit).mp hh
      exact (hv.callee_above hlow hstack hle hc).imp_left (mem_above_iff hs hsplit).mpr
    · intro x hx h
      have hfx := (habove x).mp hx
      rw [habove]
      exact ⟨fun hfh => hfx.symm.trans hfh, fun hxh => hfx.trans hxh⟩

/-- A visit that ends with a group. -/
theorem visitSpec_addGroup (hs₀ : Sound g path s₀) {above below : List FuncId}
    (hsplit : s.stack = above ++ f :: below) (hsub : path.Sublist below) :
    VisitSpec g path s₀ f (s.addGroup (above ++ [f]) below) := by
  have hmet := hv.sound.met hv.mem_stack
  have hlt : ∀ h ∈ above ++ [f], h < s.marks.size := fun h hh =>
    (hv.sound.met ((mem_above_iff hv.sound hsplit).mp hh).1).lt_size
  have hindex := index_addGroup hlt below
  have hbelow : ∀ h ∈ below, h ∈ s.stack ∧ s.num h < s.num f :=
    fun h => (mem_below_iff hv.sound hsplit).mp
  constructor
  case sound => exact hv.sound_addGroup hlow hsplit hsub
  case continues =>
    constructor
    case met => exact fun h hh => (met_congr (hindex h)).mpr (hv.continues.met h hh)
    case num_eq => exact fun h hh => (num_congr (hindex h)).trans (hv.continues.num_eq h hh)
    case low_eq => exact fun h hh => (low_addGroup hlt below h).trans (hv.continues.low_eq h hh)
    case mem_stack =>
      intro h hh
      refine (mem_below_iff hv.sound hsplit).mpr ⟨hv.continues.mem_stack h hh, ?_⟩
      rw [hv.continues.num_eq h (hs₀.met hh), hv.num_self]
      exact hs₀.num_lt h (hs₀.met hh)
    case new =>
      intro h hh
      rw [num_congr (hindex h)]
      exact hv.continues.new h (hbelow h hh).1
    case nextIndex_le => exact hv.continues.nextIndex_le
  case met => exact (met_congr (hindex f)).mpr hmet
  case num_self => exact (num_congr (hindex f)).trans hv.num_self
  case low =>
    constructor
    case le_num =>
      rw [low_addGroup hlt, num_congr (hindex f)]
      exact hv.low.le_num
    case reached =>
      refine ⟨f, .inl rfl, ?_, .refl f⟩
      rw [low_addGroup hlt, num_congr (hindex f), hlow]
    case le_followed =>
      intro c hc hcs
      rw [low_addGroup hlt, num_congr (hindex c)]
      exact hv.low.le_followed c hc (hbelow c hcs).1
    case le_callee =>
      intro h hh hne hle c hc hcs
      rw [num_congr (hindex f), num_congr (hindex h)] at hle
      rw [low_addGroup hlt, num_congr (hindex c)]
      exact hv.low.le_callee h (hbelow h hh).1 hne hle c hc (hbelow c hcs).1

end Root

/-- If it leads to a function below it, it stays on the stack. -/
theorem sound_of_lt (hv : Following g path s₀ f s (g.calleesOf f))
    (hlt : (s.mark f).low < s.num f) :
    Sound g path s :=
  { hv.sound with
    path_sublist := (List.sublist_cons_self f path).trans hv.sound.path_sublist
    met_callee := by
      intro h hh hpath c hc
      by_cases heq : h = f
      · exact hv.met_callee c (heq ▸ hc)
      · refine hv.sound.met_callee h hh ?_ c hc
        rw [List.mem_cons, not_or]
        exact ⟨heq, hpath⟩
    reach_path := by
      intro h hh
      obtain ⟨p, hp, hle, hhp⟩ := hv.sound.reach_path h hh
      rcases List.mem_cons.mp hp with rfl | hp
      · -- on from the function that gave the low number
        obtain ⟨y, hy, hnum, hpy⟩ := hv.low.reached
        have hystack : y ∈ s.stack := hy.resolve_left fun heq => by
          subst heq
          omega
        obtain ⟨q, hq, hqy, hyq⟩ := hv.sound.reach_path y hystack
        refine ⟨q, (List.mem_cons.mp hq).resolve_left fun heq => ?_,
          by omega, hhp.trans (hpy.trans hyq)⟩
        subst heq
        omega
      · exact ⟨p, hp, hle, hhp⟩ }

/-- Leaving a function ends its visit. -/
theorem leave (hv : Following g path s₀ f s (g.calleesOf f)) (hs₀ : Sound g path s₀) :
    VisitSpec g path s₀ f (s.leave f) := by
  have hmet := hv.sound.met hv.mem_stack
  unfold Tarjan.leave
  by_cases hroot : (s.mark f).index = some (s.mark f).low
  · have hlow : (s.mark f).low = s.num f := Option.some.inj (hroot.symm.trans hmet.index_eq)
    obtain ⟨above, below, hsplit, hsub⟩ := hv.exists_split
    rw [if_pos hroot, hsplit, takeTo_append (not_mem_above hv.sound hsplit)]
    exact hv.visitSpec_addGroup hlow hs₀ hsplit hsub
  · rw [if_neg hroot]
    have hlt : (s.mark f).low < s.num f := by
      refine Nat.lt_of_le_of_ne hv.low.le_num fun heq => hroot ?_
      rw [hmet.index_eq, heq]
    exact ⟨hv.sound_of_lt hlt, hv.continues, hmet, hv.num_self, hv.low⟩

end Following

/-! ## Following calls -/

theorem Continues.trans {s₁ s₂ s₃ : Tarjan} (h₁₂ : Continues s₁ s₂) (h₂₃ : Continues s₂ s₃)
    (hmet : ∀ f ∈ s₂.stack, s₂.Met f) : Continues s₁ s₃ where
  met f hf := h₂₃.met f (h₁₂.met f hf)
  num_eq f hf := (h₂₃.num_eq f (h₁₂.met f hf)).trans (h₁₂.num_eq f hf)
  low_eq f hf := (h₂₃.low_eq f (h₁₂.met f hf)).trans (h₁₂.low_eq f hf)
  mem_stack f hf := h₂₃.mem_stack f (h₁₂.mem_stack f hf)
  new f hf := by
    rcases h₂₃.new f hf with hmid | hle
    · rw [h₂₃.num_eq f (hmet f hmid)]
      exact h₁₂.new f hmid
    · exact .inr (h₁₂.nextIndex_le.trans hle)
  nextIndex_le := h₁₂.nextIndex_le.trans h₂₃.nextIndex_le

/-- A function that had been met and is on the stack was on the stack before. -/
theorem Continues.mem_stack_of_met (hc : Continues s s') (hs : Sound g path s) (hmet : s.Met f)
    (hf : f ∈ s'.stack) : f ∈ s.stack := by
  refine (hc.new f hf).resolve_right fun hle => ?_
  rw [hc.num_eq f hmet] at hle
  have := hs.num_lt f hmet
  omega

theorem Continues.enter (hs : Sound g path s) (hf : f < g.size) (hnew : ¬s.Met f) :
    Continues s (s.enter f) := by
  have hlt : f < s.marks.size := hs.size_eq ▸ hf
  have hne : ∀ h, s.Met h → h ≠ f := fun h hh heq => hnew (heq ▸ hh)
  constructor
  case met => exact fun h hh => (met_enter hlt).mpr (.inr hh)
  case num_eq => exact fun h hh => num_enter_of_ne (hne h hh)
  case low_eq => exact fun h hh => by rw [mark_enter_of_ne (hne h hh)]
  case mem_stack => exact fun h hh => List.mem_cons_of_mem f hh
  case new =>
    intro h hh
    rcases List.mem_cons.mp hh with rfl | hh
    · exact .inr (Nat.le_of_eq (num_enter_self hlt).symm)
    · exact .inl hh
  case nextIndex_le => exact Nat.le_succ _

/-- The low number of a function that had not been met may be lowered. -/
theorem Continues.lower (hc : Continues s₀ s) (hnew : ¬s₀.Met f) (n : Nat) :
    Continues s₀ (s.lower f n) where
  met h hh := (met_lower s f n).mpr (hc.met h hh)
  num_eq h hh := (num_lower s f n).trans (hc.num_eq h hh)
  low_eq h hh := by
    have hne : h ≠ f := fun heq => hnew (heq ▸ hh)
    rw [mark_lower_of_ne hne, hc.low_eq h hh]
  mem_stack := hc.mem_stack
  new h hh := by
    rw [num_lower]
    exact hc.new h hh
  nextIndex_le := hc.nextIndex_le

/-- Lowering a low number to `n`, where the smaller of the two tells what a low number has to. -/
theorem LowOf.lower {n : Nat} {followed : List FuncId} (hf : f < s.marks.size)
    (hle : (s.mark f).low ≤ s.num f)
    (hreached : ∃ h, (h = f ∨ h ∈ s.stack) ∧ s.num h = min (s.mark f).low n ∧ Reach g.calleesOf f h)
    (hfollowed : ∀ c ∈ followed, c ∈ s.stack → (s.mark f).low ≤ s.num c ∨ n ≤ s.num c)
    (hcallee : ∀ h ∈ s.stack, h ≠ f → s.num f ≤ s.num h → ∀ c ∈ g.calleesOf h, c ∈ s.stack →
      (s.mark f).low ≤ s.num c ∨ n ≤ s.num c) : LowOf g (s.lower f n) f followed := by
  have hlow : ((s.lower f n).mark f).low = min (s.mark f).low n := by rw [mark_lower_self hf]
  constructor
  case le_num =>
    rw [hlow, num_lower]
    exact (Nat.min_le_left _ _).trans hle
  case reached => simpa [hlow] using hreached
  case le_followed =>
    intro c hc hcs
    rw [hlow, num_lower]
    exact min_le_iff.mpr (hfollowed c hc hcs)
  case le_callee =>
    intro h hh hne hleh c hc hcs
    rw [num_lower, num_lower] at hleh
    rw [hlow, num_lower]
    exact min_le_iff.mpr (hcallee h hh hne hleh c hc hcs)

/-- Visits of new functions do what they are meant to as long as `depth` functions are left. -/
def VisitsWell (g : CallGraph) (depth : Nat) (visitOne : Tarjan → FuncId → Tarjan) : Prop :=
  ∀ (path : List FuncId) (s : Tarjan) (f : FuncId), Sound g path s → f < g.size → ¬s.Met f →
    (∀ p ∈ path, Reach g.calleesOf p f) → g.size ≤ s.nextIndex + depth →
    VisitSpec g path s f (visitOne s f)

section Follow

variable {depth : Nat} {visitOne : Tarjan → FuncId → Tarjan} {followed : List FuncId}

/-- What the low number tells after the visit of a callee whose low number is noted. -/
theorem Following.low_call (hv : Following g path s₀ f s followed) {c : FuncId}
    (hc : c ∈ g.calleesOf f) (hspec : VisitSpec g (f :: path) s c s') :
    LowOf g (s'.lower f (s'.mark c).low) f (followed ++ [c]) := by
  have hcont := hspec.continues
  have hcnum := hspec.num_self
  have hfstack : f ∈ s.stack := hv.sound.mem_stack_of_mem_path List.mem_cons_self
  have hfmet := hv.sound.met hfstack
  have hflt := hv.sound.num_lt f hfmet
  have hnumf : s'.num f = s.num f := hcont.num_eq f hfmet
  have hlowf : (s'.mark f).low = (s.mark f).low := hcont.low_eq f hfmet
  have hle := hv.low.le_num
  refine LowOf.lower (hspec.sound.met (hcont.mem_stack f hfstack)).lt_size (by omega) ?_ ?_ ?_
  · by_cases hlt : (s'.mark c).low < (s'.mark f).low
    · -- the callee's number comes from another function than the callee, whose number is too high
      obtain ⟨h, hh, hnum, hch⟩ := hspec.low.reached
      refine ⟨h, .inr (hh.resolve_left fun heq => ?_), by omega, (Reach.single hc).trans hch⟩
      subst heq
      omega
    · obtain ⟨h, hh, hnum, hfh⟩ := hv.low.reached
      have hhmet : s.Met h := by
        rcases hh with rfl | hh
        · exact hfmet
        · exact hv.sound.met hh
      refine ⟨h, hh.imp_right (hcont.mem_stack h), ?_, hfh⟩
      rw [hcont.num_eq h hhmet]
      omega
  · intro d hd hds
    rcases List.mem_append.mp hd with hd | hd
    · have hdmet := hv.met_callee d hd
      have := hv.low.le_followed d hd (hcont.mem_stack_of_met hv.sound hdmet hds)
      rw [hcont.num_eq d hdmet]
      omega
    · rw [List.mem_singleton.mp hd]
      omega
  · intro h hh hne hleh d hd hds
    rcases hcont.new h hh with hold | hnew
    · -- a function that was above `f` before has all its calls followed
      have hhmet := hv.sound.met hold
      rw [hnumf, hcont.num_eq h hhmet] at hleh
      have hdmet := hv.sound.met_callee h hold (hv.sound.not_mem_path_of_le hne hleh) d hd
      have := hv.low.le_callee h hold hne hleh d hd (hcont.mem_stack_of_met hv.sound hdmet hds)
      rw [hcont.num_eq d hdmet]
      omega
    · -- a function that the visit has put there is the callee or above it
      by_cases heq : h = c
      · exact .inr (hspec.low.le_followed d (heq ▸ hd) hds)
      · exact .inr (hspec.low.le_callee h hh heq (by omega) d hd hds)

/-- A call to a function that has not been met: the callee is visited. -/
theorem Following.call_new (hg : g.Closed) (hvisit : VisitsWell g depth visitOne) (hnew : ¬s₀.Met f)
    (hreach : ∀ p ∈ path, Reach g.calleesOf p f) (hdepth : g.size ≤ s₀.nextIndex + (depth + 1))
    (hv : Following g path s₀ f s followed) {c : FuncId} (hc : c ∈ g.calleesOf f)
    (hcnew : ¬s.Met c) :
    Following g path s₀ f ((visitOne s c).lower f ((visitOne s c).mark c).low)
      (followed ++ [c]) := by
  have hfmet := hv.sound.met (hv.sound.mem_stack_of_mem_path List.mem_cons_self)
  have hspec : VisitSpec g (f :: path) s c (visitOne s c) := by
    refine hvisit (f :: path) s c hv.sound (hg f c hc) hcnew (fun p hp => ?_) ?_
    · rcases List.mem_cons.mp hp with rfl | hp
      · exact .single hc
      · exact (hreach p hp).trans (.single hc)
    · have hflt := hv.sound.num_lt f hfmet
      rw [hv.num_self] at hflt
      omega
  have hcont := hspec.continues
  constructor
  case sound => exact hspec.sound.lower f _
  case continues => exact (hv.continues.trans hcont fun h hh => hv.sound.met hh).lower hnew _
  case num_self => rw [num_lower, hcont.num_eq f hfmet, hv.num_self]
  case met_callee =>
    intro d hd
    rw [met_lower]
    rcases List.mem_append.mp hd with hd | hd
    · exact hcont.met d (hv.met_callee d hd)
    · exact List.mem_singleton.mp hd ▸ hspec.met
  case low => exact hv.low_call hc hspec

/-- A call to a function that has been met. -/
theorem Following.call_met (hnew : ¬s₀.Met f) (hv : Following g path s₀ f s followed) {c : FuncId}
    (hc : c ∈ g.calleesOf f) (hcmet : s.Met c) :
    Following g path s₀ f (if (s.mark c).onStack then s.lower f (s.num c) else s)
      (followed ++ [c]) := by
  have hfstack : f ∈ s.stack := hv.sound.mem_stack_of_mem_path List.mem_cons_self
  have hmet : ∀ d ∈ followed ++ [c], s.Met d := by
    intro d hd
    rcases List.mem_append.mp hd with hd | hd
    · exact hv.met_callee d hd
    · exact List.mem_singleton.mp hd ▸ hcmet
  split
  case isTrue hon =>
    have hcstack : c ∈ s.stack := (hv.sound.onStack_iff c).mp hon
    constructor
    case sound => exact hv.sound.lower f _
    case continues => exact hv.continues.lower hnew _
    case num_self => rw [num_lower, hv.num_self]
    case met_callee => exact fun d hd => (met_lower s f _).mpr (hmet d hd)
    case low =>
      refine LowOf.lower (hv.sound.met hfstack).lt_size hv.low.le_num ?_ ?_ ?_
      · by_cases hlt : s.num c < (s.mark f).low
        · exact ⟨c, .inr hcstack, by omega, .single hc⟩
        · obtain ⟨h, hh, hnum, hfh⟩ := hv.low.reached
          exact ⟨h, hh, by omega, hfh⟩
      · intro d hd hds
        rcases List.mem_append.mp hd with hd | hd
        · exact .inl (hv.low.le_followed d hd hds)
        · rw [List.mem_singleton.mp hd]
          exact .inr (Nat.le_refl _)
      · exact fun h hh hne hle d hd hds => .inl (hv.low.le_callee h hh hne hle d hd hds)
  case isFalse hoff =>
    refine ⟨hv.sound, hv.continues, hv.num_self, hmet, hv.low.le_num, hv.low.reached, ?_,
      hv.low.le_callee⟩
    intro d hd hds
    rcases List.mem_append.mp hd with hd | hd
    · exact hv.low.le_followed d hd hds
    · rw [List.mem_singleton.mp hd] at hds
      exact absurd ((hv.sound.onStack_iff c).mpr hds) hoff

/-- Calls are followed one after the other. -/
theorem Following.calls (hg : g.Closed) (hvisit : VisitsWell g depth visitOne) (hnew : ¬s₀.Met f)
    (hreach : ∀ p ∈ path, Reach g.calleesOf p f) (hdepth : g.size ≤ s₀.nextIndex + (depth + 1)) :
    ∀ (calls followed : List FuncId) (s : Tarjan), Following g path s₀ f s followed →
      (∀ c ∈ calls, c ∈ g.calleesOf f) →
      Following g path s₀ f (calls.foldl (follow visitOne f) s) (followed ++ calls) := by
  intro calls
  induction calls with
  | nil =>
    intro followed s hv _
    rwa [List.append_nil]
  | cons c calls ih =>
    intro followed s hv hcalls
    have hc := hcalls c List.mem_cons_self
    have hstep : Following g path s₀ f (follow visitOne f s c) (followed ++ [c]) := by
      unfold follow
      cases hindex : (s.mark c).index with
      | none => exact hv.call_new hg hvisit hnew hreach hdepth hc fun hmet => hmet hindex
      | some i =>
        have hmet : s.Met c := fun hnone => by cases hnone.symm.trans hindex
        obtain rfl : i = s.num c := Option.some.inj (hindex.symm.trans hmet.index_eq)
        exact hv.call_met hnew hc hmet
    rw [List.foldl_cons, List.append_cons]
    exact ih (followed ++ [c]) _ hstep fun d hd => hcalls d (List.mem_cons_of_mem c hd)

end Follow

/-- A visit meets what the function leads to, and finds the groups that lie above the path. -/
theorem visitsWell_visit (hg : g.Closed) : ∀ depth, VisitsWell g depth (visit g depth) := by
  intro depth
  induction depth with
  | zero =>
    intro path s f hs hf hnew _ hdepth
    have := hs.nextIndex_lt hf hnew
    omega
  | succ depth ih =>
    intro path s f hs hf hnew hreach hdepth
    have hlt : f < s.marks.size := hs.size_eq ▸ hf
    have henter : Following g path s f (s.enter f) [] := by
      refine ⟨hs.enter hf hnew hreach, .enter hs hf hnew, num_enter_self hlt, by simp, ?_⟩
      have hlow : ((s.enter f).mark f).low = s.nextIndex := by rw [mark_enter_self hlt]
      have hnum := num_enter_self hlt
      refine ⟨by omega, ⟨f, .inl rfl, by omega, .refl f⟩, by simp, fun h hh hne hle => ?_⟩
      -- nothing is above it yet
      have hh := (List.mem_cons.mp hh).resolve_left hne
      rw [num_enter_of_ne hne] at hle
      have := hs.num_lt h (hs.met hh)
      omega
    have hall := Following.calls hg ih hnew hreach hdepth (g.calleesOf f) []
        (s.enter f) henter fun c hc => hc
    exact hall.leave hs

/-! ## The whole search -/

theorem mark_start (size : Nat) (f : FuncId) : (start size).mark f = {} := by
  rw [mark, start, Array.getD_eq_getD_getElem?, Array.getElem?_replicate]
  split <;> rfl

theorem sound_start (g : CallGraph) : Sound g [] (start g.size) := by
  have hmet : ∀ f, ¬(start g.size).Met f := fun f hf => hf (by rw [mark_start])
  constructor
  case size_eq => simp [start]
  case met_iff => exact fun f => iff_of_false (hmet f) (by simp [start, grouped])
  case onStack_iff => exact fun f => by rw [mark_start]; simp [start]
  case nodup => simp [start, grouped]
  case length_eq => simp [start, grouped]
  case num_lt => exact fun f hf => absurd hf (hmet f)
  case found => constructor <;> simp [start, grouped]
  all_goals simp [start]

theorem Sound.stack_eq_nil (hs : Sound g [] s) : s.stack = [] := by
  refine List.eq_nil_iff_forall_not_mem.mpr fun f hf => ?_
  obtain ⟨p, hp, -⟩ := hs.reach_path f hf
  exact List.not_mem_nil hp

theorem visitNew_spec (hg : g.Closed) (hs : Sound g [] s) (hf : f < g.size) :
    Sound g [] (s.visitNew g f) ∧ (∀ h, s.Met h → (s.visitNew g f).Met h) ∧
    (s.visitNew g f).Met f := by
  unfold visitNew
  cases hindex : (s.mark f).index with
  | none =>
    have hspec := visitsWell_visit hg g.size [] s f hs hf (fun hmet => hmet hindex)
        (by simp) (by omega)
    exact ⟨hspec.sound, hspec.continues.met, hspec.met⟩
  | some i => exact ⟨hs, fun _ hh => hh, fun hnone => by cases hnone.symm.trans hindex⟩

theorem foldl_visitNew_spec (hg : g.Closed) : ∀ (fs : List FuncId) (s : Tarjan), Sound g [] s →
    (∀ f ∈ fs, f < g.size) → Sound g [] (fs.foldl (visitNew g) s) ∧
      (∀ h, s.Met h → (fs.foldl (visitNew g) s).Met h) ∧
      ∀ f ∈ fs, (fs.foldl (visitNew g) s).Met f := by
  intro fs
  induction fs with
  | nil => exact fun s hs _ => ⟨hs, fun _ hh => hh, by simp⟩
  | cons f fs ih =>
    intro s hs hlt
    obtain ⟨hs₁, hmet₁, hf⟩ := visitNew_spec hg hs (hlt f List.mem_cons_self)
    obtain ⟨hs₂, hmet₂, hfs⟩ := ih _ hs₁ fun h hh => hlt h (List.mem_cons_of_mem f hh)
    refine ⟨hs₂, fun h hh => hmet₂ h (hmet₁ h hh), fun h hh => ?_⟩
    rcases List.mem_cons.mp hh with rfl | hh
    · exact hmet₂ h hf
    · exact hfs h hh

end Tarjan

/-- The search ends with every function in one group. -/
theorem tarjan_spec {g : CallGraph} (hg : g.Closed) :
    Tarjan.Found g g.tarjan ∧ g.tarjan.grouped.Nodup ∧ ∀ f, f ∈ g.tarjan.grouped ↔ f < g.size := by
  obtain ⟨hs, -, hall⟩ := Tarjan.foldl_visitNew_spec hg (List.range g.size) (.start g.size)
    (Tarjan.sound_start g) fun f hf => List.mem_range.mp hf
  have hstack := hs.stack_eq_nil
  refine ⟨hs.found, (List.nodup_append.mp hs.nodup).2.1, fun f => ⟨fun hf => ?_, fun hf => ?_⟩⟩
  · exact hs.lt_size ((hs.met_iff f).mpr (.inr hf))
  · refine ((hs.met_iff f).mp (hall f (List.mem_range.mpr hf))).resolve_left fun hmem => ?_
    rw [hstack] at hmem
    exact List.not_mem_nil hmem

end ContractCompiler.Ssa.CallGraph
