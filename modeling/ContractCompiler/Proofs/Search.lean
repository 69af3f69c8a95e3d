import ContractCompiler.Ssa.Cfg
import Mathlib.Data.Finset.Card
import Mathlib.Logic.Relation

/-!
# Depth-first search

What the search of `Walk` finds and in which order it leaves nodes.

- `Walk.Reach`: one node leads to another in any number of steps;
- `Walk.Visits`: what one visit, or several visits one after the other, add to a search;
- `Walk.visits_visit`, `Walk.visits_visitAll`: the search adds nothing else and misses nothing;
- `Walk.visit_grows`: it loses nothing;
- `Walk.seen_visitAll_iff`: from a search that has met nothing, exactly the nodes that can be
  reached are met;
- `Walk.mem_order_visitAll_iff`: and exactly those are left.
-/

namespace ContractCompiler.Ssa.Walk

open Relation

/-- One node leads to another in any number of steps. -/
def Reach (next : Nat → List Nat) : Nat → Nat → Prop := ReflTransGen fun a b => b ∈ next a

theorem Reach.refl {next : Nat → List Nat} (a : Nat) : Reach next a a := ReflTransGen.refl

theorem Reach.trans {next : Nat → List Nat} {a b c : Nat} (hab : Reach next a b)
    (hbc : Reach next b c) : Reach next a c := ReflTransGen.trans hab hbc

theorem Reach.single {next : Nat → List Nat} {a b : Nat} (h : b ∈ next a) : Reach next a b :=
  ReflTransGen.single h

/-- A set that is closed under steps and holds a node holds everything the node leads to. -/
theorem Reach.mem_of_closed {next : Nat → List Nat} {P : Nat → Prop} {a b : Nat}
    (hab : Reach next a b) (ha : P a) (hclosed : ∀ x, P x → ∀ y ∈ next x, P y) : P b := by
  induction hab with
  | refl => exact ha
  | tail _ hstep ih => exact hclosed _ ih _ hstep

theorem Reach.mono {next next' : Nat → List Nat} {a b : Nat} (hab : Reach next a b)
    (hsub : ∀ x, ∀ y ∈ next x, y ∈ next' x) : Reach next' a b :=
  hab.mem_of_closed (P := Reach next' a) (.refl a) fun x hx y hy => hx.trans (.single (hsub x y hy))

/-- On the way out of a set there is a last node in it. -/
theorem Reach.exists_exit {next : Nat → List Nat} {P : Nat → Prop} {a b : Nat}
    (hab : Reach next a b) (ha : P a) (hb : ¬P b) :
    ∃ x y, Reach next a x ∧ P x ∧ y ∈ next x ∧ ¬P y := by
  induction hab with
  | refl => exact absurd ha hb
  | @tail x y hax hstep ih =>
    by_cases hx : P x
    · exact ⟨x, y, hax, hx, hstep, hb⟩
    · exact ih hx

/-- Two nodes lead to each other. -/
def Mutual (next : Nat → List Nat) (a b : Nat) : Prop := Reach next a b ∧ Reach next b a

theorem Mutual.symm {next : Nat → List Nat} {a b : Nat} (h : Mutual next a b) : Mutual next b a :=
  ⟨h.2, h.1⟩

theorem Mutual.trans {next : Nat → List Nat} {a b c : Nat} (hab : Mutual next a b)
    (hbc : Mutual next b c) : Mutual next a c :=
  ⟨hab.1.trans hbc.1, hbc.2.trans hab.2⟩

/-! ## Nodes met and left -/

/-- A node of the graph that has been met. -/
def Seen (w : Walk) (n : Nat) : Prop := w.seen.getD n false = true

theorem met_eq_false_iff {w : Walk} {n : Nat} (hn : n < w.seen.size) :
    w.met n = false ↔ ¬w.Seen n := by
  simp [met, Seen, hn]

@[simp] theorem size_meet (w : Walk) (n : Nat) : (w.meet n).seen.size = w.seen.size := by
  simp [meet]

@[simp] theorem order_meet (w : Walk) (n : Nat) : (w.meet n).order = w.order := rfl

@[simp] theorem seen_leave (w : Walk) (n x : Nat) : (w.leave n).Seen x ↔ w.Seen x := Iff.rfl

@[simp] theorem order_leave (w : Walk) (n : Nat) : (w.leave n).order = n :: w.order := rfl

@[simp] theorem size_leave (w : Walk) (n : Nat) : (w.leave n).seen.size = w.seen.size := rfl

theorem seen_meet {w : Walk} {n : Nat} (hn : n < w.seen.size) (x : Nat) :
    (w.meet n).Seen x ↔ w.Seen x ∨ x = n := by
  by_cases hx : x = n
  · subst hx
    simp [Seen, meet, hn]
  · have hne : ¬n = x := fun h => hx h.symm
    simp [Seen, meet, Array.getD_eq_getD_getElem?, hne, hx]

/-- How many nodes have not been met. -/
noncomputable def unmet (w : Walk) : Nat :=
  open Classical in ((Finset.range w.seen.size).filter fun x => ¬w.Seen x).card

theorem unmet_le {w w' : Walk} (hsize : w'.seen.size = w.seen.size)
    (hseen : ∀ x, w.Seen x → w'.Seen x) : w'.unmet ≤ w.unmet := by
  classical
  refine Finset.card_le_card fun x hx => ?_
  simp only [Finset.mem_filter, Finset.mem_range] at hx ⊢
  exact ⟨hsize ▸ hx.1, fun h => hx.2 (hseen x h)⟩

theorem unmet_meet {w : Walk} {n : Nat} (hn : n < w.seen.size) (hunseen : ¬w.Seen n) :
    (w.meet n).unmet < w.unmet := by
  classical
  refine Finset.card_lt_card (Finset.ssubset_iff_subset_ne.mpr ⟨fun x hx => ?_, fun heq => ?_⟩)
  · simp only [Finset.mem_filter, Finset.mem_range, size_meet] at hx ⊢
    exact ⟨hx.1, fun h => hx.2 ((seen_meet hn x).mpr (.inl h))⟩
  · have hmem : n ∈ (Finset.range w.seen.size).filter fun x => ¬w.Seen x := by
      simp [hn, hunseen]
    rw [← heq] at hmem
    simp only [Finset.mem_filter] at hmem
    exact hmem.2 ((seen_meet hn n).mpr (.inr rfl))

/-! ## What a search adds -/

/-- A search leads to another by meeting and leaving the nodes of a list, the first of them last. -/
structure Visits (next : Nat → List Nat) (w : Walk) (new : List Nat) (w' : Walk) : Prop where
  size_eq : w'.seen.size = w.seen.size
  order_eq : w'.order = new ++ w.order
  seen_iff : ∀ x, w'.Seen x ↔ w.Seen x ∨ x ∈ new
  unseen : ∀ x ∈ new, ¬w.Seen x
  nodup : new.Nodup
  seen_next : ∀ x ∈ new, ∀ c ∈ next x, w'.Seen c

namespace Visits

variable {next : Nat → List Nat} {w w₁ w₂ : Walk} {new new₁ new₂ : List Nat}

theorem refl (w : Walk) : Visits next w [] w where
  size_eq := rfl
  order_eq := rfl
  seen_iff := by simp
  unseen := by simp
  nodup := .nil
  seen_next := by simp

theorem trans (h₁ : Visits next w new₁ w₁) (h₂ : Visits next w₁ new₂ w₂) :
    Visits next w (new₂ ++ new₁) w₂ where
  size_eq := h₂.size_eq.trans h₁.size_eq
  order_eq := by rw [h₂.order_eq, h₁.order_eq, List.append_assoc]
  seen_iff x := by
    rw [h₂.seen_iff, h₁.seen_iff, List.mem_append, or_assoc]
    exact or_congr_right or_comm
  unseen x hx := by
    rcases List.mem_append.mp hx with hnew | hnew
    · exact fun hseen => h₂.unseen x hnew ((h₁.seen_iff x).mpr (.inl hseen))
    · exact h₁.unseen x hnew
  nodup := by
    refine List.nodup_append.mpr ⟨h₂.nodup, h₁.nodup, fun a ha b hb hab => ?_⟩
    subst hab
    exact h₂.unseen a ha ((h₁.seen_iff a).mpr (.inr hb))
  seen_next x hx c hc := by
    rcases List.mem_append.mp hx with hnew | hnew
    · exact h₂.seen_next x hnew c hc
    · exact (h₂.seen_iff c).mpr (.inl (h₁.seen_next x hnew c hc))

end Visits

/-! ## Visits -/

/-- What a visit of a node from a search adds. -/
structure VisitSpec (next : Nat → List Nat) (w : Walk) (n : Nat) (w' : Walk) : Prop where
  exists_visits : ∃ new, Visits next w new w' ∧ ∀ x ∈ new, Reach next n x
  seen_self : w'.Seen n

/-- Visits one after the other add what each of them adds. -/
theorem visits_foldl {next : Nat → List Nat} {visitOne : Walk → Nat → Walk} {size bound : Nat}
    (hvisit : ∀ w n, w.seen.size = size → n < size → w.unmet ≤ bound →
      VisitSpec next w n (visitOne w n)) :
    ∀ (ns : List Nat) (w : Walk), w.seen.size = size → w.unmet ≤ bound → (∀ n ∈ ns, n < size) →
      ∃ new, Visits next w new (ns.foldl visitOne w) ∧ (∀ x ∈ new, ∃ n ∈ ns, Reach next n x) ∧
        ∀ n ∈ ns, (ns.foldl visitOne w).Seen n := by
  intro ns
  induction ns with
  | nil =>
    intro w _ _ _
    exact ⟨[], .refl w, by simp, by simp⟩
  | cons n ns ih =>
    intro w hsize hunmet hlt
    obtain ⟨⟨new₁, hv₁, hreach₁⟩, hself⟩ := hvisit w n hsize (hlt n List.mem_cons_self) hunmet
    have hunmet₁ : (visitOne w n).unmet ≤ bound :=
      (unmet_le hv₁.size_eq fun x hx => (hv₁.seen_iff x).mpr (.inl hx)).trans hunmet
    obtain ⟨new₂, hv₂, hreach₂, hself₂⟩ := ih (visitOne w n) (hv₁.size_eq.trans hsize) hunmet₁
      fun m hm => hlt m (List.mem_cons_of_mem n hm)
    refine ⟨new₂ ++ new₁, hv₁.trans hv₂, fun x hx => ?_, fun m hm => ?_⟩
    · rcases List.mem_append.mp hx with hx₂ | hx₁
      · obtain ⟨m, hm, hmx⟩ := hreach₂ x hx₂
        exact ⟨m, List.mem_cons_of_mem n hm, hmx⟩
      · exact ⟨n, List.mem_cons_self, hreach₁ x hx₁⟩
    · rcases List.mem_cons.mp hm with rfl | hm
      · exact (hv₂.seen_iff m).mpr (.inl hself)
      · exact hself₂ m hm

/-- A visit meets a node, visits the nodes after it and leaves it. -/
theorem Visits.leave {next : Nat → List Nat} {w w₁ : Walk} {n : Nat} {new : List Nat}
    (hn : n < w.seen.size) (hunseen : ¬w.Seen n) (hv : Visits next (w.meet n) new w₁)
    (hself : ∀ c ∈ next n, w₁.Seen c) : Visits next w (n :: new) (w₁.leave n) where
  size_eq := hv.size_eq.trans (size_meet w n)
  order_eq := by rw [order_leave, hv.order_eq, order_meet, List.cons_append]
  seen_iff x := by
    rw [seen_leave, hv.seen_iff, seen_meet hn, List.mem_cons, or_assoc]
  unseen x hx := by
    rcases List.mem_cons.mp hx with rfl | hx
    · exact hunseen
    · exact fun hseen => hv.unseen x hx ((seen_meet hn x).mpr (.inl hseen))
  nodup := by
    refine List.nodup_cons.mpr ⟨fun hmem => ?_, hv.nodup⟩
    exact hv.unseen n hmem ((seen_meet hn n).mpr (.inr rfl))
  seen_next x hx c hc := by
    rcases List.mem_cons.mp hx with rfl | hx
    · exact hself c hc
    · exact hv.seen_next x hx c hc

/-- A visit meets what can be reached and has not been met, and leaves it in order. -/
theorem visits_visit {next : Nat → List Nat} {size : Nat} (hnext : ∀ n, ∀ c ∈ next n, c < size) :
    ∀ (depth : Nat) (w : Walk) (n : Nat), w.seen.size = size → n < size → w.unmet ≤ depth →
      VisitSpec next w n (visit next depth w n) := by
  intro depth
  induction depth with
  | zero =>
    intro w n hsize hn hunmet
    have hseen : w.Seen n := by
      by_contra hunseen
      have := unmet_meet (hsize ▸ hn) hunseen
      omega
    exact ⟨⟨[], .refl w, by simp⟩, hseen⟩
  | succ depth ih =>
    intro w n hsize hn hunmet
    have hn' : n < w.seen.size := hsize ▸ hn
    rw [visit]
    by_cases hseen : w.Seen n
    · have hmet : w.met n = true := by
        cases hm : w.met n with
        | true => rfl
        | false => exact absurd hseen ((met_eq_false_iff hn').mp hm)
      rw [if_pos hmet]
      exact ⟨⟨[], .refl w, by simp⟩, hseen⟩
    · rw [if_neg (by rw [(met_eq_false_iff hn').mpr hseen]; exact Bool.false_ne_true)]
      have hunmet' : (w.meet n).unmet ≤ depth := by
        have := unmet_meet hn' hseen
        omega
      obtain ⟨new, hv, hreach, hself⟩ := visits_foldl ih (next n) (w.meet n)
        ((size_meet w n).trans hsize) hunmet' (hnext n)
      refine ⟨⟨n :: new, hv.leave hn' hseen hself, fun x hx => ?_⟩, ?_⟩
      · rcases List.mem_cons.mp hx with rfl | hx
        · exact .refl x
        · obtain ⟨c, hc, hcx⟩ := hreach x hx
          exact (Reach.single hc).trans hcx
      · exact (hv.seen_iff n).mpr (.inl ((seen_meet hn' n).mpr (.inr rfl)))

/-! ## Visits only add -/

theorem lt_size_of_met {w : Walk} {n : Nat} (h : w.met n = false) : n < w.seen.size := by
  by_contra hn
  rw [met, Array.getD_eq_getD_getElem?, Array.getElem?_eq_none (Nat.not_lt.mp hn)] at h
  cases h

theorem visit_of_met {next : Nat → List Nat} {w : Walk} {n : Nat} (h : w.met n = true)
    (depth : Nat) : visit next depth w n = w := by
  cases depth with
  | zero => rfl
  | succ depth => rw [visit, if_pos h]

/-- A visit loses nothing that was met. -/
theorem visit_grows (next : Nat → List Nat) (depth : Nat) (w : Walk) (n : Nat) :
    (visit next depth w n).seen.size = w.seen.size ∧ ∀ x, w.Seen x →
      (visit next depth w n).Seen x := by
  induction depth generalizing w n with
  | zero => exact ⟨rfl, fun _ h => h⟩
  | succ depth ih =>
    have hfold (ns : List Nat) (w : Walk) :
        (ns.foldl (visit next depth) w).seen.size = w.seen.size ∧
        ∀ x, w.Seen x → (ns.foldl (visit next depth) w).Seen x := by
      induction ns generalizing w with
      | nil => exact ⟨rfl, fun _ h => h⟩
      | cons c ns ihns =>
        obtain ⟨hsize, hseen⟩ := ih w c
        obtain ⟨hsize', hseen'⟩ := ihns (visit next depth w c)
        exact ⟨hsize'.trans hsize, fun x hx => hseen' x (hseen x hx)⟩
    cases hmet : w.met n with
    | true => rw [visit_of_met hmet]; exact ⟨rfl, fun _ h => h⟩
    | false =>
      rw [visit, if_neg (by rw [hmet]; exact Bool.false_ne_true)]
      obtain ⟨hsize, hseen⟩ := hfold (next n) (w.meet n)
      exact ⟨hsize.trans (size_meet w n), fun x hx =>
        hseen x ((seen_meet (lt_size_of_met hmet) x).mpr (.inl hx))⟩

/-! ## Whole searches -/

theorem not_seen_start (size x : Nat) : ¬(start size).Seen x := by
  unfold Seen start
  rw [Array.getD_eq_getD_getElem?, Array.getElem?_replicate]
  split <;> simp

@[simp] theorem size_start (size : Nat) : (start size).seen.size = size := Array.size_replicate

theorem met_start {size n : Nat} (hn : n < size) : (start size).met n = false := by
  rw [met_eq_false_iff (by rwa [size_start])]
  exact not_seen_start size n

theorem unmet_start_le (size : Nat) : (start size).unmet ≤ size := by
  classical
  refine (Finset.card_filter_le _ _).trans ?_
  rw [Finset.card_range, size_start]

/-- A search from some nodes adds what they lead to. -/
theorem visits_visitAll {next : Nat → List Nat} {size : Nat} (hnext : ∀ n, ∀ c ∈ next n, c < size)
    {ns : List Nat} (hns : ∀ n ∈ ns, n < size) :
    ∃ new, Visits next (start size) new ((start size).visitAll next ns) ∧
      (∀ x ∈ new, ∃ n ∈ ns, Reach next n x) ∧ ∀ n ∈ ns, ((start size).visitAll next ns).Seen n := by
  unfold visitAll
  rw [size_start]
  exact visits_foldl (visits_visit hnext size) ns (start size) (size_start size)
    (unmet_start_le size) hns

/-- A search from some nodes meets exactly the nodes that they lead to. -/
theorem seen_visitAll_iff {next : Nat → List Nat} {size : Nat} (hnext : ∀ n, ∀ c ∈ next n, c < size)
    {ns : List Nat} (hns : ∀ n ∈ ns, n < size) (x : Nat) :
    ((start size).visitAll next ns).Seen x ↔ ∃ n ∈ ns, Reach next n x := by
  obtain ⟨new, hv, hreach, hself⟩ := visits_visitAll hnext hns
  constructor
  · intro hx
    rcases (hv.seen_iff x).mp hx with hseen | hnew
    · exact absurd hseen (not_seen_start size x)
    · exact hreach x hnew
  · rintro ⟨n, hn, hnx⟩
    refine hnx.mem_of_closed (hself n hn) fun y hy c hc => ?_
    rcases (hv.seen_iff y).mp hy with hseen | hnew
    · exact absurd hseen (not_seen_start size y)
    · exact hv.seen_next y hnew c hc

/-- A search from some nodes leaves exactly the nodes that they lead to, each once. -/
theorem mem_order_visitAll_iff {next : Nat → List Nat} {size : Nat}
    (hnext : ∀ n, ∀ c ∈ next n, c < size) {ns : List Nat} (hns : ∀ n ∈ ns, n < size) (x : Nat) :
    x ∈ ((start size).visitAll next ns).order ↔ ∃ n ∈ ns, Reach next n x := by
  obtain ⟨new, hv, _, _⟩ := visits_visitAll hnext hns
  have horder : ((start size).visitAll next ns).order = new := by
    rw [hv.order_eq]
    simp [start]
  rw [← seen_visitAll_iff hnext hns, hv.seen_iff, horder]
  simp [not_seen_start size x]

end ContractCompiler.Ssa.Walk
