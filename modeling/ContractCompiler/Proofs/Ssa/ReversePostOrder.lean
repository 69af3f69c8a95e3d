import ContractCompiler.Proofs.Ssa.Dominance

/-!
# Reverse postorder

The order in which the search from the entry of a function leaves the blocks, turned around: every
block that can be reached stands in it once, and an edge leads backwards only around a cycle.

- `Walk.Open`: a node that a walk is in, `Walk.open_meet_iff`: meeting a node opens it and no other;
- `Walk.EdgesOrdered`: edges lead behind their start or around a cycle; `Walk.edgesOrdered_visit`:
  visits keep it so;
- `StackSearch`: the same search round by round, with the nodes that it is in on a stack;
- `StackSearch.rounds_visit`: the rounds come to an end with what a visit finds, one for each node
  after each node that is left, and one to leave it;
- `reversePostOrder_exact`: all of it together.
-/

namespace ContractCompiler.Ssa

/-! ## Edges in the order in which nodes are left -/

namespace Walk

/-- Every edge from a node of a list leads to a node behind it, or to one that leads back to it. -/
def EdgesOrdered (next : Nat → List Nat) (order : List Nat) : Prop :=
  ∀ before n behind, order = before ++ n :: behind → ∀ c ∈ next n, c ∈ behind ∨ Reach next c n

variable {next : Nat → List Nat}

/-- A node that has been met and not left. -/
def Open (w : Walk) (n : Nat) : Prop := w.Seen n ∧ n ∉ w.order

/-- The nodes that were left have been met. -/
def LeftSeen (w : Walk) : Prop := ∀ n ∈ w.order, w.Seen n

theorem leftSeen_start (size : Nat) : (start size).LeftSeen := nofun

theorem LeftSeen.meet {w : Walk} {n : Nat} (hw : w.LeftSeen) (hn : n < w.seen.size) :
    (w.meet n).LeftSeen :=
  fun x hx => (seen_meet hn x).mpr (.inl (hw x hx))

/-- The node that is being visited is open while the nodes after it are visited. -/
theorem open_meet_iff {w : Walk} {n : Nat} (hw : w.LeftSeen) (hn : n < w.seen.size)
    (hunseen : ¬w.Seen n) (z : Nat) :
    (w.meet n).Open z ↔ w.Open z ∨ z = n := by
  unfold Open
  rw [seen_meet hn, order_meet]
  constructor
  · rintro ⟨hseen | rfl, hleft⟩
    · exact .inl ⟨hseen, hleft⟩
    · exact .inr rfl
  · rintro (⟨hseen, hleft⟩ | rfl)
    · exact ⟨.inl hseen, hleft⟩
    · exact ⟨.inr rfl, fun hleft => hunseen (hw z hleft)⟩

namespace Visits

variable {w w₁ : Walk} {new : List Nat}

theorem leftSeen (h : Visits next w new w₁) (hw : w.LeftSeen) : w₁.LeftSeen := by
  intro n hn
  rw [h.order_eq] at hn
  rcases List.mem_append.mp hn with hnew | hold
  · exact (h.seen_iff n).mpr (.inr hnew)
  · exact (h.seen_iff n).mpr (.inl (hw n hold))

/-- The nodes that a visit adds are all left, so the open nodes are those from before. -/
theorem open_iff (h : Visits next w new w₁) (x : Nat) : w₁.Open x ↔ w.Open x := by
  unfold Open
  rw [h.seen_iff, h.order_eq, List.mem_append, not_or]
  constructor
  · rintro ⟨hseen | hnew, hnotNew, hold⟩
    · exact ⟨hseen, hold⟩
    · exact absurd hnew hnotNew
  · rintro ⟨hseen, hold⟩
    exact ⟨.inl hseen, fun hnew => h.unseen x hnew hseen, hold⟩

end Visits

theorem edgesOrdered_nil : EdgesOrdered next [] := by
  intro before n behind heq
  cases before <;> cases heq

theorem EdgesOrdered.cons {order : List Nat} {n : Nat} (h : EdgesOrdered next order)
    (hn : ∀ c ∈ next n, c ∈ order ∨ Reach next c n) : EdgesOrdered next (n :: order) := by
  intro before x behind heq c hc
  cases before with
  | nil =>
    obtain ⟨rfl, rfl⟩ := List.cons.inj heq
    exact hn c hc
  | cons b before => exact h before x behind (List.cons.inj heq).2 c hc

/-- Visits one after the other keep the edges in order if each does. -/
theorem edgesOrdered_foldl {visitOne : Walk → Nat → Walk} {size bound : Nat}
    (hvisit : ∀ w n, w.LeftSeen → w.seen.size = size → n < size → w.unmet ≤ bound →
      (∀ z, w.Open z → Reach next z n) →
        VisitSpec next w n
        (visitOne w n) ∧ (EdgesOrdered next w.order → EdgesOrdered next (visitOne w n).order)) :
    ∀ (ns : List Nat) (w : Walk), w.LeftSeen → w.seen.size = size → w.unmet ≤ bound →
      (∀ n ∈ ns, n < size) → (∀ n ∈ ns, ∀ z, w.Open z → Reach next z n) →
        EdgesOrdered next w.order →
      EdgesOrdered next (ns.foldl visitOne w).order := by
  intro ns
  induction ns with
  | nil => exact fun _ _ _ _ _ _ h => h
  | cons n ns ih =>
    intro w hleft hsize hunmet hlt hopen hordered
    obtain ⟨⟨⟨new, hv, -⟩, -⟩, hkeeps⟩ := hvisit w n hleft hsize (hlt n List.mem_cons_self) hunmet
      (hopen n List.mem_cons_self)
    have hunmet' : (visitOne w n).unmet ≤ bound :=
      (unmet_le hv.size_eq fun x hx => (hv.seen_iff x).mpr (.inl hx)).trans hunmet
    exact ih (visitOne w n) (hv.leftSeen hleft) (hv.size_eq.trans hsize) hunmet'
      (fun m hm => hlt m (List.mem_cons_of_mem n hm))
      (fun m hm z hz => hopen m (List.mem_cons_of_mem n hm) z ((hv.open_iff z).mp hz))
        (hkeeps hordered)

/-- A visit keeps the edges in order: when a node is left, the nodes after it have been left, or
they are open and lead to it. -/
theorem edgesOrdered_visit {size : Nat} (hnext : ∀ n, ∀ c ∈ next n, c < size) :
    ∀ (depth : Nat) (w : Walk) (n : Nat), w.LeftSeen → w.seen.size = size → n < size →
      w.unmet ≤ depth →
      (∀ z, w.Open z → Reach next z n) → EdgesOrdered next w.order →
      EdgesOrdered next (visit next depth w n).order := by
  intro depth
  induction depth with
  | zero => exact fun _ _ _ _ _ _ _ h => h
  | succ depth ih =>
    intro w n hmetLeft hsize hn hunmet hopen hordered
    have hn' : n < w.seen.size := hsize ▸ hn
    rw [visit]
    by_cases hmet : w.met n = true
    · rwa [if_pos hmet]
    · rw [if_neg hmet]
      have hunseen := (met_eq_false_iff hn').mp (Bool.eq_false_iff.mpr hmet)
      have hunmet' : (w.meet n).unmet ≤ depth := by
        have := unmet_meet hn' hunseen
        omega
      have hopen' (c : Nat) (hc : c ∈ next n) (z : Nat) (hz : (w.meet n).Open z) :
          Reach next z c := by
        rcases (open_meet_iff hmetLeft hn' hunseen z).mp hz with hz | rfl
        · exact (hopen z hz).trans (.single hc)
        · exact .single hc
      have hsize' := (size_meet w n).trans hsize
      have hfold := edgesOrdered_foldl
        (fun w n h₁ h₂ h₃ h₄ h₅ => ⟨visits_visit hnext depth w n h₂ h₃ h₄, ih w n h₁ h₂ h₃ h₄ h₅⟩)
        (next n) (w.meet n) (hmetLeft.meet hn') hsize' hunmet' (hnext n) hopen' hordered
      obtain ⟨new, hv, -, hseen⟩ := visits_foldl (visits_visit hnext depth) (next n) (w.meet n)
        hsize' hunmet' (hnext n)
      refine hfold.cons fun c hc => ?_
      by_cases hleft : c ∈ ((next n).foldl (visit next depth) (w.meet n)).order
      · exact .inl hleft
      · right
        rcases (open_meet_iff hmetLeft hn' hunseen c).mp
          ((hv.open_iff c).mp ⟨hseen c hc, hleft⟩) with hc | rfl
        · exact hopen c hc
        · exact .refl c

end Walk

/-! ## The search with a stack -/

/-- A search that keeps the nodes it is in on a stack, the last one first, each with the place among
the nodes after it at which the search goes on. -/
structure StackSearch where
  walk : Walk
  stack : List (Nat × Nat)

namespace StackSearch

/-- One round: looks at the next node after the last one on the stack, and goes into it if it may
and has not met it. If there is no such node, the last one is left. -/
def round (next : Nat → List Nat) (allowed : Nat → Bool) (s : StackSearch) : StackSearch :=
  match s.stack with
  | [] => s
  | (n, i) :: rest =>
    match (next n)[i]? with
    | some c =>
      if allowed c && !s.walk.met c then
        { walk := s.walk.meet c, stack := (c, 0) :: (n, i + 1) :: rest }
      else { walk := s.walk, stack := (n, i + 1) :: rest }
    | none => { walk := s.walk.leave n, stack := rest }

/-- The number of rounds from where nodes are met to where all of them have been left. -/
def cost (next : Nat → List Nat) (left : List Nat) : Nat :=
  (left.map fun n => (next n).length + 1).sum

theorem cost_append (next : Nat → List Nat) (left left' : List Nat) :
    cost next (left ++ left') = cost next left + cost next left' := by
  simp [cost]

variable {next : Nat → List Nat} {allowed : Nat → Bool}

/-- The rounds for the nodes after a node do what visits of the allowed ones do, if rounds do so for
each. -/
theorem rounds_foldl {depth : Nat}
    (hvisit : ∀ w n rest, w.met n = false → w.unmet ≤ depth → ∃ left,
      (Walk.visit (fun x => (next x).filter allowed) depth w n).order = left ++ w.order ∧
      (round next allowed)^[cost next left] { walk := w.meet n, stack := (n, 0) :: rest } =
        { walk := Walk.visit (fun x => (next x).filter allowed) depth w n, stack := rest })
    (n : Nat) (rest : List (Nat × Nat)) (cs : List Nat) :
    ∀ i (w : Walk), (next n).drop i = cs → w.unmet ≤ depth → ∃ left,
      ((cs.filter allowed).foldl (Walk.visit (fun x => (next x).filter allowed) depth) w).order =
        left ++ w.order ∧
      (round next allowed)^[cost next left + cs.length] { walk := w, stack := (n, i) :: rest } =
        { walk := (cs.filter allowed).foldl (Walk.visit (fun x => (next x).filter allowed) depth) w
          stack := (n, i + cs.length) :: rest } := by
  induction cs with
  | nil => exact fun i w _ _ => ⟨[], rfl, rfl⟩
  | cons c cs ih =>
    intro i w hdrop hunmet
    have hget : (next n)[i]? = some c := by
      rw [← List.head?_drop, hdrop, List.head?_cons]
    have hrest : (next n).drop (i + 1) = cs := by
      rw [← List.drop_drop, hdrop, List.drop_succ_cons, List.drop_zero]
    have hround : round next allowed { walk := w, stack := (n, i) :: rest } =
        if allowed c && !w.met c then { walk := w.meet c, stack := (c, 0) :: (n, i + 1) :: rest }
        else { walk := w, stack := (n, i + 1) :: rest } := by
      simp only [round, hget]
    by_cases henter : (allowed c && !w.met c) = true
    · obtain ⟨hallowed, hmet⟩ := Bool.and_eq_true_iff.mp henter
      obtain ⟨left, horder, hrun⟩ := hvisit w c ((n, i + 1) :: rest) (by simpa using hmet) hunmet
      obtain ⟨hsize, hseen⟩ := Walk.visit_grows (fun x => (next x).filter allowed) depth w c
      obtain ⟨left', horder', hrun'⟩ := ih (i + 1) _ hrest
        ((Walk.unmet_le hsize hseen).trans hunmet)
      rw [List.filter_cons_of_pos hallowed, List.foldl_cons]
      refine ⟨left' ++ left, by rw [horder', horder, List.append_assoc], ?_⟩
      rw [cost_append, List.length_cons,
        show cost next left' + cost next left + (cs.length + 1) =
          (cost next left' + cs.length) + cost next left + 1 by omega,
        Function.iterate_succ_apply, hround, if_pos henter, Function.iterate_add_apply, hrun, hrun']
      simp only [Nat.add_assoc, Nat.add_comm 1]
    · -- the node is not gone into, and a visit of it changes nothing
      have hskip : ((c :: cs).filter allowed).foldl
          (Walk.visit (fun x => (next x).filter allowed) depth) w =
          (cs.filter allowed).foldl (Walk.visit (fun x => (next x).filter allowed) depth) w := by
        cases hallowed : allowed c with
        | false => rw [List.filter_cons_of_neg (by rw [hallowed]; exact Bool.false_ne_true)]
        | true =>
          have hmet : w.met c = true := by simpa [hallowed] using henter
          rw [List.filter_cons_of_pos hallowed, List.foldl_cons, Walk.visit_of_met hmet]
      obtain ⟨left, horder, hrun⟩ := ih (i + 1) w hrest hunmet
      refine ⟨left, by rw [hskip, horder], ?_⟩
      rw [List.length_cons, ← Nat.add_assoc, Function.iterate_succ_apply, hround, if_neg henter,
        hrun, hskip]
      simp only [Nat.add_assoc, Nat.add_comm 1]

/-- After a node has been met, the rounds do what a visit of it does, and then go on below it. -/
theorem rounds_visit (depth : Nat) :
    ∀ (w : Walk) (n : Nat) (rest : List (Nat × Nat)), w.met n = false →
    w.unmet ≤ depth → ∃ left,
      (Walk.visit (fun x => (next x).filter allowed) depth w n).order = left ++ w.order ∧
      (round next allowed)^[cost next left] { walk := w.meet n, stack := (n, 0) :: rest } =
        { walk := Walk.visit (fun x => (next x).filter allowed) depth w n, stack := rest } := by
  induction depth with
  | zero =>
    intro w n rest hmet hunmet
    have hlt := Walk.lt_size_of_met hmet
    have := Walk.unmet_meet hlt ((Walk.met_eq_false_iff hlt).mp hmet)
    omega
  | succ depth ih =>
    intro w n rest hmet hunmet
    have hlt := Walk.lt_size_of_met hmet
    have hunmet' : (w.meet n).unmet ≤ depth := by
      have := Walk.unmet_meet hlt ((Walk.met_eq_false_iff hlt).mp hmet)
      omega
    obtain ⟨left, horder, hrun⟩ := rounds_foldl ih n rest (next n) 0 (w.meet n) rfl hunmet'
    rw [Walk.visit, if_neg (by rw [hmet]; exact Bool.false_ne_true)]
    refine ⟨n :: left, by rw [Walk.order_leave, horder, Walk.order_meet, List.cons_append], ?_⟩
    have hcost : cost next (n :: left) = cost next left + (next n).length + 1 := by
      simp [cost]
      omega
    rw [hcost, Function.iterate_succ_apply', hrun]
    simp [round]

end StackSearch

/-! ## The order of the blocks of a function -/

theorem reach_cfg_iff {m : Module} {f : Function} {b target : BlockId} :
    Walk.Reach (m.cfg f).successors b target ↔ Relation.ReflTransGen (m.Edge f) b target := by
  have hstep : (fun b target => target ∈ (m.cfg f).successors b) = m.Edge f := by
    funext b target
    exact propext Module.mem_successors_cfg
  unfold Walk.Reach
  rw [hstep]

section Entry

variable {m : Module} {f : Function} {entry : BlockId} (hentry : f.entry = some entry)
  (hlt : entry < m.blocks.size)

include hentry hlt

theorem walk_cfg :
    (m.cfg f).walk = (Walk.start m.blocks.size).visitAll (m.cfg f).successors [entry] := by
  unfold Cfg.walk
  rw [entry_cfg hentry hlt]
  rfl

theorem walk_cfg_eq_visit : (m.cfg f).walk =
    Walk.visit (m.cfg f).successors m.blocks.size (Walk.start m.blocks.size) entry := by
  rw [walk_cfg hentry hlt, Walk.visitAll, List.foldl_cons, List.foldl_nil, Walk.size_start]

theorem mem_reversePostOrder_iff {b : BlockId} :
    b ∈ (m.cfg f).reversePostOrder ↔ Relation.ReflTransGen (m.Edge f) entry b := by
  unfold Cfg.reversePostOrder
  rw [walk_cfg hentry hlt, Walk.mem_order_visitAll_iff
    (fun _ _ hc => (Module.mem_successors_cfg.mp hc).2.2)
    (fun n hn => List.mem_singleton.mp hn ▸ hlt), ← reach_cfg_iff]
  simp

theorem nodup_reversePostOrder : (m.cfg f).reversePostOrder.Nodup := by
  have hsucc (b : BlockId) : ∀ c ∈ (m.cfg f).successors b, c < m.blocks.size :=
    fun _ hc => (Module.mem_successors_cfg.mp hc).2.2
  have hstart : ∀ n ∈ [entry], n < m.blocks.size := fun n hn => List.mem_singleton.mp hn ▸ hlt
  obtain ⟨new, hv, -, -⟩ := Walk.visits_visitAll hsucc hstart
  have hnew : (m.cfg f).reversePostOrder = new := by
    unfold Cfg.reversePostOrder
    rw [walk_cfg hentry hlt, hv.order_eq]
    exact List.append_nil new
  exact hnew ▸ hv.nodup

theorem edgesOrdered_reversePostOrder :
    Walk.EdgesOrdered (m.cfg f).successors (m.cfg f).reversePostOrder := by
  unfold Cfg.reversePostOrder
  rw [walk_cfg_eq_visit hentry hlt]
  exact Walk.edgesOrdered_visit (fun _ _ hc => (Module.mem_successors_cfg.mp hc).2.2) _ _ _
    (Walk.leftSeen_start _) (Walk.size_start _) hlt (Walk.unmet_start_le _)
    (fun z hz => absurd hz.1 (Walk.not_seen_start _ z)) Walk.edgesOrdered_nil

theorem head?_reversePostOrder : (m.cfg f).reversePostOrder.head? = some entry := by
  obtain ⟨size, hsize⟩ := Nat.exists_eq_succ_of_ne_zero (Nat.ne_zero_of_lt hlt)
  unfold Cfg.reversePostOrder
  rw [walk_cfg_eq_visit hentry hlt, hsize, Walk.visit, ← hsize,
    if_neg (by rw [Walk.met_start hlt]; exact Bool.false_ne_true)]
  rfl

/-- The search with a stack ends where the search ends. -/
theorem rounds_walk :
    (StackSearch.round (fun b => (m.block b).successors) fun b => (m.ownedBlocks f).getD b false)^[
        StackSearch.cost (fun b => (m.block b).successors) (m.cfg f).reversePostOrder]
      { walk := (Walk.start m.blocks.size).meet entry, stack := [(entry, 0)] } =
        { walk := (m.cfg f).walk, stack := [] } := by
  obtain ⟨left, horder, hrun⟩ := @StackSearch.rounds_visit (fun b => (m.block b).successors)
    (fun b => (m.ownedBlocks f).getD b false) m.blocks.size (Walk.start m.blocks.size) entry []
    (Walk.met_start hlt) (Walk.unmet_start_le _)
  rw [← Module.successors_cfg, ← walk_cfg_eq_visit hentry hlt] at horder hrun
  have hleft : (m.cfg f).reversePostOrder = left := horder.trans (List.append_nil left)
  rw [hleft, hrun]

end Entry

/-- The search with a stack from the entry ends, and the blocks in the order in which it leaves
them, the last one first, are the reverse postorder. In it stands every block that edges lead to
from the entry, once, and no other block; the entry comes first; and an edge to a block that does
not come after its start closes a cycle. -/
theorem reversePostOrder_exact {m : Module} {f : Function} {entry : BlockId}
    (hentry : f.entry = some entry) (hlt : entry < m.blocks.size) :
    let order := (m.cfg f).reversePostOrder
    (StackSearch.round (fun b => (m.block b).successors) fun b => (m.ownedBlocks f).getD b false)^[
        (order.map fun b => (m.block b).successors.length + 1).sum]
      { walk := (Walk.start m.blocks.size).meet entry, stack := [(entry, 0)] } =
        { walk := { seen := (m.cfg f).walk.seen, order }, stack := [] } ∧
    (∀ b, b ∈ order ↔ Relation.ReflTransGen (m.Edge f) entry b) ∧ order.Nodup ∧
      order.head? = some entry ∧
    ∀ u ∈ order, ∀ v ∈ order, m.Edge f u v → order.idxOf v ≤ order.idxOf u →
      Relation.ReflTransGen (m.Edge f) v u := by
  intro order
  have hnodup : order.Nodup := nodup_reversePostOrder hentry hlt
  refine ⟨rounds_walk hentry hlt, fun b => mem_reversePostOrder_iff hentry hlt, hnodup,
    head?_reversePostOrder hentry hlt, fun u hu v hv hedge hle => ?_⟩
  obtain ⟨before, behind, hsplit⟩ := List.append_of_mem hu
  rcases edgesOrdered_reversePostOrder hentry hlt before u behind hsplit v
      (Module.mem_successors_cfg.mpr hedge) with
    hbehind | hback
  · -- a block behind another has a greater place
    rw [hsplit] at hnodup hle
    obtain ⟨-, hnodupBehind, hapart⟩ := List.nodup_append.mp hnodup
    have hu_before : u ∉ before := fun h => hapart u h u List.mem_cons_self rfl
    have hv_before : v ∉ before := fun h => hapart v h v (List.mem_cons_of_mem u hbehind) rfl
    have hne : u ≠ v := by
      rintro rfl
      exact (List.nodup_cons.mp hnodupBehind).1 hbehind
    rw [List.idxOf_append_of_notMem hv_before, List.idxOf_append_of_notMem hu_before,
      List.idxOf_cons_self, List.idxOf_cons_ne _ hne] at hle
    omega
  · exact reach_cfg_iff.mp hback

/-- A loop of two blocks, one of which is listed twice, with an edge to a block that the function
does not list; the function lists a block that there is not. -/
def tangled : Module where
  functions := #[{ name := "tangled", blocks := [1, 0, 2, 1, 9], entry := some 0 }]
  blocks := #[{ term := some (.branch 0 1 [] 2 []) }, { term := some (.branch 0 2 [] 2 []) },
    { term := some (.branch 0 1 [] 3 []) }, {}]

/-- The two blocks of the loop stand behind the entry, and the edge back closes a cycle. -/
theorem reversePostOrder_exact_tangled :
    (tangled.cfg tangled.functions[0]).reversePostOrder = [0, 1, 2] ∧
      ¬Relation.ReflTransGen (tangled.Edge tangled.functions[0]) 0 3 ∧
      Relation.ReflTransGen (tangled.Edge tangled.functions[0]) 1 2 := by
  have horder : (tangled.cfg tangled.functions[0]).reversePostOrder = [0, 1, 2] := by decide +kernel
  obtain ⟨-, hmem, -, -, hback⟩ := reversePostOrder_exact (m := tangled)
    (rfl : tangled.functions[0].entry = some 0) (by decide)
  rw [horder] at hmem hback
  exact ⟨horder, (hmem 3).not.mp (by decide),
    hback 2 (by decide) 1 (by decide) (by decide) (by decide)⟩

end ContractCompiler.Ssa
