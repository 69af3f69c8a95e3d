import ContractCompiler.Proofs.BitSet
import ContractCompiler.Proofs.Domain.Aggregation

/-!
# The number of passes

How often `aggregateComponents` goes over the groups of functions until nothing changes.

- `Passes`, `PassesOver`: the loop over a group, and over groups in order, without a bound;
- `passesOver_aggregateComponents`: the loop comes to an end, with the sets that
  `aggregateComponents` leaves;
- `Stable`: a key that no pass adds to a set any more;
- `Passes.count_le`: a group of functions that call each other is gone over at most once more than
  it has members;
- `PassesOver.count_le`: the number of passes in all.

A key that one pass adds nowhere is not added by the next pass either. So a key that is added by the
last pass that changes anything was added somewhere by every pass before, each time to the set of
another member.
-/

namespace ContractCompiler

open Ssa (FuncId CallGraph)

section Loop

variable (m : Ssa.Module) (g : CallGraph)

/-- Passes over a group: one, and another one as long as the functions of the group call each other
and the pass before has changed a set. The number is that of the passes. -/
inductive Passes (members : List FuncId) :
    Array FunctionDomains → Array FunctionDomains → Nat → Prop
  | last {ds : Array FunctionDomains}
      (hstop : g.isCyclic members = false ∨ (aggregateAll m g members ds).2 = false) :
      Passes members ds (aggregateAll m g members ds).1 1
  | more {ds ds' : Array FunctionDomains} {n : Nat} (hcyclic : g.isCyclic members = true)
      (hchanged : (aggregateAll m g members ds).2 = true)
      (hrest : Passes members (aggregateAll m g members ds).1 ds' n) : Passes members ds ds' (n + 1)

/-- Passes over groups, one group after the other. -/
inductive PassesOver :
    List (List FuncId) → Array FunctionDomains → Array FunctionDomains → Nat → Prop
  | nil (ds : Array FunctionDomains) : PassesOver [] ds ds 0
  | cons {members : List FuncId} {rest : List (List FuncId)}
      {ds ds' ds'' : Array FunctionDomains} {n k : Nat} (hgroup : Passes m g members ds ds' n)
      (hrest : PassesOver rest ds' ds'' k) : PassesOver (members :: rest) ds ds'' (n + k)

end Loop

section Rounds

variable {m : Ssa.Module} {g : CallGraph} {keyCount : Nat} {members : List FuncId}

/-! ## The end of the loop -/

theorem passes_aggregateRounds (n : Nat) : ∀ {ds : Array FunctionDomains}, Growing m g keyCount ds →
    2 * keyCount * members.length < shownCount ds members + n →
    Passes m g members ds (aggregateRounds m g members n ds).1
      (aggregateRounds m g members n ds).2 := by
  induction n with
  | zero =>
    intro ds hds hfuel
    have hle := shownCount_le hds members
    omega
  | succ n ih =>
    intro ds hds hfuel
    have hspec := aggregateAll_spec members hds
    rw [aggregateRounds]
    dsimp only
    by_cases hgo : (g.isCyclic members && (aggregateAll m g members ds).2) = true
    · rw [if_pos hgo]
      obtain ⟨hcyclic, hchanged⟩ := Bool.and_eq_true_iff.mp hgo
      have hmore := hspec.more_of_changed hchanged
      exact .more hcyclic hchanged (ih hspec.growing (by omega))
    · rw [if_neg hgo]
      exact .last (Bool.and_eq_false_iff.mp (Bool.eq_false_iff.mpr hgo))

/-- The loop over groups comes to an end. -/
theorem passesOver_aggregateComponents (rest : List (List FuncId)) : ∀ {ds : Array FunctionDomains},
    Growing m g keyCount ds → PassesOver m g rest ds (aggregateComponents m g keyCount rest ds).1
      (aggregateComponents m g keyCount rest ds).2 := by
  induction rest with
  | nil => exact fun _ => .nil _
  | cons members rest ih =>
    intro ds hds
    have hround := aggregateRounds_spec members (2 * keyCount * members.length + 1) hds (by omega)
    rw [aggregateComponents]
    exact .cons (passes_aggregateRounds _ hds (by omega)) (ih hround.1)

/-! ## One key -/

section Key

variable {ds ds' : Array FunctionDomains} {write : Bool} {k : KeyId}

/-- Joining a function with its callees does not add a key that it does not show. -/
def Stable (m : Ssa.Module) (g : CallGraph) (fs : List FuncId) (ds : Array FunctionDomains)
    (write : Bool) (k : KeyId) : Prop :=
  ∀ f ∈ fs, isComputed m (domainsAt ds f) f = true → k ∈ (joined g ds f).visible write →
    k ∈ (domainsAt ds f).visible write

/-- Where fewer functions show a key, joining adds it to fewer. -/
theorem mem_visible_joined_mono (hkeeps : ∀ f, (domainsAt ds f).Keeps (domainsAt ds' f))
    (hsub : ∀ f, k ∈ (domainsAt ds' f).visible write → k ∈ (domainsAt ds f).visible write)
    {f : FuncId} (hk : k ∈ (joined g ds' f).visible write) : k ∈ (joined g ds f).visible write := by
  unfold joined at hk ⊢
  rw [FunctionDomains.visible_aggregate] at hk ⊢
  rw [(hkeeps f).declares_eq] at hk
  cases hdecl : (domainsAt ds f).declares write with
  | true =>
    rw [hdecl, if_pos rfl] at hk
    exact hsub f hk
  | false =>
    rw [hdecl, if_neg Bool.false_ne_true] at hk
    rw [if_neg Bool.false_ne_true]
    rcases mem_computed_joined.mp hk with hown | ⟨c, hc, hkc⟩
    · rw [(hkeeps f).own_eq] at hown
      exact mem_computed_joined.mpr (.inl hown)
    · exact mem_computed_joined.mpr (.inr ⟨c, hc, hsub c hkc⟩)

/-- A pass adds a stable key to no set. -/
theorem Stable.pass : ∀ {fs : List FuncId} {ds : Array FunctionDomains}, Growing m g keyCount ds →
    Stable m g fs ds write k → ∀ f, k ∈ (domainsAt (aggregateAll m g fs ds).1 f).visible write →
      k ∈ (domainsAt ds f).visible write
  | [], _, _, _, _, hk => hk
  | f :: fs, ds, hds, hstable, h, hk => by
    rw [aggregateAll_cons] at hk
    by_cases hcomp : isComputed m (domainsAt ds f) f = true
    · rw [if_pos hcomp] at hk
      have hf : f < ds.size := hds.size_eq ▸ lt_size_of_isComputed hcomp
      have hadv := hds.advances_set hf
      have hsame : ∀ h, k ∈ (domainsAt (ds.setIfInBounds f (joined g ds f)) h).visible write →
          k ∈ (domainsAt ds h).visible write := by
        intro h hk
        rw [domainsAt_set hf] at hk
        split at hk
        · rename_i heq
          rw [heq]
          exact hstable f List.mem_cons_self hcomp hk
        · exact hk
      refine hsame h (Stable.pass (hds.set hf) (fun x hx hcomp' hkx => ?_) h hk)
      rw [isComputed_congr (hadv.keeps x)] at hcomp'
      exact hadv.mono x write k
        (hstable x (List.mem_cons_of_mem f hx) hcomp'
          (mem_visible_joined_mono hadv.keeps hsame hkx))
    · rw [if_neg hcomp] at hk
      exact Stable.pass hds (fun x hx => hstable x (List.mem_cons_of_mem f hx)) h hk

/-- A key that a pass adds to no set is stable after the pass. -/
theorem stable_of_same :
    ∀ {fs : List FuncId} {ds : Array FunctionDomains}, Growing m g keyCount ds →
    (∀ f, k ∈ (domainsAt (aggregateAll m g fs ds).1 f).visible write →
      k ∈ (domainsAt ds f).visible write) →
      Stable m g fs (aggregateAll m g fs ds).1 write k
  | [], _, _, _ => fun _ hf => absurd hf List.not_mem_nil
  | f :: fs, ds, hds, hsame => by
    have hkeeps := (aggregateAll_spec (f :: fs) hds).advances.keeps
    by_cases hcomp : isComputed m (domainsAt ds f) f = true
    · have hf : f < ds.size := hds.size_eq ▸ lt_size_of_isComputed hcomp
      have hadv := hds.advances_set hf
      have hrest := aggregateAll_spec fs (hds.set hf)
      rw [aggregateAll_cons, if_pos hcomp] at hsame hkeeps ⊢
      have hstable := stable_of_same (hds.set hf) fun h hk => hadv.mono h write k (hsame h hk)
      intro h hh hcomp' hk
      rcases List.mem_cons.mp hh with rfl | hh
      · -- the function was joined with its callees in this pass
        refine hrest.advances.mono h write k ?_
        rw [domainsAt_set hf, if_pos rfl]
        exact mem_visible_joined_mono hkeeps hsame hk
      · exact hstable h hh hcomp' hk
    · rw [aggregateAll_cons, if_neg hcomp] at hsame hkeeps ⊢
      have hstable := stable_of_same hds hsame
      intro h hh hcomp' hk
      rcases List.mem_cons.mp hh with rfl | hh
      · rw [isComputed_congr (hkeeps h)] at hcomp'
        exact absurd hcomp' hcomp
      · exact hstable h hh hcomp' hk

end Key

/-! ## Counting -/

/-- How many functions of a group show a key. -/
def showingCount (ds : Array FunctionDomains) (write : Bool) (k : KeyId)
    (members : List FuncId) : Nat :=
  members.countP fun f => decide (k ∈ (domainsAt ds f).visible write)

theorem showingCount_lt {ds ds' : Array FunctionDomains} {write : Bool} {k : KeyId}
    (hadv : Advances members ds ds') {f : FuncId} (hnew : k ∈ (domainsAt ds' f).visible write)
    (hold : k ∉ (domainsAt ds f).visible write) :
    showingCount ds write k members < showingCount ds' write k members := by
  have hf : f ∈ members := by
    by_contra hnot
    rw [hadv.outside f hnot] at hnew
    exact hold hnew
  refine countP_lt_countP (fun x _ hx => ?_) hf (decide_eq_true hnew) (by simpa using hold)
  exact decide_eq_true (hadv.mono x write k (of_decide_eq_true hx))

/-- A pass that changes a set adds a key to one. -/
theorem exists_added {ds : Array FunctionDomains} (hds : Growing m g keyCount ds)
    (hchanged : (aggregateAll m g members ds).2 = true) :
    ∃ f write k, k ∈ (domainsAt (aggregateAll m g members ds).1 f).visible write ∧
      k ∉ (domainsAt ds f).visible write := by
  have hspec := aggregateAll_spec members hds
  by_contra hnone
  have hsub : ∀ f write, ((domainsAt (aggregateAll m g members ds).1 f).visible write).length
      ≤ ((domainsAt ds f).visible write).length := by
    intro f write
    refine (List.subperm_of_subset (hspec.growing.increasing f write).nodup fun k hk =>
      ?_).length_le
    by_contra hold
    exact hnone ⟨f, write, k, hk, hold⟩
  have hle : ∀ fs : List FuncId, shownCount (aggregateAll m g members ds).1 fs ≤
      shownCount ds fs := by
    intro fs
    induction fs with
    | nil => exact Nat.le_refl _
    | cons f fs ih =>
      have hreads := hsub f false
      have hwrites := hsub f true
      unfold shownCount
      omega
  exact absurd (hspec.more_of_changed hchanged) (Nat.not_lt.mpr (hle members))

/-- After some passes, as many functions of the group show each key that is not stable, so there are
never more passes that change a set than members. -/
theorem Passes.count_add_le {ds ds' : Array FunctionDomains} {n : Nat}
    (h : Passes m g members ds ds' n) :
    Growing m g keyCount ds → ∀ done : Nat, done ≤ members.length →
      (∀ write k, ¬Stable m g members ds write k → done ≤ showingCount ds write k members) →
      done + n ≤ members.length + 1 := by
  induction h with
  | last => exact fun _ done hdone _ => Nat.succ_le_succ hdone
  | @more ds ds' n _ hchanged _ ih =>
    intro hds done _ hcount
    have hspec := aggregateAll_spec members hds
    have hstep : ∀ {f write k}, k ∈ (domainsAt (aggregateAll m g members ds).1 f).visible write →
        k ∉ (domainsAt ds f).visible write →
        done + 1 ≤ showingCount (aggregateAll m g members ds).1 write k members := by
      intro f write k hnew hold
      have hlt := showingCount_lt hspec.advances hnew hold
      have hle := hcount write k fun hstable => hold (hstable.pass hds f hnew)
      omega
    have hlast : done + 1 ≤ members.length := by
      obtain ⟨f, write, k, hnew, hold⟩ := exists_added hds hchanged
      exact (hstep hnew hold).trans List.countP_le_length
    have hrest := ih hspec.growing (done + 1) hlast fun write k hnot => by
      -- a key that is not stable was added somewhere by this pass
      by_contra hfew
      refine hnot (stable_of_same hds fun f hnew => ?_)
      by_contra hold
      exact hfew (hstep hnew hold)
    omega

/-- A group is gone over at most as often as it has members, and once more if they call each
other. -/
theorem Passes.count_le {ds ds' : Array FunctionDomains} {n : Nat} (h : Passes m g members ds ds' n)
    (hds : Growing m g keyCount ds) (hne : members ≠ []) :
    n ≤ members.length + if g.isCyclic members then 1 else 0 := by
  by_cases hcyclic : g.isCyclic members = true
  · have hle := h.count_add_le hds 0 (Nat.zero_le _) fun _ _ _ => Nat.zero_le _
    rw [if_pos hcyclic]
    omega
  · have hlen := List.length_pos_iff.mpr hne
    rw [if_neg hcyclic]
    cases h with
    | last => exact hlen
    | more hcyclic' => exact absurd hcyclic' hcyclic

theorem Passes.growing {ds ds' : Array FunctionDomains} {n : Nat}
    (h : Passes m g members ds ds' n) :
    Growing m g keyCount ds → Growing m g keyCount ds' := by
  induction h with
  | last => exact fun hds => (aggregateAll_spec members hds).growing
  | more _ _ _ ih => exact fun hds => ih (aggregateAll_spec members hds).growing

/-- The passes in all are at most as many as there are functions in the groups, and groups of
functions that call each other. -/
theorem PassesOver.count_le {rest : List (List FuncId)} {ds ds' : Array FunctionDomains} {n : Nat}
    (h : PassesOver m g rest ds ds' n) :
    Growing m g keyCount ds → (∀ members ∈ rest, members ≠ []) →
      n ≤ (rest.map List.length).sum + rest.countP g.isCyclic := by
  induction h with
  | nil => exact fun _ _ => Nat.zero_le _
  | @cons members rest ds ds' ds'' n k hgroup _ ih =>
    intro hds hne
    have hfirst := hgroup.count_le hds (hne members List.mem_cons_self)
    have hrest := ih (hgroup.growing hds) fun group hgroup => hne group
        (List.mem_cons_of_mem _ hgroup)
    rw [List.map_cons, List.sum_cons, List.countP_cons]
    omega

end Rounds

end ContractCompiler
