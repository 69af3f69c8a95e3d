import ContractCompiler.Domain.Analysis
import ContractCompiler.Proofs.CallGroups
import Mathlib.Data.List.Sort
import Mathlib.Data.List.Perm.Subperm

/-!
# Domains of callees

The sets that `aggregateComponents` leaves are closed under calls: what a function shows to its
callers is among what is computed for each of them.

- `FunctionDomains.visible`, `own`, `computed`, `declares`: the sets for reads or for writes;
- `ClosedAt`: the sets of a function hold those of its own code and of its callees;
- `Growing`: what is true of all sets while passes are made, which bounds their number;
- `aggregateComponents_induct`: what all passes keep holds at the end;
- `aggregateComponents_closed`: at the end the sets of all functions are closed.

A pass over a group either changes nothing, and then the group is closed, or it adds a key to the
set of a member. Groups are gone over with callees first, so later groups do not disturb earlier
ones.
-/

namespace ContractCompiler

open Ssa (FuncId CallGraph)

/-! ## Sets of keys -/

namespace KeySet

theorem mem_insert {k id : KeyId} {set : KeySet} : k ∈ KeySet.insert id set ↔ k = id ∨ k ∈ set := by
  induction set with
  | nil => simp [insert]
  | cons x xs ih =>
    rw [insert]
    split
    · simp
    · split
      · rename_i heq
        simp [heq]
      · rw [List.mem_cons, ih, List.mem_cons]
        exact or_left_comm

theorem mem_union {k : KeyId} {set : KeySet} {ids : List KeyId} :
    k ∈ KeySet.union set ids ↔ k ∈ set ∨ k ∈ ids := by
  induction ids generalizing set with
  | nil => simp [union]
  | cons id ids ih =>
    have hunion : KeySet.union set (id :: ids) = KeySet.union (KeySet.insert id set) ids := rfl
    rw [hunion, ih, mem_insert, List.mem_cons]
    tauto

/-- The keys stand in increasing order. -/
def Increasing (set : KeySet) : Prop := set.Pairwise (· < ·)

theorem Increasing.insert {set : KeySet} (h : Increasing set) (id : KeyId) :
    Increasing (KeySet.insert id set) := by
  unfold Increasing at h ⊢
  induction set with
  | nil => simp [KeySet.insert]
  | cons x xs ih =>
    rw [List.pairwise_cons] at h
    rw [KeySet.insert]
    split
    · rename_i hlt
      refine List.pairwise_cons.mpr ⟨fun y hy => ?_, List.pairwise_cons.mpr h⟩
      rcases List.mem_cons.mp hy with rfl | hy
      · exact hlt
      · exact hlt.trans (h.1 y hy)
    · rename_i hle
      split
      · exact List.pairwise_cons.mpr h
      · rename_i hne
        refine List.pairwise_cons.mpr ⟨fun y hy => ?_, ih h.2⟩
        rcases mem_insert.mp hy with rfl | hy
        · exact Nat.lt_of_le_of_ne (Nat.le_of_not_lt hle) fun heq => hne heq.symm
        · exact h.1 y hy

theorem Increasing.union {set : KeySet} (h : Increasing set) (ids : List KeyId) :
    Increasing (KeySet.union set ids) := by
  induction ids generalizing set with
  | nil => exact h
  | cons id ids ih => exact ih (h.insert id)

theorem Increasing.nodup {set : KeySet} (h : Increasing set) : set.Nodup :=
  List.Pairwise.imp (fun hlt => Nat.ne_of_lt hlt) h

/-- A set of keys below a bound has at most as many members as the bound. -/
theorem Increasing.length_le {set : KeySet} {bound : Nat} (h : Increasing set)
    (hbound : ∀ k ∈ set, k < bound) : set.length ≤ bound := by
  have hsub : set.Subperm (List.range bound) :=
    List.subperm_of_subset h.nodup fun k hk => List.mem_range.mpr (hbound k hk)
  simpa using hsub.length_le

/-- A set that is part of another one and not the same is smaller. -/
theorem Increasing.length_lt {set set' : KeySet} (h : Increasing set) (h' : Increasing set')
    (hsub : ∀ k ∈ set, k ∈ set') (hne : set' ≠ set) : set.length < set'.length := by
  have hperm : set.Subperm set' := List.subperm_of_subset h.nodup hsub
  refine lt_of_le_of_ne hperm.length_le fun hlen => hne ?_
  have := hperm.perm_of_length_le hlen.ge
  exact (this.eq_of_pairwise (fun a b _ _ hab hba => absurd hab (Nat.lt_asymm hba)) h h').symm

end KeySet

/-! ## The sets of a function -/

namespace FunctionDomains

/-- The keys that callers take a function to write, or to read. -/
def visible (d : FunctionDomains) (write : Bool) : KeySet := if write then d.writes else d.reads

/-- The keys that the code of a function writes, or reads. -/
def own (d : FunctionDomains) (write : Bool) : KeySet :=
  if write then d.localWrites else d.localReads

/-- The keys that a function or its callees write, or read. -/
def computed (d : FunctionDomains) (write : Bool) : KeySet :=
  if write then d.computedWrites else d.computedReads

/-- Whether an annotation says what a function writes, or reads. -/
def declares (d : FunctionDomains) (write : Bool) : Bool :=
  if write then d.writesDeclared else d.readsDeclared

/-- What joining with callees leaves as it is. -/
structure Keeps (d d' : FunctionDomains) : Prop where
  source_eq : d'.source = d.source
  own_eq : ∀ write, d'.own write = d.own write
  declares_eq : ∀ write, d'.declares write = d.declares write
  visible_eq : ∀ write, d.declares write = true → d'.visible write = d.visible write

theorem Keeps.refl (d : FunctionDomains) : Keeps d d where
  source_eq := rfl
  own_eq _ := rfl
  declares_eq _ := rfl
  visible_eq _ _ := rfl

theorem Keeps.trans {d d' d'' : FunctionDomains} (h : Keeps d d') (h' : Keeps d' d'') :
    Keeps d d'' where
  source_eq := h'.source_eq.trans h.source_eq
  own_eq w := (h'.own_eq w).trans (h.own_eq w)
  declares_eq w := (h'.declares_eq w).trans (h.declares_eq w)
  visible_eq w hw := (h'.visible_eq w ((h.declares_eq w).trans hw)).trans (h.visible_eq w hw)

theorem computed_aggregate (d : FunctionDomains) (callees : List FunctionDomains) (write : Bool) :
    (d.aggregate callees).computed write
      = callees.foldl (fun set c => KeySet.union set (c.visible write)) (d.own write) := by
  cases write <;> rfl

theorem visible_aggregate (d : FunctionDomains) (callees : List FunctionDomains) (write : Bool) :
    (d.aggregate callees).visible write
      = if d.declares write then d.visible write else (d.aggregate callees).computed write := by
  cases write <;> rfl

theorem keeps_aggregate (d : FunctionDomains) (callees : List FunctionDomains) :
    Keeps d (d.aggregate callees) where
  source_eq := rfl
  own_eq w := by cases w <;> rfl
  declares_eq w := by cases w <;> rfl
  visible_eq w hw := by rw [visible_aggregate, if_pos hw]

theorem mem_foldl_union {k : KeyId} {write : Bool} {callees : List FunctionDomains} {set : KeySet} :
    k ∈ callees.foldl (fun set c => KeySet.union set (c.visible write)) set
      ↔ k ∈ set ∨ ∃ c ∈ callees, k ∈ c.visible write := by
  induction callees generalizing set with
  | nil => simp
  | cons c cs ih =>
    rw [List.foldl_cons, ih, KeySet.mem_union, List.exists_mem_cons_iff, or_assoc]

/-- What is computed for a function: the keys of its own code and those that its callees show. -/
theorem mem_computed_aggregate {d : FunctionDomains} {callees : List FunctionDomains} {write : Bool}
    {k : KeyId} : k ∈ (d.aggregate callees).computed write
      ↔ k ∈ d.own write ∨ ∃ c ∈ callees, k ∈ c.visible write := by
  rw [computed_aggregate, mem_foldl_union]

theorem increasing_computed_aggregate {d : FunctionDomains} {write : Bool}
    (h : KeySet.Increasing (d.own write)) (callees : List FunctionDomains) :
    KeySet.Increasing ((d.aggregate callees).computed write) := by
  rw [computed_aggregate]
  generalize d.own write = set at h
  induction callees generalizing set with
  | nil => exact h
  | cons c cs ih => exact ih _ (h.union _)

end FunctionDomains

/-! ## Closed sets -/

/-- The domains of a function in a table. -/
def domainsAt (ds : Array FunctionDomains) (f : FuncId) : FunctionDomains := ds.getD f {}

theorem domainsAt_set {ds : Array FunctionDomains} {f : FuncId} (hf : f < ds.size)
    (d : FunctionDomains) (h : FuncId) :
    domainsAt (ds.setIfInBounds f d) h = if h = f then d else domainsAt ds h := by
  unfold domainsAt
  simp only [Array.getD_eq_getD_getElem?, Array.getElem?_setIfInBounds]
  by_cases hhf : h = f
  · subst hhf
    simp [hf]
  · have hne : ¬f = h := fun heq => hhf heq.symm
    simp [hhf, hne]

/-- The sets of a function hold the keys of its code and what its callees show, and it shows them to
its callers unless it declares others. -/
structure ClosedAt (g : CallGraph) (ds : Array FunctionDomains) (f : FuncId) : Prop where
  own_mem : ∀ write, ∀ k ∈ (domainsAt ds f).own write, k ∈ (domainsAt ds f).computed write
  callee_mem : ∀ write, ∀ c ∈ g.calleesOf f, ∀ k ∈ (domainsAt ds c).visible write,
    k ∈ (domainsAt ds f).computed write
  visible_eq : ∀ write, (domainsAt ds f).declares write = false →
    (domainsAt ds f).visible write = (domainsAt ds f).computed write

/-- A table in which the sets of a function and what its callees show are the same is closed there,
too. -/
theorem ClosedAt.congr {g : CallGraph} {ds ds' : Array FunctionDomains} {f : FuncId}
    (h : ClosedAt g ds f) (hself : domainsAt ds' f = domainsAt ds f)
    (hcallees : ∀ c ∈ g.calleesOf f, ∀ write,
      (domainsAt ds' c).visible write = (domainsAt ds c).visible write) : ClosedAt g ds' f where
  own_mem w k hk := by
    rw [hself] at hk ⊢
    exact h.own_mem w k hk
  callee_mem w c hc k hk := by
    rw [hcallees c hc] at hk
    rw [hself]
    exact h.callee_mem w c hc k hk
  visible_eq w hw := by
    rw [hself] at hw ⊢
    exact h.visible_eq w hw

/-! ## Passes -/

/-- What passes over some functions do to a table: sets grow, and the domains of other functions
stay. -/
structure Advances (members : List FuncId) (ds ds' : Array FunctionDomains) : Prop where
  size_eq : ds'.size = ds.size
  keeps : ∀ f, (domainsAt ds f).Keeps (domainsAt ds' f)
  mono : ∀ f write, ∀ k ∈ (domainsAt ds f).visible write, k ∈ (domainsAt ds' f).visible write
  outside : ∀ f, f ∉ members → domainsAt ds' f = domainsAt ds f

namespace Advances

variable {members : List FuncId} {ds ds' ds'' : Array FunctionDomains}

theorem refl (members : List FuncId) (ds : Array FunctionDomains) : Advances members ds ds where
  size_eq := rfl
  keeps _ := .refl _
  mono _ _ _ hk := hk
  outside _ _ := rfl

theorem trans (h : Advances members ds ds') (h' : Advances members ds' ds'') :
    Advances members ds ds'' where
  size_eq := h'.size_eq.trans h.size_eq
  keeps f := (h.keeps f).trans (h'.keeps f)
  mono f w k hk := h'.mono f w k (h.mono f w k hk)
  outside f hf := (h'.outside f hf).trans (h.outside f hf)

theorem of_subset {members' : List FuncId} (h : Advances members ds ds')
    (hsub : ∀ f ∈ members, f ∈ members') : Advances members' ds ds' where
  size_eq := h.size_eq
  keeps := h.keeps
  mono := h.mono
  outside f hf := h.outside f fun hmem => hf (hsub f hmem)

end Advances

/-- What is true of the sets of all functions while passes are made. -/
structure Growing (m : Ssa.Module) (g : CallGraph) (keyCount : Nat)
    (ds : Array FunctionDomains) : Prop where
  size_eq : ds.size = m.functions.size
  increasing : ∀ f write, KeySet.Increasing ((domainsAt ds f).visible write)
  increasing_own : ∀ f write, KeySet.Increasing ((domainsAt ds f).own write)
  bounded : ∀ f write, ∀ k ∈ (domainsAt ds f).visible write, k < keyCount
  bounded_own : ∀ f write, ∀ k ∈ (domainsAt ds f).own write, k < keyCount
  /-- Every key that is shown is there because of the code or of a callee. -/
  justified : ∀ f write, (domainsAt ds f).declares write = false →
    ∀ k ∈ (domainsAt ds f).visible write,
      k ∈ (domainsAt ds f).own write ∨ ∃ c ∈ g.calleesOf f, k ∈ (domainsAt ds c).visible write

theorem isComputed_congr {m : Ssa.Module} {d d' : FunctionDomains} (h : d.Keeps d') (f : FuncId) :
    isComputed m d' f = isComputed m d f := by
  unfold isComputed
  rw [h.source_eq]

theorem lt_size_of_isComputed {m : Ssa.Module} {d : FunctionDomains} {f : FuncId}
    (h : isComputed m d f = true) : f < m.functions.size := by
  unfold isComputed at h
  rw [Bool.and_eq_true] at h
  by_contra hf
  rw [Array.getElem?_eq_none (Nat.le_of_not_lt hf)] at h
  cases h.2

section Pass

variable {m : Ssa.Module} {g : CallGraph} {keyCount : Nat} {ds : Array FunctionDomains} {f : FuncId}

/-- The domains of a function joined with those that its callees have in a table. -/
def joined (g : CallGraph) (ds : Array FunctionDomains) (f : FuncId) : FunctionDomains :=
  (domainsAt ds f).aggregate ((g.calleesOf f).map (domainsAt ds))

theorem mem_computed_joined {write : Bool} {k : KeyId} : k ∈ (joined g ds f).computed write
    ↔ k ∈ (domainsAt ds f).own write ∨ ∃ c ∈ g.calleesOf f, k ∈ (domainsAt ds c).visible write := by
  unfold joined
  rw [FunctionDomains.mem_computed_aggregate]
  simp

/-- Joining a function with its callees takes nothing away from what it shows. -/
theorem Growing.visible_subset_joined (hds : Growing m g keyCount ds) (write : Bool) :
    ∀ k ∈ (domainsAt ds f).visible write, k ∈ (joined g ds f).visible write := by
  intro k hk
  unfold joined
  rw [FunctionDomains.visible_aggregate]
  cases hdecl : (domainsAt ds f).declares write with
  | true => exact hk
  | false => exact mem_computed_joined.mpr (hds.justified f write hdecl k hk)

theorem Growing.advances_set (hds : Growing m g keyCount ds) (hf : f < ds.size) :
    Advances [f] ds (ds.setIfInBounds f (joined g ds f)) where
  size_eq := Array.size_setIfInBounds
  keeps h := by
    rw [domainsAt_set hf]
    split
    · rename_i heq
      rw [heq]
      exact FunctionDomains.keeps_aggregate _ _
    · exact .refl _
  mono h w k hk := by
    rw [domainsAt_set hf]
    split
    · rename_i heq
      rw [heq] at hk
      exact hds.visible_subset_joined w k hk
    · exact hk
  outside h hh := by
    rw [domainsAt_set hf, if_neg (by simpa using hh)]

theorem Growing.bounded_joined (hds : Growing m g keyCount ds) (write : Bool) :
    ∀ k ∈ (joined g ds f).visible write, k < keyCount := by
  intro k hk
  unfold joined at hk
  rw [FunctionDomains.visible_aggregate] at hk
  cases hdecl : (domainsAt ds f).declares write with
  | true =>
    rw [hdecl, if_pos rfl] at hk
    exact hds.bounded f write k hk
  | false =>
    rw [hdecl, if_neg Bool.false_ne_true] at hk
    rcases mem_computed_joined.mp hk with hown | ⟨c, _, hc⟩
    · exact hds.bounded_own f write k hown
    · exact hds.bounded c write k hc

theorem Growing.set (hds : Growing m g keyCount ds) (hf : f < ds.size) :
    Growing m g keyCount (ds.setIfInBounds f (joined g ds f)) := by
  have hadv := hds.advances_set hf
  refine ⟨hadv.size_eq.trans hds.size_eq, fun h w => ?_, fun h w => ?_, fun h w k hk => ?_,
    fun h w k hk => ?_, fun h w hdecl k hk => ?_⟩
  · rw [domainsAt_set hf]
    split
    · unfold joined
      rw [FunctionDomains.visible_aggregate]
      split
      · exact hds.increasing f w
      · exact FunctionDomains.increasing_computed_aggregate (hds.increasing_own f w) _
    · exact hds.increasing h w
  · rw [(hadv.keeps h).own_eq]
    exact hds.increasing_own h w
  · rw [domainsAt_set hf] at hk
    split at hk
    · exact hds.bounded_joined w k hk
    · exact hds.bounded h w k hk
  · rw [(hadv.keeps h).own_eq] at hk
    exact hds.bounded_own h w k hk
  · rw [(hadv.keeps h).declares_eq] at hdecl
    rw [(hadv.keeps h).own_eq]
    have hjust : k ∈ (domainsAt ds h).own w ∨
        ∃ c ∈ g.calleesOf h, k ∈ (domainsAt ds c).visible w := by
      rw [domainsAt_set hf] at hk
      split at hk
      · rename_i heq
        subst heq
        unfold joined at hk
        rw [FunctionDomains.visible_aggregate, hdecl, if_neg Bool.false_ne_true] at hk
        exact mem_computed_joined.mp hk
      · exact hds.justified h w hdecl k hk
    rcases hjust with hown | ⟨c, hc, hkc⟩
    · exact .inl hown
    · exact .inr ⟨c, hc, hadv.mono c w k hkc⟩

/-- Directly after a function is joined with its callees it is closed, if what they show is the same
in the table then reached. -/
theorem Growing.closedAt_set (hf : f < ds.size) {ds' : Array FunctionDomains}
    (hself : domainsAt ds' f = domainsAt (ds.setIfInBounds f (joined g ds f)) f)
    (hcallees : ∀ c ∈ g.calleesOf f, ∀ write,
      (domainsAt ds' c).visible write = (domainsAt ds c).visible write) : ClosedAt g ds' f := by
  rw [domainsAt_set hf, if_pos rfl] at hself
  have hkeeps := FunctionDomains.keeps_aggregate (domainsAt ds f)
      ((g.calleesOf f).map (domainsAt ds))
  refine ⟨fun w k hk => ?_, fun w c hc k hk => ?_, fun w hw => ?_⟩
  · rw [hself] at hk ⊢
    exact mem_computed_joined.mpr (.inl (hkeeps.own_eq w ▸ hk))
  · rw [hcallees c hc] at hk
    rw [hself]
    exact mem_computed_joined.mpr (.inr ⟨c, hc, hk⟩)
  · rw [hself] at hw ⊢
    have hdecl : (domainsAt ds f).declares w = false := (hkeeps.declares_eq w).symm.trans hw
    unfold joined
    rw [FunctionDomains.visible_aggregate, hdecl, if_neg Bool.false_ne_true]

end Pass

/-- How many keys some functions show in all. -/
def shownCount (ds : Array FunctionDomains) : List FuncId → Nat
  | [] => 0
  | f :: fs =>
    ((domainsAt ds f).visible false).length + ((domainsAt ds f).visible true).length +
      shownCount ds fs

section Rounds

variable {m : Ssa.Module} {g : CallGraph} {keyCount : Nat}

theorem visible_length_mono {members : List FuncId} {ds ds' : Array FunctionDomains}
    (hds : Growing m g keyCount ds) (hadv : Advances members ds ds') (f : FuncId) (write : Bool) :
    ((domainsAt ds f).visible write).length ≤ ((domainsAt ds' f).visible write).length :=
  (List.subperm_of_subset (hds.increasing f write).nodup (hadv.mono f write)).length_le

theorem shownCount_mono {members : List FuncId} {ds ds' : Array FunctionDomains}
    (hds : Growing m g keyCount ds) (hadv : Advances members ds ds') (fs : List FuncId) :
    shownCount ds fs ≤ shownCount ds' fs := by
  induction fs with
  | nil => exact Nat.le_refl _
  | cons f fs ih =>
    have hreads := visible_length_mono hds hadv f false
    have hwrites := visible_length_mono hds hadv f true
    unfold shownCount
    omega

theorem shownCount_le {ds : Array FunctionDomains} (hds : Growing m g keyCount ds)
    (members : List FuncId) : shownCount ds members ≤ 2 * keyCount * members.length := by
  induction members with
  | nil => simp [shownCount]
  | cons f fs ih =>
    have hreads := (hds.increasing f false).length_le (hds.bounded f false)
    have hwrites := (hds.increasing f true).length_le (hds.bounded f true)
    unfold shownCount
    rw [List.length_cons, Nat.mul_succ]
    omega

/-- A function of which a shown set changed counts for more than before. -/
theorem shownCount_cons_lt {ds ds' : Array FunctionDomains} {f : FuncId} {fs : List FuncId}
    (hds : Growing m g keyCount ds) (hds' : Growing m g keyCount ds')
    (hadv : Advances (f :: fs) ds ds') {write : Bool}
    (hne : (domainsAt ds' f).visible write ≠ (domainsAt ds f).visible write) :
    shownCount ds (f :: fs) < shownCount ds' (f :: fs) := by
  have hlt := (hds.increasing f write).length_lt (hds'.increasing f write) (hadv.mono f write) hne
  have hrest := shownCount_mono hds hadv fs
  have hreads := visible_length_mono hds hadv f false
  have hwrites := visible_length_mono hds hadv f true
  unfold shownCount
  cases write <;> omega

/-- What a pass over some functions does. -/
structure PassSpec (m : Ssa.Module) (g : CallGraph) (keyCount : Nat) (members : List FuncId)
    (ds ds' : Array FunctionDomains) (changed : Bool) : Prop where
  growing : Growing m g keyCount ds'
  advances : Advances members ds ds'
  same_of_unchanged : changed = false → ∀ f write,
    (domainsAt ds' f).visible write = (domainsAt ds f).visible write
  closed_of_unchanged : changed = false → ∀ f ∈ members, isComputed m (domainsAt ds' f) f = true →
    ClosedAt g ds' f
  more_of_changed : changed = true → shownCount ds members < shownCount ds' members

theorem aggregateAll_cons (f : FuncId) (fs : List FuncId) (ds : Array FunctionDomains) :
    aggregateAll m g (f :: fs) ds =
      if isComputed m (domainsAt ds f) f then
        let rest := aggregateAll m g fs (ds.setIfInBounds f (joined g ds f))
        (rest.1, rest.2 || (joined g ds f).visible false != (domainsAt ds f).visible false
          || (joined g ds f).visible true != (domainsAt ds f).visible true)
      else aggregateAll m g fs ds := by
  rw [aggregateAll]
  cases hc : isComputed m (domainsAt ds f) f with
  | true =>
    have hc' : isComputed m (ds.getD f {}) f = true := hc
    rw [hc']
    rfl
  | false =>
    have hc' : isComputed m (ds.getD f {}) f = false := hc
    rw [hc']
    rfl

theorem aggregateAll_spec (members : List FuncId) : ∀ {ds : Array FunctionDomains},
    Growing m g keyCount ds →
      PassSpec m g keyCount members ds (aggregateAll m g members ds).1
        (aggregateAll m g members ds).2 := by
  induction members with
  | nil =>
    intro ds hds
    exact ⟨hds, .refl [] ds, fun _ _ _ => rfl, by simp, fun h => absurd h Bool.false_ne_true⟩
  | cons f fs ih =>
    intro ds hds
    rw [aggregateAll_cons]
    by_cases hcomp : isComputed m (domainsAt ds f) f = true
    · rw [if_pos hcomp]
      have hf : f < ds.size := hds.size_eq ▸ lt_size_of_isComputed hcomp
      have hset := hds.set hf
      have hadv₁ := hds.advances_set hf
      obtain ⟨hgrow, hadv₂, hsame, hclosed, hmore⟩ := ih hset
      have hadv :
          Advances (f :: fs) ds (aggregateAll m g fs (ds.setIfInBounds f (joined g ds f))).1 :=
        (hadv₁.of_subset (by simp)).trans (hadv₂.of_subset fun h hh => List.mem_cons_of_mem f hh)
      -- if nothing changed, the joined sets are the old ones, so the function is closed; if
      -- something did, the members show more keys than before
      refine ⟨hgrow, hadv, fun hunch h w => ?_, fun hunch h hh hcomp' => ?_, fun hch => ?_⟩
      · simp only [Bool.or_eq_false_iff, bne_eq_false_iff_eq] at hunch
        rw [hsame hunch.1.1, domainsAt_set hf]
        split
        · rename_i heq
          rw [heq]
          cases w
          · exact hunch.1.2
          · exact hunch.2
        · rfl
      · simp only [Bool.or_eq_false_iff, bne_eq_false_iff_eq] at hunch
        by_cases hmem : h ∈ fs
        · exact hclosed hunch.1.1 h hmem hcomp'
        · have heq : h = f := (List.mem_cons.mp hh).resolve_right hmem
          subst heq
          refine Growing.closedAt_set hf (hadv₂.outside h hmem) fun c _ w => ?_
          rw [hsame hunch.1.1, domainsAt_set hf]
          split
          · rename_i heq
            rw [heq]
            cases w
            · exact hunch.1.2
            · exact hunch.2
          · rfl
      · simp only [Bool.or_eq_true, bne_iff_ne] at hch
        have hself : ∀ w, (joined g ds f).visible w ≠ (domainsAt ds f).visible w →
            shownCount ds (f :: fs) < shownCount (ds.setIfInBounds f (joined g ds f))
              (f :: fs) := by
          intro w hne
          have hne' : (domainsAt (ds.setIfInBounds f (joined g ds f)) f).visible w
              ≠ (domainsAt ds f).visible w := by
            rw [domainsAt_set hf, if_pos rfl]
            exact hne
          exact shownCount_cons_lt hds hset (hadv₁.of_subset (by simp)) hne'
        have hrest := shownCount_mono hset hadv₂ (f :: fs)
        rcases hch with (hch | hne) | hne
        · have hlt := hmore hch
          have hle := shownCount_mono hds hadv₁ (f :: fs)
          have hhead₁ := visible_length_mono hset hadv₂ f false
          have hhead₂ := visible_length_mono hset hadv₂ f true
          dsimp only
          unfold shownCount at hle ⊢
          omega
        · exact (hself false hne).trans_le hrest
        · exact (hself true hne).trans_le hrest
    · rw [if_neg hcomp]
      obtain ⟨hgrow, hadv, hsame, hclosed, hmore⟩ := ih hds
      have hadv' := hadv.of_subset fun h hh => List.mem_cons_of_mem f hh
      refine ⟨hgrow, hadv', hsame, fun hunch h hh hcomp' => ?_, fun hch => ?_⟩
      · rcases List.mem_cons.mp hh with rfl | hmem
        · rw [isComputed_congr (hadv.keeps h)] at hcomp'
          exact absurd hcomp' hcomp
        · exact hclosed hunch h hmem hcomp'
      · have hlt := hmore hch
        have hhead₁ := visible_length_mono hds hadv f false
        have hhead₂ := visible_length_mono hds hadv f true
        unfold shownCount
        omega

section Passes

variable {P : Array FunctionDomains → Prop}
  (hset : ∀ ds f, P ds → isComputed m (domainsAt ds f) f = true →
  P (ds.setIfInBounds f (joined g ds f)))

include hset

theorem aggregateAll_induct (members : List FuncId) {ds : Array FunctionDomains} (h : P ds) :
    P (aggregateAll m g members ds).1 := by
  induction members generalizing ds with
  | nil => exact h
  | cons f fs ih =>
    rw [aggregateAll_cons]
    split
    · rename_i hcomp
      exact ih (hset ds f h hcomp)
    · exact ih h

theorem aggregateRounds_induct (members : List FuncId) (n : Nat) {ds : Array FunctionDomains}
    (h : P ds) :
    P (aggregateRounds m g members n ds).1 := by
  induction n generalizing ds with
  | zero => exact h
  | succ n ih =>
    have hpass := aggregateAll_induct hset members h
    rw [aggregateRounds]
    dsimp only
    split
    · exact ih hpass
    · exact hpass

/-- What holds of the collected sets, and is kept whenever a function is joined with its callees,
holds of the sets at the end. -/
theorem aggregateComponents_induct (rest : List (List FuncId)) {ds : Array FunctionDomains}
    (h : P ds) :
    P (aggregateComponents m g keyCount rest ds).1 := by
  induction rest generalizing ds with
  | nil => exact h
  | cons members rest ih =>
    have hround := aggregateRounds_induct hset members (2 * keyCount * members.length + 1) h
    rw [aggregateComponents]
    exact ih hround

end Passes

/-- One pass over a function that does not call itself leaves it closed. -/
theorem closedAt_of_not_cyclic {members : List FuncId} {ds : Array FunctionDomains}
    (hds : Growing m g keyCount ds) (hcyc : g.isCyclic members = false) {f : FuncId}
    (hf : f ∈ members)
    (hcomp : isComputed m (domainsAt (aggregateAll m g members ds).1 f) f = true) :
    ClosedAt g (aggregateAll m g members ds).1 f := by
  match members with
  | [] => cases hf
  | [h] =>
    obtain rfl : f = h := List.mem_singleton.mp hf
    have hspec := aggregateAll_spec [f] hds
    rw [isComputed_congr (hspec.advances.keeps f)] at hcomp
    rw [aggregateAll_cons, if_pos hcomp]
    have hlt : f < ds.size := hds.size_eq ▸ lt_size_of_isComputed hcomp
    refine Growing.closedAt_set hlt rfl fun c hc w => ?_
    have hne : c ≠ f := by
      rintro rfl
      simp [CallGraph.isCyclic, hc] at hcyc
    show (domainsAt (ds.setIfInBounds f (joined g ds f)) c).visible w = _
    rw [domainsAt_set hlt, if_neg hne]
  | _ :: _ :: _ => simp [CallGraph.isCyclic] at hcyc

/-- Passes over a group go on until the group is closed: each pass that is not the last adds a
key. -/
theorem aggregateRounds_spec (members : List FuncId) : ∀ (n : Nat) {ds : Array FunctionDomains},
    Growing m g keyCount ds → 2 * keyCount * members.length < shownCount ds members + n →
      Growing m g keyCount (aggregateRounds m g members n ds).1 ∧
      Advances members ds (aggregateRounds m g members n ds).1 ∧
      ∀ f ∈ members, isComputed m (domainsAt (aggregateRounds m g members n ds).1 f) f = true →
        ClosedAt g (aggregateRounds m g members n ds).1 f := by
  intro n
  induction n with
  | zero =>
    intro ds hds hfuel
    have hle := shownCount_le hds members
    omega
  | succ n ih =>
    intro ds hds hfuel
    have hspec := aggregateAll_spec members hds
    have hncyc : g.isCyclic members = false → ∀ f ∈ members,
        isComputed m (domainsAt (aggregateAll m g members ds).1 f) f = true →
          ClosedAt g (aggregateAll m g members ds).1 f :=
      fun hcyc f hf hcomp => closedAt_of_not_cyclic hds hcyc hf hcomp
    rw [aggregateRounds]
    generalize aggregateAll m g members ds = pass at hspec hncyc ⊢
    obtain ⟨ds', changed⟩ := pass
    dsimp only at hspec hncyc ⊢
    by_cases hgo : (g.isCyclic members && changed) = true
    · rw [if_pos hgo]
      rw [Bool.and_eq_true] at hgo
      have hmore := hspec.more_of_changed hgo.2
      obtain ⟨hgrow, hadv, hclosed⟩ := ih hspec.growing (by omega)
      exact ⟨hgrow, hspec.advances.trans hadv, hclosed⟩
    · rw [if_neg hgo]
      refine ⟨hspec.growing, hspec.advances, fun f hf hcomp => ?_⟩
      cases hcyc : g.isCyclic members with
      | true =>
        have hunch : changed = false := by
          rw [hcyc, Bool.true_and] at hgo
          exact Bool.eq_false_iff.mpr hgo
        exact hspec.closed_of_unchanged hunch f hf hcomp
      | false => exact hncyc hcyc f hf hcomp

/-- Going over the remaining groups keeps the functions of the groups before closed. -/
theorem aggregateComponents_spec (hg : g.Closed) : ∀ (rest before : List (List FuncId))
    {ds : Array FunctionDomains}, g.components = before ++ rest → Growing m g keyCount ds →
      (∀ group ∈ before, ∀ f ∈ group, isComputed m (domainsAt ds f) f = true → ClosedAt g ds f) →
      (∀ f, (domainsAt ds f).Keeps (domainsAt (aggregateComponents m g keyCount rest ds).1 f)) ∧
      ∀ group ∈ g.components, ∀ f ∈ group,
        isComputed m (domainsAt (aggregateComponents m g keyCount rest ds).1 f) f = true →
          ClosedAt g (aggregateComponents m g keyCount rest ds).1 f := by
  intro rest
  induction rest with
  | nil =>
    intro before ds hsplit _ hclosed
    rw [List.append_nil] at hsplit
    rw [hsplit]
    exact ⟨fun _ => .refl _, hclosed⟩
  | cons members rest ih =>
    intro before ds hsplit hds hclosed
    obtain ⟨hgrow, hadv, hgroup⟩ := aggregateRounds_spec members
      (2 * keyCount * members.length + 1) hds (by omega)
    rw [aggregateComponents]
    generalize aggregateRounds m g members (2 * keyCount * members.length + 1) ds = round
      at hgrow hadv hgroup ⊢
    obtain ⟨ds', passes⟩ := round
    dsimp only at hgrow hadv hgroup ⊢
    have hsplit' : g.components = (before ++ [members]) ++ rest := by simp [hsplit]
    obtain ⟨hkeeps, hall⟩ := ih (before ++ [members]) hsplit' hgrow (by
      intro group hmem f hf hcomp
      rcases List.mem_append.mp hmem with hbefore | hself
      · -- neither the function nor its callees are in the group gone over
        have hnot : ∀ h ∈ group, ∀ earlier ∈ before, h ∈ earlier → h ∉ members := by
          intro h hh earlier hearlier hhe hm
          exact (CallGraph.components_disjoint hg hsplit hm).1 earlier hearlier hhe
        have hself := hadv.outside f (hnot f hf group hbefore hf)
        rw [isComputed_congr (hadv.keeps f)] at hcomp
        refine (hclosed group hbefore f hf hcomp).congr hself fun c hc w => ?_
        obtain ⟨front, back, rfl⟩ := List.append_of_mem hbefore
        have hsplit'' : g.components = front ++ group :: (back ++ members :: rest) := by
          simp [hsplit]
        have hcout : c ∉ members := by
          intro hcm
          have hdisj := (CallGraph.components_disjoint hg hsplit hcm).1
          rcases CallGraph.callee_before hg hsplit'' hf hc with hcg | ⟨earlier, hearlier, hce⟩
          · exact hdisj group (by simp) hcg
          · exact hdisj earlier (by simp [hearlier]) hce
        rw [hadv.outside c hcout]
      · obtain rfl : group = members := List.mem_singleton.mp hself
        exact hgroup f hf hcomp)
    exact ⟨fun f => (hadv.keeps f).trans (hkeeps f), hall⟩

/-- The sets of all functions are closed under calls when all groups have been gone over. -/
theorem aggregateComponents_closed (hg : g.Closed) (hsize : g.size = m.functions.size)
    {ds : Array FunctionDomains} (hds : Growing m g keyCount ds) :
    (∀ f, (domainsAt ds f).Keeps
      (domainsAt (aggregateComponents m g keyCount g.components ds).1 f)) ∧
    ∀ f, isComputed m (domainsAt (aggregateComponents m g keyCount g.components ds).1 f) f = true →
      ClosedAt g (aggregateComponents m g keyCount g.components ds).1 f := by
  obtain ⟨hkeeps, hall⟩ := aggregateComponents_spec hg g.components [] rfl hds (by simp)
  refine ⟨hkeeps, fun f hcomp => ?_⟩
  obtain ⟨group, hgroup, hf⟩ := CallGraph.exists_component hg
    (hsize ▸ lt_size_of_isComputed hcomp : f < g.size)
  exact hall group hgroup f hf hcomp

end Rounds

end ContractCompiler
