import ContractCompiler.Proofs.Codegen.Program
import ContractCompiler.Proofs.Integer.Words
import Mathlib.Data.Finset.Filter
import Mathlib.Data.Finset.Card
import Mathlib.Logic.Relation

/-!
# Estimates follow the calls

The estimate of a function is its local cost and the weighted estimates of what it calls, added up
in the order of the calls. Only a call that leads back to the function may count with less than the
estimate of what is called, as that may have been active when it was counted. Estimates are
unsigned; written as signed numbers they turn negative from half of the range on.

- `Gas.Calls`: a function calls another;
- `Gas.Adds`: a sum to which calls were added, with finished estimates where they do not lead back;
- `Gas.Advances`: what a search leaves as it is;
- `Gas.Sound`: the finished estimates are sums of what is called;
- `Gas.visit_spec`, `Gas.visitAll_spec`: the search keeps estimates sound and finishes what it
  visits;
- `Gas.Solves`: totals that solve the equations of the calls, of which there is one at most without
  cycles;
- `estimateGas_follows`: the estimates of all functions;
- `le_estimateGas_of_call`, `le_gas_of_call`: estimates cover what is called, also in a compiled
  unit;
- `gas_nonneg_iff`, `recorded_le_of_le`: which estimates are written without a sign, and keep their
  order.
-/

namespace ContractCompiler

/-! ## Sums and products that stay at the greatest word -/

theorem toNat_satAdd (a b : UInt64) :
    (satAdd a b).toNat = min (a.toNat + b.toNat) (2 ^ 64 - 1) := by
  unfold satAdd
  rw [UInt64.toNat_ofNat_of_lt']
  · rfl
  · exact Nat.lt_of_le_of_lt (Nat.min_le_right _ _) (by decide)

theorem toNat_satMul (a b : UInt64) :
    (satMul a b).toNat = min (a.toNat * b.toNat) (2 ^ 64 - 1) := by
  unfold satMul
  rw [UInt64.toNat_ofNat_of_lt']
  · rfl
  · exact Nat.lt_of_le_of_lt (Nat.min_le_right _ _) (by decide)

theorem le_satAdd_left (a b : UInt64) : a ≤ satAdd a b := by
  have hlt := a.toNat_lt
  rw [UInt64.le_iff_toNat_le, toNat_satAdd]
  omega

theorem le_satAdd_right (a b : UInt64) : b ≤ satAdd a b := by
  have hlt := b.toNat_lt
  rw [UInt64.le_iff_toNat_le, toNat_satAdd]
  omega

theorem satAdd_le_satAdd {a b : UInt64} (h : a ≤ b) (c : UInt64) : satAdd a c ≤ satAdd b c := by
  rw [UInt64.le_iff_toNat_le] at h
  rw [UInt64.le_iff_toNat_le, toNat_satAdd, toNat_satAdd]
  omega

theorem le_satMul {w : UInt64} (hw : 1 ≤ w) (a : UInt64) : a ≤ satMul w a := by
  have hlt := a.toNat_lt
  rw [UInt64.le_iff_toNat_le, UInt64.toNat_one] at hw
  have hle : a.toNat ≤ w.toNat * a.toNat := Nat.le_mul_of_pos_left _ hw
  rw [UInt64.le_iff_toNat_le, toNat_satMul]
  omega

namespace Gas

variable {fns : Array (Option FunctionGas)} {stages stages₁ stages₂ stages' : Array Stage} {f : Nat}
  {total : UInt64}

/-- A function that was compiled calls another. -/
def Calls (fns : Array (Option FunctionGas)) (f c : Nat) : Prop :=
  ∃ g, fns[f]? = some (some g) ∧ ∃ call ∈ g.calls, call.callee = c

/-- A search leaves what is finished and what is active as it was. -/
structure Advances (stages stages' : Array Stage) : Prop where
  size : stages'.size = stages.size
  done : ∀ (f : Nat) (total : UInt64), stages[f]? = some (.done total) →
      stages'[f]? = some (.done total)
  active : ∀ f : Nat, stages'[f]? = some .active ↔ stages[f]? = some .active

theorem Advances.refl (stages : Array Stage) : Advances stages stages :=
  ⟨rfl, fun _ _ h => h, fun _ => .rfl⟩

theorem Advances.trans (h : Advances stages stages₁) (h' : Advances stages₁ stages') :
    Advances stages stages' :=
  ⟨h'.size.trans h.size, fun f total hf => h'.done f total (h.done f total hf),
    fun f => (h'.active f).trans (h.active f)⟩

/-- The functions that no search has reached. -/
def waiting (stages : Array Stage) : Finset Nat :=
  (Finset.range stages.size).filter fun f => stages[f]? = some .waiting

theorem mem_waiting : f ∈ waiting stages ↔ stages[f]? = some .waiting := by
  unfold waiting
  rw [Finset.mem_filter, Finset.mem_range, and_iff_right_iff_imp]
  exact fun hf => (Array.getElem?_eq_some_iff.mp hf).1

theorem Advances.waiting_subset (h : Advances stages stages') :
    waiting stages' ⊆ waiting stages := by
  intro f hf
  rw [mem_waiting] at hf ⊢
  have hlt : f < stages.size := h.size ▸ (Array.getElem?_eq_some_iff.mp hf).1
  rw [Array.getElem?_eq_getElem hlt]
  cases hstage : stages[f] with
  | waiting => rfl
  | active =>
    have hactive := (h.active f).mpr (Array.getElem?_eq_some_iff.mpr ⟨hlt, hstage⟩)
    rw [hactive] at hf
    cases hf
  | done total =>
    have hdone := h.done f total (Array.getElem?_eq_some_iff.mpr ⟨hlt, hstage⟩)
    rw [hdone] at hf
    cases hf

/-- What a call of a function counts with: the estimate that the function is finished with, and
nothing if it was not compiled. -/
structure Counts (fns : Array (Option FunctionGas)) (stages : Array Stage) (c : Nat)
    (value : UInt64) : Prop where
  present : ∀ g, fns[c]? = some (some g) → stages[c]? = some (.done value)
  absent : (∀ g, fns[c]? ≠ some (some g)) → value = 0

/-- A sum to which calls of a function were added in their order. What a call that leads back to the
function counts with is left open. -/
inductive Adds (fns : Array (Option FunctionGas)) (stages : Array Stage) (f : Nat) :
    UInt64 → List GasCall → UInt64 → Prop where
  | nil {sum : UInt64} : Adds fns stages f sum [] sum
  | cons {sum value total : UInt64} {call : GasCall} {calls : List GasCall}
      (hvalue : ¬Relation.TransGen (Calls fns) call.callee f → Counts fns stages call.callee value)
      (hcalls : Adds fns stages f (satAdd sum (satMul call.weight value)) calls total) :
      Adds fns stages f sum (call :: calls) total

section Adds

variable {sum : UInt64} {calls : List GasCall}

theorem Adds.mono (h : Adds fns stages f sum calls total)
    (hdone : ∀ (c : Nat) (t : UInt64), stages[c]? = some (.done t) → stages'[c]? = some (.done t)) :
    Adds fns stages' f sum calls total := by
  induction h with
  | nil => exact .nil
  | cons hvalue _ ih =>
    refine .cons (fun hback => ?_) ih
    obtain ⟨hpresent, habsent⟩ := hvalue hback
    exact ⟨fun g hg => hdone _ _ (hpresent g hg), habsent⟩

theorem Adds.le (h : Adds fns stages f sum calls total) : sum ≤ total := by
  induction h with
  | nil => exact UInt64.le_refl _
  | cons _ _ ih => exact UInt64.le_trans (le_satAdd_left _ _) ih

/-- One call that does not lead back adds what it counts with, whatever else is added. -/
theorem Adds.covers (h : Adds fns stages f sum calls total) {call : GasCall} (hcall : call ∈ calls)
    (hback : ¬Relation.TransGen (Calls fns) call.callee f) :
    ∃ value, Counts fns stages call.callee value ∧
      satAdd sum (satMul call.weight value) ≤ total := by
  induction h with
  | nil => exact absurd hcall List.not_mem_nil
  | cons hvalue hcalls ih =>
    rcases List.mem_cons.mp hcall with rfl | htail
    · exact ⟨_, hvalue hback, hcalls.le⟩
    · obtain ⟨value, hcounts, hle⟩ := ih htail
      exact ⟨value, hcounts, UInt64.le_trans (satAdd_le_satAdd (le_satAdd_left _ _) _) hle⟩

/-- If no call leads back, the sum is that of all calls. -/
theorem Adds.eq_foldl (h : Adds fns stages f sum calls total)
    (hback : ∀ call ∈ calls, ¬Relation.TransGen (Calls fns) call.callee f) (value : Nat → UInt64)
    (hvalue : ∀ c v, Counts fns stages c v → v = value c) :
    total = calls.foldl (fun sum call => satAdd sum (satMul call.weight (value call.callee)))
      sum := by
  induction h with
  | nil => rfl
  | cons hcounts _ ih =>
    rw [List.foldl_cons, ← hvalue _ _ (hcounts (hback _ (.head _)))]
    exact ih fun call hcall => hback call (.tail _ hcall)

end Adds

/-- Finished estimates are those of compiled functions, and sums of what they call. -/
def Sound (fns : Array (Option FunctionGas)) (stages : Array Stage) : Prop :=
  ∀ (f : Nat) (total : UInt64), stages[f]? = some (.done total) →
    ∃ g, fns[f]? = some (some g) ∧ Adds fns stages f g.local g.calls total

/-- What a visit of a function does: it keeps estimates sound, and a function that is not active is
finished with the estimate that the visit returns, which is zero if there is no such function. -/
structure Visits (fns : Array (Option FunctionGas)) (f : Nat) (stages : Array Stage)
    (out : UInt64 × Array Stage) : Prop where
  advances : Advances stages out.2
  sound : Sound fns out.2
  done : ∀ g, fns[f]? = some (some g) → stages[f]? ≠ some .active → out.2[f]? = some (.done out.1)
  absent : (∀ g, fns[f]? ≠ some (some g)) → out.1 = 0

/-- Where a visit may start: what is active leads to the function, and the fuel lasts. -/
structure Ready (fns : Array (Option FunctionGas)) (fuel f : Nat)
    (stages : Array Stage) : Prop where
  size : stages.size = fns.size
  sound : Sound fns stages
  active : ∀ a : Nat, stages[a]? = some .active → Relation.TransGen (Calls fns) a f
  fuel : (waiting stages).card < fuel

/-- A call as it adds to the estimate of the caller. -/
def addCall (fns : Array (Option FunctionGas)) (fuel : Nat) (sum : UInt64 × Array Stage)
    (call : GasCall) :
    UInt64 × Array Stage :=
  (satAdd sum.1 (satMul call.weight (visit fns fuel call.callee sum.2).1),
    (visit fns fuel call.callee sum.2).2)

theorem visit_waiting {fuel : Nat} {g : FunctionGas} (hg : fns[f]? = some (some g))
    (hstage : stages[f]? = some .waiting) :
    visit fns (fuel + 1) f stages =
      let out := g.calls.foldl (addCall fns fuel) (g.local, stages.setIfInBounds f .active)
      (out.1, out.2.setIfInBounds f (.done out.1)) := by
  have hgetD : stages.getD f .waiting = .waiting := by
    rw [Array.getD_eq_getD_getElem?, hstage]
    rfl
  rw [visit, hg]
  dsimp only
  rw [hgetD]
  rfl

/-- What the calls of a function add up to, given what visits of them do. -/
theorem foldl_addCall_spec {fuel : Nat}
    (hvisit : ∀ c stages, Ready fns fuel c stages → Visits fns c stages (visit fns fuel c stages))
    (calls : List GasCall) (sum : UInt64) (stages : Array Stage)
    (hready : ∀ call ∈ calls, Ready fns fuel call.callee stages) (hsound : Sound fns stages)
    (hback : ∀ call ∈ calls, stages[call.callee]? = some .active →
      Relation.TransGen (Calls fns) call.callee f) :
    let out := calls.foldl (addCall fns fuel) (sum, stages)
    Advances stages out.2 ∧ Sound fns out.2 ∧ Adds fns out.2 f sum calls out.1 := by
  induction calls generalizing sum stages with
  | nil => exact ⟨.refl stages, hsound, .nil⟩
  | cons call calls ih =>
    have hcall := hvisit call.callee stages (hready call (.head _))
    rw [List.foldl_cons]
    unfold addCall
    generalize visit fns fuel call.callee stages = out at hcall
    obtain ⟨callee, stages₁⟩ := out
    have hready₁ (next : GasCall) (hnext : next ∈ calls) : Ready fns fuel next.callee stages₁ := by
      obtain ⟨hsize, -, hactive, hfuel⟩ := hready next (.tail _ hnext)
      refine ⟨hcall.advances.size.trans hsize, hcall.sound, fun a ha => ?_, ?_⟩
      · exact hactive a ((hcall.advances.active a).mp ha)
      · exact (Finset.card_le_card hcall.advances.waiting_subset).trans_lt hfuel
    obtain ⟨hadvances, hsound', hadds⟩ :=
      ih (satAdd sum (satMul call.weight callee)) stages₁ hready₁ hcall.sound
        fun next hnext hactive => hback next (.tail _ hnext) ((hcall.advances.active _).mp hactive)
    refine ⟨hcall.advances.trans hadvances, hsound',
      .cons (fun hne => ⟨fun g hg => ?_, hcall.absent⟩) hadds⟩
    exact hadvances.done _ _ (hcall.done g hg fun hactive => hne (hback call (.head _) hactive))

theorem getElem?_setStage (hf : f < stages.size) (stage : Stage) (x : Nat) :
    (stages.setIfInBounds f stage)[x]? = if f = x then some stage else stages[x]? := by
  rw [Array.getElem?_setIfInBounds]
  by_cases hx : f = x
  · rw [if_pos hx, if_pos hx, if_pos (hx ▸ hf)]
  · rw [if_neg hx, if_neg hx]

theorem sound_enter (h : Sound fns stages) (hstage : stages[f]? = some .waiting) :
    Sound fns (stages.setIfInBounds f .active) := by
  have hlt : f < stages.size := (Array.getElem?_eq_some_iff.mp hstage).1
  intro x total hx
  rw [getElem?_setStage hlt] at hx
  split at hx
  · cases hx
  · obtain ⟨g, hg, hadds⟩ := h x total hx
    refine ⟨g, hg, hadds.mono fun c t hc => ?_⟩
    rw [getElem?_setStage hlt, if_neg]
    · exact hc
    · rintro rfl
      rw [hstage] at hc
      cases hc

/-- What is active when a function is entered leads to it, so a call of it leads back. -/
theorem back_of_active {g : FunctionGas}
    (hactive : ∀ a : Nat, stages[a]? = some .active → Relation.TransGen (Calls fns) a f)
    (hg : fns[f]? = some (some g)) (hstage : stages[f]? = some .waiting) {call : GasCall}
    (hcall : call ∈ g.calls)
    (hcallee : (stages.setIfInBounds f .active)[call.callee]? = some .active) :
    Relation.TransGen (Calls fns) call.callee f := by
  rw [getElem?_setStage (Array.getElem?_eq_some_iff.mp hstage).1] at hcallee
  split at hcallee
  next heq => exact .single ⟨g, heq ▸ hg, call, hcall, heq ▸ rfl⟩
  next => exact hactive _ hcallee

/-- A function that is entered counts as active for what it calls. -/
theorem ready_of_call {fuel : Nat} {g : FunctionGas} (h : Ready fns (fuel + 1) f stages)
    (hg : fns[f]? = some (some g)) (hstage : stages[f]? = some .waiting) {call : GasCall}
    (hcall : call ∈ g.calls) : Ready fns fuel call.callee (stages.setIfInBounds f .active) := by
  have hlt : f < stages.size := (Array.getElem?_eq_some_iff.mp hstage).1
  have hedge : Relation.TransGen (Calls fns) f call.callee := .single ⟨g, hg, call, hcall, rfl⟩
  refine ⟨Array.size_setIfInBounds.trans h.size, sound_enter h.sound hstage, fun a ha => ?_, ?_⟩
  · rw [getElem?_setStage hlt] at ha
    split at ha
    next heq => exact heq ▸ hedge
    next => exact (h.active a ha).trans hedge
  · have hsub : waiting (stages.setIfInBounds f .active) ⊂ waiting stages := by
      refine (Finset.ssubset_iff_of_subset fun x hx => ?_).mpr
        ⟨f, mem_waiting.mpr hstage, fun hf => ?_⟩
      · rw [mem_waiting, getElem?_setStage hlt] at hx
        split at hx
        · cases hx
        · exact mem_waiting.mpr hx
      · rw [mem_waiting, getElem?_setStage hlt, if_pos rfl] at hf
        cases hf
    have := Finset.card_lt_card hsub
    have := h.fuel
    omega

/-- A function whose calls are added up is finished with what they add up to. -/
theorem visits_of_calls {g : FunctionGas} {out : UInt64 × Array Stage}
    (hg : fns[f]? = some (some g)) (hstage : stages[f]? = some .waiting)
    (hadvances : Advances (stages.setIfInBounds f .active) out.2) (hout : Sound fns out.2)
    (hadds : Adds fns out.2 f g.local g.calls out.1) :
    Visits fns f stages (out.1, out.2.setIfInBounds f (.done out.1)) := by
  have hlt : f < stages.size := (Array.getElem?_eq_some_iff.mp hstage).1
  have hlt' : f < out.2.size := by rw [hadvances.size, Array.size_setIfInBounds]; exact hlt
  have hself : out.2[f]? = some .active := by
    rw [hadvances.active, getElem?_setStage hlt, if_pos rfl]
  -- what was finished before the function is finished is another function
  have hkeep (x : Nat) (t : UInt64) (hx : out.2[x]? = some (.done t)) :
      (out.2.setIfInBounds f (.done out.1))[x]? = some (.done t) := by
    rw [getElem?_setStage hlt', if_neg]
    · exact hx
    · rintro rfl
      rw [hself] at hx
      cases hx
  refine ⟨⟨?_, fun x t hx => hkeep x t (hadvances.done x t ?_), fun x => ?_⟩, fun x t hx => ?_,
    fun _ _ _ => ?_, fun hnone => absurd hg (hnone g)⟩
  · exact Array.size_setIfInBounds.trans (hadvances.size.trans Array.size_setIfInBounds)
  · rw [getElem?_setStage hlt, if_neg]
    · exact hx
    · rintro rfl
      rw [hstage] at hx
      cases hx
  · rw [getElem?_setStage hlt']
    split
    next heq =>
      subst heq
      rw [hstage]
      simp
    next hne => rw [hadvances.active, getElem?_setStage hlt, if_neg hne]
  · rw [getElem?_setStage hlt'] at hx
    split at hx
    next heq =>
      subst heq
      obtain rfl : out.1 = t := by simpa using hx
      exact ⟨g, hg, hadds.mono hkeep⟩
    next =>
      obtain ⟨g', hg', hadds'⟩ := hout x t hx
      exact ⟨g', hg', hadds'.mono hkeep⟩
  · rw [getElem?_setStage hlt', if_pos rfl]

theorem visit_spec (fuel f : Nat) (stages : Array Stage) (h : Ready fns fuel f stages) :
    Visits fns f stages (visit fns fuel f stages) := by
  induction fuel generalizing f stages with
  | zero => exact absurd h.fuel (Nat.not_lt_zero _)
  | succ fuel ih =>
    cases hfn : fns[f]? with
    | none =>
      rw [visit, hfn]
      exact ⟨.refl stages, h.sound, fun g hg => by simp [hfn] at hg, fun _ => rfl⟩
    | some g? =>
      cases g? with
      | none =>
        rw [visit, hfn]
        exact ⟨.refl stages, h.sound, fun g hg => by simp [hfn] at hg, fun _ => rfl⟩
      | some g =>
        have hlt : f < stages.size := h.size ▸ (Array.getElem?_eq_some_iff.mp hfn).1
        have hsome := Array.getElem?_eq_getElem hlt
        cases hstage : stages[f] with
        | waiting =>
          rw [hstage] at hsome
          obtain ⟨hadvances, hout, hadds⟩ := foldl_addCall_spec ih g.calls g.local _
            (fun call hcall => ready_of_call h hfn hsome hcall) (sound_enter h.sound hsome)
            fun call hcall => back_of_active h.active hfn hsome hcall
          rw [visit_waiting hfn hsome]
          exact visits_of_calls hfn hsome hadvances hout hadds
        | active =>
          rw [hstage] at hsome
          rw [visit, hfn, Array.getD_eq_getD_getElem?, hsome]
          exact ⟨.refl stages, h.sound, fun g hg hactive => absurd hsome hactive,
            fun hnone => absurd hfn (hnone g)⟩
        | done total =>
          rw [hstage] at hsome
          rw [visit, hfn, Array.getD_eq_getD_getElem?, hsome]
          exact ⟨.refl stages, h.sound, fun g hg hactive => hsome,
            fun hnone => absurd hfn (hnone g)⟩

/-- Visits from the outside, where no function is active, finish all functions that they start
from. -/
theorem foldl_visit_spec (ids : List Nat) (stages : Array Stage) (hsize : stages.size = fns.size)
    (hsound : Sound fns stages) (hactive : ∀ a : Nat, stages[a]? ≠ some .active) :
    let out := ids.foldl (fun stages f => (visit fns (fns.size + 1) f stages).2) stages
    Advances stages out ∧ Sound fns out ∧
      ∀ f ∈ ids, ∀ g, fns[f]? = some (some g) → ∃ total, out[f]? = some (.done total) := by
  induction ids generalizing stages with
  | nil => exact ⟨.refl stages, hsound, nofun⟩
  | cons f ids ih =>
    have hfuel : (waiting stages).card < fns.size + 1 := by
      have hcard : (waiting stages).card ≤ stages.size := by
        simpa [waiting] using Finset.card_filter_le (Finset.range stages.size) _
      omega
    have hvisit := visit_spec
        (fns.size + 1) f stages ⟨hsize, hsound, fun a ha => absurd ha (hactive a), hfuel⟩
    obtain ⟨hadvances, hout, hdone⟩ := ih (visit fns (fns.size + 1) f stages).2
      (hvisit.advances.size.trans hsize) hvisit.sound
      fun a ha => hactive a ((hvisit.advances.active a).mp ha)
    refine ⟨hvisit.advances.trans hadvances, hout, fun x hx g hg => ?_⟩
    rcases List.mem_cons.mp hx with rfl | hx
    · exact ⟨_, hadvances.done _ _ (hvisit.done g hg (hactive x))⟩
    · exact hdone x hx g hg

/-- All functions that were compiled have an estimate, and the estimates are sound. -/
theorem visitAll_spec (fns : Array (Option FunctionGas)) :
    let out := visitAll fns (Array.replicate fns.size .waiting)
    out.size = fns.size ∧ Sound fns out ∧
      ∀ (f : Nat) (g : FunctionGas), fns[f]? = some (some g) →
        ∃ total, out[f]? = some (.done total) := by
  have hstart (x : Nat) (stage : Stage)
      (h : (Array.replicate fns.size Stage.waiting)[x]? = some stage) :
      stage = .waiting := by
    rw [Array.getElem?_replicate] at h
    split at h
    · exact (Option.some.inj h).symm
    · cases h
  obtain ⟨hadvances, hsound, hdone⟩ := foldl_visit_spec (List.range fns.size) _ Array.size_replicate
    (fun x total hx => nomatch hstart x _ hx) (fun x hx => nomatch hstart x _ hx)
  refine ⟨hadvances.size.trans Array.size_replicate, hsound,
    fun f g hg => hdone f (List.mem_range.mpr ?_) g hg⟩
  exact (Array.getElem?_eq_some_iff.mp hg).1

end Gas

variable {fns : Array (Option FunctionGas)} {f : Nat} {g : FunctionGas} {call : GasCall}

section

variable {x : Nat} {total : UInt64}

theorem getD_estimateGas_of_done
    (h : (Gas.visitAll fns (Array.replicate fns.size .waiting))[x]? = some (.done total)) :
    (estimateGas fns).getD x 0 = total := by
  rw [Array.getD_eq_getD_getElem?, estimateGas, Array.getElem?_map, h]
  rfl

theorem getD_estimateGas_of_not_done
    (h : ∀ total, (Gas.visitAll fns (Array.replicate fns.size .waiting))[x]? ≠ some (.done total)) :
    (estimateGas fns).getD x 0 = 0 := by
  rw [Array.getD_eq_getD_getElem?, estimateGas, Array.getElem?_map]
  cases hstage : (Gas.visitAll fns (Array.replicate fns.size .waiting))[x]? with
  | none => rfl
  | some stage =>
    cases stage with
    | waiting => rfl
    | active => rfl
    | done total => exact absurd hstage (h total)

end

/-- Calls count with the estimates that are returned. -/
theorem getD_estimateGas_of_counts {c : Nat} {value : UInt64}
    (h : Gas.Counts fns (Gas.visitAll fns (Array.replicate fns.size .waiting)) c value) :
    value = (estimateGas fns).getD c 0 := by
  obtain ⟨-, hsound, -⟩ := Gas.visitAll_spec fns
  by_cases hpresent : ∃ g, fns[c]? = some (some g)
  · obtain ⟨g, hg⟩ := hpresent
    exact (getD_estimateGas_of_done (h.present g hg)).symm
  · rw [h.absent fun g hg => hpresent ⟨g, hg⟩, getD_estimateGas_of_not_done fun t ht => hpresent ?_]
    obtain ⟨g, hg, -⟩ := hsound c t ht
    exact ⟨g, hg⟩

theorem adds_estimateGas (hf : fns[f]? = some (some g)) :
    Gas.Adds fns (Gas.visitAll fns (Array.replicate fns.size .waiting)) f g.local g.calls
      ((estimateGas fns).getD f 0) := by
  obtain ⟨-, hsound, hdone⟩ := Gas.visitAll_spec fns
  obtain ⟨total, htotal⟩ := hdone f g hf
  obtain ⟨g', hg', hadds⟩ := hsound f total htotal
  obtain rfl : g = g' := by simpa [hf] using hg'
  rwa [getD_estimateGas_of_done htotal]

theorem size_estimateGas (fns : Array (Option FunctionGas)) :
    (estimateGas fns).size = fns.size := by
  obtain ⟨hsize, -, -⟩ := Gas.visitAll_spec fns
  unfold estimateGas
  rw [Array.size_map]
  exact hsize

theorem getD_estimateGas_of_absent (hf : ∀ g, fns[f]? ≠ some (some g)) :
    (estimateGas fns).getD f 0 = 0 := by
  obtain ⟨-, hsound, -⟩ := Gas.visitAll_spec fns
  refine getD_estimateGas_of_not_done fun total htotal => ?_
  obtain ⟨g, hg, -⟩ := hsound f total htotal
  exact hf g hg

/-- The estimate of a function is no less than its local cost and the weighted estimate of a
function that it calls, unless what is called leads back to it. -/
theorem satAdd_le_estimateGas (hf : fns[f]? = some (some g)) (hcall : call ∈ g.calls)
    (hback : ¬Relation.TransGen (Gas.Calls fns) call.callee f) :
    satAdd g.local (satMul call.weight ((estimateGas fns).getD call.callee 0)) ≤
      (estimateGas fns).getD f 0 := by
  obtain ⟨value, hcounts, hle⟩ := (adds_estimateGas hf).covers hcall hback
  rwa [← getD_estimateGas_of_counts hcounts]

/-- The estimate of a function is no less than that of a function that it calls with some weight,
unless what is called leads back to it. -/
theorem le_estimateGas_of_call (hf : fns[f]? = some (some g)) (hcall : call ∈ g.calls)
    (hweight : 1 ≤ call.weight) (hback : ¬Relation.TransGen (Gas.Calls fns) call.callee f) :
    (estimateGas fns).getD call.callee 0 ≤ (estimateGas fns).getD f 0 :=
  UInt64.le_trans (UInt64.le_trans (le_satMul hweight _) (le_satAdd_right _ _))
    (satAdd_le_estimateGas hf hcall hback)

/-! ## The equations of the calls -/

namespace Gas

/-- What a function costs if its calls cost what is given, added up in their order. -/
def sumCalls (total : Nat → UInt64) (g : FunctionGas) : UInt64 :=
  g.calls.foldl (fun sum call => satAdd sum (satMul call.weight (total call.callee))) g.local

theorem sumCalls_congr {total total' : Nat → UInt64} {g : FunctionGas}
    (h : ∀ call ∈ g.calls, total call.callee = total' call.callee) :
    sumCalls total g = sumCalls total' g := by
  unfold sumCalls
  refine List.foldl_ext _ _ _ fun sum call hcall => ?_
  rw [h call hcall]

/-- Totals that are what the functions cost if their calls cost that. -/
structure Solves (fns : Array (Option FunctionGas)) (total : Nat → UInt64) : Prop where
  present : ∀ f g, fns[f]? = some (some g) → total f = sumCalls total g
  absent : ∀ f, (∀ g, fns[f]? ≠ some (some g)) → total f = 0

/-- No function leads back to itself. -/
def Acyclic (fns : Array (Option FunctionGas)) : Prop := ∀ f, ¬Relation.TransGen (Calls fns) f f

open Classical in
/-- The functions that are called by a function, or by what it calls. -/
noncomputable def below (fns : Array (Option FunctionGas)) (f : Nat) : Finset Nat :=
  (Finset.range fns.size).filter fun c => Relation.TransGen (Calls fns) f c

theorem mem_below {c : Nat} :
    c ∈ below fns f ↔ c < fns.size ∧ Relation.TransGen (Calls fns) f c := by
  simp only [below, Finset.mem_filter, Finset.mem_range]

/-- There is less below what is called, unless it leads back to itself. -/
theorem card_below_lt {c : Nat} (hcalls : Calls fns f c) (hc : c < fns.size)
    (hcycle : ¬Relation.TransGen (Calls fns) c c) : (below fns c).card < (below fns f).card := by
  refine Finset.card_lt_card (Finset.ssubset_iff_subset_ne.mpr ⟨fun x hx => ?_, fun heq => ?_⟩)
  · obtain ⟨hlt, hx⟩ := mem_below.mp hx
    exact mem_below.mpr ⟨hlt, .head hcalls hx⟩
  · have hself : c ∈ below fns c := heq ▸ mem_below.mpr ⟨hc, .single hcalls⟩
    exact hcycle (mem_below.mp hself).2

/-- Without cycles the equations have one solution at most. By induction on how much is below a
function. -/
theorem Solves.unique (hacyclic : Acyclic fns) {total total' : Nat → UInt64} (h : Solves fns total)
    (h' : Solves fns total') (f : Nat) : total f = total' f := by
  induction hn : (below fns f).card using Nat.strong_induction_on generalizing f with
  | _ n ih =>
    by_cases hpresent : ∃ g, fns[f]? = some (some g)
    · obtain ⟨g, hg⟩ := hpresent
      rw [h.present f g hg, h'.present f g hg]
      refine sumCalls_congr fun call hcall => ?_
      by_cases hc : call.callee < fns.size
      · exact ih _ (hn ▸ card_below_lt ⟨g, hg, call, hcall, rfl⟩ hc (hacyclic _)) _ rfl
      · have hnone (g' : FunctionGas) : fns[call.callee]? ≠ some (some g') := by
          rw [Array.getElem?_eq_none (Nat.le_of_not_lt hc)]
          exact nofun
        rw [h.absent _ hnone, h'.absent _ hnone]
    · have hnone (g : FunctionGas) (hg : fns[f]? = some (some g)) : False := hpresent ⟨g, hg⟩
      rw [h.absent f hnone, h'.absent f hnone]

/-- The estimate of a function that is not called in a cycle is what it costs. -/
theorem estimateGas_eq_sumCalls {g : FunctionGas} (hf : fns[f]? = some (some g))
    (hcycle : ¬Relation.TransGen (Calls fns) f f) :
    (estimateGas fns).getD f 0 = sumCalls ((estimateGas fns).getD · 0) g := by
  have hback (call : GasCall) (hcall : call ∈ g.calls) :
      ¬Relation.TransGen (Calls fns) call.callee f :=
    fun hback => hcycle (.head ⟨g, hf, call, hcall, rfl⟩ hback)
  exact (adds_estimateGas hf).eq_foldl hback ((estimateGas fns).getD · 0)
    fun _ _ hcounts => getD_estimateGas_of_counts hcounts

theorem solves_estimateGas (hacyclic : Acyclic fns) : Solves fns ((estimateGas fns).getD · 0) :=
  ⟨fun f _ hf => estimateGas_eq_sumCalls hf (hacyclic f), fun _ => getD_estimateGas_of_absent⟩

/-- The calls of a function after functions got other numbers. -/
def renumber (σ : Nat → Nat) (g : FunctionGas) : FunctionGas :=
  { g with calls := g.calls.map fun call => { call with callee := σ call.callee } }

/-- The same functions under other numbers. -/
def Renumbers (σ : Equiv.Perm Nat) (fns fns' : Array (Option FunctionGas)) : Prop :=
  ∀ f, fns'[σ f]? = (fns[f]?).map (Option.map (renumber σ))

section Renumbers

variable {σ : Equiv.Perm Nat} {fns' : Array (Option FunctionGas)}

theorem Renumbers.present_iff (h : Renumbers σ fns fns') {g' : FunctionGas} :
    fns'[σ f]? = some (some g') ↔ ∃ g, fns[f]? = some (some g) ∧ renumber σ g = g' := by
  rw [h f]
  simp only [Option.map_eq_some_iff]
  constructor
  · rintro ⟨g?, hg?, g, rfl, hg⟩
    exact ⟨g, hg?, hg⟩
  · rintro ⟨g, hg, hg'⟩
    exact ⟨some g, hg, g, rfl, hg'⟩

theorem Renumbers.calls (h : Renumbers σ fns fns') {f c : Nat} (hcalls : Calls fns' f c) :
    Calls fns (σ.symm f) (σ.symm c) := by
  obtain ⟨g', hg', call', hcall', rfl⟩ := hcalls
  rw [← σ.apply_symm_apply f, h.present_iff] at hg'
  obtain ⟨g, hg, rfl⟩ := hg'
  obtain ⟨call, hcall, rfl⟩ := List.mem_map.mp hcall'
  exact ⟨g, hg, call, hcall, (σ.symm_apply_apply _).symm⟩

theorem Renumbers.acyclic (h : Renumbers σ fns fns') (hacyclic : Acyclic fns) : Acyclic fns' :=
  fun f hf => hacyclic (σ.symm f) (hf.lift σ.symm fun _ _ => h.calls)

/-- A solution for the new numbers is one for the old ones. -/
theorem Solves.renumber (h : Renumbers σ fns fns') {total : Nat → UInt64}
    (htotal : Solves fns' total) :
    Solves fns fun f => total (σ f) := by
  refine ⟨fun f g hg => ?_, fun f hnone => htotal.absent _ fun g' hg' => ?_⟩
  · refine (htotal.present (σ f) _ (h.present_iff.mpr ⟨g, hg, rfl⟩)).trans ?_
    exact List.foldl_map
  · obtain ⟨g, hg, -⟩ := h.present_iff.mp hg'
    exact hnone g hg

theorem Renumbers.lt_iff (h : Renumbers σ fns fns') (f : Nat) : σ f < fns'.size ↔ f < fns.size := by
  have hnone : fns'[σ f]? = none ↔ fns[f]? = none := by rw [h f, Option.map_eq_none_iff]
  rw [Array.getElem?_eq_none_iff, Array.getElem?_eq_none_iff] at hnone
  omega

end Renumbers

end Gas

/-- Estimates follow the calls. -/
structure GasFollows (fns : Array (Option FunctionGas)) : Prop where
  size : (estimateGas fns).size = fns.size
  /-- Functions that were not compiled cost nothing. -/
  absent : ∀ f : Nat, fns[f]? = some none → (estimateGas fns)[f]? = some 0
  /-- A function costs no less than one of its calls adds to its local cost, unless that leads back
  to it. -/
  covers : ∀ (f : Nat) g, fns[f]? = some (some g) →
      ∀ call ∈ g.calls, (∃ g', fns[call.callee]? = some (some g')) →
    ¬Relation.TransGen (Gas.Calls fns) call.callee f →
      satAdd g.local (satMul call.weight ((estimateGas fns).getD call.callee 0)) ≤
        (estimateGas fns).getD f 0
  /-- A function that is in no cycle costs what its calls add to its local cost. -/
  equation : ∀ (f : Nat) g, fns[f]? = some (some g) → ¬Relation.TransGen (Gas.Calls fns) f f →
    (estimateGas fns).getD f 0 = Gas.sumCalls ((estimateGas fns).getD · 0) g
  /-- Without cycles the estimates are the one solution of the equations of the calls. -/
  solution : Gas.Acyclic fns → ∀ total, Gas.Solves fns total ↔
      ∀ f, total f = (estimateGas fns).getD f 0
  /-- Without cycles other numbers of the functions only move the estimates. -/
  renumbered : Gas.Acyclic fns → ∀ (σ : Equiv.Perm Nat) (fns' : Array (Option FunctionGas)),
    Gas.Renumbers σ fns fns' → ∀ f : Nat, (estimateGas fns')[σ f]? = (estimateGas fns)[f]?

/-- Estimates follow the calls, whatever functions call each other. -/
theorem estimateGas_follows (fns : Array (Option FunctionGas)) : GasFollows fns where
  size := size_estimateGas fns
  absent f hf := by
    have hlt : f < (estimateGas fns).size :=
      size_estimateGas fns ▸ (Array.getElem?_eq_some_iff.mp hf).1
    have hzero : (estimateGas fns).getD f 0 = 0 := getD_estimateGas_of_absent fun g hg => by
      simp [hf] at hg
    rw [Array.getD_eq_getD_getElem?, Array.getElem?_eq_getElem hlt, Option.getD_some] at hzero
    rw [Array.getElem?_eq_getElem hlt, hzero]
  covers f g hf call hcall _ hback := satAdd_le_estimateGas hf hcall hback
  equation f g := Gas.estimateGas_eq_sumCalls
  solution hacyclic total := by
    have hsolves := Gas.solves_estimateGas hacyclic
    refine ⟨fun h => h.unique hacyclic hsolves, fun h => ?_⟩
    obtain rfl : total = fun f => (estimateGas fns).getD f 0 := funext h
    exact hsolves
  renumbered hacyclic σ fns' hσ f := by
    have hsolves := Gas.Solves.renumber hσ (Gas.solves_estimateGas (hσ.acyclic hacyclic))
    have heq := hsolves.unique hacyclic (Gas.solves_estimateGas hacyclic) f
    have hlt := hσ.lt_iff f
    rw [← size_estimateGas fns, ← size_estimateGas fns'] at hlt
    rw [Array.getD_eq_getD_getElem?, Array.getD_eq_getD_getElem?] at heq
    by_cases hf : f < (estimateGas fns).size
    · rw [Array.getElem?_eq_getElem hf, Array.getElem?_eq_getElem (hlt.mpr hf)] at heq ⊢
      exact congrArg some heq
    · rw [Array.getElem?_eq_none (Nat.le_of_not_lt hf),
        Array.getElem?_eq_none (Nat.le_of_not_lt (mt hlt.mp hf))]

/-- A function that calls another one twice and a missing one. -/
example : estimateGas #[
    some { «local» := 5, calls := [{ callee := 2 }, { callee := 2, weight := 10 },
      { callee := 1 }] },
    none, some { «local» := 7 }] = #[82, 0, 7] := by decide +kernel

/-! ## The estimates of a unit -/

section

open Codegen

variable [Hashing] {m : Ssa.Module} {types : TypePool} {options : CodegenOptions} {c : Nat}
  {cf cc : CompiledFunction}

/-- What the estimates of a unit are made from. -/
def unitGas (m : Ssa.Module) (types : TypePool) (options : CodegenOptions) :
    Array (Option FunctionGas) :=
  (Array.range m.functions.size).map fun id => ((lowered m types options).code? id).map
    (·.gas options.gas)

theorem gas_compile (hf : (m.compile types options).functions[f]? = some cf) :
    cf.gas = ((lowered m types options).code? f).elim 0 fun _ =>
      (estimateGas (unitGas m types options)).getD f 0 := by
  have hfunctions : (m.compile types options).functions =
      compiledFunctions (lowered m types options) m types (unitOf m options)
        (estimateGas (unitGas m types options)) := rfl
  rw [hfunctions] at hf
  unfold compiledFunctions at hf
  rw [Array.getElem?_mapIdx, Option.map_eq_some_iff] at hf
  obtain ⟨_, -, hcf⟩ := hf
  dsimp only at hcf
  split at hcf
  next hnone => rw [← hcf, hnone]; rfl
  next code hcode => rw [← hcf, hcode]; rfl

/-- The estimate of a compiled function is no less than that of a function that its code calls with
some weight, unless what is called leads back to it. -/
theorem le_gas_of_call (hf : (m.compile types options).functions[f]? = some cf)
    (hc : (m.compile types options).functions[c]? = some cc)
    (hg : (unitGas m types options)[f]? = some (some g)) (hcall : call ∈ g.calls)
    (hcallee : call.callee = c) (hweight : 1 ≤ call.weight)
    (hback : ¬Relation.TransGen (Gas.Calls (unitGas m types options)) c f) : cc.gas ≤ cf.gas := by
  subst hcallee
  have hle := le_estimateGas_of_call hg hcall hweight hback
  rw [gas_compile hf, gas_compile hc]
  obtain ⟨code, hcode⟩ : ∃ code, (lowered m types options).code? f = some code := by
    unfold unitGas at hg
    rw [Array.getElem?_map, Option.map_eq_some_iff] at hg
    obtain ⟨id, hid, hg⟩ := hg
    obtain rfl : f = id := by simpa using (Array.getElem?_eq_some_iff.mp hid).2
    obtain ⟨code, hcode, -⟩ := Option.map_eq_some_iff.mp hg
    exact ⟨code, hcode⟩
  rw [hcode]
  cases (lowered m types options).code? call.callee with
  | none => exact UInt64.zero_le
  | some _ => exact hle

end

/-- An estimate is written without a sign if it is in the lower half of its range. -/
theorem gas_nonneg_iff (gas : UInt64) : 0 ≤ signedValue gas ↔ gas.toNat < 2 ^ 63 := by
  have hcases := signedValue_cases gas
  have hlt := gas.toNat_lt
  omega

/-- Written as signed numbers, estimates keep their order up to half of their range. -/
theorem recorded_le_of_le {gas gas' : UInt64} (hle : gas ≤ gas') (hlt : gas'.toNat < 2 ^ 63) :
    0 ≤ signedValue gas ∧ signedValue gas ≤ signedValue gas' := by
  have hcases := signedValue_cases gas
  have hcases' := signedValue_cases gas'
  rw [UInt64.le_iff_toNat_le] at hle
  omega

end ContractCompiler
