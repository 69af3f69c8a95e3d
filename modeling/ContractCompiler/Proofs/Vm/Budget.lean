import ContractCompiler.Proofs.Vm.Cost
import Mathlib.Algebra.Order.BigOperators.Group.Finset
import Mathlib.Algebra.Ring.Nat
import Mathlib.Logic.Relation

/-!
# What runs can spend

Where control comes to no position twice, an activation can spend no more than what its positions
cost. Each position pays for itself when it is executed; what is left pays for the positions that
control can still come to, and a call for what is called.

- `Leads`: control may go from a position of code to another;
- `Forward`: the first positions of code are left or passed once, and no other position lets control
  out;
- `ahead`: what the positions cost that control can still come to;
- `Budgets`: functions that call only one another, with budgets that pay for their positions;
- `Affords`, `spentFrom_le`: what is left of the budgets of all activations pays for the rest of a
  run;
- `Budgets.spent_le`: the budget of a function pays for every call that returns or reverts.
-/

namespace ContractCompiler.Vm

open Relation

/-! ## Positions -/

/-- Control may go from a position of code to another. -/
inductive Leads (code : Array Instr) (pc : Nat) : Nat → Prop where
  | next {i : Instr} (hi : code[pc]? = some i) (hop : i.op ≠ .jmp ∧ i.op ≠ .ret ∧ i.op ≠ .trap) :
      Leads code pc (pc + 1)
  | jump {i : Instr} (hi : code[pc]? = some i)
      (hop : i.op = .jmp ∨ i.op = .jmpIf ∨ i.op = .jmpIfNot) :
      Leads code pc i.imm.toNat

/-- An instruction from which control goes on at the next position, or ends in neither a return nor
a revert. -/
structure Instr.Holds (m : Module) (i : Instr) : Prop where
  op : i.op ∉ [.jmp, .jmpIf, .jmpIfNot, .call, .ret]
  host : i.op = .callHost → ∀ ref, m.hostRef? i.imm.toUInt32.toNat = some ref →
      ref.function.op ≠ .revert

/-- Control comes to none of the first positions of code twice, and does not get out of the code
behind them. Calls are of given functions. -/
structure Forward (m : Module) (P : Nat → Prop) (code : Array Instr) (size : Nat) : Prop where
  acyclic : ∀ pc < size, ¬TransGen (Leads code) pc pc
  calls : ∀ pc i, pc < size → code[pc]? = some i → i.op = .call → P i.imm.toNat
  holds : ∀ pc i, size ≤ pc → code[pc]? = some i → i.Holds m

section Costs

variable (t : GasTable) (m : Module) (total : Nat → Nat)

/-- What an instruction costs with what it calls, if calls cost what is given. -/
def Instr.stake (i : Instr) : Nat := i.price t m + if i.op = .call then total i.imm.toNat else 0

/-- What the instruction at a position costs with what it calls. -/
def stakeAt (code : Array Instr) (pc : Nat) : Nat := (code[pc]?).elim 0 (Instr.stake t m total)

open Classical in
/-- Those of the first positions of code that control may come to from a position. -/
noncomputable def reachedFrom (code : Array Instr) (size pc : Nat) : Finset Nat :=
  (Finset.range size).filter fun pc' => ReflTransGen (Leads code) pc pc'

/-- What the first positions of code cost that control may come to from a position. -/
noncomputable def ahead (code : Array Instr) (size pc : Nat) : Nat :=
  ∑ pc' ∈ reachedFrom code size pc, stakeAt t m total code pc'

end Costs

section Positions

variable {t : GasTable} {m : Module} {P : Nat → Prop} {total : Nat → Nat} {code : Array Instr}
  {size pc pc' : Nat}
  {i : Instr}

theorem mem_reachedFrom :
    pc' ∈ reachedFrom code size pc ↔ pc' < size ∧ ReflTransGen (Leads code) pc pc' := by
  simp only [reachedFrom, Finset.mem_filter, Finset.mem_range]

theorem stakeAt_of_getElem? (hi : code[pc]? = some i) :
    stakeAt t m total code pc = i.stake t m total := by
  rw [stakeAt, hi]
  rfl

theorem ahead_le_sum (code : Array Instr) (size pc : Nat) :
    ahead t m total code size pc ≤ ∑ pc' ∈ Finset.range size, stakeAt t m total code pc' :=
  Finset.sum_le_sum_of_subset fun _ hx => Finset.mem_range.mpr (mem_reachedFrom.mp hx).1

/-- What the first positions of code cost is what their instructions cost. -/
theorem sum_stakeAt (is : List Instr) (n : Nat) :
    ∑ pc ∈ Finset.range n, stakeAt t m total is.toArray pc =
      ((is.take n).map (Instr.stake t m total)).sum := by
  induction is generalizing n with
  | nil => simp [stakeAt]
  | cons i is ih =>
    cases n with
    | zero => rfl
    | succ n =>
      rw [Finset.sum_range_succ', List.take_succ_cons, List.map_cons, List.sum_cons, ← ih n,
        Nat.add_comm]
      simp [stakeAt]

theorem stakeAt_le_ahead (hpc : pc < size) :
    stakeAt t m total code pc ≤ ahead t m total code size pc :=
  Finset.single_le_sum_of_canonicallyOrdered (mem_reachedFrom.mpr ⟨hpc, .refl⟩)

/-- What is ahead of a position pays for it and for what is ahead of the next one. -/
theorem Forward.ahead_of_leads (h : Forward m P code size) (hpc : pc < size)
    (hleads : Leads code pc pc') :
    stakeAt t m total code pc + ahead t m total code size pc' ≤ ahead t m total code size pc := by
  have hself : pc ∈ reachedFrom code size pc := mem_reachedFrom.mpr ⟨hpc, .refl⟩
  unfold ahead
  rw [← Finset.add_sum_erase _ _ hself]
  refine Nat.add_le_add_left (Finset.sum_le_sum_of_subset fun x hx => ?_) _
  obtain ⟨hlt, hreach⟩ := mem_reachedFrom.mp hx
  refine Finset.mem_erase.mpr ⟨?_, mem_reachedFrom.mpr ⟨hlt, .head hleads hreach⟩⟩
  rintro rfl
  exact h.acyclic x hpc (.head' hleads hreach)

end Positions

/-! ## Activations -/

section Runs

variable {t : GasTable} {m : Module} {P : Nat → Prop} {total : Nat → Nat} {limits : Limits}
  {c : Config}

/-- Functions that call only one another, with budgets that pay for the positions of their code. -/
def Budgets (t : GasTable) (m : Module) (P : Nat → Prop) (total : Nat → Nat) : Prop :=
  ∀ k, P k → ∃ f size, m.functions[k]? = some f ∧ Forward m P f.code size ∧
    ∑ pc ∈ Finset.range size, stakeAt t m total f.code pc ≤ total k

/-- Activations of functions with budgets, of which so much is left. -/
inductive Affords (t : GasTable) (m : Module) (P : Nat → Prop) (total : Nat → Nat) :
    List Frame → Nat → Prop where
  | nil : Affords t m P total [] 0
  | cons {f : Frame} {fs : List Frame} {left size : Nat}
      (hforward : Forward m P f.function.code size) (hrest : Affords t m P total fs left) :
      Affords t m P total (f :: fs) (ahead t m total f.function.code size f.pc + left)

variable [Hashing]

theorem step_of_none (hi : c.frame.function.code[c.frame.pc]? = none) :
    ∃ message, step m limits c = c.fail message := by
  unfold step
  rw [hi]
  exact ⟨_, rfl⟩

/-- A run that has got to code behind the first positions neither returns nor reverts. -/
theorem Forward.exit_run {size : Nat} (h : Forward m P c.frame.function.code size)
    (hpc : size ≤ c.frame.pc) (n : Nat) :
    (run m limits n c).1.exit ≠ .returned ∧ (run m limits n c).1.exit ≠ .reverted := by
  induction n generalizing c with
  | zero =>
    exact ⟨by simp [run, Halt.error, Halt.toResult], by simp [run, Halt.error, Halt.toResult]⟩
  | succ n ih =>
    unfold run
    cases hi : c.frame.function.code[c.frame.pc]? with
    | none =>
      obtain ⟨message, hstep⟩ : ∃ message, step m limits c = c.fail message := step_of_none hi
      rw [hstep]
      exact ⟨by simp [Config.fail, Halt.error, Halt.toResult],
        by simp [Config.fail, Halt.error, Halt.toResult]⟩
    | some i =>
      obtain ⟨hop, hhost⟩ := h.holds _ i hpc hi
      have hstepped : Stepped m c i (step m limits c) := stepped_step hi
      generalize step m limits c = p at hstepped
      cases hstepped with
      | @next c' _ hfunction hpc' _ =>
        rw [← hfunction] at h
        exact ih h (by omega)
      | jump hjump => exact absurd hop (by rcases hjump with hjump | hjump | hjump <;> simp [hjump])
      | call hcall => exact absurd hop (by simp [hcall])
      | back hret | returned hret => exact absurd hop (by simp [hret])
      | halted hreturned hreverted =>
        refine ⟨hreturned, fun hexit => ?_⟩
        obtain ⟨hcall, ref, href, hrevert⟩ := hreverted hexit
        exact hhost hcall ref href hrevert

theorem spentFrom_succ {n : Nat} {i : Instr} (hi : c.frame.function.code[c.frame.pc]? = some i) :
    spentFrom t m limits (n + 1) c = i.price t m +
      match step m limits c with
      | .next c' => spentFrom t m limits n c'
      | .halted _ _ | .returned _ _ => 0 := by
  rw [spentFrom, executed, hi]
  cases step m limits c <;> simp [spentFrom]

/-- What is left of the budgets of all activations pays for the rest of a run that returns or
reverts. By induction on the steps: each is paid for by what is ahead of the running activation. -/
theorem spentFrom_le (hbudgets : Budgets t m P total) {left : Nat}
    (hc : Affords t m P total (c.frame :: c.callers) left) {n : Nat}
    (hexit : (run m limits n c).1.exit = .returned ∨ (run m limits n c).1.exit = .reverted) :
    spentFrom t m limits n c ≤ left := by
  induction n generalizing c left with
  | zero => rcases hexit with hexit | hexit <;> cases hexit
  | succ n ih =>
    cases hc with
    | @cons _ _ rest size hforward hrest =>
    by_cases hpc : size ≤ c.frame.pc
    · exact absurd hexit (not_or.mpr (hforward.exit_run hpc (n + 1)))
    · have hpc : c.frame.pc < size := Nat.lt_of_not_le hpc
      cases hi : c.frame.function.code[c.frame.pc]? with
      | none =>
        rw [spentFrom, executed, hi]
        exact Nat.zero_le _
      | some i =>
        rw [spentFrom_succ hi]
        unfold run at hexit
        have hpays : i.stake t m total ≤ ahead t m total c.frame.function.code size c.frame.pc :=
          stakeAt_of_getElem? hi ▸ stakeAt_le_ahead hpc
        have hleads {pc' : Nat} (hleads : Leads c.frame.function.code c.frame.pc pc') :
            i.stake t m total + ahead t m total c.frame.function.code size pc' ≤
              ahead t m total c.frame.function.code size c.frame.pc :=
          stakeAt_of_getElem? hi ▸ hforward.ahead_of_leads hpc hleads
        have hprice : i.price t m ≤ i.stake t m total := Nat.le_add_right _ _
        have hstepped : Stepped m c i (step m limits c) := stepped_step hi
        generalize step m limits c = p at hstepped hexit ⊢
        cases hstepped with
        | @next c' hop hfunction hpc' hcallers =>
          have hnext := hleads (.next hi ⟨hop.1, hop.2.2⟩)
          have hspent := ih (c := c') (.cons (hfunction ▸ hforward) (hcallers ▸ hrest)) hexit
          rw [hfunction, hpc'] at hspent
          dsimp only
          omega
        | @jump c' hop hfunction hpc' hcallers =>
          have hnext := hleads (.jump hi hop)
          have hspent := ih (c := c') (.cons (hfunction ▸ hforward) (hcallers ▸ hrest)) hexit
          rw [hfunction, hpc'] at hspent
          dsimp only
          omega
        | @call c' caller hop hcallee hpc' hcallers hcaller hback =>
          -- the stake of a call holds the whole budget of the callee
          obtain ⟨f, size', hf, hforward', hsum⟩ := hbudgets _ (hforward.calls _ i hpc hi hop)
          obtain rfl := Option.some.inj (hf.symm.trans hcallee)
          have hnext := hleads (.next hi (by simp [hop]))
          have hahead : ahead t m total c'.frame.function.code size' 0 ≤ _ :=
            ahead_le_sum c'.frame.function.code size' 0
          have hwaiting : Affords t m P total (caller :: c.callers) _ :=
            .cons (hcaller ▸ hforward) hrest
          rw [← hcallers] at hwaiting
          have hspent := ih (.cons hforward' hwaiting) hexit
          rw [hpc', hcaller, hback] at hspent
          have hstake : i.stake t m total = i.price t m + total i.imm.toNat := by
            rw [Instr.stake, if_pos hop]
          dsimp only
          omega
        | @back c' hop hcallers =>
          have hspent := ih (c := c') (hcallers ▸ hrest) hexit
          dsimp only
          omega
        | returned hop => dsimp only; omega
        | halted hreturned hreverted => dsimp only; omega

omit [Hashing] in
/-- A call starts with the first position of the function. -/
theorem frame_start {k : Nat} {f : Function} (hf : m.functions[k]? = some f) {args : List UInt64}
    {ledger : Ledger} (hstart : m.start k args ledger limits = .ok c) :
    c.frame.function = f ∧ c.frame.pc = 0 ∧ c.callers = [] := by
  unfold Module.start at hstart
  cases hload : m.load with
  | error halt =>
    rw [hload] at hstart
    cases hstart
  | ok memory =>
    simp only [hload, hf, bind, Except.bind] at hstart
    split at hstart
    · cases hstart
    · split at hstart
      · cases hstart
      · cases hstart
        exact ⟨rfl, rfl, rfl⟩

/-- The budget of a function pays for every call of it that returns or reverts. -/
theorem Budgets.spent_le (hbudgets : Budgets t m P total) {k : Nat} (hk : P k) {args : List UInt64}
    {ledger : Ledger} (hexit : (m.runFunction k args ledger limits).1.exit = .returned ∨
      (m.runFunction k args ledger limits).1.exit = .reverted) :
    m.spent t limits k args ledger ≤ total k := by
  obtain ⟨f, size, hf, hforward, hsum⟩ := hbudgets k hk
  unfold Module.runFunction at hexit
  unfold Module.spent
  cases hstart : m.start k args ledger limits with
  | error h => exact Nat.zero_le _
  | ok c =>
    rw [hstart] at hexit
    obtain ⟨hfunction, hpc, hcallers⟩ := frame_start hf hstart
    have hnone : Affords t m P total c.callers 0 := hcallers ▸ .nil
    have hspent := spentFrom_le hbudgets (.cons (hfunction ▸ hforward) hnone) hexit
    have hahead : ahead t m total f.code size 0 ≤ _ := ahead_le_sum f.code size 0
    rw [hfunction, hpc] at hspent
    dsimp only
    omega

end Runs

end ContractCompiler.Vm
