import ContractCompiler.Gas
import ContractCompiler.Proofs.Vm.Safety
import Mathlib.Algebra.Ring.Nat

/-!
# What runs cost

The instructions that a run executes, and what they cost by a table: each its operation, and a call
of the host what the host asks for it. Where control goes after an instruction depends on few of
them: only jumps, calls and returns do not go on at the next position.

- `executed`: the instructions of a run, in their order;
- `Instr.price`, `Module.spent`: what an instruction costs, and what a call of a function spends;
- `Stepped`, `stepped_step`: what a step does to the activations.
-/

namespace ContractCompiler.Vm

/-! ## Costs -/

/-- What the host has for an import. -/
def Module.hostRef? (m : Module) (index : Nat) : Option HostRef :=
  (m.imports[index]?).bind (·.hostRef?)

/-- What the host asks for a call of an import. -/
def Module.hostPrice (m : Module) (index : Nat) : Nat :=
  ((m.hostRef? index).map (·.function.gas.toNat)).getD 0

/-- What an instruction costs when it is executed. -/
def Instr.price (t : GasTable) (m : Module) (i : Instr) : Nat :=
  (t.opCost i.op).toNat + if i.op = .callHost then m.hostPrice i.imm.toUInt32.toNat else 0

section Runs

variable [Hashing] (t : GasTable) (m : Module) (limits : Limits)

/-- The instructions that a run executes, in their order. -/
def executed : Nat → Config → List Instr
  | 0, _ => []
  | n + 1, c =>
    match c.frame.function.code[c.frame.pc]? with
    | none => []
    | some i =>
      i :: match step m limits c with
        | .next c => executed n c
        | .halted _ _ | .returned _ _ => []

/-- What a run spends. -/
def spentFrom (n : Nat) (c : Config) : Nat := ((executed m limits n c).map (·.price t m)).sum

/-- What a call of a function by its index spends. -/
def Module.spent (index : Nat) (args : List UInt64) (ledger : Ledger) : Nat :=
  match m.start index args ledger limits with
  | .error _ => 0
  | .ok c => spentFrom t m limits limits.maxSteps c

end Runs

/-! ## Steps -/

/-- What becomes of the activations in a step that executes an instruction. -/
inductive Stepped (m : Module) (c : Config) (i : Instr) : Progress → Prop where
  /-- Control goes on at the next position. -/
  | next {c' : Config} (hop : i.op ≠ .jmp ∧ i.op ≠ .call ∧ i.op ≠ .ret ∧ i.op ≠ .trap)
      (hfunction : c'.frame.function = c.frame.function) (hpc : c'.frame.pc = c.frame.pc + 1)
      (hcallers : c'.callers = c.callers) : Stepped m c i (.next c')
  | jump {c' : Config} (hop : i.op = .jmp ∨ i.op = .jmpIf ∨ i.op = .jmpIfNot)
      (hfunction : c'.frame.function = c.frame.function) (hpc : c'.frame.pc = i.imm.toNat)
      (hcallers : c'.callers = c.callers) : Stepped m c i (.next c')
  /-- A function starts, and its caller waits at the next position. -/
  | call {c' : Config} {caller : Frame} (hop : i.op = .call)
      (hcallee : m.functions[i.imm.toNat]? = some c'.frame.function) (hpc : c'.frame.pc = 0)
      (hcallers : c'.callers = caller :: c.callers) (hcaller : caller.function = c.frame.function)
      (hback : caller.pc = c.frame.pc + 1) : Stepped m c i (.next c')
  /-- The innermost caller goes on. -/
  | back {c' : Config} (hop : i.op = .ret) (hcallers : c.callers = c'.frame :: c'.callers) :
      Stepped m c i (.next c')
  | returned {value : Option UInt64} {c' : Config} (hop : i.op = .ret) :
      Stepped m c i (.returned value c')
  /-- Only the host turns a call down, and only if it is asked to. -/
  | halted {h : Halt} {c' : Config} (hreturned : h.exit ≠ .returned)
      (hreverted : h.exit = .reverted → i.op = .callHost ∧
        ∃ ref, m.hostRef? i.imm.toUInt32.toNat = some ref ∧ ref.function.op = .revert) :
      Stepped m c i (.halted h c')

section Steps

variable {m : Module} {c : Config} {i : Instr} {limits : Limits}

theorem Stepped.fail (c' : Config) (message : String) : Stepped m c i (c'.fail message) :=
  .halted (by simp [Halt.error]) (by simp [Halt.error])

theorem Stepped.trap (c' : Config) (code : TrapCode) : Stepped m c i (c'.trap code) :=
  .halted (by simp [Halt.trappedBy, Halt.trapped]) (by simp [Halt.trappedBy, Halt.trapped])

/-- A plain operation goes on at the next position. -/
theorem Stepped.plain (h : i.op.isPlain = true) {c' : Config}
    (hfunction : c'.frame.function = c.frame.function) (hpc : c'.frame.pc = c.frame.pc + 1)
    (hcallers : c'.callers = c.callers) : Stepped m c i (.next c') := by
  refine .next ⟨?_, ?_, ?_, ?_⟩ hfunction hpc hcallers <;>
  · rintro hop
    rw [hop] at h
    cases h

theorem stepped_unary (hplain : i.op.isPlain = true) (f : UInt64 → UInt64) :
    Stepped m c i (unary (advance c) f) := by
  unfold unary
  split
  · exact .plain hplain rfl rfl rfl
  · exact .fail _ _

theorem stepped_enter (hop : i.op = .call) :
    Stepped m c i (enter m limits (advance c) i.imm.toNat) := by
  unfold enter
  split
  · exact .fail _ _
  · rename_i f hf
    split
    · exact .fail _ _
    · split
      · exact .fail _ _
      · exact .call hop hf rfl rfl rfl rfl

theorem stepped_leave (hop : i.op = .ret) : Stepped m c i (leave (advance c)) := by
  unfold leave
  dsimp only
  split
  · exact .fail _ _
  · split
    · exact .returned hop
    · rename_i hcallers
      exact .back hop hcallers

theorem stepped_callHost [Hashing] (hop : i.op = .callHost) :
    Stepped m c i (callHost m (advance c) i.imm.toUInt32.toNat) := by
  unfold callHost
  split
  · exact .fail _ _
  · rename_i im him
    split
    · exact .fail _ _
    · rename_i ref href
      have hfound : m.hostRef? i.imm.toUInt32.toNat = some ref := by
        unfold Module.hostRef?
        rw [him]
        exact href
      have hnext : i.op ≠ .jmp ∧ i.op ≠ .call ∧ i.op ≠ .ret ∧ i.op ≠ .trap := by
        rw [hop]
        exact ⟨nofun, nofun, nofun, nofun⟩
      split
      · exact .fail _ _
      · dsimp only
        split
        · exact .next hnext rfl rfl rfl
        · exact .next hnext rfl rfl rfl
        · rename_i hanswer
          rcases exit_of_answer (congrArg (·.1) hanswer) with hexit | ⟨hrevert, hexit⟩ | ⟨-, hexit⟩
          · exact .halted (by rw [hexit]; nofun) (by rw [hexit]; nofun)
          · exact .halted (by rw [hexit]; nofun) fun _ => ⟨hop, ref, hfound, hrevert⟩
          · exact .halted (by rw [hexit]; nofun) (by rw [hexit]; nofun)

/-- What a step does to the activations. -/
theorem stepped_execute [Hashing] : Stepped m c i (execute m limits (advance c) i) := by
  cases hop : i.op with
  | nop | const =>
    simp only [execute, hop]
    exact .plain (by rw [hop]; rfl) rfl rfl rfl
  | eqz | sext | zext =>
    simp only [execute, hop]
    exact stepped_unary (by rw [hop]; rfl) _
  | jmp =>
    simp only [execute, hop]
    exact .jump (.inl hop) rfl rfl rfl
  | jmpIf | jmpIfNot =>
    simp only [execute, hop]
    split
    · split
      · exact .jump (by simp [hop]) rfl rfl rfl
      · exact .next (by simp [hop]) rfl rfl rfl
    · exact .fail _ _
  | call =>
    simp only [execute, hop]
    exact stepped_enter hop
  | callHost =>
    simp only [execute, hop]
    exact stepped_callHost hop
  | ret =>
    simp only [execute, hop]
    exact stepped_leave hop
  | trap =>
    simp only [execute, hop]
    exact .halted (by simp [Halt.trapped]) (by simp [Halt.trapped])
  | localGet | localSet | localTee | drop =>
    simp only [execute, hop]
    split
    · exact .plain (by rw [hop]; rfl) rfl rfl rfl
    · exact .fail _ _
  | load | store | memCopy =>
    simp only [execute, hop]
    split
    · split
      · exact .plain (by rw [hop]; rfl) rfl rfl rfl
      · exact .trap _ _
    · exact .fail _ _
  | _ =>
    simp only [execute, hop, Op.binary?]
    split
    · first
      | exact .plain (by rw [hop]; rfl) rfl rfl rfl
      | split
        · exact .plain (by rw [hop]; rfl) rfl rfl rfl
        · exact .trap _ _
    · exact .fail _ _

/-- What a step that executes an instruction does to the activations. -/
theorem stepped_step [Hashing] (hi : c.frame.function.code[c.frame.pc]? = some i) :
    Stepped m c i (step m limits c) := by
  unfold step
  rw [hi]
  dsimp only
  split
  · exact .fail _ _
  · exact stepped_execute

end Steps

end ContractCompiler.Vm
