import ContractCompiler.Vm.Machine
import Mathlib.Tactic.Common

/-!
# Safe bytecode

Code is safe if every instruction, wherever control can get to it, finds its operands on the stack
and what it refers to in the function and the module. How many words the activation has left on the
stack depends on the way to a position only through the instructions on it, so this is a matter of
the code alone.

- `Instr.Ready`: what an instruction needs;
- `Instr.next`: where control goes after it, with how many words on the stack;
- `Reached`: the positions that control can get to;
- `Function.Safe`: every position that control can get to has an instruction that has what it needs;
- `Config.Safe.step`: running safe code leads to such positions only, in all activations;
- `Module.Safe.run`: the only errors of a run of safe code are that it exceeds a limit.
-/

namespace ContractCompiler.Vm

/-! ## What instructions need and do -/

/-- How many words an operation takes from the stack, for those of which this is fixed. -/
def Op.takes : Op → Nat
  | .nop | .const | .localGet | .jmp | .call | .callHost | .ret | .trap => 0
  | .localSet | .localTee | .drop | .eqz | .sext | .zext | .load | .jmpIf | .jmpIfNot => 1
  | .memCopy => 3
  | _ => 2

/-- How many words an operation leaves on the stack, for those of which this is fixed. -/
def Op.leaves : Op → Nat
  | .nop | .localSet | .drop | .store | .memCopy | .jmp | .jmpIf | .jmpIfNot | .call |
      .callHost | .ret
  | .trap => 0
  | _ => 1

/-- Whether an operation, wherever it stands, takes and leaves the same number of words and goes on
at the next position. -/
def Op.isPlain : Op → Bool
  | .jmp | .jmpIf | .jmpIfNot | .call | .callHost | .ret | .trap => false
  | _ => true

/-- Whether an operation works on a local slot. -/
def Op.isLocal : Op → Bool
  | .localGet | .localSet | .localTee => true
  | _ => false

/-- What an instruction needs with a number of words on the stack: its operands, and what it refers
to. -/
def Instr.Ready (m : Module) (f : Function) (height : Nat) (i : Instr) : Prop :=
  match i.op with
  | .localGet | .localSet | .localTee => i.imm.toNat < f.numLocals ∧ i.op.takes ≤ height
  | .call => ∃ g, m.functions[i.imm.toNat]? = some g ∧ g.numParams ≤ height
  | .callHost => ∃ im ref, m.imports[i.imm.toUInt32.toNat]? = some im ∧ im.hostRef? = some ref ∧
      im.numArgs ≤ height
  | .ret => f.hasResult.toNat ≤ height
  | op => op.takes ≤ height

/-- The positions after an instruction, each with the number of words that are then on the stack. -/
def Instr.next (m : Module) (pc height : Nat) (i : Instr) : List (Nat × Nat) :=
  match i.op with
  | .jmp => [(i.imm.toNat, height)]
  | .jmpIf | .jmpIfNot => [(i.imm.toNat, height - 1), (pc + 1, height - 1)]
  | .ret | .trap => []
  | .call =>
    ((m.functions[i.imm.toNat]?).map fun g =>
      (pc + 1, height - g.numParams + g.hasResult.toNat)).toList
  | .callHost =>
    ((m.imports[i.imm.toUInt32.toNat]?).map fun im =>
      (pc + 1, height - im.numArgs + im.hasResult.toNat)).toList
  | op => [(pc + 1, height - op.takes + op.leaves)]

theorem Instr.next_of_isPlain {i : Instr} (h : i.op.isPlain = true) (m : Module) (pc height : Nat) :
    i.next m pc height = [(pc + 1, height - i.op.takes + i.op.leaves)] := by
  unfold Instr.next
  cases hop : i.op <;> simp [hop, Op.isPlain] at h ⊢

theorem Instr.ready_of_isPlain {f : Function} {height : Nat} {i : Instr}
    (hplain : i.op.isPlain = true) (htakes : i.op.takes ≤ height)
    (hlocal : i.op.isLocal = true → i.imm.toNat < f.numLocals) (m : Module) :
    i.Ready m f height := by
  unfold Instr.Ready
  cases hop : i.op <;> simp [hop, Op.isPlain, Op.isLocal] at hplain htakes hlocal ⊢ <;> tauto

theorem Instr.Ready.takes_le {m : Module} {f : Function} {height : Nat} {i : Instr}
    (h : i.Ready m f height) (hplain : i.op.isPlain = true) : i.op.takes ≤ height := by
  unfold Instr.Ready at h
  cases hop : i.op <;> simp [hop, Op.isPlain] at h hplain ⊢ <;> first | exact h | exact h.2

/-- The positions that control can get to, each with the number of words that are then on the
stack. -/
inductive Reached (m : Module) (f : Function) : Nat → Nat → Prop where
  | start : Reached m f 0 0
  | next {pc height pc' height' : Nat} {i : Instr} (reached : Reached m f pc height)
      (instr : f.code[pc]? = some i) (next : (pc', height') ∈ i.next m pc height) :
      Reached m f pc' height'

/-- Every position that control can get to has an instruction that has what it needs. -/
def Function.Safe (m : Module) (f : Function) : Prop :=
  ∀ pc height, Reached m f pc height → ∃ i, f.code[pc]? = some i ∧ i.Ready m f height

/-- The functions of a module are safe. -/
def Module.Safe (m : Module) : Prop := ∀ f ∈ m.functions, f.Safe m

/-! ## Safe configurations -/

/-- An activation stands at a position that control can get to, with a number of words on the stack
of all activations. -/
structure Frame.At (m : Module) (height : Nat) (frame : Frame) : Prop where
  function : frame.function ∈ m.functions
  locals : frame.function.numLocals ≤ frame.locals.size
  reached : ∃ own, Reached m frame.function frame.pc own ∧ height = frame.base + own

/-- The callers of an activation of a function, when it has returned, stand at positions that
control can get to. -/
inductive Waiting (m : Module) : Function → Nat → List Frame → Prop where
  | nil {f : Function} {base : Nat} : Waiting m f base []
  | cons {f : Function} {base : Nat} {frame : Frame} {callers : List Frame}
      (here : frame.At m (base + f.hasResult.toNat))
      (below : Waiting m frame.function frame.base callers) :
      Waiting m f base (frame :: callers)

/-- All activations stand at positions that control can get to. -/
structure Config.Safe (m : Module) (c : Config) : Prop where
  frame : c.frame.At m c.stack.height
  callers : Waiting m c.frame.function c.frame.base c.callers

/-- The errors of a run that exceeds a limit. -/
def limitErrors : List Halt :=
  [.error "step limit", .error "call depth limit", .error "stack limit"]

/-- A step leads to a safe configuration, to a return, or to a stop that is no error but that of a
limit. -/
def Progress.Safe (m : Module) : Progress → Prop
  | .next c => c.Safe m
  | .halted h _ => h.exit = .error → h ∈ limitErrors
  | .returned _ _ => True

/-! ## Stacks -/

namespace OperandStack

@[simp] theorem height_push (s : OperandStack) (w : UInt64) :
    (s.push w).height = s.height + 1 := rfl

@[simp] theorem height_drop (s : OperandStack) (n : Nat) : (s.drop n).height = s.height - n := rfl

@[simp] theorem height_resize (s : OperandStack) (n : Nat) : (s.resize n).height = n := rfl

theorem length_top (s : OperandStack) {n : Nat} (h : n ≤ s.height) : (s.top n).length = n := by
  rw [s.height_eq] at h
  simp [top, h]

theorem height_ofList (ws : List UInt64) : (ofList ws).height = ws.length := by
  have hfold (s : OperandStack) : (ws.foldl push s).height = s.height + ws.length := by
    induction ws generalizing s with
    | nil => rfl
    | cons w ws ih =>
      rw [List.foldl_cons, ih, height_push, List.length_cons]
      omega
  exact (hfold {}).trans (Nat.zero_add _)

/-- A stack of some height has words on top. -/
theorem exists_cons {s : OperandStack} {n : Nat} (h : n + 1 ≤ s.height) :
    ∃ w ws, s.words = w :: ws ∧ n ≤ ws.length := by
  rw [s.height_eq] at h
  cases hwords : s.words with
  | nil => simp [hwords] at h
  | cons w ws => exact ⟨w, ws, rfl, by simpa [hwords] using h⟩

theorem exists_cons₂ {s : OperandStack} (h : 2 ≤ s.height) : ∃ w v ws, s.words = w :: v :: ws := by
  obtain ⟨w, ws, hwords, hlength⟩ := exists_cons h
  obtain ⟨v, vs, rfl⟩ := List.exists_cons_of_length_pos hlength
  exact ⟨w, v, vs, hwords⟩

theorem exists_cons₃ {s : OperandStack} (h : 3 ≤ s.height) :
    ∃ w v u ws, s.words = w :: v :: u :: ws := by
  obtain ⟨w, ws, hwords, hlength⟩ := exists_cons h
  obtain ⟨v, vs, rfl⟩ := List.exists_cons_of_length_pos (Nat.zero_lt_of_lt hlength)
  obtain ⟨u, us, rfl⟩ := List.exists_cons_of_length_pos
    (Nat.lt_of_succ_le (Nat.le_of_succ_le_succ hlength))
  exact ⟨w, v, u, us, hwords⟩

end OperandStack

/-! ## Steps -/

/-- Handing out a value does not stop the execution. -/
theorem putOut_ne_stop (memory : Memory) (addr status : UInt64) (value : Bytes) (h : Halt) :
    (putOut memory addr value status).1 ≠ .stop h := by
  unfold putOut
  split <;> simp

theorem handOut_ne_stop (memory : Memory) (addr cap : UInt64) (value : Bytes) (h : Halt) :
    (handOut memory addr cap value).1 ≠ .stop h := by
  unfold handOut
  dsimp only
  split
  · simp
  · exact putOut_ne_stop memory addr _ value h

theorem exit_of_stopWith {memory : Memory} {exit : Exit} {addr len : UInt64} {h : Halt}
    (hs : stopWith memory exit addr len = .stop h) : h.exit = .trapped ∨ h.exit = exit := by
  unfold stopWith at hs
  split at hs
  · cases hs
    exact .inr rfl
  · cases hs
    exact .inl rfl

/-- The host ends an execution only if it is asked to, or if memory does not hold the message. -/
theorem exit_of_answer [Hashing] {op : HostOp} {args : List UInt64} {memory : Memory}
    {ledger : Ledger} {h : Halt} (ha : (answer op args memory ledger).1 = .stop h) :
    h.exit = .trapped ∨ op = .revert ∧ h.exit = .reverted ∨ op = .panic ∧ h.exit = .panicked := by
  unfold answer at ha
  split at ha
  · split at ha
    · split at ha
      · cases ha
      · exact absurd ha (handOut_ne_stop _ _ _ _ h)
    · cases ha
  · split at ha
    · split at ha <;> cases ha
    · cases ha
  · split at ha <;> cases ha
  · split at ha
    · cases ha
    · exact absurd ha (handOut_ne_stop _ _ _ _ h)
  · split at ha
    · cases ha
    · exact absurd ha (putOut_ne_stop _ _ _ _ h)
  · split at ha <;> cases ha
  · exact (exit_of_stopWith ha).imp_right fun hexit => .inl ⟨rfl, hexit⟩
  · exact (exit_of_stopWith ha).imp_right fun hexit => .inr ⟨rfl, hexit⟩
  · cases ha

section Steps

variable {m : Module} {limits : Limits} {c : Config} {i : Instr} {own : Nat}

/-- The running activation is about to execute an instruction that has what it needs. -/
structure Config.Runs (m : Module) (c : Config) (i : Instr) (own : Nat) : Prop where
  function : c.frame.function ∈ m.functions
  locals : c.frame.function.numLocals ≤ c.frame.locals.size
  reached : Reached m c.frame.function c.frame.pc own
  instr : c.frame.function.code[c.frame.pc]? = some i
  ready : i.Ready m c.frame.function own
  height : c.stack.height = c.frame.base + own
  callers : Waiting m c.frame.function c.frame.base c.callers

namespace Config.Runs

/-- The activation goes on at a position after the instruction. -/
theorem goesOn (h : c.Runs m i own) {frame : Frame} {stack : OperandStack} (height : Nat)
    {memory : Memory} {ledger : Ledger} {hostStatus : Option HostStatus}
    (hfunction : frame.function = c.frame.function) (hbase : frame.base = c.frame.base)
    (hlocals : frame.locals.size = c.frame.locals.size)
    (hnext : (frame.pc, height) ∈ i.next m c.frame.pc own)
    (hheight : stack.height = c.frame.base + height) :
    (Progress.next { frame, callers := c.callers, stack, memory, ledger, hostStatus }).Safe m := by
  refine ⟨⟨?_, ?_, height, ?_, ?_⟩, ?_⟩
  · exact hfunction ▸ h.function
  · exact hfunction ▸ hlocals ▸ h.locals
  · exact hfunction ▸ .next h.reached h.instr hnext
  · exact hbase ▸ hheight
  · exact hfunction ▸ hbase ▸ h.callers

/-- A plain operation leaves another stack. -/
theorem plain (h : c.Runs m i own) (hplain : i.op.isPlain = true) {locals : Array UInt64}
    (hlocals : locals.size = c.frame.locals.size) {stack : OperandStack} {memory : Memory}
    {ledger : Ledger} {hostStatus : Option HostStatus}
    (hheight : stack.height = c.stack.height - i.op.takes + i.op.leaves) : (Progress.next
      { frame := ⟨c.frame.function, c.frame.pc + 1, locals, c.frame.base⟩
        callers := c.callers, stack, memory, ledger, hostStatus }).Safe m := by
  have hown := h.height
  have htakes := h.ready.takes_le hplain
  refine h.goesOn (own - i.op.takes + i.op.leaves) rfl rfl hlocals ?_ (by omega)
  rw [Instr.next_of_isPlain hplain]
  exact List.mem_singleton_self _

theorem has (h : c.Runs m i own) {n : Nat} (hn : n ≤ own) : (advance c).has n = true := by
  have := h.height
  exact decide_eq_true (show c.frame.base + n ≤ c.stack.height by omega)

/-- The words that an instruction takes are there. -/
theorem height_le (h : c.Runs m i own) {n : Nat} (hn : n ≤ own) : n ≤ (advance c).stack.height := by
  have := h.height
  show n ≤ c.stack.height
  omega

theorem unary (h : c.Runs m i own) (hplain : i.op.isPlain = true) (htakes : i.op.takes = 1)
    (hleaves : i.op.leaves = 1) (f : UInt64 → UInt64) : (Vm.unary (advance c) f).Safe m := by
  have hown := htakes ▸ h.ready.takes_le hplain
  obtain ⟨w, ws, hwords, -⟩ := OperandStack.exists_cons (h.height_le hown)
  unfold Vm.unary
  simp only [h.has hown, hwords]
  exact h.plain hplain rfl (by rw [htakes, hleaves]; rfl)

/-- A function whose arguments are on the stack starts at its first position. -/
theorem enter (h : c.Runs m i own) (hop : i.op = .call) :
    (Vm.enter m limits (advance c) i.imm.toNat).Safe m := by
  have hready := h.ready
  unfold Instr.Ready at hready
  rw [hop] at hready
  obtain ⟨g, hg, hparams⟩ := hready
  have hheight := h.height
  unfold Vm.enter
  simp only [hg]
  split
  · exact fun _ => by simp [limitErrors]
  · split
    · rename_i hlow
      have hlow : c.stack.height < g.numParams := hlow
      omega
    · have hnext : (c.frame.pc + 1, own - g.numParams + g.hasResult.toNat) ∈
        i.next m c.frame.pc own := by
        unfold Instr.next
        simp [hop, hg]
      have hcaller : (advance c).frame.At m (c.stack.height - g.numParams + g.hasResult.toNat) :=
        ⟨h.function, h.locals, _, .next h.reached h.instr hnext, show _ = c.frame.base + _ by omega⟩
      refine ⟨⟨Array.mem_of_getElem? hg, ?_, 0, .start, rfl⟩, .cons hcaller h.callers⟩
      have hlength := c.stack.length_top (show g.numParams ≤ c.stack.height by omega)
      show g.numLocals ≤ ((c.stack.top g.numParams).toArray ++ Array.replicate _ 0).size
      simp only [Array.size_append, List.size_toArray, Array.size_replicate, hlength]
      omega

/-- A caller goes on with the result of its call on the stack. -/
theorem resumes (h : c.Runs m i own) {frame : Frame} {callers : List Frame}
    (hc : c.callers = frame :: callers) {stack : OperandStack}
    (hheight : stack.height = c.frame.base + c.frame.function.hasResult.toNat) :
    (Progress.next { advance c with frame, callers, stack }).Safe m := by
  have hcallers := h.callers
  rw [hc] at hcallers
  cases hcallers with
  | cons here below => exact ⟨hheight ▸ here, below⟩

/-- A function that returns leaves its result for its caller. -/
theorem leave (h : c.Runs m i own) (hop : i.op = .ret) : (Vm.leave (advance c)).Safe m := by
  have hready : c.frame.function.hasResult.toNat ≤ own := by simpa [Instr.Ready, hop] using h.ready
  have hcallers : (advance c).callers = c.callers := rfl
  have hfunction : (advance c).frame.function = c.frame.function := rfl
  unfold Vm.leave
  cases hr : c.frame.function.hasResult with
  | false =>
    simp only [hfunction, hr, Bool.false_and, hcallers]
    cases hc : c.callers with
    | nil => trivial
    | cons frame callers => exact h.resumes hc (by rw [hr]; rfl)
  | true =>
    have hone : 1 ≤ own := by simpa [hr] using hready
    obtain ⟨w, ws, hwords, -⟩ := OperandStack.exists_cons (h.height_le hone)
    simp only [hfunction, hr, h.has hone, hwords, Bool.not_true, Bool.and_false, hcallers]
    cases hc : c.callers with
    | nil => trivial
    | cons frame callers => exact h.resumes hc (by rw [hr]; rfl)

theorem callHost [Hashing] (h : c.Runs m i own) (hop : i.op = .callHost) :
    (Vm.callHost m (advance c) i.imm.toUInt32.toNat).Safe m := by
  have hready := h.ready
  unfold Instr.Ready at hready
  rw [hop] at hready
  obtain ⟨im, ref, him, href, hargs⟩ := hready
  have hheight := h.height
  have hnext : (c.frame.pc + 1, own - im.numArgs + im.hasResult.toNat) ∈
      i.next m c.frame.pc own := by
    unfold Instr.next
    rw [hop]
    dsimp only
    rw [him]
    exact List.mem_singleton_self _
  have hpushed (w : UInt64) : (if im.hasResult then (c.stack.drop im.numArgs).push w
      else c.stack.drop im.numArgs).height = c.frame.base +
      (own - im.numArgs + im.hasResult.toNat) := by
    cases im.hasResult <;> simp <;> omega
  unfold Vm.callHost
  simp only [him, href]
  split
  · rename_i hlow
    have hlow : c.stack.height < im.numArgs := hlow
    omega
  · split
    · exact h.goesOn _ rfl rfl rfl hnext (hpushed _)
    · exact h.goesOn _ rfl rfl rfl hnext (hpushed _)
    · rename_i hanswer
      intro hexit
      rcases exit_of_answer (congrArg (·.1) hanswer) with hother | ⟨-, hother⟩ | ⟨-, hother⟩ <;>
      · rw [hother] at hexit
        cases hexit

/-- An instruction that has what it needs leads to a safe configuration. -/
theorem execute [Hashing] (h : c.Runs m i own) : (Vm.execute m limits (advance c) i).Safe m := by
  have hready := h.ready
  have hheight := h.height
  cases hop : i.op with
  | nop =>
    simp only [Vm.execute, hop]
    exact h.plain (by rw [hop]; rfl) rfl (by rw [hop]; rfl)
  | const =>
    simp only [Vm.execute, hop]
    exact h.plain (by rw [hop]; rfl) rfl (by rw [hop]; rfl)
  | localGet =>
    simp only [Instr.Ready, hop] at hready
    simp only [Vm.execute, hop]
    rw [show (advance c).frame.locals[i.imm.toNat]? = _ from
      Array.getElem?_eq_getElem (Nat.lt_of_lt_of_le hready.1 h.locals)]
    exact h.plain (by rw [hop]; rfl) rfl (by rw [hop]; rfl)
  | localSet | localTee =>
    simp only [Instr.Ready, hop, Op.takes] at hready
    obtain ⟨w, ws, hwords, -⟩ := OperandStack.exists_cons (h.height_le hready.2)
    have hlocal : decide (i.imm.toNat < (advance c).frame.locals.size) = true :=
      decide_eq_true (Nat.lt_of_lt_of_le hready.1 h.locals)
    simp only [Vm.execute, hop, hlocal, h.has hready.2, hwords, Bool.and_self]
    have hheight : 1 ≤ c.stack.height := h.height_le hready.2
    exact h.plain (by rw [hop]; rfl) Array.size_setIfInBounds
      (by rw [hop]; first | rfl | exact (Nat.sub_add_cancel hheight).symm)
  | drop =>
    simp only [Instr.Ready, hop, Op.takes] at hready
    simp only [Vm.execute, hop, h.has hready, if_true]
    exact h.plain (by rw [hop]; rfl) rfl (by rw [hop]; rfl)
  | eqz | sext | zext =>
    simp only [Vm.execute, hop]
    exact h.unary (by rw [hop]; rfl) (by rw [hop]; rfl) (by rw [hop]; rfl) _
  | load =>
    simp only [Instr.Ready, hop, Op.takes] at hready
    obtain ⟨w, ws, hwords, -⟩ := OperandStack.exists_cons (h.height_le hready)
    simp only [Vm.execute, hop, h.has hready, hwords]
    split
    · exact h.plain (by rw [hop]; rfl) rfl (by rw [hop]; rfl)
    · exact fun hexit => (by cases hexit)
  | store =>
    simp only [Instr.Ready, hop, Op.takes] at hready
    obtain ⟨w, v, ws, hwords⟩ := OperandStack.exists_cons₂ (h.height_le hready)
    simp only [Vm.execute, hop, h.has hready, hwords]
    split
    · exact h.plain (by rw [hop]; rfl) rfl (by rw [hop]; rfl)
    · exact fun hexit => (by cases hexit)
  | memCopy =>
    simp only [Instr.Ready, hop, Op.takes] at hready
    obtain ⟨w, v, u, ws, hwords⟩ := OperandStack.exists_cons₃ (h.height_le hready)
    simp only [Vm.execute, hop, h.has hready, hwords]
    split
    · exact h.plain (by rw [hop]; rfl) rfl (by rw [hop]; rfl)
    · exact fun hexit => (by cases hexit)
  | jmp =>
    simp only [Vm.execute, hop]
    exact h.goesOn own rfl rfl rfl (by simp [Instr.next, hop]) hheight
  | jmpIf | jmpIfNot =>
    simp only [Instr.Ready, hop, Op.takes] at hready
    obtain ⟨w, ws, hwords, -⟩ := OperandStack.exists_cons (h.height_le hready)
    simp only [Vm.execute, hop, h.has hready, hwords]
    have hdrop : (c.stack.drop 1).height = c.frame.base + (own - 1) :=
      show c.stack.height - 1 = _ by omega
    split
    · exact h.goesOn (own - 1) rfl rfl rfl (by simp [Instr.next, hop]) hdrop
    · exact h.goesOn (own - 1) rfl rfl rfl (by simp [advance, Instr.next, hop]) hdrop
  | call =>
    simp only [Vm.execute, hop]
    exact h.enter hop
  | callHost =>
    simp only [Vm.execute, hop]
    exact h.callHost hop
  | ret =>
    simp only [Vm.execute, hop]
    exact h.leave hop
  | trap =>
    simp only [Vm.execute, hop]
    exact fun hexit => (by cases hexit)
  | _ =>
    simp only [Instr.Ready, hop, Op.takes] at hready
    obtain ⟨w, v, ws, hwords⟩ := OperandStack.exists_cons₂ (h.height_le hready)
    simp only [Vm.execute, hop, h.has hready, hwords, Op.binary?]
    first
    | exact h.plain (by rw [hop]; rfl) rfl (by rw [hop]; rfl)
    | split
      · exact h.plain (by rw [hop]; rfl) rfl (by rw [hop]; rfl)
      · exact fun hexit => (by cases hexit)

end Config.Runs

/-- A step from a safe configuration. -/
theorem Config.Safe.step [Hashing] (hm : m.Safe) (h : c.Safe m) (limits : Limits) :
    (Vm.step m limits c).Safe m := by
  obtain ⟨own, hreached, hheight⟩ := h.frame.reached
  obtain ⟨i, hi, hready⟩ := hm c.frame.function h.frame.function c.frame.pc own hreached
  unfold Vm.step
  simp only [hi]
  split
  · exact fun _ => by simp [limitErrors]
  · exact Config.Runs.execute ⟨h.frame.function, h.frame.locals, hreached, hi, hready,
      hheight, h.callers⟩

/-! ## Runs -/

/-- The configuration that a run is in after a number of steps, unless it is over by then. -/
def configAfter [Hashing] (m : Module) (limits : Limits) : Nat → Config → Option Config
  | 0, c => some c
  | n + 1, c =>
    match step m limits c with
    | .next c => configAfter m limits n c
    | .halted _ _ | .returned _ _ => none

theorem Config.Safe.after [Hashing] (hm : m.Safe) (h : c.Safe m) {n : Nat} {c' : Config}
    (hafter : configAfter m limits n c = some c') : c'.Safe m := by
  induction n generalizing c with
  | zero =>
    obtain rfl := Option.some.inj hafter
    exact h
  | succ n ih =>
    have hstep := h.step hm limits
    unfold configAfter at hafter
    split at hafter
    · rename_i hnext
      rw [hnext] at hstep
      exact ih hstep hafter
    · cases hafter
    · cases hafter

/-- The only errors of a run are that it exceeds a limit. -/
theorem Config.Safe.run [Hashing] (hm : m.Safe) (h : c.Safe m) (n : Nat)
    (hexit : (Vm.run m limits n c).1.exit = .error) :
    (Vm.run m limits n c).1.message ∈ limitErrors.map (·.message) := by
  induction n generalizing c with
  | zero =>
    obtain ⟨own, hreached, -⟩ := h.frame.reached
    obtain ⟨i, hi, -⟩ := hm c.frame.function h.frame.function c.frame.pc own hreached
    have hlt : c.frame.pc < c.frame.function.code.size := (Array.getElem?_eq_some_iff.mp hi).1
    unfold Vm.run
    rw [if_pos hlt]
    exact List.mem_map_of_mem List.mem_cons_self
  | succ n ih =>
    have hstep := h.step hm limits
    unfold Vm.run at hexit ⊢
    split at hexit
    · rename_i hnext
      rw [hnext] at hstep
      exact ih hstep hexit
    · rename_i hhalted
      rw [hhalted] at hstep
      exact List.mem_map_of_mem (hstep hexit)
    · cases hexit

/-- A call starts in a safe configuration. -/
theorem safe_activate {f : Function} (hf : f ∈ m.functions) {args : List UInt64}
    (hargs : args.length = f.numParams) (memory : Memory) (ledger : Ledger) :
    Config.Safe m { frame := (activate f (.ofList args)).1, stack := (activate f (.ofList args)).2
                    memory, ledger } := by
  refine ⟨⟨hf, ?_, 0, .start, rfl⟩, .nil⟩
  have hheight : f.numParams ≤ (OperandStack.ofList args).height := by
    exact Nat.le_of_eq (hargs ▸ (OperandStack.height_ofList args).symm)
  have hlength := OperandStack.length_top _ hheight
  show f.numLocals ≤ (((OperandStack.ofList args).top f.numParams).toArray ++
    Array.replicate _ 0).size
  simp only [Array.size_append, List.size_toArray, Array.size_replicate, hlength]
  omega

/-- A call of a function with as many arguments as it takes starts in a safe configuration, if it
starts. -/
theorem safe_start {index : Nat} {f : Function} (hf : m.functions[index]? = some f)
    {args : List UInt64} (hargs : args.length = f.numParams) {ledger : Ledger}
    (hstart : m.start index args ledger limits = .ok c) : c.Safe m := by
  unfold Module.start at hstart
  cases hload : m.load with
  | error halt =>
    rw [hload] at hstart
    cases hstart
  | ok memory =>
    simp only [hload, hf, hargs, ne_eq, not_true_eq_false, if_false, bind, Except.bind] at hstart
    split at hstart
    · cases hstart
    · cases hstart
      exact safe_activate (Array.mem_of_getElem? hf) hargs memory ledger

/-- The only errors of a call of a safe module are that it exceeds a limit. -/
theorem Module.Safe.runFunction [Hashing] (hm : m.Safe) {memory : Memory}
    (hload : m.load = .ok memory) {index : Nat} {f : Function} (hf : m.functions[index]? = some f)
    {args : List UInt64} (hargs : args.length = f.numParams) (ledger : Ledger)
    (hexit : (m.runFunction index args ledger limits).1.exit = .error) :
    (m.runFunction index args ledger limits).1.message ∈ limitErrors.map (·.message) := by
  unfold Module.runFunction at hexit ⊢
  cases hstart : m.start index args ledger limits with
  | ok c =>
    rw [hstart] at hexit
    exact (safe_start hf hargs hstart).run hm _ hexit
  | error halt =>
    -- Only the depth of calls keeps a call from starting.
    unfold Module.start at hstart
    simp only [hload, hf, hargs, ne_eq, not_true_eq_false, if_false, bind, Except.bind] at hstart
    split at hstart
    · cases hstart
      exact List.mem_map_of_mem (List.mem_cons_of_mem _ List.mem_cons_self)
    · cases hstart

end Steps

end ContractCompiler.Vm
