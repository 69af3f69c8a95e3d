import ContractCompiler.Proofs.Codegen.SlotSharing
import ContractCompiler.Proofs.Codegen.Walking
import ContractCompiler.Proofs.Ssa.Dependence
import ContractCompiler.Proofs.Ssa.Execution

/-!
# Arguments of edges

The code that passes the arguments of an edge to the parameters of a block sets all parameters at
once. Every argument is pushed before the first parameter is set, so arguments may be parameters of
the same block; and what is needed in the block besides its parameters is in none of the slots that
are set.

- `Vm.executes`: what instructions do one after the other;
- `Vm.runs_of_executes`: the machine does so if the stack has room for what they push;
- `FunctionContext.word?`: the word of a value, in its slot or made anew;
- `FunctionContext.executes_moves`: words that are pushed one after the other are popped into their
  slots;
- `parallel_edgeCopies`: the code of an edge is a simultaneous assignment.
-/

namespace ContractCompiler

/-! ## Straight code -/

namespace Vm

variable [Hashing] {vm : Module} {limits : Limits} {c c' : Config} {i : Instr} {is : List Instr}

/-- What instructions do one after the other, as long as none of them jumps. -/
def executes (vm : Module) (limits : Limits) : List Instr → Config → Progress
  | [], c => .next c
  | i :: is, c =>
    match execute vm limits c i with
    | .next c => executes vm limits is c
    | stopped => stopped

theorem executes_cons (h : execute vm limits c i = .next c') :
    executes vm limits (i :: is) c = executes vm limits is c' := by
  unfold executes
  rw [h]
  cases is <;> rfl

theorem executes_append {is' : List Instr} (h : executes vm limits is c = .next c') :
    executes vm limits (is ++ is') c = executes vm limits is' c' := by
  induction is generalizing c with
  | nil =>
    cases h
    rfl
  | cons i is ih =>
    cases hi : execute vm limits c i with
    | next c₁ =>
      rw [executes_cons hi] at h
      rw [List.cons_append, executes_cons hi, ih h]
    | halted | returned =>
      unfold executes at h
      rw [hi] at h
      cases h

/-- An instruction that moves a word between the stack and a slot, or pushes a constant. -/
def Instr.moves (i : Instr) : Bool := i.op == .const || i.op == .localGet || i.op == .localSet

/-- A configuration at another position. -/
def Config.placed (c : Config) (pc : Nat) : Config := { c with frame := { c.frame with pc } }

/-- A move depends on no position, and pushes a word at most. -/
theorem execute_move (hi : i.moves = true) (h : execute vm limits c i = .next c') :
    (∀ pc, execute vm limits (c.placed pc) i = .next (c'.placed pc)) ∧
    c'.frame.function = c.frame.function ∧
      c'.frame.pc = c.frame.pc ∧ c'.stack.height ≤ c.stack.height + if i.op = .localSet then 0
        else 1 := by
  obtain ⟨o, imm⟩ := i
  cases o with
  | const =>
    cases h
    exact ⟨fun _ => rfl, rfl, rfl, Nat.le_refl _⟩
  | localGet =>
    unfold execute at h ⊢
    dsimp only at h ⊢
    split at h
    · rename_i w hw
      cases h
      refine ⟨fun pc => ?_, rfl, rfl, Nat.le_refl _⟩
      have hw : (c.placed pc).frame.locals[imm.toNat]? = some w := hw
      rw [hw]
      rfl
    · cases h
  | localSet =>
    unfold execute at h ⊢
    dsimp only at h ⊢
    split at h
    · rename_i w words htest hwords
      cases h
      refine ⟨fun pc => ?_, rfl, rfl, Nat.sub_le _ _⟩
      have htest : (decide (imm.toNat < (c.placed pc).frame.locals.size) && (c.placed pc).has 1) =
        true := htest
      have hwords : (c.placed pc).stack.words = w :: words := hwords
      rw [htest, hwords]
      rfl
    · cases h
  | _ => cases hi

/-- The machine does what moves do one after the other, if the stack has room for all that they
push. -/
theorem runs_of_executes {pc : Nat} (hmoves : ∀ i ∈ is, i.moves = true)
    (hcode : is <+: c.frame.function.code.toList.drop pc)
    (hroom : c.stack.height + is.countP (·.op != .localSet) ≤ limits.maxStack)
    (h : executes vm limits is c = .next c') :
    Runs vm limits (c.placed pc) (c'.placed (pc + is.length)) := by
  induction is generalizing c pc with
  | nil =>
    cases h
    exact .refl
  | cons i is ih =>
    obtain ⟨hi, his⟩ := List.forall_mem_cons.mp hmoves
    cases hexec : execute vm limits c i with
    | next c₁ =>
      rw [executes_cons hexec] at h
      obtain ⟨hplaced, hfunction, -, hheight⟩ := execute_move hi hexec
      obtain ⟨rest, hrest⟩ := hcode
      have hat : c.frame.function.code[pc]? = some i := by
        have hhead := congrArg List.head? hrest
        rw [List.head?_drop] at hhead
        simpa using hhead.symm
      have hlater : is <+: c₁.frame.function.code.toList.drop (pc + 1) := by
        refine ⟨rest, ?_⟩
        rw [hfunction, ← List.tail_drop, ← hrest]
        rfl
      rw [List.countP_cons] at hroom
      have hstep : step vm limits (c.placed pc) = .next (c₁.placed (pc + 1)) := by
        have hat : (c.placed pc).frame.function.code[(c.placed pc).frame.pc]? = some i := hat
        have hheight : ¬limits.maxStack < (c.placed pc).stack.height := by
          show ¬limits.maxStack < c.stack.height
          omega
        unfold step
        rw [hat]
        dsimp only
        rw [if_neg hheight]
        exact hplaced (pc + 1)
      -- a push uses up one of the words that there is room for
      have hroom' : c₁.stack.height + is.countP (·.op != .localSet) ≤ limits.maxStack := by
        by_cases hset : i.op = .localSet
        · simp only [hset, if_true, bne_self_eq_false, Bool.false_eq_true,
            if_false] at hheight hroom
          omega
        · rw [if_neg hset] at hheight
          rw [if_pos (by simpa using hset)] at hroom
          omega
      have hfirst : Runs vm limits (c.placed pc) (c₁.placed (pc + 1)) := .single hstep
      have hruns := hfirst.trans (ih his hlater hroom' h)
      rwa [Nat.add_assoc, Nat.add_comm 1] at hruns
    | halted | returned =>
      unfold executes at h
      rw [hexec] at h
      cases h

end Vm

namespace Codegen

open Ssa (ValueId BlockId FuncId Inst Terminator)

/-- A value is still needed when control has come to a block, apart from the parameters of the
block. -/
def LiveInto (m : Ssa.Module) (v : ValueId) (b : BlockId) : Prop :=
  v ∉ (m.block b).params ∧ LiveAt m v b (instsOf m b)

/-! ## Words of values -/

namespace FunctionContext

variable {cx : FunctionContext} {link : Linkage} {position : Target → Nat} {locals : Array UInt64}
  {v : ValueId}

/-- The word of a constant. That of a byte string is the address of its data. -/
def constantWord? (cx : FunctionContext) (link : Linkage) (v : ValueId) : Option UInt64 :=
  match cx.module.definition? v with
  | some { data := .constInt bits, .. } => some bits
  | some { data := .constBool value, .. } => some (wordOfBool value)
  | some { data := .constBytes bytes, .. } => some (link.address (lengthPrefixed bytes))
  | _ => none

/-- The word of a value while the code of a function runs: what its slot holds, or the constant that
is made anew at each use. -/
def word? (cx : FunctionContext) (link : Linkage) (locals : Array UInt64) (v : ValueId) :
    Option UInt64 :=
  match cx.plan.home v with
  | .slot n => locals[n]?
  | .const => cx.constantWord? link v
  | .stack | .none => none

theorem word?_congr {before : Array UInt64}
    (h : ∀ n, cx.plan.home v = .slot n → locals[n]? = before[n]?) :
    cx.word? link locals v = cx.word? link before v := by
  unfold word?
  split
  · exact h _ ‹_›
  · rfl
  · rfl
  · rfl

theorem word?_of_slot {n : Nat} (h : cx.plan.home v = .slot n) :
    cx.word? link locals v = locals[n]? := by
  unfold word?
  rw [h]

/-- The word that is pushed for a value; there is none for a value that lives nowhere. -/
def pushed (cx : FunctionContext) (link : Linkage) (locals : Array UInt64) (v : ValueId) : UInt64 :=
  (cx.word? link locals v).getD 0

/-- A value can be pushed wherever it is used: its slot is there, and it does not live on the
stack. -/
structure Pushable (cx : FunctionContext) (locals : Array UInt64) (v : ValueId) : Prop where
  value : cx.plan.home v ≠ .none → v < cx.module.values.size
  slot : ∀ n, cx.plan.home v = .slot n → SlotIn locals n
  notStack : cx.plan.home v ≠ .stack

theorem encode_constant : (cx.constant v).filterMap (·.encode link position) =
    [{ op := .const, imm := (cx.constantWord? link v).getD 0 }] := by
  unfold constant constantWord?
  cases cx.module.definition? v with
  | none => rfl
  | some inst =>
    obtain ⟨data, effect, result, span⟩ := inst
    cases data <;> rfl

/-- An instruction pushes a word wherever the frame has the given locals. -/
structure IsPush [Hashing] (locals : Array UInt64) (w : UInt64) (i : Vm.Instr) : Prop where
  moves : i.moves = true
  ne_localSet : i.op ≠ .localSet
  execute (vm : Vm.Module) (limits : Vm.Limits) (c : Vm.Config) :
    c.frame.locals = locals → Vm.execute vm limits c i = .next (c.withStack (c.stack.push w))

theorem isPush_const [Hashing] (w : UInt64) : IsPush locals w { op := .const, imm := w } :=
  ⟨rfl, by simp, fun _ _ _ _ => rfl⟩

theorem isPush_localGet [Hashing] {n : Nat} (hslot : SlotIn locals n) {w : UInt64}
    (hw : locals[n]? = some w) :
    IsPush locals w { op := .localGet, imm := UInt64.ofNat n } := by
  refine ⟨rfl, by simp, fun vm limits c hlocals => ?_⟩
  have hword : c.frame.locals[(UInt64.ofNat n).toNat]? = some w := by
    rw [UInt64.toNat_ofNat_of_lt' hslot.small, hlocals, hw]
  unfold Vm.execute
  dsimp only
  rw [hword]

/-- A value is pushed by one instruction. -/
theorem exists_push [Hashing] (link : Linkage) (position : Target → Nat)
    (h : cx.Pushable locals v) :
    ∃ i, (cx.push v).filterMap (·.encode link position) = [i] ∧
      IsPush locals (cx.pushed link locals v) i := by
  cases hhome : cx.plan.home v with
  | none =>
    refine ⟨_, ?_, isPush_const _⟩
    unfold push pushed word?
    rw [hhome]
    split <;> rfl
  | const =>
    refine ⟨_, ?_, isPush_const _⟩
    unfold push pushed word?
    rw [if_neg (Nat.not_le.mpr (h.value (by rw [hhome]; simp))), hhome]
    exact encode_constant
  | stack => exact absurd hhome h.notStack
  | slot n =>
    have hslot := h.slot n hhome
    refine ⟨_, ?_, isPush_localGet hslot ?_⟩
    · unfold push
      rw [if_neg (Nat.not_le.mpr (h.value (by rw [hhome]; simp))), hhome]
      rfl
    · rw [pushed, word?_of_slot hhome, Array.getElem?_eq_getElem hslot.lt_size]
      rfl

/-! ## Moves -/

/-- The slots after words are put into them. -/
def putAll (cx : FunctionContext) (link : Linkage) (before : Array UInt64)
    (moves : List (ValueId × Nat)) :
    Array UInt64 :=
  moves.foldr (fun x locals => locals.setIfInBounds x.2 (cx.pushed link before x.1)) before

theorem size_putAll (before : Array UInt64) (moves : List (ValueId × Nat)) :
    (cx.putAll link before moves).size = before.size := by
  induction moves with
  | nil => rfl
  | cons x moves ih => exact Array.size_setIfInBounds.trans ih

theorem getElem?_putAll_of_not_mem {before : Array UInt64} {moves : List (ValueId × Nat)} {n : Nat}
    (h : n ∉ moves.map (·.2)) : (cx.putAll link before moves)[n]? = before[n]? := by
  induction moves with
  | nil => rfl
  | cons x moves ih =>
    rw [List.map_cons, List.mem_cons, not_or] at h
    exact (Array.getElem?_setIfInBounds_ne (Ne.symm h.1)).trans (ih h.2)

theorem getElem?_putAll_of_mem {before : Array UInt64} {moves : List (ValueId × Nat)}
    {x : ValueId × Nat} (hnodup : (moves.map (·.2)).Nodup) (hx : x ∈ moves)
    (hlt : x.2 < before.size) :
    (cx.putAll link before moves)[x.2]? = some (cx.pushed link before x.1) := by
  induction moves with
  | nil => cases hx
  | cons y moves ih =>
    rw [List.map_cons, List.nodup_cons] at hnodup
    rcases List.mem_cons.mp hx with rfl | hx
    · exact Array.getElem?_setIfInBounds_self_of_lt
        (show _ < (cx.putAll link before moves).size by rwa [size_putAll])
    · have hne : y.2 ≠ x.2 := fun heq => hnodup.1 (heq ▸ List.mem_map_of_mem hx)
      exact (Array.getElem?_setIfInBounds_ne hne).trans (ih hnodup.2 hx)

/-- The code that pushes values and then pops them into slots. -/
def movesCode (cx : FunctionContext) (moves : List (ValueId × Nat)) : List Item :=
  (moves.flatMap fun x => cx.push x.1) ++ moves.reverse.map fun x => set x.2

/-- A value is pushed before and popped after everything that follows it. -/
theorem movesCode_cons (x : ValueId × Nat) (moves : List (ValueId × Nat)) :
    cx.movesCode (x :: moves) = cx.push x.1 ++ (cx.movesCode moves ++ [set x.2]) := by
  simp [movesCode]

/-- The word on top of the stack is popped into a slot. -/
theorem execute_set [Hashing] {vm : Vm.Module} {limits : Vm.Limits} {slot : Nat} {c : Vm.Config}
    (hslot : SlotIn c.frame.locals slot) (hbase : c.frame.base ≤ c.stack.height) (w : UInt64) :
    Vm.execute vm limits (c.withStack (c.stack.push w))
      { op := .localSet, imm := UInt64.ofNat slot } =
      .next { c with frame := { c.frame with locals := c.frame.locals.setIfInBounds slot w } } := by
  have htest :
      (decide ((UInt64.ofNat slot).toNat < (c.withStack (c.stack.push w)).frame.locals.size) &&
      (c.withStack (c.stack.push w)).has 1) = true := by
    rw [UInt64.toNat_ofNat_of_lt' hslot.small, Bool.and_eq_true]
    exact ⟨decide_eq_true hslot.lt_size, decide_eq_true (Nat.add_le_add_right hbase 1)⟩
  have hwords : (c.withStack (c.stack.push w)).stack.words = w :: c.stack.words := rfl
  unfold Vm.execute
  dsimp only
  rw [htest, hwords]
  show Vm.Progress.next (Vm.setLocal (c.withStack (c.stack.push w)) (UInt64.ofNat slot) w c.stack) =
    _
  unfold Vm.setLocal
  rw [UInt64.toNat_ofNat_of_lt' hslot.small]
  rfl

/-- Each of the values is pushed before any of the slots is set. -/
theorem executes_moves [Hashing] (vm : Vm.Module) (limits : Vm.Limits) (link : Linkage)
    (position : Target → Nat) {before : Array UInt64} {moves : List (ValueId × Nat)}
    (hmoves : ∀ x ∈ moves, cx.Pushable before x.1 ∧ SlotIn before x.2) {c : Vm.Config}
    (hlocals : c.frame.locals = before) (hbase : c.frame.base ≤ c.stack.height) :
    Vm.executes vm limits ((cx.movesCode moves).filterMap (·.encode link position)) c =
      .next { c with frame := { c.frame with locals := cx.putAll link before moves } } := by
  induction moves generalizing c with
  | nil =>
    subst hlocals
    rfl
  | cons x moves ih =>
    obtain ⟨⟨hx, hslot⟩, hrest⟩ := List.forall_mem_cons.mp hmoves
    obtain ⟨i, hcode, hpush⟩ := exists_push link position hx
    have hinner := ih hrest (c := c.withStack (c.stack.push (cx.pushed link before x.1))) hlocals
      (Nat.le_succ_of_le hbase)
    rw [movesCode_cons, List.filterMap_append, hcode, List.singleton_append,
      Vm.executes_cons (hpush.execute vm limits c hlocals), List.filterMap_append,
      Vm.executes_append hinner]
    have hslot' : SlotIn (cx.putAll link before moves) x.2 :=
      ⟨by rw [size_putAll]; exact hslot.lt_size, hslot.small⟩
    exact Vm.executes_cons (execute_set
      (c := { c with frame := { c.frame with locals := cx.putAll link before moves } })
        hslot' hbase _)

theorem moves_movesCode [Hashing] (link : Linkage) (position : Target → Nat) {before : Array UInt64}
    {moves : List (ValueId × Nat)} (hmoves : ∀ x ∈ moves, cx.Pushable before x.1) :
    (∀ i ∈ (cx.movesCode moves).filterMap (·.encode link position), i.moves = true) ∧
      ((cx.movesCode moves).filterMap (·.encode link position)).countP (·.op != .localSet) =
        moves.length := by
  induction moves with
  | nil => exact ⟨fun i hi => absurd hi List.not_mem_nil, rfl⟩
  | cons x moves ih =>
    obtain ⟨hx, hrest⟩ := List.forall_mem_cons.mp hmoves
    obtain ⟨hall, hcount⟩ := ih hrest
    obtain ⟨i, hcode, hpush⟩ := exists_push link position hx
    have hset : [set x.2].filterMap (·.encode link position) =
      [{ op := .localSet, imm := UInt64.ofNat x.2 }] := rfl
    rw [movesCode_cons, List.filterMap_append, hcode, List.filterMap_append, hset]
    constructor
    · intro j hj
      simp only [List.singleton_append, List.mem_cons, List.mem_append, List.not_mem_nil,
        or_false] at hj
      rcases hj with rfl | hj | rfl
      · exact hpush.moves
      · exact hall j hj
      · rfl
    · have hone : [i].countP (·.op != .localSet) = 1 := by simp [hpush.ne_localSet]
      have hnone : [({ op := .localSet, imm := UInt64.ofNat x.2 } : Vm.Instr)].countP
        (·.op != .localSet) = 0 := rfl
      rw [List.countP_append, List.countP_append, hone, hcount, hnone, List.length_cons]
      omega

/-! ## Moves of edges -/

theorem mem_edgeMoves {target : BlockId} {args : List ValueId} {x : ValueId × Nat} :
    x ∈ cx.edgeMoves target args ↔ ∃ (k : Nat) (p : ValueId), (cx.module.block target).params[k]? =
      some p ∧
      args[k]? = some x.1 ∧ cx.plan.home p = .slot x.2 := by
  unfold edgeMoves
  rw [List.mem_filterMap]
  constructor
  · rintro ⟨⟨p, a⟩, hmem, hx⟩
    obtain ⟨k, hk⟩ := List.mem_iff_getElem?.mp hmem
    obtain ⟨hp, ha⟩ := List.getElem?_zip_eq_some.mp hk
    dsimp only at hx
    split at hx
    · rename_i n hhome
      obtain rfl := Option.some.inj hx
      exact ⟨k, p, hp, ha, hhome⟩
    · cases hx
  · rintro ⟨k, p, hp, ha, hhome⟩
    refine ⟨(p, x.1), List.mem_of_getElem? (List.getElem?_zip_eq_some.mpr ⟨hp, ha⟩), ?_⟩
    dsimp only
    rw [hhome]

/-- The arguments of an edge can be pushed, and the slots of the parameters have nothing else that
is needed in the block. -/
structure EdgeReady (cx : FunctionContext) (before : Array UInt64) (target : BlockId)
    (args : List ValueId) :
    Prop where
  nodup : (cx.module.block target).params.Nodup
  length : args.length = (cx.module.block target).params.length
  pushable : ∀ a ∈ args, cx.Pushable before a
  slot : ∀ p ∈ (cx.module.block target).params, ∀ n, cx.plan.home p = .slot n → SlotIn before n
  apart : ∀ p ∈ (cx.module.block target).params, ∀ n, cx.plan.home p = .slot n → ∀ v, v ≠ p →
    v ∈ (cx.module.block target).params ∨ LiveInto cx.module v target → cx.plan.home v ≠ .slot n

namespace EdgeReady

variable {before : Array UInt64} {target : BlockId} {args : List ValueId}

theorem moves (h : cx.EdgeReady before target args) :
    ∀ x ∈ cx.edgeMoves target args, cx.Pushable before x.1 ∧ SlotIn before x.2 := by
  intro x hx
  obtain ⟨k, p, hp, ha, hhome⟩ := mem_edgeMoves.mp hx
  exact ⟨h.pushable x.1 (List.mem_of_getElem? ha), h.slot p (List.mem_of_getElem? hp) x.2 hhome⟩

/-- Different parameters are set in different slots. -/
theorem nodup_edgeMoves (h : cx.EdgeReady before target args) :
    ((cx.edgeMoves target args).map (·.2)).Nodup := by
  have hpairs : ((cx.module.block target).params.zip args).Pairwise fun x y => x.1 ≠ y.1 := by
    rw [← List.pairwise_map, List.map_fst_zip (Nat.le_of_eq h.length.symm)]
    exact h.nodup
  unfold edgeMoves
  rw [List.Nodup, List.pairwise_map, List.pairwise_filterMap]
  refine hpairs.imp_of_mem fun {x y} hx hy hne u hu v hv => ?_
  dsimp only at hu hv
  split at hu
  · rename_i n hn
    split at hv
    · rename_i n' hn'
      obtain rfl := Option.some.inj hu
      obtain rfl := Option.some.inj hv
      rintro rfl
      exact h.apart x.1 (List.of_mem_zip hx).1 n hn y.1 (Ne.symm hne)
        (.inl (List.of_mem_zip hy).1) hn'
    · cases hv
  · cases hu

/-- A parameter gets what was pushed for its argument. -/
theorem getElem?_param (h : cx.EdgeReady before target args) {k : Nat} {p a : ValueId} {n : Nat}
    (hp : (cx.module.block target).params[k]? = some p) (ha : args[k]? = some a)
    (hhome : cx.plan.home p = .slot n) :
    (cx.putAll link before (cx.edgeMoves target args))[n]? = some (cx.pushed link before a) :=
  have hmem : (a, n) ∈ cx.edgeMoves target args := mem_edgeMoves.mpr ⟨k, p, hp, ha, hhome⟩
  getElem?_putAll_of_mem h.nodup_edgeMoves hmem (h.moves (a, n) hmem).2.lt_size

/-- What else is needed in the block is left as it is. -/
theorem getElem?_other (h : cx.EdgeReady before target args) {v : ValueId} {n : Nat}
    (hhome : cx.plan.home v = .slot n) (hv : LiveInto cx.module v target) :
    (cx.putAll link before (cx.edgeMoves target args))[n]? = before[n]? := by
  refine getElem?_putAll_of_not_mem fun hmem => ?_
  obtain ⟨x, hx, rfl⟩ := List.mem_map.mp hmem
  obtain ⟨k, p, hp, -, hpn⟩ := mem_edgeMoves.mp hx
  have hparam := List.mem_of_getElem? hp
  exact h.apart p hparam x.2 hpn v (fun heq => hv.1 (heq ▸ hparam)) (.inr hv) hhome

end EdgeReady

end FunctionContext

/-! ## Places of arguments -/

section Places

variable {m : Ssa.Module} {f : Ssa.Function} {v : ValueId} {uses : Array Nat}

theorem resultKind_ne_none (huse : uses.getD v 0 ≠ 0) (i : Inst) (taken : Option ValueId) :
    resultKind uses i v taken ≠ .none := by
  unfold resultKind
  split
  · simp
  · split <;> simp

/-- A result that is used gets a place. -/
theorem resultKinds_ne_none (huse : uses.getD v 0 ≠ 0) (term : Option Terminator) (is : List Inst)
    {kinds : Array HomeKind} (hlt : v < kinds.size)
    (h : (∃ i ∈ is, i.result = some v) ∨ kinds.getD v .none ≠ .none) :
    (resultKinds uses term is kinds).getD v .none ≠ .none := by
  induction is generalizing kinds with
  | nil =>
    rcases h with ⟨i, hi, -⟩ | h
    · cases hi
    · exact h
  | cons i is ih =>
    cases hr : i.result with
    | none =>
      have heq : resultKinds uses term (i :: is) kinds = resultKinds uses term is kinds := by
        simp only [resultKinds, hr]
      rw [heq]
      refine ih hlt (h.imp_left ?_)
      rintro ⟨j, hj, hjr⟩
      rcases List.mem_cons.mp hj with rfl | hj
      · cases hr.symm.trans hjr
      · exact ⟨j, hj, hjr⟩
    | some r =>
      rw [resultKinds_cons hr]
      refine ih (by rwa [Array.size_setIfInBounds]) ?_
      by_cases hrv : r = v
      · subst hrv
        right
        rw [Array.getD_eq_getD_getElem?, Array.getElem?_setIfInBounds_self_of_lt hlt,
          Option.getD_some, if_neg fun hunused => huse
            (of_decide_eq_true (Bool.and_eq_true_iff.mp hunused).2)]
        exact resultKind_ne_none huse i _
      · refine h.imp ?_ fun hold => ?_
        · rintro ⟨j, hj, hjr⟩
          rcases List.mem_cons.mp hj with rfl | hj
          · exact absurd (Option.some.inj (hr.symm.trans hjr)) hrv
          · exact ⟨j, hj, hjr⟩
        · rwa [Array.getD_eq_getD_getElem?, Array.getElem?_setIfInBounds_ne hrv,
            ← Array.getD_eq_getD_getElem?]

/-- A value that is defined in a block of a function and used has a place. -/
theorem home_ne_none {b : BlockId} (hb : b ∈ f.blocks) (hdef : v ∈ definitions m (m.block b))
    (huse : (useCounts m f).getD v 0 ≠ 0) (hlt : v < m.values.size) :
    (slotPlan m f).home v ≠ .none := by
  have hblocks : ∀ (bs : List BlockId) (kinds : Array HomeKind), v < kinds.size →
      b ∈ bs ∨ kinds.getD v .none ≠ .none → (bs.foldl (fun kinds b =>
        resultKinds (useCounts m f) (m.block b).term (instsOf m b)
          (paramKinds (useCounts m f) (f.entry == some b) (m.block b).params kinds))
          kinds).getD v .none ≠ .none := by
    intro bs
    induction bs with
    | nil => exact fun kinds _ h => h.resolve_left List.not_mem_nil
    | cons b' bs ih =>
      intro kinds hsize h
      have hsize' :
          v < (paramKinds (useCounts m f) (f.entry == some b') (m.block b').params kinds).size := by
        rwa [size_paramKinds]
      rw [List.foldl_cons]
      refine ih _ (by rwa [size_resultKinds]) ?_
      rcases h with hmem | hold
      · rcases List.mem_cons.mp hmem with rfl | hmem
        · right
          refine resultKinds_ne_none huse _ _ hsize' ?_
          rcases List.mem_append.mp hdef with hparam | hresult
          · exact .inr (by rw [getD_paramKinds (.inr huse) _ hsize (.inl hparam)]; simp)
          · obtain ⟨⟨id, i⟩, hi, hr⟩ := List.mem_filterMap.mp hresult
            exact .inl ⟨i, List.mem_map_of_mem hi, hr⟩
        · exact .inl hmem
      · right
        refine resultKinds_ne_none huse _ _ hsize' (.inr ?_)
        rcases paramKinds_cases v (f.entry == some b') (m.block b').params kinds with hkept |
          ⟨-, hslot⟩
        · rwa [hkept]
        · rw [hslot]
          simp
  have hkind := hblocks f.blocks (Array.replicate m.values.size .none)
      (by rwa [Array.size_replicate]) (.inl hb)
  have hkind : (homeKinds m f).getD v .none ≠ .none := hkind
  rw [slotPlan_eq]
  unfold SlotPlan.home
  rw [Array.getD_eq_getD_getElem?, Array.getElem?_map, Array.getElem?_range, if_pos hlt]
  dsimp only [Option.map_some, Option.getD_some]
  cases hk : (homeKinds m f).getD v .none <;> simp_all [homeOf]

/-- Results of the instructions of a function are defined by them. -/
theorem definition?_of_mem (hf : f.Verified m) {b : BlockId} (hb : b ∈ f.blocks) {i : Inst}
    (hi : i ∈ instsOf m b) (hr : i.result = some v) : m.definition? v = some i := by
  obtain ⟨id, hid, hinst⟩ := exists_inst_of_mem hi
  obtain ⟨value, hvalue, hsite⟩ := hf.result_site b hb id hid i v hinst hr
  rw [Ssa.definition?_of_site hvalue hsite, hinst]

/-- A value that lives nowhere but in the code that uses it is the result of a constant. -/
theorem exists_const_of_home (hf : f.Verified m) (hhome : (slotPlan m f).home v = .const) :
    ∃ i, m.definition? v = some i ∧ i.data.isConst = true := by
  rcases home_slotPlan (m := m) (f := f) (v := v) with hnone | ⟨-, hplace⟩
  · rw [hnone] at hhome
    cases hhome
  rw [hplace] at hhome
  have hfrom := kindOf_homeKinds (m := m) (f := f) v
  generalize (homeKinds m f).getD v .none = kind at hhome hfrom
  cases hfrom with
  | unused | param => cases hhome
  | @result b done rest i hb hinsts hr =>
    have hconst : i.data.isConst = true := by
      by_contra hnot
      unfold resultKind at hhome
      rw [if_neg hnot] at hhome
      split at hhome
      · cases hhome
      · split at hhome <;> cases hhome
    exact ⟨i, definition?_of_mem hf hb (by simp [hinsts]) hr, hconst⟩

/-- A value with a place of its own has a word wherever its slot is there. -/
theorem exists_word {cx : FunctionContext} (hplan : cx.plan = slotPlan m f)
    (hmodule : cx.module = m) (hf : f.Verified m) {locals : Array UInt64}
    (hv : cx.Pushable locals v) (hhome : cx.plan.home v ≠ .none) (link : Linkage) :
    ∃ w, cx.word? link locals v = some w := by
  unfold FunctionContext.word?
  cases hplace : cx.plan.home v with
  | none => exact absurd hplace hhome
  | stack => exact absurd hplace hv.notStack
  | slot n => exact ⟨_, Array.getElem?_eq_getElem (hv.slot n hplace).lt_size⟩
  | const =>
    obtain ⟨i, hdef, hconst⟩ := exists_const_of_home hf (hplan ▸ hplace)
    dsimp only
    unfold FunctionContext.constantWord?
    rw [hmodule, hdef]
    obtain ⟨data, effect, result, span⟩ := i
    cases data with
    | constInt | constBool | constBytes => exact ⟨_, rfl⟩
    | _ => cases hconst

/-- What an edge passes is used apart from what its ending takes from the stack. -/
theorem count_ne_one_of_argsTo {term : Terminator} {target : BlockId} {args : List ValueId}
    (hedge : args ∈ term.argsTo target) (hv : v ∈ args) (htaken : term.stackOperand? = some v) :
    term.operands.count v ≠ 1 := by
  cases term with
  | branch cond t targs e eargs =>
    obtain rfl := Option.some.inj htaken
    have hmem : cond ∈ targs ++ eargs := by
      rcases List.mem_append.mp hedge with hedge | hedge
      · split at hedge
        · exact List.mem_append_left _ (List.mem_singleton.mp hedge ▸ hv)
        · cases hedge
      · split at hedge
        · exact List.mem_append_right _ (List.mem_singleton.mp hedge ▸ hv)
        · cases hedge
    have hcount := List.count_pos_iff.mpr hmem
    simp only [Terminator.operands, List.count_cons_self]
    omega
  | jump => cases htaken
  | _ => cases hedge

/-- The arguments of an edge can be pushed: none of them lives on the stack. -/
theorem pushable_of_edge {cx : FunctionContext} (hplan : cx.plan = slotPlan m f)
    (hmodule : cx.module = m) {b : BlockId} (hb : b ∈ f.blocks) {term : Terminator}
    (hterm : (m.block b).term = some term) {target : BlockId} {args : List ValueId}
    (hedge : args ∈ term.argsTo target) {locals : Array UInt64}
    (hlocals : (slotPlan m f).numSlots ≤ locals.size) (hsmall : locals.size ≤ 2 ^ 64) :
    ∀ v ∈ args, cx.Pushable locals v := by
  intro v hv
  refine ⟨fun hhome => ?_, fun n hhome => ?_, fun hhome => ?_⟩
  · rcases home_slotPlan (m := m) (f := f) (v := v) with hnone | ⟨hlt, -⟩
    · exact absurd (hplan ▸ hnone) hhome
    · exact hmodule ▸ hlt
  · have hlt := lt_of_home_slot (hplan ▸ hhome)
    exact ⟨by omega, by omega⟩
  · have htakes : cx.Takes (endUse (m.block b).term).1 (endUse (m.block b).term).2 :=
      @takes_slotPlan m f cx hplan b hb ((instsOf m b).map instUse) [] _ rfl
    rw [hterm] at htakes
    obtain ⟨htaken, hcount⟩ := htakes v (Ssa.mem_operands_of_argsTo hedge hv) hhome
    exact count_ne_one_of_argsTo hedge hv htaken hcount

theorem edgeReady_of_edge {cx : FunctionContext} (hplan : cx.plan = slotPlan m f)
    (hmodule : cx.module = m) (hf : f.Verified m) {b : BlockId} (hb : b ∈ f.blocks)
    {term : Terminator} (hterm : (m.block b).term = some term) {target : BlockId}
    {args : List ValueId} (hedge : args ∈ term.argsTo target) {locals : Array UInt64}
    (hlocals : (slotPlan m f).numSlots ≤ locals.size) (hsmall : locals.size ≤ 2 ^ 64) :
    cx.EdgeReady locals target args := by
  have htarget := hf.edge_target b hb term target args hterm hedge
  have hpushable := pushable_of_edge hplan hmodule hb hterm hedge hlocals hsmall
  subst hmodule
  refine ⟨nodup_params hf htarget, hf.edge_args b hb term target args hterm hedge,
    hpushable, ?_, ?_⟩
  · intro p hp n hhome
    have hlt := lt_of_home_slot (hplan ▸ hhome)
    exact ⟨by omega, by omega⟩
  · intro p hp n hhome v hne hv
    rw [hplan] at hhome ⊢
    exact home_ne_of_param hf htarget hp hhome hne (hv.imp_right fun hlive => hlive.2)

/-- What is available somewhere in a function is defined in one of its blocks. -/
theorem exists_definition_of_isAvailable {d : Ssa.Dominance} {b : BlockId} {k : Nat}
    (h : Ssa.isAvailable d (m.definitions f).2 b k v = true) :
    ∃ b ∈ f.blocks, v ∈ definitions m (m.block b) := by
  unfold Ssa.isAvailable at h
  split at h
  · cases h
  · rename_i definition hdefinition
    rcases Ssa.mem_of_enterDefinitions hdefinition with hnone | ⟨hmem, rfl⟩
    · rw [Array.getD_eq_getD_getElem?, Array.getElem?_replicate] at hnone
      split at hnone <;> cases hnone
    · obtain ⟨b', hb', hlisted⟩ := List.mem_flatMap.mp hmem
      refine ⟨b', hb', ?_⟩
      have hvalue : definition.value ∈ Ssa.definedValues (Ssa.blockDefinitions m b') :=
        List.mem_filterMap.mpr ⟨_, hlisted, rfl⟩
      rwa [Ssa.definedValues_blockDefinitions] at hvalue

theorem lt_size_of_definition (hf : f.Verified m) {b : BlockId} (hb : b ∈ f.blocks)
    (hdef : v ∈ definitions m (m.block b)) : v < m.values.size := by
  rcases List.mem_append.mp hdef with hparam | hresult
  · exact lt_size_of_param hf hb hparam
  · obtain ⟨⟨id, i⟩, hi, hr⟩ := List.mem_filterMap.mp hresult
    obtain ⟨id', hid, hinst⟩ := exists_inst_of_mem (List.mem_map_of_mem hi)
    obtain ⟨value, hvalue, -⟩ := hf.result_site b hb id' hid i v hinst hr
    exact (Array.getElem?_eq_some_iff.mp hvalue).1

/-- What is an operand of something in a block is used. -/
theorem useCounts_ne_zero {b : BlockId} (hb : b ∈ f.blocks) {u : List ValueId × Option ValueId}
    (hu : u ∈ blockUses m b) (huse : v ∈ u.1) (hlt : v < m.values.size) :
    (useCounts m f).getD v 0 ≠ 0 := by
  have hmem : u ∈ f.blocks.flatMap (blockUses m) := List.mem_flatMap.mpr ⟨b, hb, hu⟩
  have hcount : 0 < u.1.count v := List.count_pos_iff.mpr huse
  rw [getD_useCounts hlt]
  intro hsum
  have hzero := List.sum_eq_zero_iff.mp hsum _ (List.mem_map_of_mem hmem)
  omega

/-- A constant of the program that has a place lives nowhere but in the code that uses it. -/
theorem home_eq_const (hf : f.Verified m) {i : Inst} (hdef : m.definition? v = some i)
    (hconst : i.data.isConst = true) (hlives : (slotPlan m f).home v ≠ .none) :
    (slotPlan m f).home v = .const := by
  rcases home_slotPlan (m := m) (f := f) (v := v) with hnone | ⟨-, hplace⟩
  · exact absurd hnone hlives
  rw [hplace] at hlives ⊢
  have hfrom := kindOf_homeKinds (m := m) (f := f) v
  generalize (homeKinds m f).getD v .none = kind at hlives hfrom ⊢
  cases hfrom with
  | unused => exact absurd rfl hlives
  | @param b hb hv =>
    obtain ⟨k, hk⟩ := List.mem_iff_getElem?.mp hv
    obtain ⟨⟨type, effect, site, span⟩, hvalue, rfl⟩ := hf.param_site b hb k v hk
    unfold Ssa.Module.definition? at hdef
    rw [hvalue] at hdef
    cases hdef
  | @result b done rest i' hb hinsts hr =>
    obtain rfl :
      i' = i := Option.some.inj ((definition?_of_mem hf hb (by simp [hinsts]) hr).symm.trans hdef)
    unfold resultKind
    rw [if_pos hconst]
    rfl

end Places

/-! ## Simultaneous assignment -/

/-- A value is where the code looks for it, as a word that stands for it. -/
def FunctionContext.Shows (cx : FunctionContext) (link : Linkage) (stands : Ssa.Val → UInt64 → Prop)
    (locals : Array UInt64) (env : Ssa.Env) (v : ValueId) : Prop :=
  ∀ x, env[v]? = some x → ∃ w, cx.word? link locals v = some w ∧ stands x w

section Binding

variable {env : Ssa.Env} {bound : List (ValueId × Ssa.Val)} {v : ValueId} {x : Ssa.Val}

theorem getElem?_bindValues_of_not_mem (h : v ∉ bound.map (·.1)) :
    (Ssa.bindValues env bound)[v]? = env[v]? := by
  induction bound generalizing env with
  | nil => rfl
  | cons b rest ih =>
    rw [List.map_cons, List.mem_cons, not_or] at h
    unfold Ssa.bindValues
    rw [ih h.2, Std.HashMap.getElem?_insert, if_neg (by simpa using Ne.symm h.1)]

theorem getElem?_bindValues_of_mem (hnodup : (bound.map (·.1)).Nodup) (h : (v, x) ∈ bound) :
    (Ssa.bindValues env bound)[v]? = some x := by
  induction bound generalizing env with
  | nil => cases h
  | cons b rest ih =>
    rw [List.map_cons, List.nodup_cons] at hnodup
    unfold Ssa.bindValues
    rcases List.mem_cons.mp h with rfl | h
    · rw [getElem?_bindValues_of_not_mem hnodup.1, Std.HashMap.getElem?_insert_self]
    · exact ih hnodup.2 h

/-- Going on at a block binds each of its parameters to what the argument was bound to before. -/
theorem env_goTo {m : Ssa.Module} {c c' : Ssa.Config} {target : BlockId} {args : List ValueId}
    (hnodup : (m.block target).params.Nodup)
    (hlength : args.length = (m.block target).params.length)
    (h : Ssa.goTo m c target args = .next c') :
    (∀ (k : Nat) (p a : ValueId), (m.block target).params[k]? = some p → args[k]? = some a →
      c'.frame.env[p]? = c.frame.env[a]?) ∧
      ∀ v, v ∉ (m.block target).params → c'.frame.env[v]? = c.frame.env[v]? := by
  obtain ⟨⟨block, rest, env⟩, callers, depth, steps, store⟩ := c
  unfold Ssa.goTo at h
  dsimp only at h
  split at h
  · rename_i xs store' hxs
    obtain ⟨hall, rfl⟩ := Ssa.yields_valueList.mp hxs
    cases h
    rw [List.map_snd_zip (by omega)] at hall
    have hkeys : (((m.block target).params.zip args).map (·.1)).zip xs =
        (m.block target).params.zip xs := by
      rw [List.map_fst_zip (by omega)]
    have hbound : ((m.block target).params.zip xs).map (·.1) = (m.block target).params :=
      List.map_fst_zip (by rw [← hall.length_eq]; omega)
    dsimp only
    rw [hkeys]
    refine ⟨fun k p a hp ha => ?_, fun v hv => getElem?_bindValues_of_not_mem (by rwa [hbound])⟩
    obtain ⟨hk, rfl⟩ := List.getElem?_eq_some_iff.mp ha
    have hk' : k < xs.length := hall.length_eq ▸ hk
    have hmem : (p, xs[k]) ∈ (m.block target).params.zip xs :=
      List.mem_of_getElem? (List.getElem?_zip_eq_some.mpr ⟨hp, List.getElem?_eq_getElem hk'⟩)
    rw [getElem?_bindValues_of_mem (hbound.symm ▸ hnodup) hmem]
    exact ((List.forall₂_iff_get.mp hall).2 k hk hk').symm
  · cases h

/-- Whatever words stand for values, the slots follow the binding of the parameters. -/
theorem FunctionContext.EdgeReady.shows {cx : FunctionContext} {link : Linkage}
    {before : Array UInt64} {target : BlockId} {args : List ValueId}
    (h : cx.EdgeReady before target args) {stands : Ssa.Val → UInt64 → Prop} {c c' : Ssa.Config}
    (hgoTo : Ssa.goTo cx.module c target args = .next c')
    (hbefore : ∀ v, v ∈ args ∨ LiveInto cx.module v target →
      cx.Shows link stands before c.frame.env v)
    (hv : (v ∈ (cx.module.block target).params ∧ ∃ n, cx.plan.home v = .slot n) ∨
      LiveInto cx.module v target) :
    cx.Shows link stands (cx.putAll link before (cx.edgeMoves target args)) c'.frame.env v := by
  obtain ⟨hparams, hrest⟩ := env_goTo h.nodup h.length hgoTo
  intro x hx
  rcases hv with ⟨hmem, n, hhome⟩ | hlive
  · obtain ⟨k, hk⟩ := List.mem_iff_getElem?.mp hmem
    obtain ⟨a, ha⟩ : ∃ a, args[k]? = some a :=
      ⟨_, List.getElem?_eq_getElem (by rw [h.length]; exact (List.getElem?_eq_some_iff.mp hk).1)⟩
    rw [hparams k v a hk ha] at hx
    obtain ⟨w, hw, hstands⟩ := hbefore a (.inl (List.mem_of_getElem? ha)) x hx
    refine ⟨w, ?_, hstands⟩
    rw [word?_of_slot hhome, h.getElem?_param hk ha hhome, pushed, hw]
    rfl
  · rw [hrest v hlive.1] at hx
    obtain ⟨w, hw, hstands⟩ := hbefore v (.inr hlive) x hx
    exact ⟨w, (word?_congr fun n hhome => h.getElem?_other hhome hlive).trans hw, hstands⟩

end Binding

/-- The slots after the arguments of an edge were passed to a block. -/
structure FunctionContext.Passed (cx : FunctionContext) (link : Linkage) (target : BlockId)
    (args : List ValueId) (before locals : Array UInt64) : Prop where
  size : locals.size = before.size
  /-- Each parameter with a slot has the word that its argument had, as long as there is such a
  value in the function. -/
  param : ∀ (k : Nat) (p a : ValueId) (n : Nat), (cx.module.block target).params[k]? = some p →
      args[k]? = some a →
    cx.plan.home p = .slot n →
    (∃ b ∈ cx.function.blocks, a ∈ definitions cx.module (cx.module.block b)) →
      ∃ w, cx.word? link before a = some w ∧ locals[n]? = some w
  /-- The slots of other values that are needed in the block are as they were. -/
  other : ∀ (v : ValueId) (n : Nat), cx.plan.home v = .slot n → LiveInto cx.module v target →
      locals[n]? = before[n]?
  /-- Whatever words stand for values, the slots follow the binding of the parameters. -/
  follows : ∀ (stands : Ssa.Val → UInt64 → Prop) (c c' : Ssa.Config), Ssa.goTo cx.module c target
      args = .next c' →
    (∀ v, v ∈ args ∨ LiveInto cx.module v target → cx.Shows link stands before c.frame.env v) →
      ∀ v, (v ∈ (cx.module.block target).params ∧ ∃ n, cx.plan.home v = .slot n) ∨
        LiveInto cx.module v target →
        cx.Shows link stands locals c'.frame.env v

/-- The code that passes the arguments of an edge assigns all of them at once. It leaves the stack
as it is, gives each parameter with a slot the word that its argument had before, and changes no
other value that is needed in the block. Every argument is defined in the function if control can
come to the edge. The machine gets through the code if the stack has room for the arguments. -/
theorem parallel_edgeCopies [Hashing] {m : Ssa.Module} (hverify : m.verify = []) {id : FuncId}
    {f : Ssa.Function} (hf : m.functions[id]? = some f) (hlive : f.excluded = false) {b : BlockId}
    (hb : b ∈ f.blocks) {term : Terminator} (hterm : (m.block b).term = some term)
    {target : BlockId} {args : List ValueId} (hedge : args ∈ term.argsTo target) (types : TypePool)
    (unit : String) (options : CodegenOptions) (link : Linkage) (position : Target → Nat)
    (vm : Vm.Module) (limits : Vm.Limits) {c : Vm.Config} (hbase : c.frame.base ≤ c.stack.height)
    (hlocals : (slotPlan m f).numSlots ≤ c.frame.locals.size)
    (hsmall : c.frame.locals.size ≤ 2 ^ 64) :
    let cx := functionContext m types unit options f
    let code := (cx.edgeCopies target args).filterMap (·.encode link position)
    ∃ locals : Array UInt64, cx.Passed link target args c.frame.locals locals ∧
      Vm.executes vm limits code c = .next { c with frame := { c.frame with locals } } ∧
      (c.stack.height + (cx.edgeMoves target args).length ≤ limits.maxStack →
        code <+: c.frame.function.code.toList.drop c.frame.pc →
          Vm.Runs vm limits c
            { c with frame := { c.frame with locals, pc := c.frame.pc + code.length } }) ∧
      ((m.cfg f).dominance.isReached b = true →
        ∀ a ∈ args, ∃ b ∈ f.blocks, a ∈ definitions m (m.block b)) := by
  intro cx code
  have hverified := Ssa.Module.verified_of_verify hverify hf hlive
  have hready : cx.EdgeReady c.frame.locals target args :=
    edgeReady_of_edge rfl rfl hverified hb hterm hedge hlocals hsmall
  have hexec := FunctionContext.executes_moves vm limits link position hready.moves rfl hbase
  refine ⟨cx.putAll link c.frame.locals (cx.edgeMoves target args),
    ⟨FunctionContext.size_putAll _ _, ?_,
    fun v n => hready.getElem?_other, fun stands d d' hgoTo hbefore v =>
      hready.shows hgoTo hbefore⟩, hexec,
    fun hroom hcode => ?_, fun hreached a ha => ?_⟩
  · rintro k p a n hp ha hhome ⟨b', hb', hdef⟩
    have hmem := List.mem_of_getElem? ha
    have hvalue := lt_size_of_definition hverified hb' hdef
    have hoperand := Ssa.mem_operands_of_argsTo hedge hmem
    have hused := useCounts_ne_zero hb (List.mem_append_right _ (List.mem_singleton_self _))
      (by rw [endUse, hterm]; exact hoperand) hvalue
    have hplace := home_ne_none hb' hdef hused hvalue
    obtain ⟨w, hw⟩ := exists_word rfl rfl hverified (hready.pushable a hmem) hplace link
    refine ⟨w, hw, (hready.getElem?_param hp ha hhome).trans ?_⟩
    unfold FunctionContext.pushed
    rw [hw]
    rfl
  · obtain ⟨hall, hcount⟩ := FunctionContext.moves_movesCode link position
      fun x hx => (hready.moves x hx).1
    exact Vm.runs_of_executes hall hcode (by rw [hcount]; exact hroom) hexec
  · exact exists_definition_of_isAvailable
      (hverified.term_uses b hb hreached term hterm a (Ssa.mem_operands_of_argsTo hedge ha))

/-! ### A loop that exchanges two values -/

/-- The loop goes on as long as a flag is set. -/
def swappingModule : Ssa.Module where
  functions := #[{ name := "swap", ret := Builtin.u64.id
                   paramTypes := [Builtin.u64.id, Builtin.u64.id, Builtin.bool.id]
                   paramModes := [.owned, .owned, .owned], blocks :=
                     [0, 1, 2, 3], entry := some 0 }]
  blocks := #[{ params := [0, 1, 2], term := some (.jump 1 [0, 1]) },
              { params := [3, 4], term := some (.branch 2 2 [] 3 []) },
              { term := some (.jump 1 [4, 3]) },
              { term := some (.ret (some 3)) }]
  values := #[{ type := Builtin.u64.id, site := .param 0 0 },
              { type := Builtin.u64.id, site := .param 0 1 },
              { type := Builtin.bool.id, site := .param 0 2 },
              { type := Builtin.u64.id, site := .param 1 0 },
              { type := Builtin.u64.id, site := .param 1 1 }]

/-- Before a round of the loop. -/
def swapping : Vm.Config where
  frame := { function := default, locals := #[7, 9, 1], base := 0 }
  stack := default
  memory := { size := 0 }
  ledger := {}

/-- The values have changed their slots, and the flag is where it was. -/
theorem parallel_edgeCopies_swap :
    let cx := functionContext swappingModule {} "t" {} swappingModule.functions[0]
    swappingModule.verify = [] ∧ ∃ locals : Array UInt64,
      @Vm.executes Hashing.sha256 {} {} ((cx.edgeCopies 1 [4, 3]).filterMap
        (·.encode ⟨fun _ => 0, fun _ => 0, fun _ => 0⟩ fun _ => 0)) swapping =
          .next { swapping with frame := { swapping.frame with locals } } ∧
      locals[0]? = some 9 ∧ locals[1]? = some 7 ∧ locals[2]? = some 1 := by
  have hverify : swappingModule.verify = [] := List.isEmpty_iff.mp (by decide +kernel)
  obtain ⟨locals, hpassed, hexec, -⟩ := @parallel_edgeCopies Hashing.sha256 swappingModule hverify 0
    swappingModule.functions[0] rfl rfl 2 (by decide) (.jump 1 [4, 3]) rfl 1 [4, 3]
      (by decide) {} "t" {}
    ⟨fun _ => 0, fun _ => 0, fun _ => 0⟩ (fun _ => 0) {} {} swapping (by decide)
      (by decide +kernel) (by decide)
  have hhome : (slotPlan swappingModule swappingModule.functions[0]).home 3 = .slot 0 ∧
      (slotPlan swappingModule swappingModule.functions[0]).home 4 = .slot 1 ∧
      (slotPlan swappingModule swappingModule.functions[0]).home 2 = .slot 2 := by decide +kernel
  have hword {v n : Nat} {w : UInt64}
      (hv : (slotPlan swappingModule swappingModule.functions[0]).home v = .slot n)
      (hw : swapping.frame.locals[n]? = some w) :
      (functionContext swappingModule {} "t" {} swappingModule.functions[0]).word?
        ⟨fun _ => 0, fun _ => 0, fun _ => 0⟩ swapping.frame.locals v = some w :=
    (FunctionContext.word?_of_slot hv).trans hw
  refine ⟨hverify, locals, hexec, ?_, ?_, ?_⟩
  · obtain ⟨w, hw, hlocal⟩ := hpassed.param 0 3 4 0 rfl rfl hhome.1 ⟨1, by decide, by decide⟩
    rw [hlocal, ← hw]
    exact hword hhome.2.1 rfl
  · obtain ⟨w, hw, hlocal⟩ := hpassed.param 1 4 3 1 rfl rfl hhome.2.1 ⟨1, by decide, by decide⟩
    rw [hlocal, ← hw]
    exact hword hhome.1 rfl
  · exact hpassed.other 2 2 hhome.2.2 ⟨by decide, .ending rfl (by decide)⟩

end Codegen

end ContractCompiler
