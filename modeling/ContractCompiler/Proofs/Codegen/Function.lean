import ContractCompiler.Proofs.Codegen.Assembly
import ContractCompiler.Proofs.Codegen.Inst

/-!
# Flow through functions

The code of a block goes from an empty stack to an empty stack: each instruction leaves for the next
what that one takes, and the ending takes the last word. So the code of a function flows, whatever
the order of its blocks.

- `FunctionContext.carries_terminator`: the code of an ending;
- `FunctionContext.Linked`: each instruction takes from the stack what the one before it left there;
- `FunctionContext.codeFlows_block`, `FunctionContext.codeFlows_blocks`: the code of blocks;
- `codeFlows_lowerFunction`: the code of a function.
-/

namespace ContractCompiler.Codegen

open Ssa (ValueId BlockId FuncId)

namespace FunctionContext

variable {cx : FunctionContext} {E : FlowContext}

/-! ## Endings -/

section Endings

variable {is : List Item} {k : Option Nat}

/-- Words that are pushed are taken again by as many slots. -/
theorem flows_moves (hcx : cx.Placed E) {moves : List (ValueId × Nat)}
    (hmoves : ∀ x ∈ moves, cx.plan.home x.1 ≠ .stack ∧ E.HasSlot x.2) :
    Flows E (some 0) ((moves.flatMap fun x => cx.push x.1) ++
      ((moves.reverse.map fun x => set x.2) ++ is)) k ↔
      Flows E (some 0) is k := by
  have hpushes (n : Nat) (moves : List (ValueId × Nat)) (is : List Item)
      (hmoves : ∀ x ∈ moves, cx.plan.home x.1 ≠ .stack ∧ E.HasSlot x.2) :
      Flows E (some n) ((moves.flatMap fun x => cx.push x.1) ++ is) k ↔
      Flows E (some (n + moves.length)) is k := by
    induction moves generalizing n with
    | nil => rfl
    | cons x moves ih =>
      rw [List.flatMap_cons, List.append_assoc, flows_push hcx (hmoves x List.mem_cons_self).1,
        ih _ fun y hy => hmoves y (List.mem_cons_of_mem x hy), List.length_cons, Nat.add_assoc,
        Nat.add_comm 1]
  have hsets (moves : List (ValueId × Nat))
      (hmoves : ∀ x ∈ moves, cx.plan.home x.1 ≠ .stack ∧ E.HasSlot x.2) :
      Flows E (some moves.length) ((moves.map fun x => set x.2) ++ is) k ↔
      Flows E (some 0) is k := by
    induction moves with
    | nil => rfl
    | cons x moves ih =>
      simp [(hmoves x List.mem_cons_self).2, ih fun y hy => hmoves y (List.mem_cons_of_mem x hy)]
  rw [hpushes 0 moves _ hmoves, Nat.zero_add, ← List.length_reverse,
    hsets moves.reverse fun x hx => hmoves x (List.mem_reverse.mp hx)]

/-- Passing arguments to a block leaves nothing on the stack. -/
theorem flows_edgeCopies (hcx : cx.Placed E) (target : BlockId) {args : List ValueId}
    (hargs : ∀ v ∈ args, cx.plan.home v ≠ .stack) :
    Flows E (some 0) (cx.edgeCopies target args ++ is) k ↔ Flows E (some 0) is k := by
  have hmoves : ∀ x ∈ cx.edgeMoves target args, cx.plan.home x.1 ≠ .stack ∧ E.HasSlot x.2 := by
    intro x hx
    obtain ⟨⟨p, a⟩, hmem, heq⟩ := List.mem_filterMap.mp hx
    have ha := hargs a (List.of_mem_zip hmem).2
    cases hhome : cx.plan.home p with
    | slot s =>
      simp only [hhome, Option.some.injEq] at heq
      subst heq
      exact ⟨ha, hcx.slot p s hhome⟩
    | _ => simp [hhome] at heq
  rw [edgeCopies, List.append_assoc]
  exact flows_moves hcx hmoves

theorem markJumps_edgeCopies (target : BlockId) (args : List ValueId) :
    markJumps (cx.edgeCopies target args) = [] := by
  unfold edgeCopies
  generalize cx.edgeMoves target args = moves
  have hpushes : markJumps (moves.flatMap fun x => cx.push x.1) = [] := by
    induction moves with
    | nil => rfl
    | cons x moves ih => simp [ih]
  have hsets (moves : List (ValueId × Nat)) : markJumps (moves.map fun x => set x.2) = [] := by
    induction moves with
    | nil => rfl
    | cons x moves ih =>
      rw [List.map_cons, markJumps_cons, ih]
      rfl
  rw [markJumps_append, hpushes, hsets, List.append_nil]

/-- Control goes to a block, or on to the code that follows. -/
theorem exists_flows_goTo {target : BlockId} (htarget : target ∈ E.blocks) (next : Option BlockId) :
    ∃ k, Flows E (some 0) (goTo next target) k ∧
      (k = none ∨ (k = some 0 ∧ next.isSome = true)) := by
  unfold goTo
  split
  · rename_i hnext
    exact ⟨some 0, rfl, .inr ⟨rfl, by rw [hnext]; rfl⟩⟩
  · exact ⟨none, by simp [htarget], .inl rfl⟩

theorem markJumps_goTo (next : Option BlockId) (target : BlockId) :
    markJumps (goTo next target) = [] := by
  unfold goTo
  split
  · rfl
  · simp [Item.markJump?]

/-- The code of an ending takes the operand on the stack and leaves nothing. Control goes on to the
code that follows only if that is the code of a block. -/
theorem carries_terminator (hcx : cx.Placed E) {term : Ssa.Terminator}
    (htakes : cx.Takes term.operands term.stackOperand?)
    (hblocks : ∀ b ∈ term.successors, b ∈ E.blocks)
    (hresult : E.hasResult = !cx.types.isUnit cx.function.ret)
    (hret : term = .ret none → cx.types.isUnit cx.function.ret = true) (next : Option BlockId) :
    ∃ k, Carries E (cx.heldBy term.stackOperand?) (cx.terminator next term) k ∧
      (k = none ∨ (k = some 0 ∧ next.isSome = true)) := by
  cases term with
  | jump target args =>
    obtain ⟨k, hgoTo, hk⟩ := exists_flows_goTo
      (hblocks target (List.mem_singleton_self target)) next
    refine ⟨k, .of_flows ?_ ?_, hk⟩
    · exact (flows_edgeCopies hcx target fun v hv => htakes.home_of_none hv).mpr hgoTo
    · simp [terminator, markJumps_edgeCopies, markJumps_goTo]
  | branch cond t targs e eargs =>
    have ht : t ∈ E.blocks := hblocks t (by simp [Ssa.Terminator.successors])
    have he : e ∈ E.blocks := hblocks e (by simp [Ssa.Terminator.successors])
    have htargs : ∀ v ∈ targs, cx.plan.home v ≠ .stack :=
      fun v hv => htakes.home_of_mem (List.mem_append_left eargs hv)
    have heargs : ∀ v ∈ eargs, cx.plan.home v ≠ .stack :=
      fun v hv => htakes.home_of_mem (List.mem_append_right targs hv)
    obtain ⟨k, hgoTo, hk⟩ := exists_flows_goTo he next
    refine ⟨k, ⟨?_, ?_⟩, hk⟩
    · show Flows E (some (cx.held cond)) (cx.push cond ++ _) k
      rw [flows_first hcx]
      split
      · simp [ht, hgoTo]
      · simp [markHeight, flows_edgeCopies hcx t htargs, ht, flows_edgeCopies hcx e heargs, hgoTo]
    · simp only [terminator]
      split <;>
        simp [markJumps_edgeCopies, markJumps_goTo, jumpIfNot, Item.markJump?, Item.mark?]
  | ret value =>
    refine ⟨none, ?_, .inl rfl⟩
    cases value with
    | none =>
      exact .of_flows (by simp [terminator, hresult, hret rfl])
        (by simp [terminator, op, Item.markJump?])
    | some v =>
      cases hunit : cx.types.isUnit cx.function.ret with
      | true =>
        exact .of_flows (by simp [terminator, hunit, hresult])
          (by simp [terminator, hunit, op, Item.markJump?])
      | false =>
        refine .of_flows ?_ (by simp [terminator, hunit, op, Item.markJump?])
        simp [terminator, hunit, hresult, Ssa.Terminator.stackOperand?, flows_first hcx]
  | revert message =>
    exact ⟨none, .of_flows (flows_giveUp rfl rfl _ _) (markJumps_giveUp _ _ _), .inl rfl⟩
  | panic message =>
    exact ⟨none, .of_flows (flows_giveUp rfl rfl _ _) (markJumps_giveUp _ _ _), .inl rfl⟩
  | unreachable => exact ⟨none, .of_flows (by simp [terminator]) rfl, .inl rfl⟩

end Endings

/-! ## Blocks -/

/-- Each instruction takes from the stack what the one before it left there, and the ending what the
last one left. -/
def Linked (cx : FunctionContext) (term : Option Ssa.Terminator) :
    Option ValueId → List Ssa.Inst → Prop
  | prev, [] => ∀ t, term = some t → cx.heldBy prev = cx.heldBy t.stackOperand? ∧
      cx.Takes t.operands t.stackOperand?
  | prev, i :: is => cx.heldBy prev = cx.heldBy i.data.stackOperand? ∧
      cx.Takes i.data.operands i.data.stackOperand? ∧ Linked cx term i.result is

section Blocks

variable [Hashing] {b : BlockId} {weight : UInt64} {next : Option BlockId}

/-- The piece of an instruction. -/
def instPiece (cx : FunctionContext) (weight : UInt64) (i : Ssa.Inst) : Piece where
  weight
  scratch := (cx.inst i).scratch
  items := (cx.inst i).items

/-- The piece of the ending of a block. -/
def endingPiece (cx : FunctionContext) (weight : UInt64) (next : Option BlockId)
    (term : Option Ssa.Terminator) : Piece where
  weight
  items := (term.map (cx.terminator next)).getD [trap .unreachable]

theorem block_eq (cx : FunctionContext) (b : BlockId) (weight : UInt64) (next : Option BlockId) :
    cx.block b weight next = { label := some (.block b) } ::
      ((((cx.module.blockInsts (cx.module.block b)).map (·.2)).map (cx.instPiece weight)) ++
        [cx.endingPiece weight next (cx.module.block b).term]) := by
  rw [List.map_map]
  rfl

/-- What the code of an ending needs. -/
structure EndingFits (cx : FunctionContext) (E : FlowContext)
    (term : Option Ssa.Terminator) : Prop where
  successors : ∀ t, term = some t → ∀ b ∈ t.successors, b ∈ E.blocks
  result : E.hasResult = !cx.types.isUnit cx.function.ret
  ret : term = some (.ret none) → cx.types.isUnit cx.function.ret = true

/-- The code of the rest of a block takes the word that is left and leaves nothing. -/
theorem codeFlows_insts (hcx : cx.Placed E) {term : Option Ssa.Terminator} {insts : List Ssa.Inst}
    {prev : Option ValueId} (hlinked : cx.Linked term prev insts)
    (hfits : ∀ i ∈ insts, cx.ResultFits E i) (hok : ∀ i ∈ insts, ∀ f, .fault f ∉ (cx.inst i).items)
    (htemps : ∀ i ∈ insts, cx.Temps E (cx.inst i).scratch) (hend : cx.EndingFits E term)
    (weight : UInt64) (next : Option BlockId) : ∃ k, CodeFlows E (some (cx.heldBy prev))
        (insts.map (cx.instPiece weight) ++ [cx.endingPiece weight next term]) k ∧
      (k = none ∨ (k = some 0 ∧ next.isSome = true)) := by
  induction insts generalizing prev with
  | nil =>
    cases term with
    | none =>
      have htrap : Carries E (cx.heldBy prev) [trap .unreachable] none := .of_flows (by simp) rfl
      exact ⟨none, ⟨none, htrap.piece rfl, rfl⟩, .inl rfl⟩
    | some t =>
      obtain ⟨hheld, htakes⟩ := hlinked t rfl
      obtain ⟨k, hcarries, hk⟩ := carries_terminator hcx htakes (hend.successors t rfl) hend.result
        (fun ht => hend.ret (congrArg some ht)) next
      exact ⟨k, ⟨k, (hheld ▸ hcarries : Carries E (cx.heldBy prev) _ _).piece rfl, rfl⟩, hk⟩
  | cons i insts ih =>
    obtain ⟨hheld, htakes, hlinked⟩ := hlinked
    have hi := List.mem_cons_self (a := i) (l := insts)
    have hcarries := carries_inst hcx htakes (hfits i hi) (hok i hi) (htemps i hi)
    obtain ⟨k, hrest, hk⟩ := ih hlinked (fun j hj => hfits j (List.mem_cons_of_mem i hj))
      (fun j hj => hok j (List.mem_cons_of_mem i hj))
        (fun j hj => htemps j (List.mem_cons_of_mem i hj))
    exact ⟨k, ⟨_, (hheld ▸ hcarries : Carries E (cx.heldBy prev) _ _).piece rfl, hrest⟩, hk⟩

/-- The code of a block fits: its instructions are linked and have results as their code leaves
words. -/
structure BlockFits (cx : FunctionContext) (E : FlowContext) (b : Ssa.Block) : Prop where
  linked : cx.Linked b.term none ((cx.module.blockInsts b).map (·.2))
  results : ∀ i ∈ (cx.module.blockInsts b).map (·.2), cx.ResultFits E i
  ending : cx.EndingFits E b.term

/-- The code of a block goes from an empty stack to an empty stack. -/
theorem codeFlows_block (hcx : cx.Placed E) (hb : cx.BlockFits E (cx.module.block b))
    (hok : ∀ p ∈ cx.block b weight next, ∀ f, .fault f ∉ p.items)
    (htemps : ∀ p ∈ cx.block b weight next, cx.Temps E p.scratch) {h : Option Nat}
    (hh : h = none ∨ h = some 0) :
    ∃ k, CodeFlows E h (cx.block b weight next) k ∧
      (k = none ∨ (k = some 0 ∧ next.isSome = true)) := by
  rw [block_eq] at hok htemps ⊢
  have hpiece {i : Ssa.Inst} (hi : i ∈ (cx.module.blockInsts (cx.module.block b)).map (·.2)) :
      cx.instPiece weight i ∈ ({ label := some (.block b) } : Piece) ::
        ((((cx.module.blockInsts (cx.module.block b)).map (·.2)).map (cx.instPiece weight)) ++
          [cx.endingPiece weight next (cx.module.block b).term]) :=
    List.mem_cons_of_mem _ (List.mem_append_left _ (List.mem_map_of_mem hi))
  obtain ⟨k, hflows, hk⟩ := codeFlows_insts hcx hb.linked hb.results
    (fun i hi => hok _ (hpiece hi)) (fun i hi => htemps _ (hpiece hi)) hb.ending weight next
  refine ⟨k, ⟨some 0, ⟨fun _ => ?_, rfl, List.nil_subset _⟩, hflows⟩, hk⟩
  rcases hh with rfl | rfl <;> rfl

theorem codeFlows_blocks (hcx : cx.Placed E) {depths : Array Nat} {bs : List BlockId}
    (hbs : ∀ b ∈ bs, cx.BlockFits E (cx.module.block b))
    (hok : ∀ p ∈ cx.blocks depths bs, ∀ f, .fault f ∉ p.items)
    (htemps : ∀ p ∈ cx.blocks depths bs, cx.Temps E p.scratch) {h : Option Nat}
    (hh : h = none ∨ (h = some 0 ∧ bs.head?.isSome = true)) :
    CodeFlows E h (cx.blocks depths bs) none := by
  induction bs generalizing h with
  | nil =>
    rcases hh with rfl | ⟨-, hempty⟩
    · rfl
    · cases hempty
  | cons b bs ih =>
    rw [blocks] at hok htemps ⊢
    obtain ⟨k, hb, hk⟩ := codeFlows_block hcx (hbs b List.mem_cons_self)
      (fun p hp => hok p (List.mem_append_left _ hp))
        (fun p hp => htemps p (List.mem_append_left _ hp)) (hh.imp_right And.left)
    refine codeFlows_append.mpr ⟨k, hb, ih (fun c hc => hbs c (List.mem_cons_of_mem b hc)) ?_ ?_ hk⟩
    · exact fun p hp => hok p (List.mem_append_right _ hp)
    · exact fun p hp => htemps p (List.mem_append_right _ hp)

theorem exists_label_of_mem (cx : FunctionContext) (depths : Array Nat) {bs : List BlockId}
    (hb : b ∈ bs) :
    ∃ p ∈ cx.blocks depths bs, p.label = some (.block b) := by
  induction bs with
  | nil => cases hb
  | cons c bs ih =>
    rw [blocks]
    rcases List.mem_cons.mp hb with rfl | hb
    · exact ⟨{ label := some (.block b) }, List.mem_append_left _
        (by rw [block_eq]; exact List.mem_cons_self), rfl⟩
    · obtain ⟨p, hp, hl⟩ := ih hb
      exact ⟨p, List.mem_append_right _ hp, hl⟩

end Blocks

theorem items_failure (cx : FunctionContext) (fl : Failure) : (cx.failure fl).items =
    [.reserve .message (Bytes.utf8 fl.message) cx.function.span, .address (Bytes.utf8 fl.message),
      lit (UInt64.ofNat (Bytes.utf8 fl.message).length), .callHost .panic, trap .unreachable] :=
  rfl

theorem codeFlows_failures (fs : List Failure) : CodeFlows E none (fs.map cx.failure) none := by
  induction fs with
  | nil => rfl
  | cons f fs ih =>
    have hflows : Flows E (some 0) (cx.failure f).items none := flows_giveUp rfl rfl _ _
    have hmarks : markJumps (cx.failure f).items = [] := markJumps_giveUp _ _ _
    exact ⟨none, ⟨fun _ => rfl, hflows, hmarks ▸ List.nil_subset _⟩, ih⟩

end FunctionContext

/-! ## Functions -/

theorem le_foldl_max {α : Type} (g : α → Nat) (xs : List α) (n : Nat) :
    n ≤ xs.foldl (fun n x => max n (g x)) n ∧
    ∀ x ∈ xs, g x ≤ xs.foldl (fun n x => max n (g x)) n := by
  induction xs generalizing n with
  | nil => simp
  | cons y xs ih =>
    obtain ⟨hle, hmem⟩ := ih (max n (g y))
    refine ⟨?_, fun x hx => ?_⟩
    · exact Nat.le_trans (Nat.le_max_left _ _) hle
    · rcases List.mem_cons.mp hx with rfl | hx
      · exact Nat.le_trans (Nat.le_max_right _ _) hle
      · exact hmem x hx

section Functions

variable [Hashing] {m : Ssa.Module} {types : TypePool} {unit : String} {options : CodegenOptions}
  {f : Ssa.Function} {E : FlowContext}

/-- What the code of a function depends on. -/
def functionContext (m : Ssa.Module) (types : TypePool) (unit : String) (options : CodegenOptions)
    (f : Ssa.Function) : FunctionContext where
  module := m
  types
  function := f
  unit
  plan := slotPlan m f
  options

/-- The code of a function flows. -/
theorem codeFlows_lowerFunction
    (hslots : E.slots = (lowerFunction m types unit options f).numLocals)
    (hcx : (functionContext m types unit options f).Placed E) (hne : f.blocks ≠ [])
    (hblocks : ∀ b ∈ f.blocks, (functionContext m types unit options f).BlockFits E (m.block b))
    (hok : ∀ p ∈ (lowerFunction m types unit options f).pieces, ∀ fault, .fault fault ∉ p.items) :
    CodeFlows E (some 0) (lowerFunction m types unit options f).pieces none := by
  have htemps : ∀ p ∈ (lowerFunction m types unit options f).pieces,
      (functionContext m types unit options f).Temps E p.scratch := by
    intro p hp n hn
    have hle := (le_foldl_max (fun p : Piece => p.scratch)
      (lowerFunction m types unit options f).pieces 0).2 p hp
    refine FlowContext.hasSlot_of_lt ?_
    rw [hslots]
    exact Nat.add_lt_add_left (Nat.lt_of_lt_of_le hn hle) _
  have hhead : f.blocks.head?.isSome = true := by
    cases hbs : f.blocks with
    | nil => exact absurd hbs hne
    | cons b bs => rfl
  refine codeFlows_append.mpr ⟨none, ?_, FunctionContext.codeFlows_failures _⟩
  exact FunctionContext.codeFlows_blocks hcx hblocks (fun p hp => hok p (List.mem_append_left _ hp))
    (fun p hp => htemps p (List.mem_append_left _ hp)) (.inr ⟨rfl, hhead⟩)

theorem exists_block_label {b : BlockId} (hb : b ∈ f.blocks) :
    ∃ p ∈ (lowerFunction m types unit options f).pieces, p.label = some (.block b) := by
  obtain ⟨p, hp, hl⟩ := (functionContext m types unit options f).exists_label_of_mem
    (m.loopDepths f) hb
  exact ⟨p, List.mem_append_left _ hp, hl⟩

omit [Hashing] in
/-- The failures that the code of blocks jumps to have code. -/
theorem exists_failure_of_jump (cx : FunctionContext) {body : List Piece} {p : Piece}
    (hp : p ∈ body) {o : Vm.Op} {fl : Failure} (hjump : .jump o (.label (.failure fl)) ∈ p.items) :
    ∃ q ∈ (Failure.all.filter (needsFailure body)).map cx.failure, q.label =
      some (.failure fl) := by
  refine ⟨cx.failure fl, List.mem_map_of_mem
    (List.mem_filter.mpr ⟨by cases fl <;> simp [Failure.all], ?_⟩), rfl⟩
  exact List.any_eq_true.mpr ⟨p, hp, List.any_eq_true.mpr ⟨_, hjump, by simp [Item.failure?]⟩⟩

/-- The failures that code jumps to have code. -/
theorem exists_failure_label {p : Piece}
    (hp : p ∈ (lowerFunction m types unit options f).pieces) {o : Vm.Op} {fl : Failure}
    (hjump : .jump o (.label (.failure fl)) ∈ p.items) :
    ∃ q ∈ (lowerFunction m types unit options f).pieces, q.label = some (.failure fl) := by
  rcases List.mem_append.mp hp with hbody | hfailure
  · obtain ⟨q, hq, hl⟩ := exists_failure_of_jump
      (functionContext m types unit options f) hbody hjump
    exact ⟨q, List.mem_append_right _ hq, hl⟩
  · -- The code of a failure jumps nowhere.
    obtain ⟨fl', -, rfl⟩ := List.mem_map.mp hfailure
    simp [FunctionContext.items_failure, trap, lit] at hjump

end Functions

end ContractCompiler.Codegen
