import ContractCompiler.BitSet
import ContractCompiler.Ssa.Basic

/-!
# Where values live

The code of a function keeps each value in one place. Constants are made anew at each use. A value
whose only use is the first operand of what follows at once stays on the operand stack. All other
values that are used live in numbered local slots, and two of them share a slot only if neither is
written while the other may still be used.

- `Home`: the place of a value;
- `InstData.stackOperand?`, `Terminator.stackOperand?`: the operand that is pushed before anything
  else;
- `SlotInput.liveIn`: the values in slots that may be used from the start of a block on;
- `SlotInput.conflicts`: the values that are alive where a value is written;
- `Module.slotPlan`: the places of the values of a function.
-/

namespace ContractCompiler

namespace Ssa

/-! ## Operands that can stay on the stack -/

/-- The operand that the code of an instruction pushes before it does anything else, if it pushes
that operand only once. -/
def InstData.stackOperand? : InstData → Option ValueId
  | .binary op mode left _ =>
    if op.isCompare || op.isBitwise then some left
    else if op = .rem && mode ≠ .checked then some left
    else if mode = .wrapping && op ≠ .div then some left
    else none
  | .unary op _ src => if op = .neg then none else some src
  | .cast mode _ src => if mode = .wrapping then some src else none
  | .extract base _ => some base
  | .resultIsOk src | .resultCode src | .bytesLength src => some src
  | .refLoad ref | .refStore ref _ => some ref
  | .call _ args => args.head?
  | _ => none

/-- The operand that the code of an ending pushes before it does anything else. -/
def Terminator.stackOperand? : Terminator → Option ValueId
  | .branch cond .. => some cond
  | .ret value => value
  | _ => none

/-- Whether an instruction makes a constant. -/
def InstData.isConst : InstData → Bool
  | .constInt _ | .constBool _ | .constBytes _ => true
  | _ => false

end Ssa

open Ssa

namespace Codegen

/-- The place of a value. -/
inductive Home where
  /-- The value is not used, and dropped where it is made. -/
  | none
  /-- The value is made anew at each use. -/
  | const
  /-- The value stays on the operand stack until what follows takes it. -/
  | stack
  /-- The value lives in a local slot. -/
  | slot (n : Nat)
deriving DecidableEq, Repr, Inhabited

/-- The kind of place that a value needs. -/
inductive HomeKind where
  | none | const | stack | slot
deriving DecidableEq, Repr, Inhabited

/-- How often values are used in the blocks of a function. -/
def useCounts (m : Ssa.Module) (f : Ssa.Function) : Array Nat :=
  f.blocks.foldl
    (fun counts b =>
      let block := m.block b
      let counts := (m.blockInsts block).foldl
        (fun counts (_, i) => i.data.operands.foldl (fun counts v => counts.modify v (· + 1))
          counts) counts
      ((block.term.map (·.operands)).getD []).foldl
        (fun counts v => counts.modify v (· + 1)) counts)
    (Array.replicate m.values.size 0)

/-- The kind of place that the result of an instruction needs, given the operand that what follows
takes from the stack. -/
def resultKind (uses : Array Nat) (inst : Inst) (r : ValueId) (taken : Option ValueId) : HomeKind :=
  if inst.data.isConst then .const
  else if uses.getD r 0 = 0 then .none
  else if uses.getD r 0 = 1 && taken = some r then .stack
  else .slot

/-- Sets the kinds of the results of instructions that end a block. -/
def resultKinds (uses : Array Nat) (term : Option Terminator) :
    List Inst → Array HomeKind → Array HomeKind
  | [], kinds => kinds
  | inst :: rest, kinds =>
    match inst.result with
    | none => resultKinds uses term rest kinds
    | some r =>
      let taken := match rest with
        | next :: _ => next.data.stackOperand?
        | [] => term.bind (·.stackOperand?)
      resultKinds uses term rest (kinds.setIfInBounds r
        (if !inst.data.isConst && uses.getD r 0 = 0 then kinds.getD r .none
         else resultKind uses inst r taken))

/-- Sets the kinds of the parameters of a block. Those of the entry always have slots, for the
caller fills them. -/
def paramKinds (uses : Array Nat) (isEntry : Bool) (params : List ValueId)
    (kinds : Array HomeKind) :
    Array HomeKind :=
  params.foldl
    (fun kinds p => if isEntry || uses.getD p 0 ≠ 0 then kinds.setIfInBounds p .slot
      else kinds) kinds

/-- The kinds of places that the values of a function need. -/
def homeKinds (m : Ssa.Module) (f : Ssa.Function) : Array HomeKind :=
  let uses := useCounts m f
  f.blocks.foldl
    (fun kinds b =>
      let block := m.block b
      resultKinds uses block.term ((m.blockInsts block).map (·.2))
        (paramKinds uses (f.entry == some b) block.params kinds))
    (Array.replicate m.values.size .none)

/-! ## Liveness -/

/-- What the assignment of slots is made from: a function and the values that need slots. -/
structure SlotInput where
  module : Ssa.Module
  function : Ssa.Function
  /-- The values that need slots. -/
  slotted : BitSet

namespace SlotInput

/-- Adds those of the given values that need slots. -/
def addUses (c : SlotInput) (vs : List ValueId) (live : BitSet) : BitSet :=
  vs.foldl (fun live v => if c.slotted.contains v then live.insert v else live) live

/-- The values that are alive before an instruction, from those alive after it. -/
def throughInst (c : SlotInput) (inst : Inst) (live : BitSet) : BitSet :=
  let live := match inst.result with
    | some r => live.erase r
    | none => live
  c.addUses inst.data.operands live

/-- The values that are alive at the end of a block before it goes on, given those alive at the
starts of blocks. -/
def atEnd (c : SlotInput) (liveIn : Array BitSet) (b : Block) : BitSet :=
  let out := b.successors.foldl (fun live s => live.union (liveIn.getD s .empty)) .empty
  c.addUses ((b.term.map (·.operands)).getD []) out

/-- The instructions of a block. -/
def insts (c : SlotInput) (b : Block) : List Inst := (c.module.blockInsts b).map (·.2)

/-- The values that are alive when a block starts and its parameters are set. -/
def atStart (c : SlotInput) (liveIn : Array BitSet) (b : Block) : BitSet :=
  (c.insts b).foldr c.throughInst (c.atEnd liveIn b)

/-- The values that are alive when control comes to a block. -/
def intoBlock (c : SlotInput) (liveIn : Array BitSet) (b : Block) : BitSet :=
  (c.atStart liveIn b).diff (.ofList b.params)

/-- One round of the analysis, from the last block to the first. -/
def round (c : SlotInput) (liveIn : Array BitSet) : Array BitSet :=
  c.function.blocks.reverse.foldl
    (fun liveIn b => liveIn.setIfInBounds b (c.intoBlock liveIn (c.module.block b))) liveIn

/-- The values that are alive when control comes to each block. Each round that changes something
adds a value to the set of a block. -/
def liveIn (c : SlotInput) : Array BitSet :=
  BitSet.settle c.round (c.function.blocks.length * c.module.values.size + 1)
    (Array.replicate c.module.blocks.size .empty)

/-! ## Conflicts -/

/-- Notes that a value is written while others are alive. -/
def addConflicts (v : ValueId) (live : BitSet) (conflicts : Array BitSet) : Array BitSet :=
  conflicts.modify v (·.union (live.erase v))

/-- Notes the conflicts of the results of instructions, from the last to the first, and gives the
values that are alive before them. -/
def instConflicts (c : SlotInput) :
    List Inst → BitSet → Array BitSet → BitSet × Array BitSet
  | [], live, conflicts => (live, conflicts)
  | inst :: rest, live, conflicts =>
    let (live, conflicts) := instConflicts c rest live conflicts
    let conflicts := match inst.result with
      | some r => if c.slotted.contains r then addConflicts r live conflicts else conflicts
      | none => conflicts
    (c.throughInst inst live, conflicts)

/-- Notes the conflicts of a block. Its parameters are all written at once, so each is in conflict
with the others. -/
def blockConflicts (c : SlotInput) (liveIn : Array BitSet) (b : Block) (conflicts : Array BitSet) :
    Array BitSet :=
  let (live, conflicts) := c.instConflicts (c.insts b) (c.atEnd liveIn b) conflicts
  let params := b.params.filter c.slotted.contains
  params.foldl (fun conflicts p => addConflicts p (live.union (.ofList params)) conflicts) conflicts

/-- For each value, the values that are alive where it is written. -/
def conflicts (c : SlotInput) : Array BitSet :=
  let liveIn := c.liveIn
  c.function.blocks.foldl
    (fun conflicts b => c.blockConflicts liveIn (c.module.block b) conflicts)
    (Array.replicate c.module.values.size .empty)

end SlotInput

/-- Whether one of two values is written while the other is alive. -/
def interfere (conflicts : Array BitSet) (a b : ValueId) : Bool :=
  (conflicts.getD a .empty).contains b || (conflicts.getD b .empty).contains a

/-! ## Assignment of slots -/

/-- The slots given out so far, the last first. -/
abbrev Assigned := List (ValueId × Nat)

/-- The least number from a start that is not in a set, among the given count of numbers. -/
def leastFree (taken : BitSet) : Nat → Nat → Nat
  | 0, n => n
  | fuel + 1, n => if taken.contains n then leastFree taken fuel (n + 1) else n

/-- The least slot that no value in conflict with the given one has. -/
def freeSlot (conflicts : Array BitSet) (assigned : Assigned) (v : ValueId) : Nat :=
  let taken := assigned.foldl
    (fun taken (x, s) => if interfere conflicts v x then taken.insert s else taken) BitSet.empty
  leastFree taken assigned.length 0

/-- Gives slots to values in turn, leaving those that have one. -/
def assignSlots (conflicts : Array BitSet) : List ValueId → Assigned → Assigned
  | [], assigned => assigned
  | v :: vs, assigned =>
    if (assigned.lookup v).isSome then assignSlots conflicts vs assigned
    else assignSlots conflicts vs ((v, freeSlot conflicts assigned v) :: assigned)

/-- The values that a block defines, in order. -/
def definitions (m : Ssa.Module) (b : Block) : List ValueId :=
  b.params ++ (m.blockInsts b).filterMap (·.2.result)

/-- The places of the values of a function. -/
structure SlotPlan where
  homes : Array Home := #[]
  /-- How many slots there are; the parameters of the function have the first ones. -/
  numSlots : Nat := 0
deriving DecidableEq, Repr, Inhabited

namespace SlotPlan

/-- The place of a value; there is none for the number of no value. -/
def home (p : SlotPlan) (v : ValueId) : Home := p.homes.getD v .none

/-- How many values stay on the operand stack. -/
def stackValues (p : SlotPlan) : Nat := p.homes.countP (· == .stack)

/-- How many values are made anew at each use. -/
def constValues (p : SlotPlan) : Nat := p.homes.countP (· == .const)

/-- How many values live in slots. -/
def slotValues (p : SlotPlan) : Nat :=
  p.homes.countP fun
    | .slot _ => true
    | _ => false

end SlotPlan

/-- The parameters of the entry of a function. -/
def entryParams (m : Ssa.Module) (f : Ssa.Function) : List ValueId :=
  (f.entry.map fun b => (m.block b).params).getD []

/-- The place of a value that needs a kind of place. -/
def homeOf (slots : Array Nat) (kind : HomeKind) (v : ValueId) : Home :=
  match kind with
  | .none => .none
  | .const => .const
  | .stack => .stack
  | .slot => .slot (slots.getD v 0)

/-- The places of the values of a function. The parameters of the entry have the first slots in
order; the other values take the least slot that is free for them, in the order of their
definitions. -/
def slotPlan (m : Ssa.Module) (f : Ssa.Function) : SlotPlan :=
  let kinds := homeKinds m f
  let isSlotted (v : ValueId) : Bool := kinds.getD v .none == .slot
  let params := entryParams m f
  let fixed := (params.zipIdx.filter fun (p, _) => isSlotted p).reverse
  let defined := (f.blocks.flatMap fun b => definitions m (m.block b)).filter isSlotted
  let input : SlotInput := { module := m, function := f, slotted := .ofList defined }
  let assigned := assignSlots input.conflicts defined fixed
  let slots := assigned.foldr (fun (v, s) slots => slots.setIfInBounds v s)
    (Array.replicate m.values.size 0)
  { homes := (Array.range m.values.size).map fun v => homeOf slots (kinds.getD v .none) v
    numSlots := assigned.foldl (fun n (_, s) => max n (s + 1)) params.length }

end Codegen

end ContractCompiler
