import ContractCompiler.Ssa.Basic

/-!
# Dead code

An instruction that only computes a value that is never used is taken out of its block. Others may
be left without a use by that, so it is done in rounds.

- `Module.useCounts`: how often each value is used;
- `Module.removeDeadCode`.
-/

namespace ContractCompiler.Ssa

/-- The uses of values in a block. -/
def Module.usesOfBlock (m : Module) (b : BlockId) : List ValueId :=
  let block := m.block b
  (m.blockInsts block).flatMap (fun (_, i) => i.data.operands)
    ++ ((block.term.map (·.operands)).getD [])

/-- How often each value is used in the blocks of functions. -/
def Module.useCounts (m : Module) : Array Nat :=
  (m.functions.toList.flatMap (·.blocks)).foldl
    (fun counts b => (m.usesOfBlock b).foldl (fun counts v => counts.modify v (· + 1)) counts)
    (Array.replicate m.values.size 0)

/-- Whether an instruction only computes a value without a use. -/
def isDead (uses : Array Nat) (inst : Inst) : Bool :=
  inst.effect == .pure && inst.result.any fun r => uses.getD r 1 == 0

/-- The instructions of a block that are kept. -/
def Module.keptInsts (m : Module) (uses : Array Nat) (b : Block) : List InstId :=
  b.insts.filter fun i => !((m.insts[i]?).any (isDead uses))

/-- Takes dead instructions out of blocks. -/
def Module.pruneBlocks (uses : Array Nat) : List BlockId → Module → Module
  | [], m => m
  | b :: bs, m =>
    let kept := m.keptInsts uses (m.block b)
    let removed := (m.block b).insts.length - kept.length
    let m := { m with
      blocks := m.blocks.modify b fun block => { block with insts := kept }
      counts := { m.counts with instsRemoved := m.counts.instsRemoved + removed } }
    pruneBlocks uses bs m

/-- Takes out dead instructions in rounds until there are none, at most as many as given. -/
def Module.pruneRounds : Nat → Module → Bool → Module × Bool
  | 0, m, changed => (m, changed)
  | n + 1, m, changed =>
    let m' := m.pruneBlocks m.useCounts (m.functions.toList.flatMap (·.blocks))
    if m'.counts.instsRemoved = m.counts.instsRemoved then (m, changed)
    else pruneRounds n m' true

/-- Takes out dead instructions until there are none; the flag says whether there were any. Each
round takes out at least one. -/
def Module.removeDeadCode (m : Module) : Module × Bool :=
  m.pruneRounds ((m.blocks.toList.map (·.insts.length)).foldl (· + ·) 0 + 1) false

end ContractCompiler.Ssa
