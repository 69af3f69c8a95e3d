import ContractCompiler.Ssa.Cfg

/-!
# Simpler control flow

A branch whose way is known becomes a jump, and blocks that cannot be reached are taken off the
lists of their functions.

- `simplifyBranch`: the jump that a branch amounts to;
- `Module.simplifyCfg`.
-/

namespace ContractCompiler.Ssa

/-- The jump that an ending amounts to, and whether its condition was a constant. -/
def simplifyBranch (m : Module) : Terminator → Option (Terminator × Bool)
  | .branch cond t targs e eargs =>
    match m.constWord? cond with
    | some w => some (if w != 0 then .jump t targs else .jump e eargs, true)
    | none => if t = e && targs == eargs then some (.jump t targs, false) else none
  | _ => none

/-- Simplifies the ending of a block. -/
def Module.simplifyBlock (m : Module) (b : BlockId) : Module × Bool :=
  match (m.block b).term.bind (simplifyBranch m) with
  | none => (m, false)
  | some (term, folded) =>
    ({ m with
        blocks := m.blocks.modify b fun block => { block with term := some term }
        counts :=
          { m.counts with branchesFolded := m.counts.branchesFolded + if folded then 1 else 0 } },
      true)

/-- Simplifies the endings of blocks in order. -/
def Module.simplifyBlocks : List BlockId → Module → Module × Bool
  | [], m => (m, false)
  | b :: bs, m =>
    let (m, changed) := m.simplifyBlock b
    let (m, rest) := simplifyBlocks bs m
    (m, changed || rest)

/-- A function without the blocks that cannot be reached. -/
def Module.dropUnreachable (m : Module) (f : Function) : Function :=
  let g := m.cfg f
  if f.excluded || g.entry.isNone then f
  else
    let reached := g.walk.seen
    { f with blocks := f.blocks.filter fun b => reached.getD b false }

/-- Simplifies the control flow of all functions; the flag says whether anything changed. -/
def Module.simplifyCfg (m : Module) : Module × Bool :=
  let (m, changed) := m.simplifyBlocks (m.functions.toList.flatMap (·.blocks))
  let functions := m.functions.map m.dropUnreachable
  let before := (m.functions.toList.map (·.blocks.length)).foldl (· + ·) 0
  let after := (functions.toList.map (·.blocks.length)).foldl (· + ·) 0
  ({ m with
      functions
      counts := { m.counts with blocksRemoved := m.counts.blocksRemoved + (before - after) } },
    changed || after < before)

end ContractCompiler.Ssa
