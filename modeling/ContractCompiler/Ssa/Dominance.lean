import ContractCompiler.BitSet
import ContractCompiler.Ssa.Cfg

/-!
# Dominance

A block dominates another if every path from the entry to the second passes the first. The
dominators of all blocks are found together: as long as nothing is known, every block counts as a
dominator of every other, and rounds over the blocks take away what a predecessor does not have.

- `Cfg.dominatorRound`: one round;
- `Dominance`: the blocks that are reached, and the dominators of each, found by rounds until one
  changes nothing;
- `Dominance.dominates`;
- `Module.loopDepths`: how many natural loops each block is in.
-/

namespace ContractCompiler.Ssa

/-! ## Dominators -/

/-- What dominates a block by what dominates its predecessors: the block itself, and what dominates
all of them. -/
def meetDominators (sets : Array BitSet) (b : BlockId) : List BlockId → BitSet
  | [] => .singleton b
  | p :: ps =>
    (ps.foldl (fun met q => met.inter (sets.getD q .empty)) (sets.getD p .empty)).insert b

namespace Cfg

/-- The blocks with an edge to each block that can be reached themselves. -/
def reachedPredecessors (g : Cfg) : Array (List BlockId) :=
  let reached := g.walk.seen
  g.predecessors.map fun preds => preds.filter fun b => reached.getD b false

/-- The sets that the rounds begin with: only the entry dominates the entry, and nothing is known
about the other blocks. -/
def firstDominators (g : Cfg) : Array BitSet :=
  g.entry.toList.foldl (fun sets entry => sets.setIfInBounds entry (.singleton entry))
    (Array.replicate g.size (.ofList g.blocks))

/-- Gives a block the dominators that its predecessors have in common. Those of the entry are
known. -/
def dominatorStep (g : Cfg) (preds : Array (List BlockId)) (sets : Array BitSet) (b : BlockId) :
    Array BitSet :=
  if g.entry = some b then sets
  else sets.setIfInBounds b (meetDominators sets b (preds.getD b []))

/-- One round over the blocks, in the order of the list. -/
def dominatorRound (g : Cfg) (preds : Array (List BlockId)) (sets : Array BitSet) : Array BitSet :=
  g.blocks.foldl (g.dominatorStep preds) sets

end Cfg

/-- What is needed to decide dominance in a function. -/
structure Dominance where
  /-- The blocks of the function, as listed. -/
  blocks : List BlockId
  /-- The blocks that can be reached from the entry. -/
  reached : Array Bool
  /-- The dominators of each block of the function. -/
  sets : Array BitSet
deriving Repr, Inhabited

/-- The dominance of a graph. A round that changes something takes a block out of a set, which
bounds the number of rounds. -/
def Cfg.dominance (g : Cfg) : Dominance where
  blocks := g.blocks
  reached := g.walk.seen
  sets := BitSet.settle (g.dominatorRound g.reachedPredecessors)
    (g.blocks.length * g.blocks.length + 1) g.firstDominators

namespace Dominance

/-- Whether a block can be reached from the entry. -/
def isReached (d : Dominance) (b : BlockId) : Bool := d.reached.getD b false

/-- Whether a block dominates another. -/
def dominates (d : Dominance) (a b : BlockId) : Bool :=
  d.blocks.contains a && d.blocks.contains b && (d.sets.getD b .empty).contains a

/-- The listed blocks, each with whether it can be reached; only the last mention of a block
counts. -/
def reachedBlocks (d : Dominance) : List BlockId → List (BlockId × Bool)
  | [] => []
  | b :: bs => (b, !bs.contains b && d.isReached b) :: reachedBlocks d bs

end Dominance

/-! ## Loops -/

/-- An edge back to a block that dominates its start. -/
structure BackEdge where
  latch : BlockId
  header : BlockId
deriving DecidableEq, Repr, Inhabited

/-- The edges that close loops. -/
def Cfg.backEdges (g : Cfg) (d : Dominance) : List BackEdge :=
  g.blocks.flatMap fun b =>
    ((g.successors b).filter fun s => d.dominates s b).map fun s => { latch := b, header := s }

/-- The blocks of the loop of a header: those from which one of its latches can be reached without
passing the header, and the header itself. -/
def loopBody (preds : Array (List BlockId)) (header : BlockId) (latches : List BlockId) :
    Array Bool :=
  ((Walk.start preds.size).meet header |>.visitAll (fun b => preds.getD b []) latches).seen

/-- How many loops each block of the module is in, of those of a function. A function without an
entry has no loops. -/
def Module.loopDepths (m : Module) (f : Function) : Array Nat :=
  let g := m.cfg f
  if g.entry.isNone then Array.replicate m.blocks.size 0 else
  let preds := g.predecessors
  let backEdges := g.backEdges g.dominance
  let headers := (backEdges.map (·.header)).eraseDups
  let bodies := headers.map fun h =>
    loopBody preds h ((backEdges.filter (·.header == h)).map (·.latch))
  (Array.range m.blocks.size).map fun b => bodies.countP fun body => body.getD b false

end ContractCompiler.Ssa
