import ContractCompiler.Ssa.Basic

/-!
# Control flow graphs

The graph of a function has its blocks as nodes and the successors that are blocks of the function
as edges.

- `Cfg`: the graph;
- `Cfg.predecessors`: the edges backwards;
- `Cfg.walk`: depth-first search, which both finds the blocks that can be reached and orders them;
- `Cfg.reversePostOrder`: the blocks that can be reached from the entry, each before those that it
  leads to except around cycles.
-/

namespace ContractCompiler.Ssa

/-! ## Depth-first search -/

/-- A depth-first search under way. -/
structure Walk where
  /-- The nodes met so far; a node outside the array counts as met. -/
  seen : Array Bool
  /-- The nodes left for good, the last one first. -/
  order : List Nat := []
deriving Repr, Inhabited

namespace Walk

/-- A search that has met nothing. -/
def start (size : Nat) : Walk := { seen := Array.replicate size false }

/-- Whether a node has been met. -/
def met (w : Walk) (n : Nat) : Bool := w.seen.getD n true

/-- Meets a node. -/
def meet (w : Walk) (n : Nat) : Walk :=
  let ⟨seen, order⟩ := w
  { seen := seen.setIfInBounds n true, order }

/-- Leaves a node. -/
def leave (w : Walk) (n : Nat) : Walk :=
  let ⟨seen, order⟩ := w
  { seen, order := n :: order }

/-- Visits a node unless it has been met: meets it, visits the nodes after it in order, and leaves
it. Each step down meets a new node, so the number of nodes bounds the depth. -/
def visit (next : Nat → List Nat) : Nat → Walk → Nat → Walk
  | 0, w, _ => w
  | depth + 1, w, n =>
    if w.met n then w
    else ((next n).foldl (visit next depth) (w.meet n)).leave n

/-- Visits nodes in order. -/
def visitAll (next : Nat → List Nat) (w : Walk) (ns : List Nat) : Walk :=
  ns.foldl (visit next w.seen.size) w

end Walk

/-! ## The graph of a function -/

/-- The control flow graph of a function. -/
structure Cfg where
  /-- The number of blocks of the module. -/
  size : Nat
  /-- The blocks of the function, as listed. -/
  blocks : List BlockId
  entry : Option BlockId
  /-- The edges out of every block of the module that lead to blocks of the function. -/
  edges : Array (List BlockId)
deriving Repr, Inhabited

/-- The blocks of a module that a function lists. -/
def Module.ownedBlocks (m : Module) (f : Function) : Array Bool :=
  f.blocks.foldl (fun owned b => owned.setIfInBounds b true) (Array.replicate m.blocks.size false)

/-- The graph of a function. -/
def Module.cfg (m : Module) (f : Function) : Cfg :=
  let owned := m.ownedBlocks f
  { size := m.blocks.size
    blocks := f.blocks
    entry := f.entry.filter (· < m.blocks.size)
    edges := m.blocks.map fun b => b.successors.filter fun s => owned.getD s false }

namespace Cfg

/-- The blocks that an edge leads to. -/
def successors (g : Cfg) (b : BlockId) : List BlockId := g.edges.getD b []

/-- The blocks that have an edge to each block, in the order of the block list. A branch that leads
to the same block either way counts twice. -/
def predecessors (g : Cfg) : Array (List BlockId) :=
  g.blocks.foldl
    (fun preds b => (g.successors b).foldl (fun preds s => preds.modify s (· ++ [b])) preds)
    (Array.replicate g.size [])

/-- The search from the entry. -/
def walk (g : Cfg) : Walk := (Walk.start g.size).visitAll g.successors g.entry.toList

/-- The blocks that can be reached from the entry, each before those that it leads to except around
cycles. -/
def reversePostOrder (g : Cfg) : List BlockId := g.walk.order

end Cfg

end ContractCompiler.Ssa
