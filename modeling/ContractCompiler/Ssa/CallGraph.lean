import ContractCompiler.Ssa.Cfg

/-!
# Call graphs

- `CallGraph`: which functions call which;
- `CallGraph.components`: the groups of functions that call each other, callees before callers;
- `CallGraph.isCyclic`: whether a group has a recursive call.
-/

namespace ContractCompiler.Ssa

/-- The calls in a function, in the order of the code. -/
def Module.callsOf (m : Module) (f : Function) : List FuncId :=
  f.blocks.flatMap fun b =>
    ((m.blockInsts (m.block b)).filterMap fun (_, i) => i.data.callee?).filter
      (· < m.functions.size)

/-- A list in increasing order, each member once. -/
def sortedSet (xs : List Nat) : List Nat := (xs.mergeSort).eraseDups

/-- Which functions call which. -/
structure CallGraph where
  /-- The callees of each function in increasing order. -/
  callees : Array (List FuncId) := #[]
deriving Repr, Inhabited

/-- The call graph of a module. A function that is left out calls nothing. -/
def Module.callGraph (m : Module) : CallGraph where
  callees := m.functions.map fun f => if f.excluded then [] else sortedSet (m.callsOf f)

namespace CallGraph

variable (g : CallGraph)

/-- The functions that a function calls. -/
def calleesOf (f : FuncId) : List FuncId := g.callees.getD f []

/-- How many functions there are. -/
def size : Nat := g.callees.size

/-- What the search for groups knows about a function. -/
structure Mark where
  /-- How many functions were met before; a function that has not been met has no number. -/
  index : Option Nat := none
  /-- The least number of a function on the stack that the function is known to lead to. -/
  low : Nat := 0
  onStack : Bool := false
  /-- The place of the function's group. -/
  group : Nat := 0
deriving Repr, Inhabited

/-- Notes that a function is in a group. -/
def Mark.close (group : Nat) (m : Mark) : Mark := { m with onStack := false, group := group }

/-- Tarjan's search for the groups of functions that call each other. -/
structure Tarjan where
  marks : Array Mark
  /-- The functions met that are in no group yet, the last one first. -/
  stack : List FuncId := []
  nextIndex : Nat := 0
  /-- The groups found so far. -/
  groups : Array (List FuncId) := #[]
deriving Repr, Inhabited

namespace Tarjan

/-- A search that has met nothing. -/
def start (size : Nat) : Tarjan := { marks := Array.replicate size {} }

/-- What is known about a function. -/
def mark (s : Tarjan) (f : FuncId) : Mark := s.marks.getD f {}

/-- Numbers a function and puts it on the stack. -/
def enter (s : Tarjan) (f : FuncId) : Tarjan where
  marks := s.marks.modify f fun m =>
    { m with index := some s.nextIndex, low := s.nextIndex, onStack := true }
  stack := f :: s.stack
  nextIndex := s.nextIndex + 1
  groups := s.groups

/-- Notes that a function leads to one with a given number. -/
def lower (s : Tarjan) (f : FuncId) (index : Nat) : Tarjan :=
  { s with marks := s.marks.modify f fun m => { m with low := min m.low index } }

/-- Follows a call: visits the callee if it is new. A callee that is in a group already tells
nothing. -/
def follow (visit : Tarjan → FuncId → Tarjan) (f : FuncId) (s : Tarjan) (c : FuncId) : Tarjan :=
  match (s.mark c).index with
  | none =>
    let s := visit s c
    s.lower f (s.mark c).low
  | some index => if (s.mark c).onStack then s.lower f index else s

/-- Takes functions off the top of a stack up to a given one, and says what is left. -/
def takeTo (f : FuncId) : List FuncId → List FuncId × List FuncId
  | [] => ([], [])
  | h :: stack =>
    if h = f then ([h], stack)
    else
      let (members, rest) := takeTo f stack
      (h :: members, rest)

/-- Makes a group of functions that were on the stack, with what is left of the stack. -/
def addGroup (s : Tarjan) (members rest : List FuncId) : Tarjan where
  marks := members.foldl (fun marks h => marks.modify h (.close s.groups.size)) s.marks
  stack := rest
  nextIndex := s.nextIndex
  groups := s.groups.push members.mergeSort

/-- Leaves a function. If it leads to nothing below it on the stack, the functions from it on are a
group. -/
def leave (s : Tarjan) (f : FuncId) : Tarjan :=
  if (s.mark f).index = some (s.mark f).low then
    let (members, rest) := takeTo f s.stack
    s.addGroup members rest
  else s

/-- Visits a function that has not been met: enters it, follows its calls in order and leaves it.
Each step down meets a new function, so the number of functions bounds the depth. -/
def visit (g : CallGraph) : Nat → Tarjan → FuncId → Tarjan
  | 0, s, _ => s
  | depth + 1, s, f => ((g.calleesOf f).foldl (follow (visit g depth) f) (s.enter f)).leave f

/-- Visits a function unless it has been met. -/
def visitNew (g : CallGraph) (s : Tarjan) (f : FuncId) : Tarjan :=
  match (s.mark f).index with
  | none => visit g g.size s f
  | some _ => s

end Tarjan

/-- The search through all functions. -/
def tarjan : Tarjan := (List.range g.size).foldl (Tarjan.visitNew g) (.start g.size)

/-- The groups of functions that reach each other, callees before callers. -/
def components : List (List FuncId) := g.tarjan.groups.toList

/-- The place of a function's group, as the search noted it. -/
def groupOf (f : FuncId) : Nat := (g.tarjan.mark f).group

/-- The place of the first group that holds a function. -/
def componentOf (components : List (List FuncId)) (f : FuncId) : Nat :=
  components.findIdx fun c => c.contains f

/-- Whether a group has a recursive call. -/
def isCyclic (members : List FuncId) : Bool :=
  match members with
  | [f] => (g.calleesOf f).contains f
  | members => 1 < members.length

end CallGraph

end ContractCompiler.Ssa
