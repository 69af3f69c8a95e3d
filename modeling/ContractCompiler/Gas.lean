import ContractCompiler.Vm.Module

/-!
# Gas estimates

A static estimate of what a call costs. The cost of a function is that of its own instructions, each
weighted by how deep it stands in loops, plus the weighted estimates of what it calls. Sums and
products stay at the greatest word once they reach it.

- `GasTable`, `GasTable.opCost`, `GasTable.loopWeight`: costs of instructions and weights of loops;
- `estimateGas`: the estimates of all functions. A function that is reached again while its own
  estimate is being made counts with its local cost only, so a cycle of calls is counted once.
-/

namespace ContractCompiler

/-- The costs that estimates are made of. -/
structure GasTable where
  /-- An ordinary instruction. -/
  op : UInt64 := 1
  /-- An access to memory. -/
  memoryOp : UInt64 := 3
  /-- A copy of a range of memory. -/
  copyOp : UInt64 := 10
  divOp : UInt64 := 5
  /-- A call itself, without what is called. -/
  callOp : UInt64 := 10
  /-- How many rounds a loop is taken to make. -/
  loopFactor : UInt64 := 10
  /-- Loops nested deeper than this add no weight. -/
  maxLoopDepth : Nat := 3
deriving DecidableEq, Repr, Inhabited

/-- Addition that stays at the greatest word. -/
def satAdd (a b : UInt64) : UInt64 := UInt64.ofNat (min (a.toNat + b.toNat) (Nat.pow 2 64 - 1))

/-- Multiplication that stays at the greatest word. -/
def satMul (a b : UInt64) : UInt64 := UInt64.ofNat (min (a.toNat * b.toNat) (Nat.pow 2 64 - 1))

namespace GasTable

/-- The cost of an instruction. -/
def opCost (t : GasTable) : Vm.Op → UInt64
  | .nop | .jmp => 0
  | .load | .store => t.memoryOp
  | .memCopy => t.copyOp
  | .divS | .divU | .remS | .remU => t.divOp
  | .call => t.callOp
  | _ => t.op

/-- The weight of an instruction that stands in so many loops. -/
def loopWeight (t : GasTable) (depth : Nat) : UInt64 :=
  (List.range (min depth t.maxLoopDepth)).foldl (fun w _ => satMul w t.loopFactor) 1

end GasTable

/-- A call of a function from a place of a weight. -/
structure GasCall where
  callee : Nat
  weight : UInt64 := 1
deriving DecidableEq, Repr, Inhabited

/-- The cost of a function's own instructions, and its calls. -/
structure FunctionGas where
  «local» : UInt64 := 0
  calls : List GasCall := []
deriving DecidableEq, Repr, Inhabited

namespace Gas

/-- How far the estimate of a function has come. -/
inductive Stage where
  | waiting
  | active
  | done (total : UInt64)
deriving DecidableEq, Repr, Inhabited

/-- The estimate of a function, and what is known after it. The fuel bounds how deep calls are
followed; a function is entered only while it waits, so no more than all functions can be active at
once. -/
def visit (fns : Array (Option FunctionGas)) : Nat → Nat → Array Stage → UInt64 × Array Stage
  | 0, _, stages => (0, stages)
  | fuel + 1, f, stages =>
    match fns[f]? with
    | none | some none => (0, stages)
    | some (some g) =>
      match stages.getD f .waiting with
      | .done total => (total, stages)
      | .active => (g.local, stages)
      | .waiting =>
        let (total, stages) := g.calls.foldl
          (fun (sum, stages) call =>
            let (callee, stages) := visit fns fuel call.callee stages
            (satAdd sum (satMul call.weight callee), stages))
          (g.local, stages.setIfInBounds f .active)
        (total, stages.setIfInBounds f (.done total))

/-- Visits all functions in order. -/
def visitAll (fns : Array (Option FunctionGas)) (stages : Array Stage) : Array Stage :=
  (List.range fns.size).foldl (fun stages f => (visit fns (fns.size + 1) f stages).2) stages

end Gas

/-- The estimates of all functions; zero for functions that were not compiled. -/
def estimateGas (fns : Array (Option FunctionGas)) : Array UInt64 :=
  (Gas.visitAll fns (Array.replicate fns.size .waiting)).map fun
    | .done total => total
    | _ => 0

end ContractCompiler
