import ContractCompiler.Codegen.Inst
import ContractCompiler.Ssa.Dominance

/-!
# Code for functions

The blocks of a function in their order, each followed by its ending, then the shared code of the
failures that some instruction can run into. Arguments of a jump are all pushed before the first of
them is put into the slot of its parameter, so that parameters may be exchanged.

- `FunctionContext.edgeCopies`: the code that passes arguments to a block;
- `FunctionContext.terminator`: the code of an ending;
- `lowerFunction`: the code of a function.
-/

namespace ContractCompiler.Codegen

open Ssa (ValueId BlockId FuncId)

namespace FunctionContext

/-! ## Endings -/

/-- The arguments of an edge whose parameters have slots, each with its slot. -/
def edgeMoves (cx : FunctionContext) (target : BlockId) (args : List ValueId) :
    List (ValueId × Nat) :=
  ((cx.module.block target).params.zip args).filterMap fun (p, a) =>
    match cx.plan.home p with
    | .slot s => some (a, s)
    | _ => none

/-- The code that passes arguments to a block. -/
def edgeCopies (cx : FunctionContext) (target : BlockId) (args : List ValueId) : List Item :=
  let moves := cx.edgeMoves target args
  moves.flatMap (fun (a, _) => cx.push a) ++ moves.reverse.map fun (_, s) => set s

/-- Goes to a block, unless its code follows. -/
def goTo (next : Option BlockId) (target : BlockId) : List Item :=
  if next = some target then [] else [.jump .jmp (.label (.block target))]

/-- The code of an ending, given the block whose code follows. -/
def terminator (cx : FunctionContext) (next : Option BlockId) : Ssa.Terminator → List Item
  | .jump target args => cx.edgeCopies target args ++ goTo next target
  | .branch cond t targs e eargs =>
    cx.push cond ++
      if targs.isEmpty && eargs.isEmpty then .jump .jmpIf (.label (.block t)) :: goTo next e
      else
        [jumpIfNot 0] ++ cx.edgeCopies t targs ++ [.jump .jmp (.label (.block t)), .mark 0]
          ++ cx.edgeCopies e eargs ++ goTo next e
  | .ret value =>
    (match value with
      | some v => if cx.types.isUnit cx.function.ret then [] else cx.push v
      | none => []) ++ [op .ret]
  | .revert message => giveUp .revert message cx.function.span
  | .panic message => giveUp .panic message cx.function.span
  | .unreachable => [trap .unreachable]

/-! ## Blocks -/

/-- The code of a block. A block without an ending stops the execution at its end. -/
def block [Hashing] (cx : FunctionContext) (b : BlockId) (weight : UInt64) (next : Option BlockId) :
    List Piece :=
  let data := cx.module.block b
  let insts := (cx.module.blockInsts data).map fun (_, i) =>
    let code := cx.inst i
    { weight, scratch := code.scratch, items := code.items : Piece }
  let ending := (data.term.map (cx.terminator next)).getD [trap .unreachable]
  { label := some (.block b) } :: insts ++ [{ weight, items := ending }]

/-- The code of blocks in order. -/
def blocks [Hashing] (cx : FunctionContext) (depths : Array Nat) : List BlockId → List Piece
  | [] => []
  | b :: bs =>
    cx.block b (cx.options.gas.loopWeight (depths.getD b 0)) bs.head? ++ blocks cx depths bs

/-- The code of a failure, which weighs nothing. -/
def failure (cx : FunctionContext) (f : Failure) : Piece where
  label := some (.failure f)
  items := giveUp .panic f.message cx.function.span

end FunctionContext

/-- Whether some code needs the code of a failure. -/
def needsFailure (pieces : List Piece) (f : Failure) : Bool :=
  pieces.any fun p => p.items.any fun i => i.failure? == some f

/-- The code of a function before anything in it has a number. -/
structure LoweredFunction where
  pieces : List Piece := []
  /-- How many local slots the code uses. -/
  numLocals : Nat := 0
  /-- How many values stay on the operand stack. -/
  stackValues : Nat := 0
deriving DecidableEq, Repr, Inhabited

/-- The code of a function. -/
def lowerFunction [Hashing] (m : Ssa.Module) (types : TypePool) (unit : String)
    (options : CodegenOptions) (f : Ssa.Function) : LoweredFunction :=
  let plan := slotPlan m f
  let cx : FunctionContext := { module := m, types, function := f, unit, plan, options }
  let body := cx.blocks (m.loopDepths f) f.blocks
  let pieces := body ++ (Failure.all.filter (needsFailure body)).map cx.failure
  { pieces
    numLocals := plan.numSlots + pieces.foldl (fun n p => max n p.scratch) 0
    stackValues := plan.stackValues }

namespace LoweredFunction

/-- All elements of the code. -/
def items (f : LoweredFunction) : List Item := f.pieces.flatMap (·.items)

/-- The functions that the code calls, in the order they are first called. -/
def callees (f : LoweredFunction) : List FuncId := (f.items.filterMap (·.callee?)).eraseDups

/-- The host operations that the code calls, in the order they are first called. -/
def hostOps (f : LoweredFunction) : List HostOp := (f.items.filterMap (·.hostOp?)).eraseDups

/-- What the estimate of gas is made from. -/
def gas (f : LoweredFunction) (t : GasTable) : FunctionGas where
  «local» := f.pieces.foldl (fun sum p => sum + p.cost t) 0
  calls := f.pieces.flatMap (·.gasCalls)

end LoweredFunction

end ContractCompiler.Codegen
