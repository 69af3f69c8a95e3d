import ContractCompiler.Diagnostic.Basic
import ContractCompiler.Gas
import ContractCompiler.Host.Interface
import ContractCompiler.Ssa.Basic

/-!
# Assembly

The code of a function before anything in it has a number: jumps name labels, calls name functions
and host operations, and constant data is given by its bytes. Code is made of pieces, one for each
instruction and each ending; a piece can jump to marks of its own. What is wrong with a function
stands in its code as well, at the place where it was found.

- `Item`: one element of code;
- `Piece`: a stretch of code of one weight;
- `assemble`: the instructions of a function, given the numbers of what it refers to;
- `Piece.cost`, `Piece.gasCalls`: what a piece adds to the estimate of gas.
-/

namespace ContractCompiler.Codegen

open Ssa (FuncId BlockId)

/-- The failures that have one place in a function, which all instructions that can fail so jump
to. -/
inductive Failure where
  | overflow | unwrap | hostFailure
deriving DecidableEq, Repr, Inhabited

namespace Failure

/-- All failures, in the order in which their code stands at the end of a function. -/
def all : List Failure := [.overflow, .unwrap, .hostFailure]

/-- The message with which a program gives up. -/
def message : Failure → String
  | .overflow => "arithmetic overflow"
  | .unwrap => "unwrap of err result"
  | .hostFailure => "host call failed"

end Failure

/-- A place in the code of a function. -/
inductive Label where
  | block (b : BlockId)
  | failure (f : Failure)
deriving DecidableEq, Repr, Inhabited

/-- Where a jump goes. -/
inductive Target where
  | label (l : Label)
  /-- A mark in the same piece of code. -/
  | mark (n : Nat)
deriving DecidableEq, Repr, Inhabited

/-- What constant data is for. -/
inductive DataUse where
  | bytesConstant | message | domainDescriptor | eventTopic
deriving DecidableEq, Repr, Inhabited

/-- The words for a use of data. -/
def DataUse.name : DataUse → String
  | .bytesConstant => "bytes constant"
  | .message => "message"
  | .domainDescriptor => "domain descriptor"
  | .eventTopic => "event topic"

/-- What no code can be made for. -/
inductive Unsupported where
  | invalidOperand | operandWithoutHome | notConstant | operandNotInteger | castNotInteger
  | excludedCallee
deriving DecidableEq, Repr, Inhabited

/-- The words for what no code can be made for. -/
def Unsupported.name : Unsupported → String
  | .invalidOperand => "invalid operand"
  | .operandWithoutHome => "operand without a home slot"
  | .notConstant => "non-constant value marked as constant"
  | .operandNotInteger => "non-integer arithmetic operand"
  | .castNotInteger => "non-integer cast"
  | .excludedCallee => "call to an excluded function"

/-- What can be wrong with a function. -/
inductive Fault where
  | unsupported (what : Unsupported)
  | structTooLarge (fields limit : Nat) (span : Span)
  | dataTooLarge (use : DataUse) (size : Nat) (limit : UInt64) (span : Span)
  | tooManyLocals (locals limit : Nat)
deriving DecidableEq, Repr, Inhabited

/-- The diagnostic for a fault of a function. -/
def Fault.diagnostic (f : Ssa.Function) : Fault → Diagnostic
  | .unsupported what =>
    { severity := .fatal, cause := .unsupported, span := f.span, args := [f.name, what.name] }
  | .structTooLarge fields limit span =>
    { severity := .fatal, cause := .valueTooLarge, span
      args := [f.name, "struct", toString fields, toString limit] }
  | .dataTooLarge use size limit span =>
    { severity := .fatal, cause := .valueTooLarge, span
      args := [f.name, use.name, toString size, toString (signedValue limit)] }
  | .tooManyLocals locals limit =>
    { severity := .fatal, cause := .tooManyLocals, span := f.span
      args := [f.name, toString locals, toString limit] }

/-- One element of code. -/
inductive Item where
  /-- An instruction that refers to nothing. -/
  | instr (i : Vm.Instr)
  | jump (op : Vm.Op) (target : Target)
  /-- Pushes the address of constant data. -/
  | address (bytes : Bytes)
  | call (callee : FuncId)
  | callHost (op : HostOp)
  /-- A place that jumps of the same piece can name. -/
  | mark (n : Nat)
  /-- Constant data that the code needs. -/
  | reserve (use : DataUse) (bytes : Bytes) (span : Span)
  /-- The code of a failure that is needed, whether or not there is a jump to it. -/
  | needs (f : Failure)
  | fault (f : Fault)
deriving DecidableEq, Repr, Inhabited

namespace Item

/-- The operation of an element that is an instruction. -/
def op? : Item → Option Vm.Op
  | .instr i => some i.op
  | .jump op _ => some op
  | .address _ => some .const
  | .call _ => some .call
  | .callHost _ => some .callHost
  | .mark _ | .reserve .. | .needs _ | .fault _ => none

/-- The failures that an element needs code for. -/
def failure? : Item → Option Failure
  | .needs f | .jump _ (.label (.failure f)) => some f
  | _ => none

/-- The function that an element calls. -/
def callee? : Item → Option FuncId
  | .call callee => some callee
  | _ => none

/-- The host operation that an element calls. -/
def hostOp? : Item → Option HostOp
  | .callHost op => some op
  | _ => none

/-- What an element costs where it stands in no loop. -/
def cost (t : GasTable) (i : Item) : UInt64 :=
  let own := (i.op?.map t.opCost).getD 0
  match i with
  | .callHost op => own + ((HostRef.ofOp? op).map (·.function.gas)).getD 0
  | _ => own

end Item

/-- How many instructions there are among elements of code. -/
def instrCount (items : List Item) : Nat := items.countP (·.op?.isSome)

/-- A stretch of code. -/
structure Piece where
  /-- The place that starts with the piece. -/
  label : Option Label := none
  /-- How much each instruction weighs in the estimate of gas. -/
  weight : UInt64 := 0
  /-- How many slots the piece needs besides those of values. -/
  scratch : Nat := 0
  items : List Item := []
deriving DecidableEq, Repr, Inhabited

namespace Piece

/-- What a piece costs by itself. -/
def cost (t : GasTable) (p : Piece) : UInt64 :=
  p.items.foldl (fun sum i => sum + i.cost t * p.weight) 0

/-- The calls of a piece. -/
def gasCalls (p : Piece) : List GasCall :=
  p.items.filterMap fun i => i.callee?.map fun callee => { callee, weight := p.weight }

end Piece

/-! ## Positions -/

/-- Pieces with the positions at which they start. -/
def placed : Nat → List Piece → List (Nat × Piece)
  | _, [] => []
  | pos, p :: ps => (pos, p) :: placed (pos + instrCount p.items) ps

/-- The position of a label. A label that is set more than once stands for its last place, one that
is not set for the start of the code. -/
def labelPosition (code : List (Nat × Piece)) (l : Label) : Nat :=
  ((code.reverse.find? fun (_, p) => p.label == some l).map (·.1)).getD 0

/-- How many instructions stand before a mark. -/
def markOffset (n : Nat) (items : List Item) : Nat :=
  instrCount (items.takeWhile (· ≠ .mark n))

/-! ## Instructions -/

/-- The numbers of what code refers to. -/
structure Linkage where
  function : FuncId → UInt64
  host : HostOp → UInt64
  address : Bytes → UInt64

/-- The instruction of an element, given the positions of targets. -/
def Item.encode (link : Linkage) (position : Target → Nat) : Item → Option Vm.Instr
  | .instr i => some i
  | .jump op target => some { op, imm := UInt64.ofNat (position target) }
  | .address bytes => some { op := .const, imm := link.address bytes }
  | .call callee => some { op := .call, imm := link.function callee }
  | .callHost op => some { op := .callHost, imm := link.host op }
  | .mark _ | .reserve .. | .needs _ | .fault _ => none

/-- The position of a target of a piece that starts at a position. -/
def Piece.position (labels : Label → Nat) (start : Nat) (p : Piece) : Target → Nat
  | .label l => labels l
  | .mark n => start + markOffset n p.items

/-- The instructions of the code of a function. -/
def assemble (link : Linkage) (pieces : List Piece) : List Vm.Instr :=
  let code := placed 0 pieces
  code.flatMap fun (start, p) => p.items.filterMap
    (·.encode link (p.position (labelPosition code) start))

end ContractCompiler.Codegen
