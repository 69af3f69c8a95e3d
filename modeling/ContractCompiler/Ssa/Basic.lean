import ContractCompiler.Hir.Basic

/-!
# Static single assignment

The intermediate form of a contract: functions made of basic blocks over numbered values, each
defined once. Blocks have parameters where control flow joins. Blocks, instructions and values are
kept in tables of the module and referred to by their numbers.

- `InstData`: the instructions, with `InstData.operands` and `InstData.mapOperands`;
- `Terminator`: how blocks end, with `Terminator.successors`;
- `Function`, `Module`: functions and the tables they refer to.
-/

namespace ContractCompiler.Ssa

/-- The number of a function in a module. -/
abbrev FuncId := Nat

/-- The number of a block in a module. -/
abbrev BlockId := Nat

/-- The number of an instruction in a module. -/
abbrev InstId := Nat

/-- The number of a value in a module. -/
abbrev ValueId := Nat

/-- The number that nothing has. An operand that is missing has it. -/
def invalidId : Nat := 0xFFFFFFFF

/-- What an instruction may do besides computing its result. -/
inductive Effect where
  | pure
  /-- It reads from the host or from a cell. -/
  | readsMemory
  /-- It writes to the host or to a cell. -/
  | writesMemory
  /-- It may stop the execution. -/
  | traps
  | call
deriving DecidableEq, Repr, Inhabited

/-- The name of an effect. -/
def Effect.name : Effect → String
  | .pure => "Pure"
  | .readsMemory => "MayReadMem"
  | .writesMemory => "MayWriteMem"
  | .traps => "MayTrap"
  | .call => "Call"

/-- The status of an error result from a checked operation that did not fit. -/
def arithmeticStatus : Int := -16

/-- What an instruction computes. -/
inductive InstData where
  | constInt (bits : UInt64)
  | constBool (value : Bool)
  | constBytes (bytes : Bytes)
  | unary (op : UnOp) (mode : ArithMode) (src : ValueId)
  | binary (op : BinOp) (mode : ArithMode) (left right : ValueId)
  | cast (mode : CastMode) (target : TypeId) (src : ValueId)
  | call (callee : FuncId) (args : List ValueId)
  | makeStruct (fields : List ValueId)
  | extract (base : ValueId) (index : Nat)
  /-- A copy of a struct with one field replaced. -/
  | insert (base : ValueId) (index : Nat) (value : ValueId)
  /-- A success with a payload, or an error with a status code. A success of type unit has no
  payload. -/
  | makeResult (ok : Bool) (value : Option ValueId)
  | resultIsOk (src : ValueId)
  /-- The payload of a success; an error stops the execution. -/
  | resultValue (src : ValueId)
  | resultCode (src : ValueId)
  /-- A new cell. -/
  | refNew (init : ValueId)
  | refLoad (ref : ValueId)
  | refStore (ref value : ValueId)
  | stateRead (ns : String) (key : ValueId) (type : TypeId)
  | stateWrite (ns : String) (key value : ValueId)
  | stateHas (ns : String) (key : ValueId)
  /-- A question about the call, by its number. -/
  | context (query : Nat)
  | digest (src : ValueId)
  | emit (topic : String) (args : List ValueId)
  | bytesLength (src : ValueId)
deriving DecidableEq, Repr, Inhabited

namespace InstData

/-- The values that an instruction uses, in order. -/
def operands : InstData → List ValueId
  | .constInt _ | .constBool _ | .constBytes _ | .context _ => []
  | .unary _ _ src | .cast _ _ src | .extract src _ | .resultIsOk src | .resultValue src |
      .resultCode src
  | .refNew src | .refLoad src | .stateRead _ src _ | .stateHas _ src | .digest src
  | .bytesLength src => [src]
  | .binary _ _ a b | .insert a _ b | .refStore a b | .stateWrite _ a b => [a, b]
  | .call _ vs | .makeStruct vs | .emit _ vs => vs
  | .makeResult _ value => value.toList

/-- An instruction with its values renamed. -/
def mapOperands (f : ValueId → ValueId) : InstData → InstData
  | .constInt bits => .constInt bits
  | .constBool value => .constBool value
  | .constBytes bytes => .constBytes bytes
  | .unary op mode src => .unary op mode (f src)
  | .binary op mode a b => .binary op mode (f a) (f b)
  | .cast mode target src => .cast mode target (f src)
  | .call callee args => .call callee (args.map f)
  | .makeStruct fields => .makeStruct (fields.map f)
  | .extract base index => .extract (f base) index
  | .insert base index value => .insert (f base) index (f value)
  | .makeResult ok value => .makeResult ok (value.map f)
  | .resultIsOk src => .resultIsOk (f src)
  | .resultValue src => .resultValue (f src)
  | .resultCode src => .resultCode (f src)
  | .refNew init => .refNew (f init)
  | .refLoad ref => .refLoad (f ref)
  | .refStore ref value => .refStore (f ref) (f value)
  | .stateRead ns key type => .stateRead ns (f key) type
  | .stateWrite ns key value => .stateWrite ns (f key) (f value)
  | .stateHas ns key => .stateHas ns (f key)
  | .context query => .context query
  | .digest src => .digest (f src)
  | .emit topic args => .emit topic (args.map f)
  | .bytesLength src => .bytesLength (f src)

@[simp] theorem operands_mapOperands (f : ValueId → ValueId) (d : InstData) :
    (d.mapOperands f).operands = d.operands.map f := by
  cases d with
  | makeResult _ value => cases value <;> rfl
  | _ => rfl

/-- The function that an instruction calls. -/
def callee? : InstData → Option FuncId
  | .call callee _ => some callee
  | _ => none

/-- The word of a constant integer or truth value. -/
def constWord? : InstData → Option UInt64
  | .constInt bits => some bits
  | .constBool value => some (wordOfBool value)
  | _ => none

end InstData

/-- Where a value is defined. -/
inductive DefSite where
  | none
  /-- As the result of an instruction. -/
  | inst (id : InstId)
  /-- As a parameter of a block. -/
  | param (block : BlockId) (index : Nat)
deriving DecidableEq, Repr, Inhabited

/-- A value. -/
structure Value where
  type : TypeId := TypeId.invalid
  effect : Effect := .pure
  site : DefSite := .none
  span : Span := {}
deriving DecidableEq, Repr, Inhabited

/-- An instruction. -/
structure Inst where
  data : InstData
  effect : Effect := .pure
  result : Option ValueId := none
  span : Span := {}
deriving DecidableEq, Repr, Inhabited

/-- How a block ends. -/
inductive Terminator where
  | jump (target : BlockId) (args : List ValueId)
  | branch (cond : ValueId) (thenBlock : BlockId) (thenArgs : List ValueId) (elseBlock : BlockId)
      (elseArgs : List ValueId)
  | ret (value : Option ValueId)
  /-- The call is turned down. -/
  | revert (message : String)
  /-- The program gives up. -/
  | panic (message : String)
  | unreachable
deriving DecidableEq, Repr, Inhabited

namespace Terminator

/-- The values that an ending uses, in order. -/
def operands : Terminator → List ValueId
  | .jump _ args => args
  | .branch cond _ thenArgs _ elseArgs => cond :: (thenArgs ++ elseArgs)
  | .ret value => value.toList
  | .revert _ | .panic _ | .unreachable => []

/-- An ending with its values renamed. -/
def mapOperands (f : ValueId → ValueId) : Terminator → Terminator
  | .jump target args => .jump target (args.map f)
  | .branch cond t targs e eargs => .branch (f cond) t (targs.map f) e (eargs.map f)
  | .ret value => .ret (value.map f)
  | .revert message => .revert message
  | .panic message => .panic message
  | .unreachable => .unreachable

@[simp] theorem operands_mapOperands (f : ValueId → ValueId) (t : Terminator) :
    (t.mapOperands f).operands = t.operands.map f := by
  cases t with
  | ret value => cases value <;> rfl
  | branch => simp [mapOperands, operands]
  | _ => rfl

/-- The blocks that may follow, the taken branch first. -/
def successors : Terminator → List BlockId
  | .jump target _ => [target]
  | .branch _ t _ e _ => [t, e]
  | .ret _ | .revert _ | .panic _ | .unreachable => []

@[simp] theorem successors_mapOperands (f : ValueId → ValueId) (t : Terminator) :
    (t.mapOperands f).successors = t.successors := by
  cases t <;> rfl

end Terminator

/-- A basic block. -/
structure Block where
  params : List ValueId := []
  insts : List InstId := []
  term : Option Terminator := none
deriving DecidableEq, Repr, Inhabited

/-- The blocks that may follow a block. -/
def Block.successors (b : Block) : List BlockId := (b.term.map (·.successors)).getD []

/-- A function. -/
structure Function where
  name : String
  span : Span := {}
  ret : TypeId := TypeId.invalid
  /-- The types of the parameters of the entry block; an exclusive borrow is a reference. -/
  paramTypes : List TypeId := []
  paramModes : List Hir.PassMode := []
  blocks : List BlockId := []
  entry : Option BlockId := none
  isPublic : Bool := false
  isPayable : Bool := false
  attrs : List Attribute := []
  /-- The function is left out of the output. -/
  excluded : Bool := false
deriving DecidableEq, Repr, Inhabited

/-- What the passes have done so far. -/
structure PassCounts where
  blocksRemoved : Nat := 0
  branchesFolded : Nat := 0
  constsFolded : Nat := 0
  callsInlined : Nat := 0
  instsRemoved : Nat := 0
deriving DecidableEq, Repr, Inhabited

/-- A contract in intermediate form. -/
structure Module where
  unit : String := ""
  functions : Array Function := #[]
  blocks : Array Block := #[]
  insts : Array Inst := #[]
  values : Array Value := #[]
  counts : PassCounts := {}
deriving DecidableEq, Repr, Inhabited

namespace Module

/-- A block; the number of no block stands for an empty one. -/
def block (m : Module) (b : BlockId) : Block := m.blocks.getD b {}

/-- The instructions of a block with their numbers, leaving out numbers of no instruction. -/
def blockInsts (m : Module) (b : Block) : List (InstId × Inst) :=
  b.insts.filterMap fun i => (m.insts[i]?).map (i, ·)

/-- The type of a value. -/
def valueType (m : Module) (v : ValueId) : TypeId :=
  ((m.values[v]?).map (·.type)).getD TypeId.invalid

/-- The instruction that defines a value. -/
def definition? (m : Module) (v : ValueId) : Option Inst :=
  match m.values[v]? with
  | some { site := .inst i, .. } => m.insts[i]?
  | _ => none

/-- The word of a value that is defined as a constant integer or truth value. -/
def constWord? (m : Module) (v : ValueId) : Option UInt64 :=
  (m.definition? v).bind (·.data.constWord?)

/-- The number of the first function of a name. -/
def findFunction? (m : Module) (name : String) : Option FuncId :=
  (m.functions.findFinIdx? (·.name == name)).map (·.val)

end Module

end ContractCompiler.Ssa
