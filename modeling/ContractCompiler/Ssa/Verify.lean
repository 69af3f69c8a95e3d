import ContractCompiler.Ssa.Dominance

/-!
# Well-formed modules

`Module.verify` lists what is wrong with a module: missing or foreign blocks, values that are
defined twice or whose definition does not dominate a use, arguments that do not match parameters.

- `Fault`: one thing that is wrong, with its `Fault.message`;
- `Module.verifyFunction`, `Module.verify`.
-/

namespace ContractCompiler.Ssa

/-- The places where a value can be mentioned. -/
inductive Mention where
  | param | result | edgeArg | returned | condition | operand
deriving DecidableEq, Repr, Inhabited

/-- The text of a place. -/
def Mention.name : Mention → String
  | .param => "block(param)"
  | .result => "inst(result)"
  | .edgeArg => "block(term arg)"
  | .returned => "block(term ret)"
  | .condition => "block(term cond)"
  | .operand => "inst(operand)"

/-- The edges out of a block. -/
inductive EdgeKind where
  | jump | onTrue | onFalse
deriving DecidableEq, Repr, Inhabited

/-- The text of an edge. -/
def EdgeKind.name : EdgeKind → String
  | .jump => "br"
  | .onTrue => "condbr then"
  | .onFalse => "condbr else"

/-- What can be wrong with a module. -/
inductive Fault where
  | noFunction (f : FuncId)
  | noEntry (name : String)
  | foreignEntry (name : String) (entry : BlockId)
  | noBlock (name : String) (b : BlockId)
  /-- A value that there is not, mentioned by a block or an instruction. -/
  | noValue (place : Mention) (owner : Nat) (v : ValueId)
  | entryParamCount (name : String) (params declared : Nat)
  | entryParamType (name : String) (index : Nat) (type declared : TypeId)
  | entryPredecessors (name : String) (entry : BlockId) (count : Nat)
  | definedTwice (v : ValueId) (name : String)
  | staleParam (b : BlockId) (v : ValueId)
  | staleResult (i : InstId) (v : ValueId)
  | noInst (b : BlockId) (i : InstId)
  | noTerminator (b : BlockId)
  | noTarget (b : BlockId) (edge : EdgeKind) (target : BlockId)
  | foreignTarget (b : BlockId) (edge : EdgeKind) (target : BlockId) (name : String)
  | edgeArgCount (b : BlockId) (edge : EdgeKind) (args : Nat) (target : BlockId) (params : Nat)
  | edgeArgType (b : BlockId) (edge : EdgeKind) (index : Nat) (arg : ValueId) (argType : TypeId)
      (param : ValueId) (paramType : TypeId)
  | returnType (b : BlockId) (v : ValueId) (type : TypeId) (name : String) (declared : TypeId)
  | noCallee (i : InstId) (callee : FuncId)
  | callArgCount (i : InstId) (callee : String) (args params : Nat)
  | callArgType (i : InstId) (index : Nat) (type declared : TypeId)
  | unreachable (name : String) (b : BlockId)
  | notDominated (b : BlockId) (atTerminator : Bool) (v : ValueId)
  | sharedBlock (b : BlockId) (first second : FuncId)
deriving DecidableEq, Repr, Inhabited

/-- The text of a fault. -/
def Fault.message : Fault → String
  | .noFunction f => s!"invalid function id f{f}"
  | .noEntry name => s!"function has invalid entry: {name}"
  | .foreignEntry name entry =>
    s!"function {name} entry bb#{entry} is not present in function block list"
  | .noBlock name b => s!"function {name} has invalid block id bb#{b}"
  | .noValue place owner v => s!"{place.name} #{owner} references invalid value id v{v}"
  | .entryParamCount name params declared =>
    s!"function {name} entry has {params} params, signature has {declared}"
  | .entryParamType name index type declared =>
    s!"function {name} entry param {index} type mismatch (ty={type}, expected ty={declared})"
  | .entryPredecessors name entry count =>
    s!"function {name} entry bb#{entry} has {count} predecessor(s)"
  | .definedTwice v name => s!"value v{v} is defined more than once in function {name}"
  | .staleParam b v => s!"block #{b} param v{v} has stale def site"
  | .staleResult i v => s!"inst #{i} result v{v} has stale def site"
  | .noInst b i => s!"block #{b} references invalid inst id i{i}"
  | .noTerminator b => s!"block has no terminator: #{b}"
  | .noTarget b edge target => s!"block #{b} has {edge.name} with invalid target bb#{target}"
  | .foreignTarget b edge target name =>
    s!"block #{b} {edge.name} targets foreign block bb#{target} (outside function {name})"
  | .edgeArgCount b edge args target params =>
    s!"block #{b} {edge.name} arg count mismatch: got {args}, target bb#{target} expects {params}"
  | .edgeArgType b edge index arg argType param paramType =>
    s!"block #{b} {edge.name} arg type mismatch at index {index}: arg v{arg}(ty={argType}) != "
      ++ s!"target param v{param}(ty={paramType})"
  | .returnType b v type name declared =>
    s!"block #{b} returns v{v}(ty={type}), function {name} returns ty={declared}"
  | .noCallee i callee => s!"inst #{i} has invalid direct callee id f{callee}"
  | .callArgCount i callee args params =>
    s!"inst #{i} call to {callee} passes {args} args, expects {params}"
  | .callArgType i index type declared =>
    s!"inst #{i} call arg {index} type mismatch (ty={type}, expected ty={declared})"
  | .unreachable name b => s!"function {name} has unreachable block bb#{b}"
  | .notDominated b atTerminator v =>
    s!"block #{b} " ++ (if atTerminator then "terminator" else "inst")
      ++ s!" uses v{v} which does not dominate the use"
  | .sharedBlock b first second =>
    s!"block #{b} is owned by multiple functions (#{first}, #{second})"

variable (m : Module)

/-- Whether a value is in the table. -/
def Module.hasValue (v : ValueId) : Bool := v < m.values.size

/-- The fault of mentioning a value that there is not. -/
def valueFaults (place : Mention) (owner : Nat) (v : ValueId) : List Fault :=
  if m.hasValue v then [] else [.noValue place owner v]

/-! ## The entry -/

/-- Parameters of the entry against the types that the function declares. -/
def entryParamFaults (f : Function) (entry : BlockId) (params : List ValueId) : List Fault :=
  if params.length ≠ f.paramTypes.length then
    [.entryParamCount f.name params.length f.paramTypes.length]
  else
    (params.zip f.paramTypes).zipIdx.flatMap fun ((p, declared), index) =>
      if !m.hasValue p then [.noValue .param entry p]
      else if m.valueType p ≠ declared then
        [.entryParamType f.name index (m.valueType p) declared]
      else []

/-- Nothing leads to the entry. -/
def entryPredecessorFaults (f : Function) (entry : BlockId) : List Fault :=
  let count := ((m.cfg f).predecessors.getD entry []).length
  if count = 0 then [] else [.entryPredecessors f.name entry count]

/-! ## Definitions -/

/-- A definition of a value in a function. -/
structure Definition where
  value : ValueId
  block : BlockId
  /-- The place among the instructions of the block; a parameter of the block has none. -/
  position : Option Nat
  site : DefSite
deriving DecidableEq, Repr, Inhabited

/-- What a block defines, in order, or the fault of listing an instruction that there is not. -/
def blockDefinitions (b : BlockId) : List (Except Fault Definition) :=
  let block := m.block b
  (block.params.zipIdx.map fun (p, i) =>
      .ok { value := p, block := b, position := none, site := .param b i })
    ++ block.insts.zipIdx.filterMap fun (i, k) =>
      match m.insts[i]? with
      | none => some (.error (.noInst b i))
      | some inst => inst.result.map fun r =>
          .ok { value := r, block := b, position := some k, site := .inst i }

/-- The definitions by value. -/
abbrev DefinitionTable := Array (Option Definition)

namespace Definition

/-- The fault of a definition of a value that there is not. -/
def missing (d : Definition) : Fault :=
  match d.site with
  | .inst i => .noValue .result i d.value
  | _ => .noValue .param d.block d.value

/-- The fault of a definition that the value does not know of. -/
def stale (d : Definition) : Fault :=
  match d.site with
  | .inst i => .staleResult i d.value
  | _ => .staleParam d.block d.value

end Definition

/-- Enters definitions in order. The first definition of a value stands. -/
def enterDefinitions (name : String) : List (Except Fault Definition) → DefinitionTable →
    List Fault × DefinitionTable
  | [], table => ([], table)
  | .error fault :: rest, table =>
    let (faults, table) := enterDefinitions name rest table
    (fault :: faults, table)
  | .ok d :: rest, table =>
    match m.values[d.value]? with
    | none =>
      let (faults, table) := enterDefinitions name rest table
      (d.missing :: faults, table)
    | some value =>
      let stale := if value.site = d.site then [] else [d.stale]
      if (table.getD d.value none).isSome then
        let (faults, table) := enterDefinitions name rest table
        (.definedTwice d.value name :: stale ++ faults, table)
      else
        let (faults, table) := enterDefinitions name rest (table.setIfInBounds d.value (some d))
        (stale ++ faults, table)

/-- The definitions of a function, with the faults in them. -/
def Module.definitions (f : Function) : List Fault × DefinitionTable :=
  enterDefinitions m f.name (f.blocks.flatMap (blockDefinitions m))
    (Array.replicate m.values.size none)

/-! ## Instructions and endings -/

/-- An edge against the parameters of its target. -/
def edgeFaults (f : Function) (b : BlockId) (edge : EdgeKind) (target : BlockId)
    (args : List ValueId) : List Fault :=
  match m.blocks[target]? with
  | none => [.noTarget b edge target]
  | some block =>
    if !f.blocks.contains target then [.foreignTarget b edge target f.name]
    else
      args.flatMap (valueFaults m .edgeArg b)
        ++ if args.length ≠ block.params.length then
          [.edgeArgCount b edge args.length target block.params.length]
        else
          (args.zip block.params).zipIdx.filterMap fun ((arg, param), index) =>
            if m.hasValue arg && m.hasValue param && m.valueType arg != m.valueType param then
              some (.edgeArgType b edge index arg (m.valueType arg) param (m.valueType param))
            else none

/-- The ending of a block. -/
def terminatorFaults (f : Function) (b : BlockId) : Terminator → List Fault
  | .ret (some v) =>
    if !m.hasValue v then [.noValue .returned b v]
    else if m.valueType v ≠ f.ret then [.returnType b v (m.valueType v) f.name f.ret]
    else []
  | .jump target args => edgeFaults m f b .jump target args
  | .branch cond t targs e eargs =>
    valueFaults m .condition b cond
      ++ edgeFaults m f b .onTrue t targs ++ edgeFaults m f b .onFalse e eargs
  | .ret none | .revert _ | .panic _ | .unreachable => []

/-- A call against the function that it calls. -/
def callFaults (i : InstId) (callee : FuncId) (args : List ValueId) : List Fault :=
  match m.functions[callee]? with
  | none => [.noCallee i callee]
  | some f =>
    if args.length ≠ f.paramTypes.length then
      [.callArgCount i f.name args.length f.paramTypes.length]
    else
      (args.zip f.paramTypes).zipIdx.filterMap fun ((arg, declared), index) =>
        if m.hasValue arg && m.valueType arg != declared then
          some (.callArgType i index (m.valueType arg) declared)
        else none

/-- An instruction. -/
def instFaults (i : InstId) (data : InstData) : List Fault :=
  data.operands.flatMap (valueFaults m .operand i)
    ++ match data with
      | .call callee args => callFaults m i callee args
      | _ => []

/-- The ending and the instructions of a block. -/
def blockFaults (f : Function) (b : BlockId) : List Fault :=
  let block := m.block b
  match block.term with
  | none => [.noTerminator b]
  | some term =>
    terminatorFaults m f b term
      ++ (m.blockInsts block).flatMap fun (i, inst) => instFaults m i inst.data

/-! ## Uses -/

/-- Whether a value is defined wherever control reaches a place of a block. -/
def isAvailable (d : Dominance) (table : DefinitionTable) (b : BlockId) (position : Nat)
    (v : ValueId) : Bool :=
  match table.getD v none with
  | none => false
  | some definition =>
    if definition.block = b then definition.position.all (· < position)
    else d.dominates definition.block b

/-- The uses in a block of values that are not available there. -/
def useFaults (d : Dominance) (table : DefinitionTable) (b : BlockId) : List Fault :=
  let block := m.block b
  let missing (position : Nat) (vs : List ValueId) : List ValueId :=
    vs.filter fun v => m.hasValue v && !isAvailable d table b position v
  (block.insts.zipIdx.flatMap fun (i, k) =>
      match m.insts[i]? with
      | none => []
      | some inst => (missing k inst.data.operands).map (.notDominated b false))
    ++ match block.term with
      | none => []
      | some term => (missing block.insts.length term.operands).map (.notDominated b true)

/-- The uses in all blocks that can be reached. -/
def dominanceFaults (f : Function) (table : DefinitionTable) (requireReachable : Bool) :
    List Fault :=
  let d := (m.cfg f).dominance
  (d.reachedBlocks f.blocks).flatMap fun (b, reached) =>
    if reached then useFaults m d table b
    else if requireReachable then [.unreachable f.name b]
    else []

/-! ## Functions and modules -/

/-- What is wrong with the body of a function. -/
def bodyFaults (f : Function) (requireReachable : Bool) : List Fault :=
  match f.entry.filter (· < m.blocks.size) with
  | none => [.noEntry f.name]
  | some entry =>
    if !f.blocks.contains entry then [.foreignEntry f.name entry]
    else
      match f.blocks.find? fun b => !decide (b < m.blocks.size) with
      | some b => [.noBlock f.name b]
      | none =>
        let (definitionFaults, table) := m.definitions f
        entryParamFaults m f entry (m.block entry).params
          ++ entryPredecessorFaults m f entry
          ++ definitionFaults
          ++ f.blocks.flatMap (blockFaults m f)
          ++ dominanceFaults m f table requireReachable

/-- What is wrong with a function; a function that is left out has nothing wrong with it. -/
def Module.verifyFunction (id : FuncId) (requireReachable : Bool := false) : List Fault :=
  match m.functions[id]? with
  | none => [.noFunction id]
  | some f => if f.excluded then [] else bodyFaults m f requireReachable

/-- The first function that lists each block. -/
def Module.blockOwners : Array (Option FuncId) :=
  m.functions.toList.zipIdx.foldl
    (fun owners (f, id) => f.blocks.foldl
      (fun owners b => owners.modify b fun owner => owner <|> some id) owners)
    (Array.replicate m.blocks.size none)

/-- Blocks that several functions list. -/
def sharedBlockFaults : List Fault :=
  let owners := m.blockOwners
  m.functions.toList.zipIdx.flatMap fun (f, id) =>
    f.blocks.filterMap fun b =>
      match owners.getD b none with
      | some owner => if owner = id then none else some (.sharedBlock b owner id)
      | none => none

/-- What is wrong with a module. -/
def Module.verify (requireReachable : Bool := false) : List Fault :=
  sharedBlockFaults m
    ++ (List.range m.functions.size).flatMap fun id => m.verifyFunction id requireReachable

end ContractCompiler.Ssa
