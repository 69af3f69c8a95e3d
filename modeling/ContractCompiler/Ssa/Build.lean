import ContractCompiler.Ssa.Basic

/-!
# From typed programs to static single assignment

Structured control flow becomes a graph of blocks while the value of every binding is followed along
it. A join gets a parameter for each binding that is read later and whose value depends on the path;
the header of a loop gets one for each binding that the loop assigns to.

An exclusively passed binding is a reference to a cell: reading it loads the cell and assigning to
it stores to the cell. At a call, a binding that is passed exclusively is put into a new cell, and
takes the value of the cell when the call is over.

- `Builder`: a function under construction;
- `lowerExpr`, `lowerStmt`: the code of expressions and statements;
- `buildModule`: the intermediate form of a module.
-/

namespace ContractCompiler.Ssa

open Hir (Expr Stmt SymbolId PassMode)

/-! ## Which bindings are read and assigned -/

/-- The bindings that an expression reads. -/
def readsOfExpr (e : Expr) : List SymbolId := e.uses.map (·.2)

mutual

/-- The bindings that a statement reads. Assigning to a field reads the other fields. -/
def readsOfStmt : Stmt → List SymbolId
  | .expr _ e | .bind _ _ e | .assign _ _ none e | .require _ e _ => readsOfExpr e
  | .assign _ sym (some _) e => sym :: readsOfExpr e
  | .ite _ c t _ e => readsOfExpr c ++ readsOfStmts t ++ readsOfStmts e
  | .loop _ c body => readsOfExpr c ++ readsOfStmts body
  | .ret _ (some e) => readsOfExpr e
  | .ret _ none | .stop _ | .next _ | .revert _ _ | .panic _ _ => []

/-- The bindings that statements read. -/
def readsOfStmts : List Stmt → List SymbolId
  | [] => []
  | s :: ss => readsOfStmt s ++ readsOfStmts ss

end

/-- How the arguments of a call to a function are passed. -/
def passModes (functions : Array Hir.Function) (callee : Hir.FuncId) : List PassMode :=
  ((functions[callee]?).map fun f => f.params.map (·.pass)).getD []

variable (functions : Array Hir.Function)

mutual

/-- The bindings that an expression rebinds, by passing them exclusively. -/
def rebindsOfExpr : Expr → List SymbolId
  | .int _ _ | .bool _ _ | .bytes _ _ | .unit _ | .local _ _ | .context _ _ => []
  | .unary _ _ _ a | .cast _ _ a | .field _ _ _ a | .ok _ a | .err _ a | .result _ _ a | .length _ a
  | .stateGet _ _ a | .stateHas _ _ a | .digest _ a => rebindsOfExpr a
  | .binary _ _ _ a b | .logical _ _ a b | .statePut _ _ a b => rebindsOfExpr a ++ rebindsOfExpr b
  | .select _ c t e => rebindsOfExpr c ++ rebindsOfExpr t ++ rebindsOfExpr e
  | .call _ callee args => rebindsOfArgs (passModes functions callee) args
  | .struct _ args | .emit _ _ args => rebindsOfArgs [] args

/-- The bindings that arguments rebind, given how they are passed. -/
def rebindsOfArgs (modes : List PassMode) : List Expr → List SymbolId
  | [] => []
  | e :: es =>
    (if modes.headD .owned = .exclusive then e.local?.toList else rebindsOfExpr e)
      ++ rebindsOfArgs modes.tail es

end

mutual

/-- The bindings that a statement assigns to or rebinds. -/
def rebindsOfStmt : Stmt → List SymbolId
  | .expr _ e | .bind _ _ e | .require _ e _ | .ret _ (some e) => rebindsOfExpr functions e
  | .assign _ sym _ e => sym :: rebindsOfExpr functions e
  | .ite _ c t _ e => rebindsOfExpr functions c ++ rebindsOfStmts t ++ rebindsOfStmts e
  | .loop _ c body => rebindsOfExpr functions c ++ rebindsOfStmts body
  | .ret _ none | .stop _ | .next _ | .revert _ _ | .panic _ _ => []

/-- The bindings that statements assign to or rebind. -/
def rebindsOfStmts : List Stmt → List SymbolId
  | [] => []
  | s :: ss => rebindsOfStmt s ++ rebindsOfStmts ss

end

/-! ## Functions under construction -/

/-- The values of the bindings at a place. -/
abbrev Bindings := Array (Option ValueId)

/-- A loop around the statement under construction. -/
structure LoopFrame where
  header : BlockId
  exit : BlockId
  /-- The bindings that the header has parameters for, in order. -/
  carried : List SymbolId
  /-- The bindings that the exit has parameters for, in order: those of `carried` that are read
  later. -/
  leaving : List SymbolId
  /-- The bindings that the loop reads. -/
  reads : List SymbolId
deriving Repr, Inhabited

/-- A function under construction, and the tables of its module. -/
structure Builder where
  blocks : Array Block := #[]
  insts : Array Inst := #[]
  values : Array Value := #[]
  types : TypePool
  /-- The blocks of the function. -/
  owned : Array BlockId := #[]
  /-- The block that instructions are added to; none after an ending. -/
  current : Option BlockId := none
  env : Bindings := #[]
  /-- The loops around the statement, the innermost first. -/
  loops : List LoopFrame := []
  /-- The statements that follow in each block around the statement, the innermost first. -/
  pending : List (List Stmt) := []
  /-- How many parameters joins and loops were given. -/
  joinParams : Nat := 0
deriving Inhabited

/-- Construction steps. -/
abbrev Build := StateM Builder

namespace Build

/-- Adds an empty block to the function. -/
def newBlock : Build BlockId :=
  modifyGet fun b => (b.blocks.size,
    { b with blocks := b.blocks.push {}, owned := b.owned.push b.blocks.size })

/-- Gives a block a further parameter. -/
def addParam (block : BlockId) (type : TypeId) (span : Span := {}) : Build ValueId :=
  modifyGet fun b =>
    let index := ((b.blocks[block]?).map (·.params.length)).getD 0
    (b.values.size,
      { b with
        values := b.values.push { type, site := .param block index, span }
        blocks := b.blocks.modify block fun k => { k with params := k.params ++ [b.values.size] } })

/-- Gives a block a further parameter where control flow joins. -/
def addJoinParam (block : BlockId) (type : TypeId) : Build ValueId := do
  modify fun b => { b with joinParams := b.joinParams + 1 }
  addParam block type

/-- Adds an instruction to the current block. A result of type unit is none. -/
def emit (data : InstData) (type : Option TypeId) (effect : Effect) (span : Span) :
    Build (Option ValueId) :=
  modifyGet fun b =>
    let id := b.insts.size
    let result := (type.filter fun t => !b.types.isUnit t).map fun t => (b.values.size, t)
    let values := match result with
      | some (_, t) => b.values.push { type := t, effect, site := .inst id, span }
      | none => b.values
    (result.map (·.1),
      { b with
        values
        insts := b.insts.push { data, effect, result := result.map (·.1), span }
        blocks := match b.current with
          | some k => b.blocks.modify k fun k => { k with insts := k.insts ++ [id] }
          | none => b.blocks })

/-- Ends the current block. -/
def terminate (t : Terminator) : Build Unit :=
  modify fun b =>
    { b with
      current := none
      blocks := match b.current with
        | some k => b.blocks.modify k fun k => { k with term := some t }
        | none => b.blocks }

/-- Goes on at a block. -/
def moveTo (block : Option BlockId) : Build Unit := modify fun b => { b with current := block }

/-- Binds a name to a value. -/
def bind (sym : SymbolId) (value : Option ValueId) : Build Unit :=
  modify fun b => { b with env := b.env.setIfInBounds sym value }

/-- Sets the values of all bindings. -/
def setEnv (env : Bindings) : Build Unit := modify fun b => { b with env }

/-- The value of a binding. -/
def valueOf (sym : SymbolId) : Build (Option ValueId) := return (← get).env.getD sym none

/-- The values of bindings, to be passed along an edge. -/
def valuesOf (syms : List SymbolId) : Build (List ValueId) := do
  let env := (← get).env
  return syms.map fun s => (env.getD s none).getD invalidId

/-- The type of a value. -/
def typeOf (v : ValueId) : Build TypeId := do
  return (((← get).values[v]?).map (·.type)).getD TypeId.invalid

/-- Whether a binding is read after the current statement: by a loop around it, whose next round
follows, or by a later statement. -/
def isLiveAfter (sym : SymbolId) : Build Bool := do
  let b ← get
  return b.loops.any (fun l => l.carried.contains sym || l.reads.contains sym)
    || b.pending.any (fun ss => (readsOfStmts ss).contains sym)

/-- The bindings of a list that are read after the current statement. -/
def liveOf : List SymbolId → Build (List SymbolId)
  | [] => return []
  | s :: ss => do
    let live ← isLiveAfter s
    let rest ← liveOf ss
    return if live then s :: rest else rest

/-! ### Joins -/

/-- An edge to a join. -/
structure Edge where
  source : BlockId
  env : Bindings
  /-- The value of the expression that the join completes. -/
  value : Option ValueId := none
deriving Repr, Inhabited

/-- An ending with an argument added to every edge to a target. -/
def appendArg (target : BlockId) (arg : ValueId) : Terminator → Terminator
  | .jump t args => .jump t (if t = target then args ++ [arg] else args)
  | .branch cond t targs e eargs =>
    .branch cond t (if t = target then targs ++ [arg] else targs)
      e (if e = target then eargs ++ [arg] else eargs)
  | t => t

/-- Passes values along edges to a further parameter of a join. -/
def passToJoin (join : BlockId) (type : TypeId) (edges : List (BlockId × Option ValueId)) :
    Build ValueId := do
  let param ← addJoinParam join type
  modify fun b =>
    { b with
      blocks := edges.foldl
        (fun blocks (source, arg) => blocks.modify source fun k =>
          { k with term := k.term.map (appendArg join (arg.getD invalidId)) }) b.blocks }
  return param

/-- The value of one binding after a join: the value that it has on all edges, or a parameter of the
join. A binding that is undefined on an edge, or read no more, has none. -/
def joinBinding (join : BlockId) (edges : List Edge) (onlyLive : Bool) (sym : SymbolId) :
    Build (Option ValueId) := do
  let incoming := edges.map fun e => (e.source, e.env.getD sym none)
  match incoming with
  | [] => return none
  | (_, first) :: rest =>
    if rest.all (·.2 == first) then return first
    else
      match first with
      | none => return none
      | some v =>
        if rest.any (·.2.isNone) then return none
        else if onlyLive && !(← isLiveAfter sym) then return none
        else
          let param ← passToJoin join (← typeOf v) incoming
          return some param

/-- The values of bindings after a join. -/
def joinBindings (join : BlockId) (edges : List Edge) (onlyLive : Bool) :
    List SymbolId → Bindings → Build Bindings
  | [], env => return env
  | s :: ss, env => do
    let v ← joinBinding join edges onlyLive s
    joinBindings join edges onlyLive ss (env.push v)

/-- Goes on at a join. -/
def enterJoin (join : BlockId) (edges : List Edge) (onlyLive : Bool) : Build Unit := do
  let count := (← get).env.size
  let env ← joinBindings join edges onlyLive (List.range count) #[]
  setEnv env
  moveTo (some join)

/-- Goes on at a join that completes an expression. -/
def enterValueJoin (join : BlockId) (edges : List Edge) (type : TypeId) : Build ValueId := do
  enterJoin join edges false
  passToJoin join type (edges.map fun e => (e.source, e.value))

end Build

open Build

/-! ## Expressions -/

/-- What an operation may do besides computing its result. -/
def binaryEffect (op : BinOp) (mode : ArithMode) : Effect :=
  if op.isCompare || op.isBitwise then .pure
  else
    match mode with
    | .checked => .pure
    | .trap => .traps
    | .wrapping | .saturating => if op = .div || op = .rem then .traps else .pure

/-- The instruction of an operation on results. -/
def resultInst : Hir.ResultOp → ValueId → InstData
  | .isOk, v => .resultIsOk v
  | .unwrap, v => .resultValue v
  | .code, v => .resultCode v

/-- What an operation on results may do besides computing its result. -/
def resultEffect : Hir.ResultOp → Effect
  | .unwrap => .traps
  | .isOk | .code => .pure

/-- A binding that is put into a cell for a call. -/
structure Lent where
  sym : SymbolId
  cell : Option ValueId
deriving Repr, Inhabited

variable (symbols : Array Hir.Symbol)

/-- Whether a binding is a reference to a cell. -/
def isReference (sym : SymbolId) : Bool := (symbols[sym]?).any fun s => s.pass == some .exclusive

/-- The type of a binding. -/
def bindingType (sym : SymbolId) : TypeId := ((symbols[sym]?).map (·.type)).getD TypeId.invalid

/-- The argument for an exclusively passed binding: the reference that it is, or a new cell. -/
def lowerExclusive (sym : SymbolId) (span : Span) : Build (Option ValueId × Option Lent) := do
  let value ← valueOf sym
  if isReference symbols sym then return (value, none)
  else
    let type ← modifyGet fun b =>
      let (t, types) := b.types.ref (bindingType symbols sym)
      (t, { b with types })
    let cell ← emit (.refNew (value.getD invalidId)) (some type) .pure span
    return (cell, some { sym, cell })

/-- Gives bindings back the values of the cells that they were put into. -/
def takeBack (span : Span) : List Lent → Build Unit
  | [] => return ()
  | l :: ls => do
    let v ← emit (.refLoad (l.cell.getD invalidId))
        (some (bindingType symbols l.sym)) .readsMemory span
    bind l.sym v
    takeBack span ls

mutual

/-- The code of an expression; its value, unless it has type unit. -/
def lowerExpr : Expr → Build (Option ValueId)
  | .int i bits => emit (.constInt bits) (some i.type) .pure i.span
  | .bool i value => emit (.constBool value) (some i.type) .pure i.span
  | .bytes i value => emit (.constBytes (Bytes.utf8 value)) (some i.type) .pure i.span
  | .unit _ => return none
  | .local i sym => do
    let value ← valueOf sym
    if isReference symbols sym then
      emit (.refLoad (value.getD invalidId)) (some i.type) .readsMemory i.span
    else return value
  | .unary i op mode a => do
    let src := (← lowerExpr a).getD invalidId
    match op with
    | .neg => emit (.unary .neg mode src) (some i.type) (if mode = .trap then .traps
        else .pure) i.span
    | .not | .bitNot => emit (.unary op .wrapping src) (some i.type) .pure i.span
  | .binary i op mode a b => do
    let left := (← lowerExpr a).getD invalidId
    let right := (← lowerExpr b).getD invalidId
    emit (.binary op mode left right) (some i.type) (binaryEffect op mode) i.span
  | .logical i isAnd a b => do
    let left := (← lowerExpr a).getD invalidId
    let shortcut ← emit (.constBool !isAnd) (some i.type) .pure i.span
    let source := ((← get).current).getD invalidId
    let env := (← get).env
    let right ← newBlock
    let join ← newBlock
    terminate (if isAnd then .branch left right [] join [] else .branch left join [] right [])
    moveTo (some right)
    let value ← lowerExpr b
    let last := ((← get).current).getD invalidId
    let lastEnv := (← get).env
    terminate (.jump join [])
    let v ← enterValueJoin join
      [{ source, env, value := shortcut }, { source := last, env := lastEnv, value }] i.type
    return some v
  | .cast i mode a => do
    let src := (← lowerExpr a).getD invalidId
    emit (.cast mode i.type src) (some i.type) (if mode = .trap then .traps else .pure) i.span
  | .call i callee args => do
    let (vs, lent) ← lowerArgs (passModes functions callee) args
    let r ← emit (.call callee vs) (some i.type) .call i.span
    takeBack symbols i.span lent
    return r
  | .field i _ index base => do
    let v := (← lowerExpr base).getD invalidId
    emit (.extract v index) (some i.type) .pure i.span
  | .struct i fields => do
    let (vs, _) ← lowerArgs [] fields
    emit (.makeStruct vs) (some i.type) .pure i.span
  | .select i c t e => do
    let cond := (← lowerExpr c).getD invalidId
    let thenBlock ← newBlock
    let elseBlock ← newBlock
    let join ← newBlock
    terminate (.branch cond thenBlock [] elseBlock [])
    let env := (← get).env
    moveTo (some thenBlock)
    let value ← lowerExpr t
    let onTrue : Edge := { source := ((← get).current).getD invalidId, env := (← get).env, value }
    terminate (.jump join [])
    setEnv env
    moveTo (some elseBlock)
    let value ← lowerExpr e
    let onFalse : Edge := { source := ((← get).current).getD invalidId, env := (← get).env, value }
    terminate (.jump join [])
    if (← get).types.isUnit i.type then
      enterJoin join [onTrue, onFalse] false
      return none
    else
      let v ← enterValueJoin join [onTrue, onFalse] i.type
      return some v
  | .ok i a => do
    let v ← lowerExpr a
    emit (.makeResult true v) (some i.type) .pure i.span
  | .err i a => do
    let v ← lowerExpr a
    emit (.makeResult false v) (some i.type) .pure i.span
  | .result i op a => do
    let v := (← lowerExpr a).getD invalidId
    emit (resultInst op v) (some i.type) (resultEffect op) i.span
  | .length i a => do
    let v := (← lowerExpr a).getD invalidId
    emit (.bytesLength v) (some i.type) .pure i.span
  | .stateGet i ns key => do
    let k := (← lowerExpr key).getD invalidId
    let type := ((← get).types.resultElem? i.type).getD TypeId.invalid
    emit (.stateRead ns k type) (some i.type) .readsMemory i.span
  | .statePut i ns key value => do
    let k := (← lowerExpr key).getD invalidId
    let v := (← lowerExpr value).getD invalidId
    emit (.stateWrite ns k v) none .writesMemory i.span
  | .stateHas i ns key => do
    let k := (← lowerExpr key).getD invalidId
    emit (.stateHas ns k) (some i.type) .readsMemory i.span
  | .context i query => emit (.context query.number) (some i.type) .readsMemory i.span
  | .digest i a => do
    let v := (← lowerExpr a).getD invalidId
    emit (.digest v) (some i.type) .pure i.span
  | .emit i topic args => do
    let (vs, _) ← lowerArgs [] args
    emit (.emit topic vs) none .writesMemory i.span

/-- The code of arguments, given how they are passed; their values, and the bindings that are put
into cells. -/
def lowerArgs (modes : List PassMode) : List Expr → Build (List ValueId × List Lent)
  | [] => return ([], [])
  | e :: es => do
    let (v, lent) ←
      match modes.headD .owned, e.local? with
      | .exclusive, some sym => lowerExclusive symbols sym e.span
      | _, _ => do
        let v ← lowerExpr e
        pure (v, none)
    let (vs, rest) ← lowerArgs modes.tail es
    return (v.getD invalidId :: vs, lent.toList ++ rest)

end

/-! ## Statements -/

/-- Assigns a value to a binding, or to a field of it. -/
def assign (span : Span) (sym : SymbolId) (field : Option Nat) (value : Option ValueId) :
    Build Unit := do
  let old ← valueOf sym
  let type := bindingType symbols sym
  if isReference symbols sym then
    let ref := old.getD invalidId
    let stored ←
      match field with
      | none => pure value
      | some index => do
        let loaded ← emit (.refLoad ref) (some type) .readsMemory span
        emit (.insert (loaded.getD invalidId) index (value.getD invalidId)) (some type) .pure span
    let _ ← emit (.refStore ref (stored.getD invalidId)) none .writesMemory span
  else
    match field with
    | none => bind sym value
    | some index =>
      let v ← emit (.insert (old.getD invalidId) index (value.getD invalidId))
          (some type) .pure span
      bind sym v

/-- The bindings that a loop carries: those it rebinds that have a value before it and are not
references. -/
def carriedBy (env : Bindings) (rebound : List SymbolId) : List SymbolId :=
  ((rebound.mergeSort).eraseDups).filter fun s =>
    (env.getD s none).isSome && !isReference symbols s

/-- Gives a block parameters for bindings. -/
def joinParamsFor (block : BlockId) : List SymbolId → Build (List (SymbolId × ValueId))
  | [] => return []
  | s :: ss => do
    let type ← typeOf ((← valueOf s).getD invalidId)
    let p ← addJoinParam block type
    let rest ← joinParamsFor block ss
    return (s, p) :: rest

/-- Binds names to parameters. -/
def bindParams : List (SymbolId × ValueId) → Build Unit
  | [] => return ()
  | (s, p) :: rest => do
    bind s (some p)
    bindParams rest

/-- Jumps to a block with the values of bindings. -/
def jumpWith (target : BlockId) (syms : List SymbolId) : Build Unit := do
  terminate (.jump target (← valuesOf syms))

/-- Notes the statements that follow in the innermost block. -/
def setPending (rest : List Stmt) : Build Unit :=
  modify fun b => { b with pending := rest :: b.pending.tail }

/-- Whether instructions can be added. -/
def isOpen : Build Bool := return (← get).current.isSome

/-- The edge from the current block, if it is open. -/
def openEdge : Build (List Edge) := do
  let b ← get
  return b.current.toList.map fun source => { source, env := b.env }

/-- Ends the blocks that edges come from with jumps to a join. -/
def closeAll (join : BlockId) : List Edge → Build Unit
  | [] => return ()
  | e :: es => do
    moveTo (some e.source)
    terminate (.jump join [])
    closeAll join es

mutual

/-- The code of a statement. -/
def lowerStmt : Stmt → Build Unit
  | .expr _ e => do
    let _ ← lowerExpr functions symbols e
  | .bind _ sym e => do
    let v ← lowerExpr functions symbols e
    bind sym v
  | .assign span sym field e => do
    let v ← lowerExpr functions symbols e
    assign symbols span sym field v
  | .ite _ c thenBody hasElse elseBody => do
    let cond := (← lowerExpr functions symbols c).getD invalidId
    let thenBlock ← newBlock
    let otherBlock ← newBlock
    let skip ← openEdge
    let env := (← get).env
    terminate (.branch cond thenBlock [] otherBlock [])
    moveTo (some thenBlock)
    lowerBlock thenBody
    let fromThen ← openEdge
    let fromElse ←
      if hasElse then do
        setEnv env
        moveTo (some otherBlock)
        lowerBlock elseBody
        openEdge
      else pure []
    let ends := fromThen ++ fromElse
    let edges := if hasElse then ends else skip ++ ends
    if edges.isEmpty then moveTo none
    else
      let join ← if hasElse then newBlock else pure otherBlock
      closeAll join ends
      enterJoin join edges true
  | .loop _ c body => do
    let rebound := rebindsOfExpr functions c ++ rebindsOfStmts functions body
    let carried := carriedBy symbols (← get).env rebound
    let reads := readsOfExpr c ++ readsOfStmts body
    let leaving ← liveOf carried
    let header ← newBlock
    jumpWith header carried
    moveTo (some header)
    bindParams (← joinParamsFor header carried)
    let cond := (← lowerExpr functions symbols c).getD invalidId
    let bodyBlock ← newBlock
    let exit ← newBlock
    let exitParams ← joinParamsFor exit leaving
    terminate (.branch cond bodyBlock [] exit (← valuesOf leaving))
    let env := (← get).env
    modify fun b => { b with loops := { header, exit, carried, leaving, reads } :: b.loops }
    moveTo (some bodyBlock)
    lowerBlock body
    if ← isOpen then jumpWith header carried
    modify fun b => { b with loops := b.loops.tail }
    setEnv (carried.foldl (fun env s => env.setIfInBounds s none) env)
    bindParams exitParams
    moveTo (some exit)
  | .ret _ none => terminate (.ret none)
  | .ret _ (some e) => do
    let v ← lowerExpr functions symbols e
    terminate (.ret v)
  | .stop _ => do
    match (← get).loops with
    | [] => return ()
    | l :: _ => jumpWith l.exit l.leaving
  | .next _ => do
    match (← get).loops with
    | [] => return ()
    | l :: _ => jumpWith l.header l.carried
  | .require _ c message => do
    let cond := (← lowerExpr functions symbols c).getD invalidId
    let holds ← newBlock
    let fails ← newBlock
    terminate (.branch cond holds [] fails [])
    moveTo (some fails)
    terminate (.revert message)
    moveTo (some holds)
  | .revert _ message => terminate (.revert message)
  | .panic _ message => terminate (.panic message)

/-- The code of statements up to one that ends the block; what follows that cannot be reached. -/
def lowerStmts : List Stmt → Build Unit
  | [] => return ()
  | s :: ss => do
    if ← isOpen then
      setPending ss
      lowerStmt s
      lowerStmts ss

/-- The code of a block of statements. -/
def lowerBlock (ss : List Stmt) : Build Unit := do
  modify fun b => { b with pending := [] :: b.pending }
  lowerStmts ss
  modify fun b => { b with pending := b.pending.tail }

end

/-! ## Functions and modules -/

/-- Gives the entry block the parameters of a function. -/
def lowerParams (entry : BlockId) : List (Hir.Param × TypeId) → Build Unit
  | [] => return ()
  | (p, type) :: rest => do
    let v ← addParam entry type p.span
    bind p.sym (some v)
    lowerParams entry rest

/-- The code of a function. Running off the end returns from a function of type unit. -/
def lowerFunction (f : Hir.Function) (paramTypes : List TypeId) : Build BlockId := do
  let entry ← newBlock
  moveTo (some entry)
  lowerParams entry (f.params.zip paramTypes)
  lowerBlock functions symbols f.body
  if ← isOpen then
    terminate (if (← get).types.isUnit f.ret then .ret none else .unreachable)
  return entry

/-- The types of the parameters, with references numbered. -/
def signatureTypes (types : TypePool) : List Hir.Param → List TypeId × TypePool
  | [] => ([], types)
  | p :: ps =>
    let (t, types) := if p.pass = .exclusive then types.ref p.type else (p.type, types)
    let (ts, types) := signatureTypes types ps
    (t :: ts, types)

/-- The signatures of functions, without bodies. -/
def signatures (types : TypePool) : List (Hir.Function × Bool) → List Function × TypePool
  | [] => ([], types)
  | (f, excluded) :: rest =>
    let (paramTypes, types) := signatureTypes types f.params
    let (fs, types) := signatures types rest
    ({ name := f.name, span := f.span, ret := f.ret, paramTypes, paramModes := f.params.map (·.pass)
       isPublic := f.isPublic, isPayable := f.isPayable, attrs := f.attrs, excluded } :: fs, types)

/-- The intermediate form of a module. -/
structure BuildResult where
  module : Module := {}
  types : TypePool := {}
  /-- How many functions have bodies. -/
  built : Nat := 0
  /-- How many parameters joins and loops were given. -/
  joinParams : Nat := 0
deriving Inhabited

/-- Builds the bodies of functions in order. -/
def buildBodies (hir : Hir.Module) : List (Hir.Function × Function) → BuildResult → BuildResult
  | [], r => r
  | (source, f) :: rest, r =>
    let ⟨⟨unit, functions, blocks, insts, values, counts⟩, types, built, joinParams⟩ := r
    if f.excluded then
      buildBodies hir rest
        ⟨⟨unit, functions.push f, blocks, insts, values, counts⟩, types, built, joinParams⟩
    else
      let start : Builder :=
        { blocks, insts, values, types, env := Array.replicate hir.symbols.size none }
      let (entry, b) := (lowerFunction hir.functions hir.symbols source f.paramTypes).run start
      let f := { f with blocks := b.owned.toList, entry := some entry }
      buildBodies hir rest
        ⟨⟨unit, functions.push f, b.blocks, b.insts, b.values, counts⟩, b.types, built + 1,
          joinParams + b.joinParams⟩

/-- The intermediate form of a module. Functions for which `skip` holds are left out. -/
def buildModule (hir : Hir.Module) (types : TypePool) (skip : Hir.FuncId → Bool) : BuildResult :=
  let sources := hir.functions.toList
  let (fs, types) := signatures types (sources.zipIdx.map fun (f, id) => (f, skip id))
  buildBodies hir (sources.zip fs) { module := { unit := hir.unit }, types }

end ContractCompiler.Ssa
