import ContractCompiler.Codegen.DataLayout
import ContractCompiler.Codegen.Function
import ContractCompiler.ExportName

/-!
# Code for modules

The bytecode module of a contract. Functions in which something is wrong are left out, and so are
the functions that call them; the others are numbered in order. Host functions are imported in the
order in which the code first calls them.

- `Ssa.Module.compile`: the bytecode module of a module, with what is known of each function;
- `CompiledFunction`, `CompiledModule`: its result.
-/

namespace ContractCompiler

open Ssa (FuncId)

/-- What is known of a compiled function. -/
structure CompiledFunction where
  /-- The number of the function in the bytecode module, unless it was left out. -/
  index : Option Nat := none
  /-- The name under which it would be exported; empty if it was excluded before. -/
  name : String := ""
  exported : Bool := false
  numLocals : Nat := 0
  stackValues : Nat := 0
  gas : UInt64 := 0
deriving DecidableEq, Repr, Inhabited

/-- Whether a function was compiled. -/
def CompiledFunction.ok (f : CompiledFunction) : Bool := f.index.isSome

/-- A compiled module. -/
structure CompiledModule where
  module : Vm.Module := {}
  functions : Array CompiledFunction := #[]
  diags : List Diagnostic := []
deriving DecidableEq, Repr, Inhabited

/-- Whether nothing was wrong. -/
def CompiledModule.ok (c : CompiledModule) : Bool := c.diags.isEmpty

namespace Codegen

/-! ## Constant data and faults -/

/-- Lays out the data that elements of code need, and collects what is wrong with them. -/
def layOut (limit : UInt64) : List Item → DataLayout → List Fault × DataLayout
  | [], d => ([], d)
  | .reserve use bytes span :: rest, d =>
    match d.add? limit.toNat bytes with
    | some d => layOut limit rest d
    | none =>
      let (faults, d) := layOut limit rest d
      (.dataTooLarge use bytes.length limit span :: faults, d)
  | .fault f :: rest, d =>
    let (faults, d) := layOut limit rest d
    (f :: faults, d)
  | _ :: rest, d => layOut limit rest d

/-- What is wrong with a function, and the layout with its data. -/
def LoweredFunction.layOut (f : LoweredFunction) (options : CodegenOptions) (d : DataLayout) :
    List Fault × DataLayout :=
  let (faults, d) := Codegen.layOut options.maxDataBytes f.items d
  let tooMany :=
    if options.maxLocals < f.numLocals then [.tooManyLocals f.numLocals options.maxLocals] else []
  (faults ++ tooMany, d)

/-- What is known when all functions have been lowered. -/
structure Lowering where
  /-- The code of the functions; none for excluded functions. -/
  functions : Array (Option LoweredFunction) := #[]
  /-- The functions that are left so far. -/
  alive : Array Bool := #[]
  data : DataLayout := {}
  diags : List Diagnostic := []
deriving Inhabited

/-- Lowers a function and adds it to what is known. -/
def Lowering.add [Hashing] (l : Lowering) (m : Ssa.Module) (types : TypePool) (unit : String)
    (options : CodegenOptions) (f : Ssa.Function) : Lowering :=
  if f.excluded then { l with functions := l.functions.push none, alive := l.alive.push false }
  else
    let code := lowerFunction m types unit options f
    let (faults, data) := code.layOut options l.data
    { functions := l.functions.push (some code)
      alive := l.alive.push faults.isEmpty
      data
      diags := l.diags ++ faults.map (·.diagnostic f) }

/-- Lowers all functions. Where something is wrong with one, the others go on. -/
def lowerAll [Hashing] (m : Ssa.Module) (types : TypePool) (unit : String)
    (options : CodegenOptions) :
    Lowering :=
  m.functions.foldl (fun l f => l.add m types unit options f) {}

/-! ## Callers of functions that were left out -/

namespace Lowering

/-- The first function that the code of a function calls although it was left out. -/
def lostCallee? (l : Lowering) (id : FuncId) : Option FuncId := do
  let code ← (← l.functions[id]?)
  code.callees.find? fun c => !(l.alive.getD c false)

/-- The note that a function is left out because of what it calls. -/
def callerNote (m : Ssa.Module) (id callee : FuncId) : Diagnostic :=
  let f := m.functions.getD id default
  let name := (m.functions.getD callee default).name
  { severity := .note, cause := .fnExcluded, span := f.span
    args := [f.name, "calls '" ++ name ++ "', which could not be lowered"] }

/-- Leaves out a function if it calls one that was left out. -/
def dropCaller (m : Ssa.Module) (l : Lowering) (id : FuncId) : Lowering :=
  if l.alive.getD id false then
    match l.lostCallee? id with
    | some callee =>
      { l with
        alive := l.alive.setIfInBounds id false
        diags := l.diags ++ [callerNote m id callee] }
    | none => l
  else l

/-- Passes over all functions until one leaves out nothing more, at most as many as given. -/
def dropCallersRounds (m : Ssa.Module) : Nat → Lowering → Lowering
  | 0, l => l
  | n + 1, l =>
    let next := (List.range l.functions.size).foldl (dropCaller m) l
    if next.alive == l.alive then l else dropCallersRounds m n next

/-- Leaves out the callers of functions that were left out, and their callers in turn. Each pass
before the last leaves out a function. -/
def dropCallers (m : Ssa.Module) (l : Lowering) : Lowering :=
  dropCallersRounds m (l.functions.size + 1) l

/-! ## Numbers -/

/-- The code of a function that is left. -/
def code? (l : Lowering) (id : FuncId) : Option LoweredFunction :=
  if l.alive.getD id false then l.functions.getD id none else none

/-- The functions that are left, in order. -/
def kept (l : Lowering) : List FuncId :=
  (List.range l.functions.size).filter fun id => (l.code? id).isSome

/-- The host operations that the code calls, in the order they are first called. -/
def hostOps (l : Lowering) : List HostOp :=
  (l.kept.flatMap fun id => ((l.code? id).map (·.hostOps)).getD []).eraseDups

/-- The numbers of functions, host functions and data. -/
def linkage (l : Lowering) : Linkage :=
  let kept := l.kept
  let indices := kept.zipIdx.foldl (fun a (id, i) => a.setIfInBounds id i)
    (Array.replicate l.functions.size 0)
  let hostOps := l.hostOps
  { function := fun id => UInt64.ofNat (indices.getD id 0)
    host := fun op => UInt64.ofNat (hostOps.idxOf op)
    address := l.data.offset }

end Lowering

/-! ## The bytecode module -/

/-- The import of a host operation. -/
def importOf (op : HostOp) : Option Vm.Import :=
  (HostRef.ofOp? op).map fun ref =>
    { module := Bytes.utf8 ref.module.name
      version := ref.module.version
      name := Bytes.utf8 ref.function.name
      numArgs := ref.function.arity
      hasResult := !ref.function.noReturn }

/-- The bytecode of a function. -/
def LoweredFunction.assemble (code : LoweredFunction) (link : Linkage) (types : TypePool)
    (unit : String) (f : Ssa.Function) : Vm.Function where
  name := Bytes.utf8 f.name
  exportName := if f.isPublic then Bytes.utf8 (exportName types unit f) else []
  numParams := f.paramTypes.length
  numLocals := code.numLocals
  hasResult := !types.isUnit f.ret
  code := (Codegen.assemble link code.pieces).toArray

/-- What is known of the functions of a module. -/
def compiledFunctions (l : Lowering) (m : Ssa.Module) (types : TypePool) (unit : String)
    (gas : Array UInt64) : Array CompiledFunction :=
  let kept := l.kept
  m.functions.mapIdx fun id f =>
    let name := if f.excluded then "" else exportName types unit f
    match l.code? id with
    | none => { name }
    | some code =>
      { index := some (kept.idxOf id), name, exported := f.isPublic
        numLocals := code.numLocals, stackValues := code.stackValues, gas := gas.getD id 0 }

/-- The finding that the data does not fit into memory. -/
def memoryFault (unit : String) (heapBase memory : Nat) : Diagnostic where
  severity := .fatal
  cause := .valueTooLarge
  args := [unit, "data segments", toString heapBase, toString memory]

end Codegen

open Codegen in
/-- The bytecode module of a module. Memory starts with the end of the heap, which is at first the
end of the constant data. -/
def Ssa.Module.compile [Hashing] (m : Ssa.Module) (types : TypePool) (options : CodegenOptions) :
    CompiledModule :=
  let unit := if options.unit.isEmpty then m.unit else options.unit
  let l := (lowerAll m types unit options).dropCallers m
  let link := l.linkage
  let gas := estimateGas
    ((Array.range m.functions.size).map fun id => (l.code? id).map (·.gas options.gas))
  let functions := compiledFunctions l m types unit gas
  let heapBase := align8 l.data.next
  let memory := options.memoryPages * Vm.pageSize
  { module :=
      { imports := (l.hostOps.filterMap importOf).toArray
        functions := (l.kept.filterMap fun id => do
          let code ← l.code? id
          let f ← m.functions[id]?
          return code.assemble link types unit f).toArray
        exports := functions.filterMap fun f =>
          if f.exported then
            f.index.map fun i => { name := Bytes.utf8 f.name, function := i }
          else none
        data := #[{ offset := 0, bytes := Bytes.littleEndian (UInt64.ofNat heapBase) }] ++
          l.data.segments
        memoryPages := options.memoryPages
        heapBase := UInt64.ofNat heapBase }
    functions
    diags := l.diags ++ if memory < heapBase then [memoryFault unit heapBase memory] else [] }

end ContractCompiler
