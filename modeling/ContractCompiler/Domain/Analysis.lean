import ContractCompiler.Domain.KeyResolution
import ContractCompiler.Ssa.CallGraph

/-!
# Domain analysis

For every function, the domains that it may read and write: those that its own code accesses and
those of the functions that it calls. An annotation replaces the computed set by a declared one; the
two are then compared.

- `DomainOptions`: what to do about keys that are not known;
- `FunctionDomains`: the sets of a function;
- `Ssa.Module.analyzeDomains`: the analysis of a module;
- `DomainAnalysis.accessSet`: the sets of a function as schedulers compare them.
-/

namespace ContractCompiler

/-- What to do about a state key that is not known when the code is made. -/
inductive WildcardPolicy where
  /-- Take the whole namespace instead. -/
  | coarsen
  /-- Report an error. -/
  | reject
deriving DecidableEq, Repr, Inhabited

/-- Options of the domain analysis. -/
structure DomainOptions where
  wildcardPolicy : WildcardPolicy := .coarsen
  /-- How many possible keys of one access are told apart. -/
  maxEnumeratedKeys : Nat := 4
  /-- The unit in canonical keys; if empty, that of the module. -/
  unit : String := ""
deriving DecidableEq, Repr, Inhabited

/-- Where the sets of a function come from. -/
inductive DomainSource where
  | inferred
  /-- An annotation gives one set or both. -/
  | declared
  /-- An annotation promises that no state is touched. -/
  | trusted
deriving DecidableEq, Repr, Inhabited

/-- The word for a source. -/
def DomainSource.name : DomainSource → String
  | .inferred => "inferred"
  | .declared => "declared"
  | .trusted => "trusted"

/-- The number of a key in the table of an analysis. -/
abbrev KeyId := Nat

/-- A set of keys, in increasing order. -/
abbrev KeySet := List KeyId

/-- Adds a key to a set. -/
def KeySet.insert (id : KeyId) : KeySet → KeySet
  | [] => [id]
  | x :: xs => if id < x then id :: x :: xs else if id = x then x :: xs else x :: insert id xs

/-- Adds keys to a set. -/
def KeySet.union (set : KeySet) (ids : List KeyId) : KeySet :=
  ids.foldl (fun set id => KeySet.insert id set) set

/-- An access to a key in the code of a function. -/
structure LocalAccess where
  key : KeyId
  isWrite : Bool
  span : Span
deriving DecidableEq, Repr, Inhabited

/-- The domains of a function. -/
structure FunctionDomains where
  /-- The keys that its own code reads. -/
  localReads : KeySet := []
  /-- The keys that its own code writes. -/
  localWrites : KeySet := []
  accesses : List LocalAccess := []
  /-- The keys that it or the functions it calls read, whatever is declared. -/
  computedReads : KeySet := []
  /-- The keys that it or the functions it calls write, whatever is declared. -/
  computedWrites : KeySet := []
  /-- The keys that callers and schedulers take it to read. -/
  reads : KeySet := []
  /-- The keys that callers and schedulers take it to write. -/
  writes : KeySet := []
  source : DomainSource := .inferred
  readsDeclared : Bool := false
  writesDeclared : Bool := false
  proofs : List String := []
  /-- How many accesses were widened to their namespaces. -/
  fallbacks : Nat := 0
  /-- Whether an access was turned down. -/
  rejected : Bool := false
deriving DecidableEq, Repr, Inhabited

/-- What an analysis counts. -/
structure DomainStats where
  components : Nat := 0
  cyclicComponents : Nat := 0
  /-- How many passes over groups of functions were made. -/
  passes : Nat := 0
  accesses : Nat := 0
  fallbacks : Nat := 0
deriving DecidableEq, Repr, Inhabited

/-! ## The accesses of a function's own code -/

/-- What is collected over all functions. -/
structure Collector where
  keys : KeyTable := {}
  diags : Array Diagnostic := #[]
  accesses : Nat := 0
  fallbacks : Nat := 0
deriving Inhabited

/-- A step that numbers keys and reports findings. -/
abbrev Collect := StateM Collector

namespace Collect

/-- The number of a key. -/
def intern (k : DomainKey) : Collect KeyId :=
  modifyGet fun c =>
    let (id, keys) := c.keys.intern k
    (id, { c with keys })

/-- The numbers of keys. -/
def internAll : List DomainKey → Collect (List KeyId)
  | [] => return []
  | k :: ks => do
    let id ← intern k
    let ids ← internAll ks
    return id :: ids

/-- Reports findings. -/
def report (ds : List Diagnostic) : Collect Unit :=
  modify fun c => { c with diags := c.diags ++ ds.toArray }

end Collect

/-- A state access: its namespace, its key, and whether it writes. -/
structure StateAccess where
  ns : String
  key : Ssa.ValueId
  isWrite : Bool
deriving DecidableEq, Repr, Inhabited

/-- The state access that an instruction makes. -/
def Ssa.InstData.stateAccess? : Ssa.InstData → Option StateAccess
  | .stateRead ns key _ | .stateHas ns key => some { ns, key, isWrite := false }
  | .stateWrite ns key _ => some { ns, key, isWrite := true }
  | _ => none

/-- Adds accesses to keys. -/
def FunctionDomains.addAccesses (d : FunctionDomains) (isWrite : Bool) (span : Span)
    (ids : List KeyId) : FunctionDomains :=
  { d with
    localReads := if isWrite then d.localReads else d.localReads.union ids
    localWrites := if isWrite then d.localWrites.union ids else d.localWrites
    accesses := d.accesses ++ ids.map fun key => { key, isWrite, span } }

section Hashed

variable [Hashing]

/-- Enters an access: its possible keys, or else its namespace or an error. -/
def collectAccess (search : Ssa.KeySearch) (unit : String) (policy : WildcardPolicy) (name : String)
    (span : Span) (a : StateAccess) (d : FunctionDomains) : Collect FunctionDomains := do
  modify fun c => { c with accesses := c.accesses + 1 }
  match search.resolve a.key, policy with
  | some consts, _ =>
    let signed := (search.types.intKind (search.module.valueType a.key)).signed
    let ids ← Collect.internAll (consts.map fun k => .exact unit a.ns (k.text signed))
    return d.addAccesses a.isWrite span ids
  | none, .reject =>
    Collect.report [{ cause := .dynamicKeyRejected, span, args := [name, a.ns] }]
    return { d with rejected := true }
  | none, .coarsen =>
    let key := DomainKey.all unit a.ns
    let id ← Collect.intern key
    Collect.report
      [{ severity := .note, cause := .wildcardFallback, span, args := [name, a.ns, key.canonical] }]
    modify fun c => { c with fallbacks := c.fallbacks + 1 }
    return { d with fallbacks := d.fallbacks + 1 }.addAccesses a.isWrite span [id]

/-- Enters the accesses of instructions in order. -/
def collectInsts (search : Ssa.KeySearch) (unit : String) (policy : WildcardPolicy)
    (name : String) :
    List Ssa.Inst → FunctionDomains → Collect FunctionDomains
  | [], d => return d
  | inst :: rest, d => do
    let d ← match inst.data.stateAccess? with
      | some a => collectAccess search unit policy name inst.span a d
      | none => pure d
    collectInsts search unit policy name rest d

/-- The key that an annotation names. -/
def DeclaredKey.toDomainKey (unit : String) (k : DeclaredKey) : DomainKey :=
  if k.wildcard then .all unit k.ns else .exact unit k.ns k.key

/-- The set that an annotation declares, if it does. -/
def collectDeclared (unit : String) : Option (List DeclaredKey) → Collect KeySet
  | none => return []
  | some ks => do
    let ids ← Collect.internAll (ks.map (·.toDomainKey unit))
    return KeySet.union [] ids

/-- The instructions of a function in the order of its blocks. -/
def Ssa.Module.instsOf (m : Ssa.Module) (f : Ssa.Function) : List Ssa.Inst :=
  f.blocks.flatMap fun b => (m.blockInsts (m.block b)).map (·.2)

/-- The annotations and the accesses of a function. -/
def collectFunction (m : Ssa.Module) (types : TypePool) (unit : String) (opt : DomainOptions)
    (f : Ssa.Function) : Collect (FunctionDomains × Bool) := do
  let out := parseAnnotations f.attrs
  Collect.report out.diags
  let ann := out.annotations
  if ann.noState then return ({ source := .trusted, proofs := ann.proofs }, out.ok)
  else
    let reads ← collectDeclared unit ann.reads
    let writes ← collectDeclared unit ann.writes
    let d : FunctionDomains :=
      { reads, writes, proofs := ann.proofs
        readsDeclared := ann.reads.isSome, writesDeclared := ann.writes.isSome
        source := if ann.reads.isSome || ann.writes.isSome then .declared else .inferred }
    if f.excluded then return (d, out.ok)
    else
      let search : Ssa.KeySearch :=
        { module := m, types, preds := (m.cfg f).predecessors, maxKeys := opt.maxEnumeratedKeys }
      let d ← collectInsts search unit opt.wildcardPolicy f.name (m.instsOf f) d
      return (d, out.ok && !d.rejected)

/-- The annotations and the accesses of functions in order. -/
def collectFunctions (m : Ssa.Module) (types : TypePool) (unit : String) (opt : DomainOptions) :
    List Ssa.Function → Collect (List (FunctionDomains × Bool))
  | [] => return []
  | f :: fs => do
    let d ← collectFunction m types unit opt f
    let ds ← collectFunctions m types unit opt fs
    return d :: ds

end Hashed

/-! ## The sets of callees -/

/-- Whether the sets of a function are computed from its code and its callees. -/
def isComputed (m : Ssa.Module) (d : FunctionDomains) (f : Ssa.FuncId) : Bool :=
  d.source != .trusted && (m.functions[f]?).any (!·.excluded)

/-- The sets of a function, joined with those of its callees. -/
def FunctionDomains.aggregate (d : FunctionDomains) (callees : List FunctionDomains) :
    FunctionDomains :=
  let reads := callees.foldl (fun set c => set.union c.reads) d.localReads
  let writes := callees.foldl (fun set c => set.union c.writes) d.localWrites
  { d with
    computedReads := reads
    computedWrites := writes
    reads := if d.readsDeclared then d.reads else reads
    writes := if d.writesDeclared then d.writes else writes }

/-- Joins the sets of some functions with those of their callees; the flag says whether a set that
callers see has changed. -/
def aggregateAll (m : Ssa.Module) (g : Ssa.CallGraph) :
    List Ssa.FuncId → Array FunctionDomains → Array FunctionDomains × Bool
  | [], ds => (ds, false)
  | f :: fs, ds =>
    let d := ds.getD f {}
    if !isComputed m d f then aggregateAll m g fs ds
    else
      let d' := d.aggregate ((g.calleesOf f).map fun c => ds.getD c {})
      let (ds, changed) := aggregateAll m g fs (ds.setIfInBounds f d')
      (ds, changed || d'.reads != d.reads || d'.writes != d.writes)

/-- Passes over a group of functions until nothing changes, at most as many as given; counts
them. -/
def aggregateRounds (m : Ssa.Module) (g : Ssa.CallGraph) (members : List Ssa.FuncId) :
    Nat → Array FunctionDomains → Array FunctionDomains × Nat
  | 0, ds => (ds, 0)
  | n + 1, ds =>
    let (ds, changed) := aggregateAll m g members ds
    if g.isCyclic members && changed then
      let (ds, passes) := aggregateRounds m g members n ds
      (ds, passes + 1)
    else (ds, 1)

/-- Goes over groups of functions in order. A pass that changes something adds one of the keys to a
set of a member, which bounds the passes. -/
def aggregateComponents (m : Ssa.Module) (g : Ssa.CallGraph) (keyCount : Nat) :
    List (List Ssa.FuncId) → Array FunctionDomains → Array FunctionDomains × Nat
  | [], ds => (ds, 0)
  | members :: rest, ds =>
    let (ds, passes) := aggregateRounds m g members (2 * keyCount * members.length + 1) ds
    let (ds, more) := aggregateComponents m g keyCount rest ds
    (ds, passes + more)

/-! ## Declared against computed -/

section Compare

variable (keys : KeyTable)

/-- Whether a set has a key or the wildcard of its namespace. -/
def covers (declared : KeySet) (id : KeyId) : Bool :=
  match keys.get? id with
  | none => false
  | some k =>
    declared.any fun d => d == id || (keys.get? d).any fun dk => dk.wildcard && dk.hash == k.scope

/-- Whether some key of a set overlaps with a key. -/
def touches (computed : KeySet) (id : KeyId) : Bool :=
  match keys.get? id with
  | none => false
  | some k => computed.any fun c => (keys.get? c).any fun ck => k.entry.overlaps ck.entry

/-- The place of the first access to a key, or else that of the function. -/
def FunctionDomains.placeOf (d : FunctionDomains) (f : Ssa.Function) (id : KeyId) (isWrite : Bool) :
    Span :=
  ((d.accesses.find? fun a => a.key == id && a.isWrite == isWrite).map (·.span)).getD f.span

/-- The canonical text of a key. -/
def canonicalOf (id : KeyId) : String := ((keys.get? id).map (·.canonical)).getD ""

/-- Compares a computed set with the declared one. -/
def compareSets (f : Ssa.Function) (d : FunctionDomains) (computed declared : KeySet)
    (isWrite : Bool) : List Diagnostic :=
  let set := if isWrite then "writes" else "reads"
  ((computed.filter fun id => !covers keys declared id).map fun id =>
      { severity := .warning, cause := .underDeclared, span := d.placeOf f id isWrite
        args := [f.name, set, canonicalOf keys id] })
    ++ (declared.filter fun id => !touches keys computed id).map fun id =>
      { severity := .note, cause := .overDeclared, span := f.span
        args := [f.name, set, canonicalOf keys id] }

/-- Compares the declared sets of a function with the computed ones. -/
def reconcile (f : Ssa.Function) (d : FunctionDomains) : List Diagnostic :=
  (if d.readsDeclared then compareSets keys f d d.computedReads d.reads false else [])
    ++ if d.writesDeclared then compareSets keys f d d.computedWrites d.writes true else []

end Compare

/-! ## The analysis -/

/-- The outcome of the analysis of a module. -/
structure DomainAnalysis where
  keys : KeyTable := {}
  graph : Ssa.CallGraph := {}
  /-- The domains of each function. -/
  functions : Array FunctionDomains := #[]
  /-- Which functions have no fault in their annotations or keys. -/
  functionOk : Array Bool := #[]
  stats : DomainStats := {}
  diags : List Diagnostic := []
deriving Inhabited

namespace DomainAnalysis

/-- Whether no function has a fault. -/
def ok (r : DomainAnalysis) : Bool := r.functionOk.all (·)

/-- The domains of keys, as schedulers compare them. -/
def entries (r : DomainAnalysis) (set : KeySet) : List DomainEntry :=
  set.filterMap fun id => (r.keys.get? id).map (·.entry)

/-- The sets of a function, as schedulers compare them. -/
def accessSet (r : DomainAnalysis) (f : Ssa.FuncId) : AccessSet :=
  let d := r.functions.getD f {}
  { reads := r.entries d.reads, writes := r.entries d.writes }

end DomainAnalysis

/-- Finds the domains of all functions. -/
def Ssa.Module.analyzeDomains [Hashing] (m : Ssa.Module) (types : TypePool)
    (opt : DomainOptions := {}) : DomainAnalysis :=
  let unit := if opt.unit.isEmpty then m.unit else opt.unit
  let (collected, c) := (collectFunctions m types unit opt m.functions.toList).run {}
  let graph := m.callGraph
  let components := graph.components
  let (functions, passes) :=
    aggregateComponents m graph c.keys.keys.size components (collected.map (·.1)).toArray
  let compared := m.functions.toList.zipIdx.flatMap fun (f, id) =>
    let d := functions.getD id {}
    if isComputed m d id then reconcile c.keys f d else []
  { keys := c.keys
    graph
    functions
    functionOk := (collected.map (·.2)).toArray
    stats :=
      { components := components.length
        cyclicComponents := components.countP graph.isCyclic
        passes
        accesses := c.accesses
        fallbacks := c.fallbacks }
    diags := c.diags.toList ++ compared }

end ContractCompiler
