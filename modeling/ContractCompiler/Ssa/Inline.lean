import ContractCompiler.Ssa.Substitution

/-!
# Inlining

A call to a small function of one block, which itself calls nothing, is replaced by a copy of the
function's instructions. A function whose annotations fix its state domains is never inlined, since
its callers are to see what it declares.

- `Module.isInlinable`;
- `inlineCall`: the copy of a callee at a call;
- `Module.inlineCalls`.
-/

namespace ContractCompiler.Ssa

/-- The value that an ending returns; none if it does not return. -/
def returned? : Terminator → Option (Option ValueId)
  | .ret value => some value
  | _ => none

/-- The block of a function that may be inlined into another, and the value that it returns. -/
def Module.inlinable? (m : Module) (maxInsts : Nat) (caller callee : FuncId) :
    Option (Block × Option ValueId) := do
  let f ← m.functions[callee]?
  let entry ← f.entry
  let b ← m.blocks[entry]?
  let value ← returned? (← b.term)
  if callee ≠ caller && !f.excluded && f.blocks.length == 1 && !overridesDomains f.attrs
      && b.insts.length ≤ maxInsts
      && (m.blockInsts b).all fun (_, i) => i.data.callee?.isNone then
    return (b, value)
  else none

/-- The value that a callee's value becomes. -/
def Substitution.rename (s : Substitution) (v : ValueId) : ValueId := (s[v]?).getD v

/-- Copies instructions to the end of the tables; yields the copies' numbers and the values that the
callee's values become. -/
def copyInsts (span : Span) :
    List Inst → Substitution → Module → List InstId × Substitution × Module
  | [], renamed, m => ([], renamed, m)
  | inst :: rest, renamed, m =>
    let id := m.insts.size
    let data := inst.data.mapOperands renamed.rename
    match inst.result with
    | none =>
      let m := { m with insts := m.insts.push { inst with data, span } }
      let (ids, renamed, m) := copyInsts span rest renamed m
      (id :: ids, renamed, m)
    | some r =>
      let v := m.values.size
      let value := m.values.getD r {}
      let m := { m with
        insts := m.insts.push { inst with data, span, result := some v }
        values := m.values.push { value with site := .inst id } }
      let (ids, renamed, m) := copyInsts span rest (renamed.insert r v) m
      (id :: ids, renamed, m)

/-- A block while its calls are inlined. -/
structure Inlining where
  module : Module
  /-- The instructions of the block so far. -/
  insts : List InstId := []
  /-- The results of calls, with what the copies return. -/
  results : Substitution := {}
  changed : Bool := false
deriving Inhabited

/-- Inlines a call. -/
def inlineCall (s : Inlining) (call : Inst) (args : List ValueId) (b : Block)
    (value : Option ValueId) : Inlining :=
  let ⟨m, insts, results, _⟩ := s
  let params : Substitution := (b.params.zip args).foldl (fun p (k, v) => p.insert k v) {}
  let (ids, renamed, m) := copyInsts call.span ((m.blockInsts b).map (·.2)) params m
  let results := match call.result, value with
    | some r, some v => results.insert r (renamed.rename v)
    | _, _ => results
  { module := { m with counts := { m.counts with callsInlined := m.counts.callsInlined + 1 } }
    insts := insts ++ ids, results, changed := true }

/-- Inlines one instruction if it is a call that can be, and keeps it otherwise. -/
def inlineInst (maxInsts : Nat) (caller : FuncId) (s : Inlining) (id : InstId) : Inlining :=
  let keep : Inlining := { s with insts := s.insts ++ [id] }
  match s.module.insts[id]? with
  | some inst =>
    match inst.data with
    | .call callee args =>
      match s.module.inlinable? maxInsts caller callee with
      | some (b, value) => inlineCall s inst args b value
      | none => keep
    | _ => keep
  | none => keep

/-- Inlines the calls of a block. -/
def inlineBlock (maxInsts : Nat) (caller : FuncId) (m : Module) (b : BlockId) : Module × Bool :=
  let s := (m.block b).insts.foldl (inlineInst maxInsts caller) { module := m }
  if s.changed then
    let blocks := s.module.blocks.modify b fun block => { block with insts := s.insts }
    ({ s.module with blocks }.substitute s.results, true)
  else (m, false)

/-- Inlines the calls of blocks in order. -/
def inlineBlocks (maxInsts : Nat) : List (FuncId × BlockId) → Module → Module × Bool
  | [], m => (m, false)
  | (caller, b) :: rest, m =>
    let (m, changed) := inlineBlock maxInsts caller m b
    let (m, later) := inlineBlocks maxInsts rest m
    (m, changed || later)

/-- The blocks of all functions that are not left out, each with its function. -/
def Module.liveBlocks (m : Module) : List (FuncId × BlockId) :=
  m.functions.toList.zipIdx.flatMap fun (f, id) => if f.excluded then [] else f.blocks.map (id, ·)

/-- Inlines calls in all functions; the flag says whether anything changed. -/
def Module.inlineCalls (m : Module) (maxInsts : Nat) : Module × Bool :=
  inlineBlocks maxInsts m.liveBlocks m

end ContractCompiler.Ssa
