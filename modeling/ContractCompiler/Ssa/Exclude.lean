import ContractCompiler.Diagnostic.Basic
import ContractCompiler.Ssa.CallGraph

/-!
# Functions that are left out

A function in which something is wrong is left out of the output, and so is every function that
calls one that is left out.

- `Module.excludeFailed`: leaves out functions that did not pass a check;
- `Module.excludeCallers`: leaves out the callers of functions that are left out.
-/

namespace ContractCompiler.Ssa

/-- The note that a function is left out. -/
def exclusionNote (f : Function) (reason : String) : Diagnostic where
  severity := .note
  cause := .fnExcluded
  span := f.span
  args := [f.name, reason]

/-- What leaving out functions leads to. -/
structure Exclusion where
  module : Module
  notes : List Diagnostic := []
deriving Inhabited

/-- A module with a function left out. -/
def Module.exclude (m : Module) (id : FuncId) : Module :=
  { m with functions := m.functions.modify id fun f => { f with excluded := true } }

/-- Leaves out the functions that did not pass a check, among those given. -/
def excludeFailedIn (passed : FuncId → Bool) (reason : String) : List FuncId → Module → Exclusion
  | [], m => { module := m }
  | id :: ids, m =>
    match m.functions[id]? with
    | none => excludeFailedIn passed reason ids m
    | some f =>
      if f.excluded || passed id then excludeFailedIn passed reason ids m
      else
        let r := excludeFailedIn passed reason ids (m.exclude id)
        { r with notes := exclusionNote f reason :: r.notes }

/-- Leaves out the functions that did not pass a check. -/
def Module.excludeFailed (m : Module) (passed : FuncId → Bool) (reason : String) : Exclusion :=
  excludeFailedIn passed reason (List.range m.functions.size) m

/-- The first function that a function calls although it is left out. -/
def Module.excludedCallee? (m : Module) (f : Function) : Option Function :=
  (m.callsOf f).findSome? fun c => (m.functions[c]?).filter (·.excluded)

/-- Leaves out callers of functions that are left out, one pass over those given. -/
def excludeCallersIn (reason : String) : List FuncId → Module → Exclusion
  | [], m => { module := m }
  | id :: ids, m =>
    match m.functions[id]? with
    | none => excludeCallersIn reason ids m
    | some f =>
      match m.excludedCallee? f with
      | none => excludeCallersIn reason ids m
      | some callee =>
        if f.excluded then excludeCallersIn reason ids m
        else
          let r := excludeCallersIn reason ids (m.exclude id)
          { r with notes := exclusionNote f (reason ++ " '" ++ callee.name ++ "'") :: r.notes }

/-- Passes until one leaves out nothing more, at most as many as given. -/
def excludeCallersRounds (reason : String) : Nat → Module → Exclusion
  | 0, m => { module := m }
  | n + 1, m =>
    let r := excludeCallersIn reason (List.range m.functions.size) m
    if r.notes.isEmpty then r
    else
      let rest := excludeCallersRounds reason n r.module
      { rest with notes := r.notes ++ rest.notes }

/-- Leaves out the callers of functions that are left out, and their callers in turn. Each pass
before the last leaves out a function. -/
def Module.excludeCallers (m : Module) (reason : String) : Exclusion :=
  excludeCallersRounds reason (m.functions.size + 1) m

end ContractCompiler.Ssa
