import ContractCompiler.Ssa.ConstFold
import ContractCompiler.Ssa.DeadCode
import ContractCompiler.Ssa.Inline
import ContractCompiler.Ssa.Simplify

/-!
# The optimiser

`Module.optimize` runs the passes in their fixed order.
-/

namespace ContractCompiler

/-- Options of the optimiser. -/
structure PassOptions where
  /-- At level zero nothing is done. -/
  optLevel : Nat := 1
  /-- Functions with more instructions are not inlined. -/
  inlineMaxInsts : Nat := 16
deriving DecidableEq, Repr, Inhabited

/-- Simplifies control flow, folds, inlines, folds what became constant by that, takes out dead
code, and simplifies control flow again. -/
def Ssa.Module.optimize (m : Module) (types : TypePool) (opt : PassOptions) : Module :=
  if opt.optLevel = 0 then m
  else
    let (m, _) := m.simplifyCfg
    let (m, _) := m.constFold types
    let (m, _) := m.inlineCalls opt.inlineMaxInsts
    let (m, _) := m.constFold types
    let (m, _) := m.removeDeadCode
    let (m, _) := m.simplifyCfg
    m

end ContractCompiler
