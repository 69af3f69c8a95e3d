import ContractCompiler.Ssa.Basic
import Std.Data.HashMap

/-!
# Substitutions

Passes replace values by others. A substitution may lead from value to value, and is applied to
every operand of a module.

- `Substitution.follow`: the value at the end of the chain;
- `Module.substitute`: a module with all operands replaced.
-/

namespace ContractCompiler.Ssa

/-- Values that are to be replaced, each with its replacement. -/
abbrev Substitution := Std.HashMap ValueId ValueId

namespace Substitution

/-- The value that a number of replacements leads to. -/
def followFor (s : Substitution) : Nat → ValueId → ValueId
  | 0, v => v
  | n + 1, v =>
    match s[v]? with
    | none => v
    | some w => if w = v then v else s.followFor n w

/-- How many replacements are followed at most. -/
def maxChain : Nat := 64

/-- The value at the end of the chain of replacements. -/
def follow (s : Substitution) (v : ValueId) : ValueId := s.followFor maxChain v

end Substitution

/-- A module with all operands renamed. -/
def Module.mapOperands (m : Module) (f : ValueId → ValueId) : Module :=
  { m with
    insts := m.insts.map fun i => { i with data := i.data.mapOperands f }
    blocks := m.blocks.map fun b => { b with term := b.term.map (·.mapOperands f) } }

/-- A module with all operands replaced. -/
def Module.substitute (m : Module) (s : Substitution) : Module :=
  if s.isEmpty then m else m.mapOperands s.follow

end ContractCompiler.Ssa
