import ContractCompiler.Proofs.Hir.Reader.Module
import ContractCompiler.Proofs.Ssa.BuildModule
import ContractCompiler.Proofs.Ssa.PassTyping

/-!
# Modules made from documents

The modules that the stages after reading work on: built from a document that is accepted, with
functions left out, renamed, and optimised, in any order.

- `FromDocument`: such modules and their types;
- `FromDocument.typed`: they are typed, as long as their values have numbers.
-/

namespace ContractCompiler

open Ssa

/-- A module made from a document that is accepted, and its types. -/
inductive FromDocument : Module → TypePool → Prop where
  /-- Building the functions that are not skipped. -/
  | built [Json.Library] {text name : String} {sources : Sources} {skip : Hir.FuncId → Bool}
      {doc : Hir.ReadOutcome} (hdoc : Hir.readDocument text name {} sources = doc)
      (hok : doc.ok = true) : FromDocument (buildModule doc.module doc.types skip).module
      (buildModule doc.module doc.types skip).types
  /-- Compiling for another unit. -/
  | renamed {m : Module} {types : TypePool} (unit : String) (hm : FromDocument m types) :
      FromDocument { m with unit } types
  /-- Leaving out the functions that did not pass a check. -/
  | excludedFailed {m : Module} {types : TypePool} (passed : FuncId → Bool) (reason : String)
      (hm : FromDocument m types) : FromDocument (m.excludeFailed passed reason).module types
  /-- Leaving out the callers of functions that are left out. -/
  | excludedCallers {m : Module} {types : TypePool} (reason : String) (hm : FromDocument m types) :
      FromDocument (m.excludeCallers reason).module types
  /-- Running the passes. -/
  | optimized {m : Module} {types : TypePool} (opt : PassOptions) (hm : FromDocument m types) :
      FromDocument (m.optimize types opt) types

/-- Modules made from documents are typed. -/
theorem FromDocument.typed {m : Module} {types : TypePool} (hm : FromDocument m types)
    (hfits : m.values.size ≤ invalidId) : m.Typed types := by
  induction hm with
  | built hdoc hok =>
    subst hdoc
    obtain ⟨hsound, htyped⟩ := Hir.typed_readDocument _ _ TypePool.sound_default _
    exact typed_buildModule (htyped hok) hsound _
  | @renamed m _ unit _ ih =>
    have hrestricts : m.Restricts { m with unit } :=
      restricts_functions m m.counts unit fun _ => Option.rel_refl_of Function.Restricts.refl _
    exact hrestricts.typed (ih hfits)
  | @excludedFailed m _ passed reason _ ih =>
    have hrestricts := restricts_excludeFailed m passed reason
    exact hrestricts.typed (ih (hrestricts.values ▸ hfits))
  | @excludedCallers m _ reason _ ih =>
    have hrestricts := restricts_excludeCallers m reason
    exact hrestricts.typed (ih (hrestricts.values ▸ hfits))
  | @optimized m types opt _ ih =>
    have hpreserves := preserves_optimize types m opt
    exact hpreserves.typed hfits (ih (hpreserves.size_le.trans hfits))

end ContractCompiler
