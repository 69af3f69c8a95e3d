import ContractCompiler.Domain.Analysis

/-!
# Listings of domains

`DomainAnalysis.listing` shows the sets of every function.
-/

namespace ContractCompiler

/-- The canonical texts of a set. -/
def KeyTable.setListing (keys : KeyTable) (set : KeySet) : String :=
  "[" ++ String.intercalate ", " (set.map (canonicalOf keys)) ++ "]"

/-- The lines of a function. -/
def FunctionDomains.listing (keys : KeyTable) (f : Ssa.Function) (d : FunctionDomains) : String :=
  s!"  fn {f.name}" ++
    if f.excluded then " <excluded>\n"
    else
      s!" {d.source.name}\n    reads=" ++ keys.setListing d.reads
        ++ "\n    writes=" ++ keys.setListing d.writes
        ++ (if d.proofs.isEmpty then ""
          else "\n    proofs=" ++ String.join (d.proofs.map fun p => p ++ " "))
        ++ "\n"

/-- The text of an analysis. -/
def DomainAnalysis.listing (r : DomainAnalysis) (m : Ssa.Module) : String :=
  s!"\nDOMAINS keys={r.keys.keys.size} sccs={r.stats.components} "
    ++ s!"cyclic={r.stats.cyclicComponents} fixpoint_passes={r.stats.passes} "
    ++ s!"wildcard_fallbacks={r.stats.fallbacks}\n"
    ++ String.join ((m.functions.toList.zip r.functions.toList).map fun (f, d) =>
      d.listing r.keys f)

end ContractCompiler
