import ContractCompiler.Codegen.Program
import ContractCompiler.Vm.Listing

/-!
# Listings of compiled modules

`CompiledModule.listing` shows what is known of the compiled functions, then the bytecode.
-/

namespace ContractCompiler

/-- The line of a function; one that was left out has none. -/
def CompiledFunction.listing (f : CompiledFunction) : String :=
  match f.index with
  | none => ""
  | some i =>
    s!"  #{i} {f.name} locals={f.numLocals} stack_values={f.stackValues} gas={f.gas.toNat}"
      ++ (if f.exported then " export\n" else "\n")

/-- The text of a compiled module. -/
def CompiledModule.listing (c : CompiledModule) : Bytes :=
  Bytes.utf8 ("\nBYTECODE\n" ++ String.join (c.functions.toList.map (·.listing))) ++
    c.module.listing

end ContractCompiler
