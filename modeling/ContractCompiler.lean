import ContractCompiler.BitSet
import ContractCompiler.Bytes
import ContractCompiler.Codegen.Arith
import ContractCompiler.Codegen.Assembly
import ContractCompiler.Codegen.DataLayout
import ContractCompiler.Codegen.Fragment
import ContractCompiler.Codegen.Function
import ContractCompiler.Codegen.Inst
import ContractCompiler.Codegen.Listing
import ContractCompiler.Codegen.Program
import ContractCompiler.Codegen.Slots
import ContractCompiler.Compilation
import ContractCompiler.Diagnostic.Basic
import ContractCompiler.Diagnostic.Message
import ContractCompiler.Diagnostic.Render
import ContractCompiler.Directory
import ContractCompiler.Domain.Analysis
import ContractCompiler.Domain.Annotation
import ContractCompiler.Domain.Key
import ContractCompiler.Domain.KeyResolution
import ContractCompiler.Domain.Listing
import ContractCompiler.Execution
import ContractCompiler.ExportName
import ContractCompiler.Gas
import ContractCompiler.Hashing
import ContractCompiler.Hir.Basic
import ContractCompiler.Hir.Listing
import ContractCompiler.Hir.Ownership
import ContractCompiler.Hir.Reader.Expr
import ContractCompiler.Hir.Reader.Module
import ContractCompiler.Hir.Reader.State
import ContractCompiler.Hir.Reader.Stmt
import ContractCompiler.Host.Interface
import ContractCompiler.Host.Ledger
import ContractCompiler.Integer.Arith
import ContractCompiler.Json.Basic
import ContractCompiler.Json.Number
import ContractCompiler.Json.Printer
import ContractCompiler.Json.Reader
import ContractCompiler.Leb128
import ContractCompiler.Main
import ContractCompiler.Manifest
import ContractCompiler.Operator
import ContractCompiler.Options
import ContractCompiler.Program
import ContractCompiler.Sha256
import ContractCompiler.Source
import ContractCompiler.Ssa.Basic
import ContractCompiler.Ssa.Build
import ContractCompiler.Ssa.CallGraph
import ContractCompiler.Ssa.Cfg
import ContractCompiler.Ssa.ConstFold
import ContractCompiler.Ssa.DeadCode
import ContractCompiler.Ssa.Dominance
import ContractCompiler.Ssa.Eval
import ContractCompiler.Ssa.Exclude
import ContractCompiler.Ssa.Inline
import ContractCompiler.Ssa.Listing
import ContractCompiler.Ssa.Optimize
import ContractCompiler.Ssa.Simplify
import ContractCompiler.Ssa.Substitution
import ContractCompiler.Ssa.Verify
import ContractCompiler.Types
import ContractCompiler.Vm.Container
import ContractCompiler.Vm.Listing
import ContractCompiler.Vm.Machine
import ContractCompiler.Vm.Memory
import ContractCompiler.Vm.Module
import ContractCompiler.Proofs.CallGraph
import ContractCompiler.Proofs.Domain.Aggregation
import ContractCompiler.Proofs.Ssa.Cfg
import ContractCompiler.Proofs.Ssa.Execution
import ContractCompiler.Proofs.Ssa.Typing
import ContractCompiler.Proofs.Ssa.Verified
import ContractCompiler.Proofs.Domain.KeyResolution
import ContractCompiler.Proofs.Domain.Collection
import ContractCompiler.Proofs.Domain.Activation
import ContractCompiler.Proofs.Domain.Coverage
import ContractCompiler.Proofs.Hir.Moves
import ContractCompiler.Proofs.Hir.Reader.Document
import ContractCompiler.Proofs.Ssa.Faultless
import ContractCompiler.Proofs.Ssa.DefinedUses
import ContractCompiler.Proofs.Ssa.Cells
import ContractCompiler.Proofs.Vm.Container
import ContractCompiler.Proofs.Codegen.Arith
import ContractCompiler.Proofs.Codegen.Assembly
import ContractCompiler.Proofs.Codegen.Function
import ContractCompiler.Proofs.Codegen.Linkage
import ContractCompiler.Proofs.Codegen.Program
import ContractCompiler.Proofs.Ssa.Exclude
import ContractCompiler.Proofs.Codegen.Selection
import ContractCompiler.Proofs.Domain.KeyBounds
import ContractCompiler.Proofs.Domain.KeyRefinement
import ContractCompiler.Proofs.Ssa.InlineCopies
import ContractCompiler.Proofs.ExportName
import ContractCompiler.Proofs.Gas
import ContractCompiler.Proofs.Codegen.OperationRun
import ContractCompiler.Proofs.Domain.Narrowing
import ContractCompiler.Proofs.Domain.Optimized
import ContractCompiler.Proofs.CallGroups
import ContractCompiler.Proofs.Codegen.Liveness
import ContractCompiler.Proofs.Codegen.SlotSharing
import ContractCompiler.Proofs.Domain.Gathering
import ContractCompiler.Proofs.Domain.LeastSets
import ContractCompiler.Proofs.Domain.Conflicts
import ContractCompiler.Proofs.Hir.Drops
import ContractCompiler.Proofs.Hir.Exclusivity
import ContractCompiler.Proofs.TypeNesting
import ContractCompiler.Proofs.Hir.Reader.Nesting
import ContractCompiler.Proofs.Ssa.DeadCode
import ContractCompiler.Proofs.Ssa.Simplify
import ContractCompiler.Proofs.Ssa.CleanUp
import ContractCompiler.Proofs.Json.Number
import ContractCompiler.Proofs.Hir.Reader.Literal
import ContractCompiler.Proofs.Domain.AnnotationText
import ContractCompiler.Proofs.Codegen.Jumps
import ContractCompiler.Proofs.Vm.Cost
import ContractCompiler.Proofs.Codegen.Routes
import ContractCompiler.Proofs.Ssa.Enclosed
import ContractCompiler.Proofs.Codegen.Spending
import ContractCompiler.Proofs.Diagnostic.Message
import ContractCompiler.Proofs.Source
import ContractCompiler.Proofs.Codegen.EdgeCopies
import ContractCompiler.Proofs.Ssa.ReversePostOrder
import ContractCompiler.Proofs.Ssa.NaturalLoops
import ContractCompiler.Proofs.TypeIdentity
import ContractCompiler.Proofs.Codegen.ConstantData
import ContractCompiler.Proofs.Ssa.FoldRounds
import ContractCompiler.Proofs.Ssa.Folding
import ContractCompiler.Proofs.Domain.Independence
import ContractCompiler.Proofs.Domain.Enforcement
