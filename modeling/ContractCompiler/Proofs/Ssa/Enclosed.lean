import ContractCompiler.Proofs.Ssa.DeadCode
import ContractCompiler.Proofs.Ssa.Exclude
import ContractCompiler.Proofs.Ssa.Faultless
import ContractCompiler.Proofs.Ssa.Results
import ContractCompiler.Proofs.Ssa.Simplify

/-!
# Control flow stays within functions

The blocks of a function lead to blocks of the same function. That is so when a module is built, and
the passes keep it so, whether or not the verifier still accepts what they make.

- `Function.Enclosed`, `Module.Enclosed`: control flow stays within the blocks of a function;
- `FromDocument.enclosed`: it does in modules made from documents;
- `Cfg.Acyclic`, `loopDepths_of_acyclic`: a function whose blocks lead to no block twice has no
  loops.
-/

namespace ContractCompiler.Ssa

open Relation

variable {m m' : Module} {f : Function} {types : TypePool}

/-- The control flow of a function starts at one of its blocks and stays within them. -/
structure Function.Enclosed (m : Module) (f : Function) : Prop where
  entry : ∃ e ∈ f.blocks, f.entry = some e
  blocks_lt : ∀ b ∈ f.blocks, b < m.blocks.size
  targets : ∀ b ∈ f.blocks, ∀ target ∈ (m.block b).successors, target ∈ f.blocks

/-- So does the control flow of the functions of a module, but for those that are left out. -/
def Module.Enclosed (m : Module) : Prop := ∀ f ∈ m.functions, f.excluded = false → f.Enclosed m

theorem Function.Enclosed.mem_successors_cfg (hf : f.Enclosed m) {b target : BlockId}
    (hb : b ∈ f.blocks) :
    target ∈ (m.cfg f).successors b ↔ target ∈ (m.block b).successors := by
  rw [Module.mem_successors_cfg]
  refine ⟨And.left, fun htarget => ⟨htarget, ?_, ?_⟩⟩
  · exact hf.targets b hb target htarget
  · exact hf.blocks_lt target (hf.targets b hb target htarget)

/-! ## Passes -/

/-- The same functions with fewer edges between as many blocks. -/
structure Module.Thins (m m' : Module) : Prop where
  functions : m'.functions = m.functions
  size : m'.blocks.size = m.blocks.size
  successors : ∀ b, (m'.block b).successors ⊆ (m.block b).successors

theorem Module.Thins.enclosed (h : m.Thins m') (hm : m.Enclosed) : m'.Enclosed := by
  intro f hf hlive
  rw [h.functions] at hf
  obtain ⟨hentry, hblocks, htargets⟩ := hm f hf hlive
  refine ⟨hentry, fun b hb => h.size ▸ hblocks b hb, fun b hb target htarget => ?_⟩
  exact htargets b hb target (h.successors b htarget)

theorem Module.KeepsEndings.thins (h : m.KeepsEndings m') : m.Thins m' :=
  ⟨h.functions, h.size, fun b _ hc => h.successors b ▸ hc⟩

theorem Module.Prunes.thins (h : m.Prunes m') (hfunctions : m'.functions = m.functions) :
    m.Thins m' :=
  ⟨hfunctions, h.size, h.shrinks.successors⟩

theorem functions_pruneRounds (n : Nat) (m : Module) (changed : Bool) :
    (m.pruneRounds n changed).1.functions = m.functions := by
  induction n generalizing m changed with
  | zero => rfl
  | succ n ih =>
    unfold Module.pruneRounds
    dsimp only
    split
    · rfl
    · exact (ih _ _).trans (functions_pruneBlocks _ m)

/-- Blocks that cannot be reached may be taken off. -/
theorem Function.Enclosed.dropUnreachable (hf : f.Enclosed m) :
    (m.dropUnreachable f).Enclosed m := by
  obtain ⟨e, he, hentry⟩ := hf.entry
  have hlt := hf.blocks_lt e he
  have htrims := trims_dropUnreachable m f
  refine ⟨⟨e, htrims.mem_entry e he hentry, htrims.entry.trans hentry⟩,
    fun b hb => hf.blocks_lt b (htrims.blocks hb), fun b hb target htarget => ?_⟩
  have hmem := hf.targets b (htrims.blocks hb) target htarget
  unfold Module.dropUnreachable at hb ⊢
  dsimp only at hb ⊢
  split
  · exact hmem
  · rename_i hlive
    rw [if_neg hlive] at hb
    have hreached := (List.mem_filter.mp hb).2
    have hedge := (hf.mem_successors_cfg (htrims.blocks (by
      unfold Module.dropUnreachable
      dsimp only
      rwa [if_neg hlive]))).mpr htarget
    exact List.mem_filter.mpr ⟨hmem, isReached_of_edge hentry hlt hreached hedge⟩

theorem enclosed_simplifyCfg (hm : m.Enclosed) : m.simplifyCfg.1.Enclosed := by
  have hblocks := ((prunes_simplifyBlocks (m.functions.toList.flatMap (·.blocks)) m).thins
    (functions_simplifyBlocks _ m)).enclosed hm
  intro g hg hlive
  obtain ⟨f, hf, rfl⟩ := Array.mem_map.mp (show g ∈ Array.map _ _ from hg)
  have hlive' : f.excluded = false := (trims_dropUnreachable _ f).excluded.symm.trans hlive
  have hclosed := (hblocks f hf hlive').dropUnreachable
  exact ⟨hclosed.entry, hclosed.blocks_lt, hclosed.targets⟩

/-- The passes keep control flow within functions. -/
theorem enclosed_optimize (types : TypePool) (opt : PassOptions) (hm : m.Enclosed) :
    (m.optimize types opt).Enclosed := by
  unfold Module.optimize
  split
  · exact hm
  · dsimp only
    refine enclosed_simplifyCfg ?_
    refine ((prunes_removeDeadCode _).thins (functions_pruneRounds _ _ false)).enclosed ?_
    refine (keepsEndings_constFold _).thins.enclosed ?_
    refine (keepsEndings_inlineBlocks _ _ _).thins.enclosed ?_
    exact (keepsEndings_constFold _).thins.enclosed (enclosed_simplifyCfg hm)

theorem enclosed_exclude (id : FuncId) (hm : m.Enclosed) : (m.exclude id).Enclosed := by
  intro g hg hlive
  obtain ⟨c, hc⟩ := Array.mem_iff_getElem?.mp hg
  rw [Module.getElem?_exclude] at hc
  split at hc
  · obtain ⟨f, -, rfl⟩ := Option.map_eq_some_iff.mp hc
    cases hlive
  · have hclosed := hm g (Array.mem_of_getElem? hc) hlive
    exact ⟨hclosed.entry, hclosed.blocks_lt, hclosed.targets⟩

/-- The control flow of complete code stays within its functions. -/
theorem Module.Complete.enclosed {functions : Array Hir.Function}
    {signature : FuncId → Option (List TypeId × TypeId)} {disjoint : Prop}
    (h : m.Complete functions signature disjoint types) : m.Enclosed := by
  intro f hf hlive
  obtain ⟨K, -, hbody⟩ := h.body f hf hlive
  obtain ⟨A, hcode⟩ := hbody.code
  refine ⟨⟨K.entry, hcode.entry, hbody.entry⟩, fun b hb => (hcode.valid.owned b hb).2,
    fun b hb target htarget => ?_⟩
  obtain ⟨t, e, ht, he, rfl⟩ := mem_edges_of_successor htarget
  exact (((hcode.valid.block b hb).term t ht).edges e he).owned

end ContractCompiler.Ssa

namespace ContractCompiler

open Ssa

variable {m : Module} {types : TypePool}

/-- In modules made from documents control flow stays within functions. -/
theorem FromDocument.enclosed (hm : FromDocument m types) : m.Enclosed := by
  induction hm with
  | built hdoc hok =>
    subst hdoc
    obtain ⟨hsound, htyped⟩ := Hir.typed_readDocument _ _ TypePool.sound_default _
    obtain ⟨hscoped, hvalued⟩ := Hir.scoped_readDocument _ _ _
    exact (complete_buildModule (htyped hok) hsound hvalued hscoped _
      fun _ _ _ _ (hfalse : False) => hfalse.elim).enclosed
  | renamed _ _ ih => exact fun f hf hlive => ⟨(ih f hf hlive).entry, (ih f hf hlive).blocks_lt,
      (ih f hf hlive).targets⟩
  | excludedFailed passed reason _ ih =>
    exact excludeFailed_of_exclude (fun _ id => enclosed_exclude id) ih passed reason
  | excludedCallers reason _ ih =>
    exact excludeCallers_of_exclude (fun _ id => enclosed_exclude id) ih reason
  | optimized opt _ ih => exact enclosed_optimize _ opt ih

namespace Ssa

/-! ## Functions without loops -/

/-- No block leads back to itself. -/
def Cfg.Acyclic (g : Cfg) :
    Prop := ∀ b, ¬Relation.TransGen (fun b target => target ∈ g.successors b) b b

variable {f : Function}

/-- A path that is not a way around a block passes it. -/
theorem reach_of_not_around {entry avoided b : BlockId}
    (hreach : Walk.Reach (m.cfg f).successors entry b) (h : ¬Around m f entry avoided b) :
    Walk.Reach (m.cfg f).successors avoided b := by
  induction hreach with
  | refl =>
    by_cases heq : entry = avoided
    · exact heq ▸ .refl entry
    · exact absurd ⟨heq, .refl entry⟩ h
  | @tail x y _ hy ih =>
    by_cases heq : avoided = y
    · exact heq ▸ .refl avoided
    · exact (ih fun hx => h (hx.edge hy heq)).trans (.single hy)

/-- Without cycles no edge leads to a block that dominates its start. -/
theorem backEdges_of_acyclic (hf : f.Enclosed m) (hacyclic : (m.cfg f).Acyclic) :
    (m.cfg f).backEdges (m.cfg f).dominance = [] := by
  obtain ⟨e, he, hentry⟩ := hf.entry
  refine List.flatMap_eq_nil_iff.mpr fun b hb => ?_
  rw [List.map_eq_nil_iff, List.filter_eq_nil_iff]
  intro target hedge hdominates
  obtain ⟨-, -, rfl | ⟨hreached, haround⟩⟩ :=
    (dominates_eq_true_iff hentry hf.blocks_lt he).mp hdominates
  · exact hacyclic _ (.single hedge)
  · have hback := reach_of_not_around
        ((isReached_iff hentry (hf.blocks_lt e he)).mp hreached) haround
    exact hacyclic target (Relation.TransGen.tail' hback hedge)

/-- Without cycles no block is in a loop. -/
theorem loopDepths_of_acyclic (hf : f.Enclosed m) (hacyclic : (m.cfg f).Acyclic) (b : BlockId) :
    (m.loopDepths f).getD b 0 = 0 := by
  unfold Module.loopDepths
  dsimp only
  split
  · rw [Array.getD_eq_getD_getElem?, Array.getElem?_replicate]
    split <;> rfl
  · rw [backEdges_of_acyclic hf hacyclic, Array.getD_eq_getD_getElem?, Array.getElem?_map]
    cases (Array.range m.blocks.size)[b]? <;> rfl

end Ssa

end ContractCompiler
