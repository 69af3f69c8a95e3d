import ContractCompiler.Proofs.Domain.Coverage
import ContractCompiler.Proofs.Ssa.DeadCode
import ContractCompiler.Proofs.Ssa.Simplify

/-!
# Passes that clean up

Taking out dead code and simplifying control flow may each be run alone, on a module that was built
or that was folded and inlined since. What is asked of the module is what every later stage asks of
it: that it passes the check. The effects of its instructions, which dead code is told by, come with
how it was made.

- `Module.Rewritten`: a module that folding and inlining made from another one;
- `Module.CleansUp`: both passes keep what calls do, and no dead code is left;
- `cleansUp_of_document`: they do so on modules made from documents.
-/

namespace ContractCompiler.Ssa

variable {types : TypePool} {m₀ m : Module}

/-- A module that folding and inlining, in any order and any number of times, made from another
one. -/
inductive Module.Rewritten (types : TypePool) (m₀ : Module) : Module → Prop where
  | refl : Module.Rewritten types m₀ m₀
  | folded {m : Module} (hm : Module.Rewritten types m₀ m) :
      Module.Rewritten types m₀ (m.constFold types).1
  | inlined {m : Module} (maxInsts : Nat) (hm : Module.Rewritten types m₀ m) :
      Module.Rewritten types m₀ (m.inlineCalls maxInsts).1

theorem Module.Rewritten.tagged (hm : m₀.Rewritten types m) (h : m₀.Tagged) : m.Tagged := by
  induction hm with
  | refl => exact h
  | folded _ ih => exact tagged_constFold ih
  | inlined maxInsts _ ih => exact tagged_inlineCalls maxInsts ih

theorem Module.Rewritten.preserves (hm : m₀.Rewritten types m) : m₀.Preserves types m := by
  induction hm with
  | refl => exact .refl m₀
  | @folded m _ ih => exact ih.trans (preserves_constFold m)
  | @inlined m maxInsts _ ih => exact ih.trans (preserves_inlineBlocks maxInsts _ m)

/-- Results of instructions of typed modules are values of theirs. -/
theorem Module.Typed.result_lt (h : m.Typed types) {i : InstId} {inst : Inst}
    (hinst : m.insts[i]? = some inst) {r : ValueId} (hresult : inst.result = some r) :
    r < m.values.size := by
  obtain ⟨t, -, hof, -⟩ := h.inst i inst hinst
  obtain ⟨value, hvalue, -, -⟩ := hof r hresult
  exact (Array.getElem?_eq_some_iff.mp hvalue).1

variable [Hashing]

/-- Taking out dead code and simplifying control flow do what they are for, and calls do not
tell. -/
structure Module.CleansUp (m : Module) (types : TypePool) : Prop where
  /-- Without dead code a call ends as before, unless it was given up. -/
  dead :
      ∀ (id : FuncId) (args : List UInt64) (ledger : Ledger) (unit : String) (limits : EvalLimits),
    (m.evalFunction types id args ledger unit limits).1.exit.settled = true →
      m.removeDeadCode.1.evalFunction types id args ledger unit limits =
        m.evalFunction types id args ledger unit limits
  /-- With simpler control flow a call ends as before, unless it was given up. -/
  flow :
      ∀ (id : FuncId) (args : List UInt64) (ledger : Ledger) (unit : String) (limits : EvalLimits),
    (m.evalFunction types id args ledger unit limits).1.exit.settled = true →
      m.simplifyCfg.1.evalFunction types id args ledger unit limits =
        m.evalFunction types id args ledger unit limits
  /-- The rounds of dead code removal come to an end of their own: more of them change nothing. -/
  settles : ∀ n, m.instCount < n → m.pruneRounds n false = m.removeDeadCode
  /-- What is left and pure has a result that is used. -/
  used : ∀ b ∈ m.removeDeadCode.1.listedBlocks, ∀ i ∈ (m.removeDeadCode.1.block b).insts,
    ∀ inst, m.removeDeadCode.1.insts[i]? = some inst → inst.effect = .pure →
      ∀ r, inst.result = some r →
      ∃ b' ∈ m.removeDeadCode.1.listedBlocks, r ∈ m.removeDeadCode.1.usesOfBlock b'

/-- Taking out dead code and simplifying control flow are safe on their own on what folding and
inlining make of a document that is accepted. -/
theorem cleansUp_of_document [Json.Library] {text docName : String} {sources : Sources}
    {doc : Hir.ReadOutcome} (hdoc : Hir.readDocument text docName {} sources = doc)
    (hok : doc.ok = true) (skip : Hir.FuncId → Bool) {built : BuildResult}
    (hbuilt : buildModule doc.module doc.types skip = built)
    (hm : built.module.Rewritten built.types m) {requireReachable : Bool}
    (hverify : m.verify requireReachable = []) (hfits : m.values.size ≤ invalidId) :
    m.CleansUp built.types := by
  subst hdoc hbuilt
  obtain ⟨hsound, htyped⟩ := Hir.typed_readDocument text docName TypePool.sound_default sources
  have htypedM := hm.preserves.typed hfits (typed_buildModule (htyped hok) hsound skip)
  have htagged := hm.tagged (tagged_buildModule _ _ skip)
  have hprunes := prunes_removeDeadCode m
  refine ⟨fun _ _ _ _ _ hexit => evalFunction_removeDeadCode htagged
    (Module.closed_of_verify hverify) hfits hexit,
    fun _ _ _ _ _ hexit => evalFunction_simplifyCfg hverify hexit,
    fun _ hn => removeDeadCode_stable m hn, ?_⟩
  intro b hb i hi inst hinst heffect r hresult
  refine used_removeDeadCode hb hi hinst heffect hresult (htypedM.result_lt (i := i) ?_ hresult)
  exact hprunes.insts ▸ hinst

omit [Hashing] in
theorem verify_writer : writerModule.verify = [] := by
  decide +kernel

omit [Hashing] in
/-- On the contract in which `g` calls `f`. -/
theorem cleansUp_writer : writerModule.verify = [] ∧ writerModule.values.size ≤ invalidId ∧
    @Module.CleansUp Hashing.sha256 writerModule {} := by
  obtain ⟨doc, hdoc, hmodule, htypes, hok⟩ := read_writerText
  obtain ⟨hbuiltModule, hbuiltTypes⟩ := build_writerHir
  have hsize : writerModule.values.size ≤ invalidId := by decide
  have hclean := @cleansUp_of_document writerModule Hashing.sha256 .standard _ _ _ doc hdoc hok
      (fun _ => false)
    (buildModule writerHir {} fun _ => false) (by rw [hmodule, htypes]) (hbuiltModule ▸ .refl) false
    verify_writer hsize
  rw [hbuiltTypes] at hclean
  exact ⟨verify_writer, hsize, hclean⟩

end ContractCompiler.Ssa
