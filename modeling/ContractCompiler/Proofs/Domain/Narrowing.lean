import ContractCompiler.Proofs.Domain.Activation
import ContractCompiler.Proofs.Domain.PassSearch

/-!
# Accesses across passes

Passes make no accesses. An access of a function after them is an access that the function made
before, or that a function made which it called and which was inlined. Functions whose annotations
replace what is inferred are not inlined.

- `Module.Accesses`, `Module.Exposes`: the accesses of a function, and the functions whose sets it
  takes over with nothing declared on the way;
- `KeySearch.Passes`: what is known of the constants of a value is known of another one;
- `Module.Narrows`: every access comes from one that was there;
- `PassSteps.narrows`: the steps of the optimiser.
-/

namespace ContractCompiler

open Ssa Relation

variable {m m' m'' : Module} {types : TypePool} {f g : Function} {maxKeys : Nat}

/-! ## Accesses -/

namespace Ssa.InstData

theorem stateAccess?_mapOperands (σ : ValueId → ValueId) (d : InstData) :
    (d.mapOperands σ).stateAccess? = d.stateAccess?.map fun a => { a with key := σ a.key } := by
  cases d <;> rfl

theorem mem_operands_of_stateAccess? {d : InstData} {a : StateAccess}
    (h : d.stateAccess? = some a) :
    a.key ∈ d.operands := by
  cases d with
  | stateRead | stateHas | stateWrite =>
    obtain rfl := Option.some.inj h
    exact List.mem_cons_self
  | _ => cases h

theorem stateAccess?_of_constWord? {d : InstData} {w : UInt64} (h : d.constWord? = some w) :
    d.stateAccess? = none ∧ d.callee? = none := by
  cases d with
  | constInt | constBool => exact ⟨rfl, rfl⟩
  | _ => cases h

end Ssa.InstData

/-- A function that is not left out, and an access that its code makes. -/
structure Ssa.Module.Accesses (m : Module) (id : FuncId) (f : Function)
    (a : StateAccess) : Prop where
  function_eq : m.functions[id]? = some f
  live : f.excluded = false
  made : ∃ inst ∈ m.instsOf f, inst.data.stateAccess? = some a

/-- A function takes over the sets of another one: it is the same, or it calls functions, none of
which has annotations that replace what is inferred, that lead there. -/
def Ssa.Module.Exposes (m : Module) : FuncId → FuncId → Prop :=
  ReflTransGen fun id callee => callee ∈ m.callGraph.calleesOf id ∧
    ∃ g, m.functions[callee]? = some g ∧ overridesDomains g.attrs = false

theorem Ssa.Module.mem_callsOf_iff {c : FuncId} :
    c ∈ m.callsOf f ↔ c < m.functions.size ∧ ∃ inst ∈ m.instsOf f, inst.data.callee? = some c := by
  rw [mem_callsOf]
  refine and_congr_right fun _ => ⟨?_, ?_⟩
  · rintro ⟨b, hb, i, hi, inst, hinst, hc⟩
    exact ⟨inst, mem_instsOf.mpr ⟨b, hb, i, hi, hinst⟩, hc⟩
  · rintro ⟨inst, hinst, hc⟩
    obtain ⟨b, hb, i, hi, hinst⟩ := mem_instsOf.mp hinst
    exact ⟨b, hb, i, hi, inst, hinst, hc⟩

theorem Ssa.Module.Trims.lt_size (h : m.Trims m') {id : FuncId} (hid : id < m'.functions.size) :
    id < m.functions.size := by
  obtain ⟨f, hf, -⟩ := h.of_some (Array.getElem?_eq_getElem hid)
  exact (Array.getElem?_eq_some_iff.mp hf).1

/-! ## Searches -/

/-- What bounds a search for a value bounds the search for another one, which then has its type. -/
def Ssa.KeySearch.Passes (s : KeySearch) (v : ValueId) (s' : KeySearch) (x : ValueId) : Prop :=
  ∀ n T, s.Within n v T → s'.Within n x T ∧ s'.module.valueType x = s.module.valueType v

theorem Ssa.KeySearch.Refines.passes {s s' : KeySearch} {R : ValueId → ValueId → Prop}
    (h : s.Refines s' R) {v x : ValueId} (hvx : R v x) : s.Passes v s' x :=
  fun n T hv => ⟨h.within hvx hv, h.type v x n T hvx hv⟩

theorem Ssa.KeySearch.Passes.trans {s s' s'' : KeySearch} {v x y : ValueId} (h : s.Passes v s' x)
    (h' : s'.Passes x s'' y) : s.Passes v s'' y := by
  intro n T hv
  obtain ⟨hx, htype⟩ := h n T hv
  obtain ⟨hy, htype'⟩ := h' n T hx
  exact ⟨hy, htype'.trans htype⟩

/-! ## Narrowing -/

/-- An access of a module comes from one of another module: one that the function exposed there,
with at most the same keys. -/
def Ssa.Module.AccessFrom (types : TypePool) (maxKeys : Nat) (m m' : Module) (id : FuncId)
    (g : Function) (a' : StateAccess) : Prop :=
  ∃ id₀ f a, m.Exposes id id₀ ∧ m.Accesses id₀ f a ∧ a.ns = a'.ns ∧ a.isWrite = a'.isWrite ∧
    (keySearch m types maxKeys f).Passes a.key (keySearch m' types maxKeys g) a'.key

/-- A module with the functions of another one and at most their blocks, in which they make and
expose at most the accesses that they exposed there, and call at most the functions that they
called. -/
structure Ssa.Module.Narrows (types : TypePool) (maxKeys : Nat) (m m' : Module) : Prop where
  trims : m.Trims m'
  unit : m'.unit = m.unit
  calls : ∀ id, m'.callGraph.calleesOf id ⊆ m.callGraph.calleesOf id
  access : ∀ id g a', m'.Accesses id g a' → m.AccessFrom types maxKeys m' id g a'

namespace Ssa.Module.Narrows

theorem refl (m : Module) : m.Narrows types maxKeys m := by
  refine ⟨.of_eq rfl, rfl, fun _ => List.Subset.refl _, fun id g a ha => ?_⟩
  exact ⟨id, g, a, .refl, ha, rfl, rfl, fun n T hv => ⟨hv, rfl⟩⟩

theorem exposes (h : m.Narrows types maxKeys m') {id id' : FuncId} (hid : m'.Exposes id id') :
    m.Exposes id id' := by
  refine ReflTransGen.mono (fun x y hstep => ?_) id id' hid
  obtain ⟨hcall, g, hg, hplain⟩ := hstep
  obtain ⟨f, hf, htrims⟩ := h.trims.of_some hg
  exact ⟨h.calls x hcall, f, hf, htrims.attrs ▸ hplain⟩

theorem trans (h : m.Narrows types maxKeys m') (h' : m'.Narrows types maxKeys m'') :
    m.Narrows types maxKeys m'' := by
  refine ⟨h.trims.trans h'.trims, h'.unit.trans h.unit,
    fun id => List.Subset.trans (h'.calls id) (h.calls id), fun id g a'' ha'' => ?_⟩
  obtain ⟨id', f', a', hexposes', ha', hns', hwrite', hpasses'⟩ := h'.access id g a'' ha''
  obtain ⟨id₀, f, a, hexposes, ha, hns, hwrite, hpasses⟩ := h.access id' f' a' ha'
  exact ⟨id₀, f, a, (h.exposes hexposes').trans hexposes, ha, hns.trans hns', hwrite.trans hwrite',
    hpasses.trans hpasses'⟩

end Ssa.Module.Narrows

/-- The calls of a module are among those of another one if those of its functions are. -/
theorem calleesOf_subset (htrims : m.Trims m')
    (hcalls : ∀ (id : FuncId) f g, m.functions[id]? = some f → f.excluded = false → f.Trims g →
      ∀ inst' ∈ m'.instsOf g, ∀ c, inst'.data.callee? = some c →
        ∃ inst ∈ m.instsOf f, inst.data.callee? = some c) (id : FuncId) :
    m'.callGraph.calleesOf id ⊆ m.callGraph.calleesOf id := by
  intro c hc
  obtain ⟨g, hg, hlive, hc⟩ := Module.mem_calleesOf.mp hc
  obtain ⟨hlt, inst', hinst', hc⟩ := Module.mem_callsOf_iff.mp hc
  obtain ⟨f, hf, htrim⟩ := htrims.of_some hg
  have hlive := htrim.excluded.symm.trans hlive
  obtain ⟨inst, hinst, hc⟩ := hcalls id f g hf hlive htrim inst' hinst' c hc
  exact Module.mem_calleesOf.mpr ⟨f, hf, hlive,
    Module.mem_callsOf_iff.mpr ⟨htrims.lt_size hlt, inst, hinst, hc⟩⟩

/-- An instruction that was there, on renamed operands, or one that neither calls nor accesses
anything. -/
def Ssa.Module.Keeps (σ : ValueId → ValueId) (m : Module) (f : Function) (inst' : Inst) : Prop :=
  (∃ inst ∈ m.instsOf f, inst'.data = inst.data.mapOperands σ) ∨
    inst'.data.stateAccess? = none ∧ inst'.data.callee? = none

theorem Ssa.Module.Keeps.call {σ : ValueId → ValueId} {inst' : Inst} (h : m.Keeps σ f inst')
    {c : FuncId} (hc : inst'.data.callee? = some c) :
    ∃ inst ∈ m.instsOf f, inst.data.callee? = some c := by
  rcases h with ⟨inst, hinst, hdata⟩ | ⟨-, hnone⟩
  · refine ⟨inst, hinst, ?_⟩
    rw [hdata, InstData.callee?_mapOperands] at hc
    exact hc
  · cases hnone.symm.trans hc

theorem Ssa.Module.Keeps.accessFrom {σ : ValueId → ValueId} {inst' : Inst} (h : m.Keeps σ f inst')
    {R : ValueId → ValueId → Prop}
    (hrefines : (keySearch m types maxKeys f).Refines (keySearch m' types maxKeys g) R)
    (hσ : ∀ u, R u (σ u)) {id : FuncId} (hf : m.functions[id]? = some f)
    (hlive : f.excluded = false) {a' : StateAccess} (ha' : inst'.data.stateAccess? = some a') :
    m.AccessFrom types maxKeys m' id g a' := by
  rcases h with ⟨inst, hinst, hdata⟩ | ⟨hnone, -⟩
  · rw [hdata, InstData.stateAccess?_mapOperands] at ha'
    obtain ⟨a, ha, rfl⟩ := Option.map_eq_some_iff.mp ha'
    exact ⟨id, f, a, .refl, ⟨hf, hlive, inst, hinst, ha⟩, rfl, rfl, hrefines.passes (hσ a.key)⟩
  · cases hnone.symm.trans ha'

/-- A rewritten module narrows the one that it was if its instructions were there. -/
theorem Ssa.Module.Rewrites.narrows {σ : ValueId → ValueId} (h : m.Rewrites σ m')
    {R : ValueId → ValueId → Prop} (hσ : ∀ u, R u (σ u))
    (hkeeps : ∀ f g : Function, f.Trims g → ∀ inst' ∈ m'.instsOf g, m.Keeps σ f inst')
    (hrefines : ∀ f g : Function, f.Trims g →
      (keySearch m types maxKeys f).Refines (keySearch m' types maxKeys g) R) :
    m.Narrows types maxKeys m' := by
  refine ⟨h.trims, h.unit, calleesOf_subset h.trims fun id f g _ _ htrims inst' hinst' c hc => ?_,
    fun id g a' ⟨hg, hlive, inst', hinst', ha'⟩ => ?_⟩
  · exact (hkeeps f g htrims inst' hinst').call hc
  · obtain ⟨f, hf, htrims⟩ := h.trims.of_some hg
    exact (hkeeps f g htrims inst' hinst').accessFrom (hrefines f g htrims) hσ hf
      (htrims.excluded.symm.trans hlive) ha'

/-! ## Steps -/

theorem narrows_of_prunes (h : m.Prunes m') : m.Narrows types maxKeys m' := by
  refine h.rewrites.narrows (fun _ => rfl) (fun f g htrims inst hinst => ?_) fun f g htrims =>
    refines_of_prunes h htrims
  obtain ⟨b, hb, i, hi, hinst⟩ := Module.mem_instsOf.mp hinst
  rw [h.insts] at hinst
  refine .inl ⟨inst, Module.mem_instsOf.mpr
    ⟨b, htrims.blocks hb, i, (h.block b).insts hi, hinst⟩, ?_⟩
  rw [Ssa.mapOperands_id]

theorem narrows_of_fold (htyped : m.Typed types) (hfits : m.values.size ≤ invalidId) {i : InstId}
    {inst : Inst} {data : InstData} (hinst : m.insts[i]? = some inst)
    (hfold : foldedData? types m inst = some data) :
    m.Narrows types maxKeys (m.setData i inst data) := by
  refine (rewrites_setData m i inst data).narrows (fun _ => rfl) (fun f g htrims inst' hinst' => ?_)
    fun f g htrims => refines_of_fold htyped hfits hinst hfold htrims
  obtain ⟨b, hb, j, hj, hget⟩ := Module.mem_instsOf.mp hinst'
  rw [getElem?_insts_setData hinst] at hget
  split at hget
  · obtain rfl := Option.some.inj hget
    obtain ⟨w, hw⟩ := constWord?_of_foldedData? hfold
    exact .inr (InstData.stateAccess?_of_constWord? hw)
  · refine .inl ⟨inst', Module.mem_instsOf.mpr ⟨b, htrims.blocks hb, j, hj, hget⟩, ?_⟩
    rw [Ssa.mapOperands_id]

theorem narrows_of_forward (htyped : m.Typed types) (hfits : m.values.size ≤ invalidId)
    {s : Substitution} (hs : s.Forwards m) : m.Narrows types maxKeys (m.substitute s) := by
  refine (rewrites_substitute m s).narrows (s.leadsTo_followFor _)
    (fun f g htrims inst' hinst' => ?_) fun f g htrims => refines_of_forward hs htyped hfits htrims
  rw [substitute_eq] at hinst'
  obtain ⟨b, hb, i, hi, hget⟩ := Module.mem_instsOf.mp hinst'
  rw [block_mapOperands] at hi
  rw [Module.getElem?_insts_mapOperands] at hget
  obtain ⟨inst, hinst, rfl⟩ := Option.map_eq_some_iff.mp hget
  exact .inl ⟨inst, Module.mem_instsOf.mpr ⟨b, htrims.blocks hb, i, hi, hinst⟩, rfl⟩

section Inline

variable {b : BlockId} {s : Inlining} (h : s.Copies m b) (hm : m.Orderly)

/-- A function whose calls were inlined exposed the callees. -/
theorem exposes_of_inlined (c : InlinedCall m b) {id : FuncId} (hf : m.functions[id]? = some f)
    (hlive : f.excluded = false) (hb : b ∈ f.blocks) : m.Exposes id c.callee := by
  obtain ⟨i, hi, inst, hinst, hdata⟩ := c.call_mem
  have hlt := (Array.getElem?_eq_some_iff.mp c.function_eq).1
  have hcalls : c.callee ∈ m.callsOf f :=
    Module.mem_callsOf.mpr ⟨hlt, b, hb, i, hi, inst, hinst, by rw [hdata]; rfl⟩
  have hcallee : c.callee ∈ m.callGraph.calleesOf id :=
    Module.mem_calleesOf.mpr ⟨f, hf, hlive, hcalls⟩
  exact .single ⟨hcallee, c.function, c.function_eq, c.overrides⟩

include h hm

/-- An instruction of a function whose calls were inlined was there, or is a copy of one of a
callee. -/
theorem keeps_or_copy {id : FuncId} (hf : m.functions[id]? = some f) (hlive : f.excluded = false)
    {inst' : Inst} (hinst' : inst' ∈ (s.finish b).instsOf f) : m.Keeps s.results.follow f inst' ∨
      b ∈ f.blocks ∧ ∃ c : InlinedCall m b, ∃ inst ∈ m.instsOf c.function, ∃ ρ,
        inst.data.callee? = none ∧ inst'.data = inst.data.mapOperands ρ ∧
          ∀ u ∈ inst.data.operands, s.Becomes m c u (ρ u) := by
  obtain ⟨k, hk, j, hj, hget⟩ := Module.mem_instsOf.mp hinst'
  obtain ⟨inst, hinst, rfl⟩ :=
    Option.map_eq_some_iff.mp ((Module.getElem?_insts_mapOperands _ _ _).symm.trans hget)
  rcases h.mem_insts_finish hj with hj | ⟨rfl, c, i, hi, inst₀, hinst₀, copy, ρ, hcopy, hdata, hρ⟩
  · have hold := Array.getElem?_eq_getElem (hm.insts f (Array.mem_of_getElem? hf) hlive k hk j hj)
    obtain rfl := Option.some.inj ((h.grows.insts j _ hold).symm.trans hinst)
    exact .inl (.inl ⟨_, Module.mem_instsOf.mpr ⟨k, hk, j, hj, hold⟩, rfl⟩)
  · obtain rfl := Option.some.inj (hcopy.symm.trans hinst)
    obtain ⟨e, hmem, he⟩ := hm.entry c.function (Array.mem_of_getElem? c.function_eq) c.live
    obtain rfl := Option.some.inj (he.symm.trans c.entry_eq)
    refine .inr ⟨hk, c, inst₀, Module.mem_instsOf.mpr ⟨c.entry, hmem, i, hi, hinst₀⟩,
      s.results.follow ∘ ρ,
      c.calls_nothing i hi inst₀ hinst₀, ?_, fun u hu => ?_⟩
    · show copy.data.mapOperands _ = _
      rw [hdata, InstData.mapOperands_mapOperands]
    · exact becomes_of_use hm c (Module.mem_usesOfBlock.mpr (.inl ⟨i, hi, inst₀, hinst₀, hu⟩))
        (hρ u hu)

theorem narrows_finish : m.Narrows types maxKeys (s.finish b) := by
  have htrims : m.Trims (s.finish b) := .of_eq h.grows.functions
  have hfunctions : (s.finish b).functions = m.functions := h.grows.functions
  refine ⟨htrims, h.grows.unit, fun id c hc => ?_,
    fun id g a' ⟨hg, hlive, inst', hinst', ha'⟩ => ?_⟩
  · obtain ⟨f, hf, hlive, hc⟩ := Module.mem_calleesOf.mp hc
    obtain ⟨hlt, inst', hinst', hc⟩ := Module.mem_callsOf_iff.mp hc
    rw [hfunctions] at hf hlt
    refine Module.mem_calleesOf.mpr ⟨f, hf, hlive, Module.mem_callsOf_iff.mpr ⟨hlt, ?_⟩⟩
    rcases keeps_or_copy h hm hf hlive hinst' with hkeeps | ⟨-, c', inst, -, ρ, hnone, hdata, -⟩
    · exact hkeeps.call hc
    · rw [hdata, InstData.callee?_mapOperands, hnone] at hc
      cases hc
  · rw [hfunctions] at hg
    rcases keeps_or_copy h hm hg hlive hinst' with hkeeps | ⟨hb, c, inst, hinst, ρ, -, hdata, hρ⟩
    · exact hkeeps.accessFrom (refines_finish h (.refl g)) (fun _ => rfl) hg hlive ha'
    · rw [hdata, InstData.stateAccess?_mapOperands] at ha'
      obtain ⟨a, ha, rfl⟩ := Option.map_eq_some_iff.mp ha'
      refine ⟨c.callee, c.function, a, exposes_of_inlined c hg hlive hb,
        ⟨c.function_eq, c.live, inst, hinst, ha⟩, rfl, rfl, ?_⟩
      exact (refines_copies h hm c).passes (hρ a.key (InstData.mem_operands_of_stateAccess? ha))

end Inline

/-- Every step of the optimiser narrows a module. -/
theorem Ssa.PassStep.narrows (h : PassStep types m m') (hm : m.Orderly) :
    m.Narrows types maxKeys m' := by
  cases h with
  | prune h => exact narrows_of_prunes h
  | fold htyped hfits hinst hfold => exact narrows_of_fold htyped hfits hinst hfold
  | forward htyped hfits hs => exact narrows_of_forward htyped hfits hs
  | @inline maxInsts caller f b htyped hf hlive hb =>
    rcases inlineBlock_cases htyped hm hf hlive hb maxInsts with heq | ⟨s, hcopies, heq⟩
    · rw [heq]
      exact .refl m
    · rw [heq]
      exact narrows_finish hcopies hm

theorem Ssa.PassSteps.narrows (h : PassSteps types m m') (hm : m.Orderly) :
    m.Narrows types maxKeys m' := by
  induction h with
  | refl => exact .refl m
  | tail hsteps hstep ih => exact ih.trans (hstep.narrows (PassSteps.orderly hsteps hm))

/-- The optimiser narrows a module. -/
theorem narrows_optimize (htyped : m.Typed types) (hm : m.Orderly) (p : PassOptions)
    (hfits : (m.optimize types p).values.size ≤ invalidId) :
    m.Narrows types maxKeys (m.optimize types p) := by
  rcases optimize_cases types m p with heq | ⟨m', heq, hsteps⟩
  · rw [heq]
    exact .refl m
  · rw [heq] at hfits ⊢
    have hprunes := prunes_simplifyCfg m'
    rw [hprunes.values] at hfits
    exact ((hsteps.steps hfits htyped hm).narrows hm).trans (narrows_of_prunes hprunes)

end ContractCompiler
