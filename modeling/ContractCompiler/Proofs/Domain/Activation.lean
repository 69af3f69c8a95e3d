import ContractCompiler.Proofs.CallGraph
import ContractCompiler.Proofs.Domain.Collection
import ContractCompiler.Proofs.Domain.KeyResolution

/-!
# Activations

While a function runs, every activation is one of a function that it reaches by calls, stands in a
block of that function, and has bound only values that searches in that function know.

- `ActiveFrame`, `ActiveConfig`: the invariant;
- `ActiveConfig.step`: every step preserves it;
- `active_of_runs`: it holds throughout.
-/

namespace ContractCompiler

open Ssa

/-- The instructions of a function are those of its blocks. -/
theorem Ssa.Module.mem_instsOf {m : Module} {f : Function} {inst : Inst} :
    inst ∈ m.instsOf f ↔ ∃ b ∈ f.blocks, ∃ i ∈ (m.block b).insts, m.insts[i]? = some inst := by
  unfold Module.instsOf Module.blockInsts
  simp only [List.mem_flatMap, List.mem_map, List.mem_filterMap, Option.map_eq_some_iff,
    Prod.exists]
  constructor
  · rintro ⟨b, hb, j, inst', ⟨i, hi, inst'', hinst, heq⟩, rfl⟩
    obtain ⟨rfl, rfl⟩ := Prod.mk.inj heq
    exact ⟨b, hb, i, hi, hinst⟩
  · rintro ⟨b, hb, i, hi, hinst⟩
    exact ⟨b, hb, i, inst, ⟨i, hi, inst, hinst, rfl⟩, rfl⟩

/-- An activation of a function that another one reaches by calls. -/
structure ActiveFrame (m : Module) (types : TypePool) (maxKeys : Nat) (start id : FuncId)
    (f : Function) (frame : Frame) : Prop where
  reached : Walk.Reach m.callGraph.calleesOf start id
  function_eq : m.functions[id]? = some f
  included : f.excluded = false
  block_mem : frame.block ∈ f.blocks
  rest_suffix : frame.rest <:+ (m.block frame.block).insts
  known : ∀ (v : ValueId) x, frame.env[v]? = some x → (keySearch m types maxKeys f).Known v x

/-- All activations of a configuration are of functions that one function reaches by calls, and
callers wait for results of calls. -/
structure ActiveConfig (m : Module) (types : TypePool) (maxKeys : Nat) (start : FuncId)
    (c : Config) :
    Prop where
  frame : ∃ id f, ActiveFrame m types maxKeys start id f c.frame
  callers : ∀ caller ∈ c.callers, (∃ id f, ActiveFrame m types maxKeys start id f caller.frame) ∧
    ∀ r, caller.result = some r → ∃ inst callee args,
      m.definition? r = some inst ∧ inst.data = .call callee args

section Steps

variable {m : Module} {types : TypePool} {maxKeys : Nat} {start : FuncId}

theorem sound_keySearch (maxKeys : Nat) (htyped : m.Typed types) (hfits : m.values.size ≤ invalidId)
    (hverify : m.verify = []) {id : FuncId} {f : Function} (hf : m.functions[id]? = some f)
    (hincl : f.excluded = false) : (keySearch m types maxKeys f).Sound f :=
  ⟨htyped, hfits, Module.verified_of_verify hverify hf hincl, rfl⟩

theorem ActiveFrame.definition? (hverify : m.verify = []) {id : FuncId} {f : Function}
    {frame : Frame} (h : ActiveFrame m types maxKeys start id f frame) {i : InstId}
    {rest : List InstId} (hrest : frame.rest = i :: rest) {inst : Inst}
    (hinst : m.insts[i]? = some inst) {r : ValueId} (hr : inst.result = some r) :
    m.definition? r = some inst := by
  have hmem : i ∈ (m.block frame.block).insts := h.rest_suffix.subset (hrest ▸ List.mem_cons_self)
  obtain ⟨value, hvalue, hsite⟩ :=
    (Module.verified_of_verify hverify h.function_eq h.included).result_site
    frame.block h.block_mem i hmem inst r hinst hr
  rw [definition?_of_site hvalue hsite, hinst]

/-- Going on after an instruction of a frame, with values that are known bound. -/
theorem ActiveFrame.next {id : FuncId} {f : Function} {block : BlockId} {i : InstId}
    {rest : List InstId} {env env' : Env}
    (h : ActiveFrame m types maxKeys start id f ⟨block, i :: rest, env⟩)
    (henv : ∀ (v : ValueId) x, env'[v]? = some x → (keySearch m types maxKeys f).Known v x) :
    ActiveFrame m types maxKeys start id f ⟨block, rest, env'⟩ :=
  ⟨h.reached, h.function_eq, h.included, h.block_mem,
    (List.suffix_cons i rest).trans h.rest_suffix, henv⟩

theorem ActiveFrame.define {id : FuncId} {f : Function} {frame : Frame}
    {result : Option ValueId} {x : Val} (h : ActiveFrame m types maxKeys start id f frame)
    (hx : ∀ r, result = some r → (keySearch m types maxKeys f).Known r x) :
    ActiveFrame m types maxKeys start id f (frame.define result x) := by
  refine ⟨h.reached, h.function_eq, h.included, ?_, ?_, fun v y hv => ?_⟩
  · rw [block_define]
    exact h.block_mem
  · rw [rest_define, block_define]
    exact h.rest_suffix
  · rcases getElem?_define hv with ⟨hr, rfl⟩ | hv
    · exact hx v hr
    · exact h.known v y hv

/-- The activation that a call starts. -/
theorem activeFrame_activate (htyped : m.Typed types) (hfits : m.values.size ≤ invalidId)
    (hverify : m.verify = []) {id : FuncId} {f : Function} {entry : BlockId} (xs : List Val)
    (hreach : Walk.Reach m.callGraph.calleesOf start id) (hf : m.functions[id]? = some f)
    (hincl : f.excluded = false) (hentry : f.entry = some entry) :
    ActiveFrame m types maxKeys start id f (activate m entry xs) := by
  have hs := sound_keySearch maxKeys htyped hfits hverify hf hincl
  obtain ⟨entry', hmem, hentry'⟩ := hs.verified.entry
  obtain rfl := Option.some.inj (hentry.symm.trans hentry')
  refine ⟨hreach, hf, hincl, hmem, List.suffix_refl _, fun v x hv => ?_⟩
  rcases getElem?_bindValues hv with hzip | hnone
  · obtain ⟨k, hk⟩ := List.mem_iff_getElem?.mp hzip
    obtain ⟨hp, -⟩ := List.getElem?_zip_eq_some.mp hk
    exact KeySearch.known_of_entry hs hentry hp x
  · simp at hnone

variable [Hashing]

/-- Every step keeps activations to functions that are reached by calls, and binds known values
only. -/
theorem ActiveConfig.step (htyped : m.Typed types) (hfits : m.values.size ≤ invalidId)
    (hverify : m.verify = []) {unit : String} {limits : EvalLimits} {c c' : Config}
    (h : ActiveConfig m types maxKeys start c)
    (hstep : Step { module := m, types, unit } limits c c') :
    ActiveConfig m types maxKeys start c' := by
  obtain ⟨⟨id, f, hframe⟩, hcallers⟩ := h
  have hs := sound_keySearch maxKeys htyped hfits hverify hframe.function_eq hframe.included
  cases hstep with
  | inst steps_lt inst_eq not_call yields =>
    refine ⟨⟨id, f, (hframe.next hframe.known).define fun r hr => ?_⟩, hcallers⟩
    exact KeySearch.known_of_evalInst unit hs hframe.known
      (hframe.definition? hverify rfl inst_eq hr) yields
  | @call block i rest env callers depth steps store inst callee args xs g entry steps_lt
      inst_eq data_eq args_eq callee_eq included entry_eq depth_lt =>
    -- the callee is reached by this call, and the caller waits for its result
    have hcall : callee ∈ m.callGraph.calleesOf id := by
      refine Module.mem_calleesOf.mpr ⟨f, hframe.function_eq, hframe.included,
        Module.mem_callsOf.mpr ?_⟩
      refine ⟨(Array.getElem?_eq_some_iff.mp callee_eq).1, block, hframe.block_mem, i,
        hframe.rest_suffix.subset List.mem_cons_self, inst, inst_eq, ?_⟩
      rw [data_eq]
      rfl
    have hreach := hframe.reached.trans (.single hcall)
    refine ⟨⟨callee, g, activeFrame_activate htyped hfits hverify xs hreach callee_eq included
      entry_eq⟩, ?_⟩
    intro caller hcaller
    rcases List.mem_cons.mp hcaller with rfl | hcaller
    · exact ⟨⟨id, f, hframe.next hframe.known⟩, fun r hr =>
        ⟨inst, callee, args, hframe.definition? hverify rfl inst_eq hr, data_eq⟩⟩
    · exact hcallers caller hcaller
  | @goTo block target env callers depth steps store term args xs term_eq edge args_eq =>
    have htarget := hs.verified.edge_target block hframe.block_mem term target args term_eq edge
    refine ⟨⟨id, f, ⟨hframe.reached, hframe.function_eq, hframe.included, htarget,
      List.suffix_refl _,
      fun v x hv => ?_⟩⟩, hcallers⟩
    rcases getElem?_bindValues hv with hzip | henv
    · obtain ⟨k, hk⟩ := List.mem_iff_getElem?.mp hzip
      obtain ⟨hp, hx⟩ := List.getElem?_zip_eq_some.mp hk
      rw [List.getElem?_map] at hp
      obtain ⟨⟨p, a⟩, hpa, rfl⟩ := Option.map_eq_some_iff.mp hp
      obtain ⟨hp, ha⟩ := List.getElem?_zip_eq_some.mp hpa
      have hax : env[a]? = some x := by
        obtain ⟨hlt, hget⟩ := List.getElem?_eq_some_iff.mp hpa
        obtain ⟨hlt', rfl⟩ := List.getElem?_eq_some_iff.mp hx
        have := args_eq.get (by simpa using hlt) hlt'
        simpa [hget] using this
      exact KeySearch.known_of_edge hs hframe.block_mem term_eq edge ha hp (hframe.known a x hax)
    · exact hframe.known v x henv
  | leave term_eq returns =>
    obtain ⟨⟨id', f', hcaller⟩, hresult⟩ := hcallers _ List.mem_cons_self
    refine ⟨⟨id', f', hcaller.define fun r hr => ?_⟩, fun caller' hmem => ?_⟩
    · obtain ⟨inst, callee, args, hdef, hdata⟩ := hresult r hr
      exact KeySearch.known_of_call hdef hdata
    · exact hcallers caller' (List.mem_cons_of_mem _ hmem)

/-- While a function runs, all activations are of functions that it reaches by calls, and what they
have bound is known. -/
theorem active_of_runs (htyped : m.Typed types) (hfits : m.values.size ≤ invalidId)
    (hverify : m.verify = []) {unit : String} {limits : EvalLimits} {args : List UInt64}
    {ledger : Ledger} {f : Function} {c₀ c : Config}
    (hstart : m.startEval start args ledger limits = .ok (f, c₀))
    (hruns : Runs { module := m, types, unit } limits c₀ c) :
    ActiveConfig m types maxKeys start c := by
  refine hruns.invariant ?_ fun c c' hc hstep => hc.step htyped hfits hverify hstep
  obtain ⟨hf, -, hexcl, -, entry, hentry, rfl⟩ := startEval_eq_ok.mp hstart
  exact ⟨⟨start, f, activeFrame_activate htyped hfits hverify _ (.refl start) hf hexcl hentry⟩,
    fun caller hcaller => (by cases hcaller)⟩

end Steps

end ContractCompiler
