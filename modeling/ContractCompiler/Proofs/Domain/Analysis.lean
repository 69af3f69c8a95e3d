import ContractCompiler.Proofs.Domain.Collection

/-!
# What an analysis leaves

The keys that a function shows to its callers are exactly those that its annotations declare, or,
where they declare nothing, those that the accesses of its code are entered by and those that the
functions it calls show.

- `analysisUnit`: the unit in the canonical texts of an analysis;
- `ShowsKey`: a function shows a key;
- `AnalysisSpec`, `analysisSpec`: what the stages of an analysis leave.
-/

namespace ContractCompiler

open Ssa

/-- The unit in the canonical texts of an analysis. -/
def analysisUnit (m : Module) (opt : DomainOptions) : String :=
  if opt.unit.isEmpty then m.unit else opt.unit

/-- What a function writes, or reads, is told from its code: nothing is declared or promised. -/
def Ssa.Function.Infers (f : Function) (write : Bool) : Prop :=
  (parseAnnotations f.attrs).annotations.noState = false ∧
    (parseAnnotations f.attrs).annotations.declared write = none

/-- Each function has what is collected for it. -/
theorem domainsAt_of_forall₂ {m : Module} {ds : List (FunctionDomains × Bool)}
    {R : Function → FunctionDomains × Bool → Prop} (h : List.Forall₂ R m.functions.toList ds)
    (id : FuncId) :
    (∃ f d, m.functions[id]? = some f ∧ ds[id]? = some d ∧ domainsAt (ds.map (·.1)).toArray id =
      d.1 ∧ R f d) ∨
      (m.functions[id]? = none ∧ domainsAt (ds.map (·.1)).toArray id = {}) := by
  have hdomains : domainsAt (ds.map (·.1)).toArray id = ((ds[id]?).map (·.1)).getD {} := by
    unfold domainsAt
    rw [Array.getD_eq_getD_getElem?, List.getElem?_toArray, List.getElem?_map]
  rw [hdomains]
  cases hd : ds[id]? with
  | none =>
    refine .inr ⟨?_, rfl⟩
    rw [← Array.getElem?_toList, List.getElem?_eq_none_iff, h.length_eq]
    exact List.getElem?_eq_none_iff.mp hd
  | some d =>
    obtain ⟨hlt, rfl⟩ := List.getElem?_eq_some_iff.mp hd
    have hlt' : id < m.functions.toList.length := h.length_eq ▸ hlt
    refine .inl ⟨m.functions.toList[id], ds[id], ?_, rfl, rfl, h.get hlt' hlt⟩
    rw [← Array.getElem?_toList]
    exact List.getElem?_eq_getElem hlt'

/-- A function whose own sets count shows what is computed for it, unless it declares other sets. -/
theorem infers_iff_of {f : Function} {d : FunctionDomains} {write : Bool}
    (hsource : d.source = .trusted ↔ (parseAnnotations f.attrs).annotations.noState = true)
    (hdeclares : d.declares write = (!(parseAnnotations f.attrs).annotations.noState &&
      ((parseAnnotations f.attrs).annotations.declared write).isSome)) :
    f.Infers write ↔ d.source ≠ .trusted ∧ d.declares write = false := by
  unfold Function.Infers
  rw [hdeclares, ne_eq, hsource]
  cases (parseAnnotations f.attrs).annotations.noState <;>
    cases (parseAnnotations f.attrs).annotations.declared write <;> simp

section Hashed

variable [Hashing] {m : Module} {types : TypePool} {opt : DomainOptions}

/-- A function shows a key to its callers. -/
inductive ShowsKey (m : Module) (types : TypePool) (opt : DomainOptions) :
    FuncId → Bool → DomainKey → Prop where
  | declared {id : FuncId} {f : Function} {write : Bool} {k : DomainKey}
      (hf : m.functions[id]? = some f) (hk : k ∈ f.declaredKeys (analysisUnit m opt) write) :
        ShowsKey m types opt id write k
  | entered {id : FuncId} {f : Function} {write : Bool} {k : DomainKey}
      (hf : m.functions[id]? = some f) (hinfers : f.Infers write)
      (hk : f.Enters m types (analysisUnit m opt) opt write k) : ShowsKey m types opt id write k
  | called {id callee : FuncId} {f : Function} {write : Bool} {k : DomainKey}
      (hf : m.functions[id]? = some f) (hinfers : f.Infers write)
      (hcall : callee ∈ m.callGraph.calleesOf id) (hk : ShowsKey m types opt callee write k) :
        ShowsKey m types opt id write k

/-! ## Collected domains -/

section Collected

variable {unit : String} {keys : KeyTable} {ds : List (FunctionDomains × Bool)}

/-- Each function has the domains collected for it. -/
theorem domainsAt_collected
    (h : List.Forall₂ (fun f d => d.1.Collected m types unit opt keys f d.2) m.functions.toList ds)
    (id : FuncId) :
    (∃ f ok, m.functions[id]? = some f ∧
      ds[id]? = some (domainsAt (ds.map (·.1)).toArray id, ok) ∧
      (domainsAt (ds.map (·.1)).toArray id).Collected m types unit opt keys f ok) ∨
      (m.functions[id]? = none ∧ domainsAt (ds.map (·.1)).toArray id = {}) := by
  rcases domainsAt_of_forall₂ h id with ⟨f, d, hf, hd, hdomains, hcoll⟩ | hnone
  · rw [hdomains]
    exact .inl ⟨f, d.2, hf, hd, hcoll⟩
  · exact .inr hnone

/-- The domains collected for a function. -/
theorem collected_of_function
    (h : List.Forall₂ (fun f d => d.1.Collected m types unit opt keys f d.2) m.functions.toList ds)
    {id : FuncId} {f : Function} (hf : m.functions[id]? = some f) :
    ∃ ok, ds[id]? = some (domainsAt (ds.map (·.1)).toArray id, ok) ∧
      (domainsAt (ds.map (·.1)).toArray id).Collected m types unit opt keys f ok := by
  rcases domainsAt_collected h id with ⟨f', ok, hf', hd, hcoll⟩ | ⟨hnone, -⟩
  · obtain rfl := Option.some.inj (hf.symm.trans hf')
    exact ⟨ok, hd, hcoll⟩
  · cases hf.symm.trans hnone

theorem growing_of_collected
    (h : List.Forall₂ (fun f d => d.1.Collected m types unit opt keys f d.2)
      m.functions.toList ds) :
    Growing m m.callGraph keys.keys.size (ds.map (·.1)).toArray := by
  refine ⟨?_, fun f w => ?_, fun f w => ?_, fun f w k hk => ?_, fun f w k hk => ?_,
    fun f w hdecl k hk => ?_⟩
  · simpa using h.length_eq.symm
  all_goals rcases domainsAt_collected h f with ⟨fn, ok, -, -, hd⟩ | ⟨-, heq⟩
  · exact hd.increasing w
  · rw [heq]
    cases w <;> exact List.Pairwise.nil
  · exact hd.increasing_own w
  · rw [heq]
    cases w <;> exact List.Pairwise.nil
  · exact (hd.visible w).lt_size hk
  · rw [heq] at hk
    cases w <;> cases hk
  · exact (hd.own w).lt_size hk
  · rw [heq] at hk
    cases w <;> cases hk
  · rw [hd.visible_nil hdecl] at hk
    cases hk
  · rw [heq] at hk
    cases w <;> cases hk

/-- A function whose sets are computed from what is collected shows what is computed, unless it
declares other sets. -/
theorem infers_iff {f : Function} {d : FunctionDomains} {ok : Bool}
    (h : d.Collected m types unit opt keys f ok) {write : Bool} :
    f.Infers write ↔ d.source ≠ .trusted ∧ d.declares write = false :=
  infers_iff_of h.source_iff (h.declares_eq write)

theorem declares_of_mem {f : Function} {d : FunctionDomains} {ok : Bool}
    (h : d.Collected m types unit opt keys f ok) {write : Bool} {k : DomainKey}
    (hk : k ∈ f.declaredKeys unit write) : d.declares write = true := by
  obtain ⟨id, hid, -⟩ := (h.visible write).complete k hk
  by_contra hdecl
  rw [h.visible_nil (Bool.eq_false_iff.mpr hdecl)] at hid
  cases hid

end Collected

/-! ## The sets at the end -/

/-- What an analysis leaves: keys are made by accesses and annotations, the own set of a function
has the keys that its accesses are entered by, and it shows exactly what it is to show. -/
structure AnalysisSpec (m : Module) (types : TypePool) (opt : DomainOptions) (r : DomainAnalysis) :
    Prop where
  made : r.keys.Made (analysisUnit m opt)
  closed : ∀ f, isComputed m (domainsAt r.functions f) f = true → ClosedAt m.callGraph r.functions f
  own : ∀ (id : FuncId) f, m.functions[id]? = some f → ∀ write,
    r.keys.Lists ((domainsAt r.functions id).own write)
      (f.Enters m types (analysisUnit m opt) opt write)
  shown : ∀ id write, r.keys.Lists ((domainsAt r.functions id).visible write)
      (ShowsKey m types opt id write)
  source_iff : ∀ (id : FuncId) f, m.functions[id]? = some f →
    ((domainsAt r.functions id).source = .trusted ↔
      (parseAnnotations f.attrs).annotations.noState = true)
  resolved : r.ok = true → opt.wildcardPolicy = .reject →
      ∀ (id : FuncId) f, m.functions[id]? = some f →
    f.excluded = false → (domainsAt r.functions id).source ≠ .trusted → ∀ inst ∈ m.instsOf f, ∀ a,
      inst.data.stateAccess? = some a →
        ((keySearch m types opt.maxEnumeratedKeys f).resolve a.key).isSome = true
  compared : ∀ (id : FuncId) f, m.functions[id]? = some f →
    isComputed m (domainsAt r.functions id) id = true →
      ∀ d ∈ reconcile r.keys f (domainsAt r.functions id), d ∈ r.diags

section Shown

variable {keys : KeyTable} {ds : List (FunctionDomains × Bool)}
  (h : List.Forall₂ (fun f d => d.1.Collected m types (analysisUnit m opt) opt keys f d.2)
    m.functions.toList ds)

include h

/-- Passes over the functions add only keys that are to be shown. -/
theorem named_aggregateComponents {keyCount : Nat} (comps : List (List FuncId)) (id : FuncId)
    (write : Bool) :
    ∀ n ∈ (domainsAt (aggregateComponents m m.callGraph keyCount comps (ds.map (·.1)).toArray).1
      id).visible write,
      ∃ k, keys.get? n = some k ∧ ShowsKey m types opt id write k := by
  let start := (ds.map (·.1)).toArray
  -- the invariant of the passes: what is shown is to be shown, and the code's own sets stay
  let P (ds' : Array FunctionDomains) : Prop := ds'.size = m.functions.size ∧
    (∀ id, (domainsAt start id).Keeps (domainsAt ds' id)) ∧
    ∀ id write, ∀ n ∈ (domainsAt ds' id).visible write, ∃ k, keys.get? n = some k ∧
      ShowsKey m types opt id write k
  have hstart : P start := by
    refine ⟨(growing_of_collected h).size_eq, fun _ => .refl _, fun id write n hn => ?_⟩
    rcases domainsAt_collected h id with ⟨f, ok, hf, -, hcoll⟩ | ⟨-, heq⟩
    · obtain ⟨k, hget, hk⟩ := (hcoll.visible write).named n hn
      exact ⟨k, hget, .declared hf hk⟩
    · rw [show domainsAt start id = {} from heq] at hn
      cases write <;> cases hn
  refine (aggregateComponents_induct (P := P) (fun ds' id hds hcomp => ?_) comps hstart).2.2
    id write
  obtain ⟨hsize, hkeeps, hshown⟩ := hds
  obtain ⟨f, hf⟩ : ∃ f, m.functions[id]? = some f :=
    ⟨_, Array.getElem?_eq_getElem (lt_size_of_isComputed hcomp)⟩
  obtain ⟨ok, -, hcoll⟩ := collected_of_function h hf
  have hlt : id < ds'.size := hsize ▸ lt_size_of_isComputed hcomp
  refine ⟨Array.size_setIfInBounds.trans hsize, fun id' => ?_, fun id' write n hn => ?_⟩
  · rw [domainsAt_set hlt]
    split
    · rename_i heq
      rw [heq]
      exact (hkeeps id).trans (FunctionDomains.keeps_aggregate _ _)
    · exact hkeeps id'
  · rw [domainsAt_set hlt] at hn
    split at hn
    · rename_i heq
      rw [heq]
      unfold joined at hn
      rw [FunctionDomains.visible_aggregate] at hn
      cases hdecl : (domainsAt ds' id).declares write with
      | true =>
        rw [hdecl, if_pos rfl] at hn
        exact hshown id write n hn
      | false =>
        rw [hdecl, if_neg Bool.false_ne_true] at hn
        have hsource : (domainsAt start id).source ≠ .trusted := by
          unfold isComputed at hcomp
          rw [(hkeeps id).source_eq] at hcomp
          exact bne_iff_ne.mp (Bool.and_eq_true_iff.mp hcomp).1
        have hinfers : f.Infers write :=
          (infers_iff hcoll).mpr ⟨hsource, ((hkeeps id).declares_eq write).symm.trans hdecl⟩
        rcases mem_computed_joined.mp hn with hown | ⟨c, hc, hcalled⟩
        · rw [(hkeeps id).own_eq] at hown
          obtain ⟨k, hget, hk⟩ := (hcoll.own write).named n hown
          exact ⟨k, hget, .entered hf hinfers hk⟩
        · obtain ⟨k, hget, hk⟩ := hshown c write n hcalled
          exact ⟨k, hget, .called hf hinfers hc hk⟩
    · exact hshown id' write n hn

/-- Every key that is to be shown is there at the end. -/
theorem exists_visible_of_showsKey {ds' : Array FunctionDomains}
    (hkeeps : ∀ id, (domainsAt (ds.map (·.1)).toArray id).Keeps (domainsAt ds' id))
    (hclosed : ∀ id, isComputed m (domainsAt ds' id) id = true → ClosedAt m.callGraph ds' id)
    {id : FuncId} {write : Bool} {k : DomainKey} (hk : ShowsKey m types opt id write k) :
    ∃ n ∈ (domainsAt ds' id).visible write, keys.get? n = some k := by
  -- a function that infers what it does is closed, and shows what is computed for it
  have hinferred : ∀ {id : FuncId} {f : Function} {write : Bool}, m.functions[id]? = some f →
      f.Infers write →
      f.excluded = false → ClosedAt m.callGraph ds' id ∧
        (domainsAt ds' id).visible write = (domainsAt ds' id).computed write := by
    intro id f write hf hinfers hlive
    obtain ⟨ok, -, hcoll⟩ := collected_of_function h hf
    obtain ⟨hsource, hdecl⟩ := (infers_iff hcoll).mp hinfers
    have hcomp : isComputed m (domainsAt ds' id) id = true := by
      unfold isComputed
      rw [hf, (hkeeps id).source_eq]
      simp [hsource, hlive]
    exact ⟨hclosed id hcomp, (hclosed id hcomp).visible_eq write
      (((hkeeps id).declares_eq write).trans hdecl)⟩
  induction hk with
  | @declared id f write k hf hk =>
    obtain ⟨ok, -, hcoll⟩ := collected_of_function h hf
    obtain ⟨n, hn, hget⟩ := (hcoll.visible write).complete k hk
    refine ⟨n, ?_, hget⟩
    rw [(hkeeps id).visible_eq write (declares_of_mem hcoll hk)]
    exact hn
  | @entered id f write k hf hinfers hk =>
    obtain ⟨ok, -, hcoll⟩ := collected_of_function h hf
    obtain ⟨hclosed, hvisible⟩ := hinferred hf hinfers hk.1
    obtain ⟨n, hn, hget⟩ := (hcoll.own write).complete k hk
    refine ⟨n, ?_, hget⟩
    rw [hvisible]
    rw [← (hkeeps id).own_eq] at hn
    exact hclosed.own_mem write n hn
  | @called id callee f write k hf hinfers hcall _ ih =>
    obtain ⟨f', hf', hlive, -⟩ := Module.mem_calleesOf.mp hcall
    obtain rfl := Option.some.inj (hf.symm.trans hf')
    obtain ⟨hclosed, hvisible⟩ := hinferred hf hinfers hlive
    obtain ⟨n, hn, hget⟩ := ih
    refine ⟨n, ?_, hget⟩
    rw [hvisible]
    exact hclosed.callee_mem write callee hcall n hn

end Shown

/-- What the stages of an analysis leave. -/
theorem analysisSpec (hns : ∀ f ∈ m.functions, ∀ inst ∈ m.instsOf f, ∀ a,
    inst.data.stateAccess? = some a → IsNamespace a.ns) :
    AnalysisSpec m types opt (m.analyzeDomains types opt) := by
  let r := (collectFunctions m types (analysisUnit m opt) opt m.functions.toList).run {}
  have hempty : (({} : Collector).keys).Made (analysisUnit m opt) :=
    fun id k hk => by simp [KeyTable.get?] at hk
  obtain ⟨hadv, hall⟩ : Collector.Advances (analysisUnit m opt) {} r.2 ∧
      List.Forall₂ (fun f d => d.1.Collected m types (analysisUnit m opt) opt r.2.keys f d.2)
        m.functions.toList r.1 :=
    collectFunctions_spec types opt hempty fun f hf => hns f (Array.mem_toList_iff.mp hf)
  have hgrow := growing_of_collected hall
  obtain ⟨hkeeps, hclosed⟩ := aggregateComponents_closed m.callGraph_closed m.size_callGraph hgrow
  refine ⟨hadv.made hempty, hclosed, fun id f hf write => ?_, fun id write => ⟨?_, fun k hk => ?_⟩,
    fun id f hf => ?_, fun hok hpolicy id f hf hlive hsource => ?_, fun id f hf hcomp d hd => ?_⟩
  · obtain ⟨ok, -, hcoll⟩ := collected_of_function hall hf
    have hown := (hkeeps id).own_eq write
    exact hown ▸ hcoll.own write
  · exact named_aggregateComponents hall _ id write
  · exact exists_visible_of_showsKey hall hkeeps hclosed hk
  · obtain ⟨ok, -, hcoll⟩ := collected_of_function hall hf
    have hsource := (hkeeps id).source_eq
    exact hsource ▸ hcoll.source_iff
  · obtain ⟨ok, hd, hcoll⟩ := collected_of_function hall hf
    refine hcoll.resolved ?_ hpolicy hlive fun htrusted =>
      hsource ((hkeeps id).source_eq.trans htrusted)
    have hok : ((r.1.map (·.2)).toArray.all fun ok => ok) = true := hok
    simp only [List.all_toArray, List.all_eq_true] at hok
    exact hok ok (List.mem_map.mpr ⟨_, List.mem_of_getElem? hd, rfl⟩)
  · refine List.mem_append_right _ (List.mem_flatMap.mpr ⟨(f, id), ?_, ?_⟩)
    · rw [List.mem_zipIdx_iff_getElem?, Array.getElem?_toList]
      exact hf
    · show d ∈ if isComputed m (domainsAt (m.analyzeDomains types opt).functions id) id =
        true then _ else _
      rw [if_pos hcomp]
      exact hd

end Hashed

end ContractCompiler
