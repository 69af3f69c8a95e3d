import ContractCompiler.Proofs.Domain.Analysis
import ContractCompiler.Proofs.Domain.Gathering
import ContractCompiler.Proofs.Domain.Passes

/-!
# The sets of an analysis are the least ones

For any module, the sets that `Ssa.Module.analyzeDomains` leaves satisfy the equations that
annotations, code and calls pose, and every family of sets that does so holds them.

- `Accounted`: what holds of all sets while passes are made, of those that are computed, too;
- `DomainSolution`: families of sets that satisfy the equations;
- `analyzeDomains_least`: the sets that are left are the least solution, stand in increasing order,
  and are reached by passes of which there are not many.
-/

namespace ContractCompiler

open Ssa (FuncId CallGraph)

/-! ## Sets while passes are made -/

/-- What holds of all sets while passes are made: what is computed for a function comes from its
code or from a callee. -/
structure Accounted (m : Ssa.Module) (g : CallGraph) (keyCount : Nat)
    (ds : Array FunctionDomains) : Prop extends Growing m g keyCount ds where
  increasing_computed : ∀ f write, KeySet.Increasing ((domainsAt ds f).computed write)
  bounded_computed : ∀ f write, ∀ k ∈ (domainsAt ds f).computed write, k < keyCount
  justified_computed : ∀ f write, ∀ k ∈ (domainsAt ds f).computed write,
    k ∈ (domainsAt ds f).own write ∨ ∃ c ∈ g.calleesOf f, k ∈ (domainsAt ds c).visible write

/-- Joining a function with its callees keeps this. -/
theorem Accounted.set {m : Ssa.Module} {g : CallGraph} {keyCount : Nat} {ds : Array FunctionDomains}
    {f : FuncId} (hds : Accounted m g keyCount ds)
    (hcomp : isComputed m (domainsAt ds f) f = true) :
    Accounted m g keyCount (ds.setIfInBounds f (joined g ds f)) := by
  have hf : f < ds.size := hds.size_eq ▸ lt_size_of_isComputed hcomp
  have hadv := hds.advances_set hf
  have hjust : ∀ h write, ∀ k ∈ (domainsAt (ds.setIfInBounds f (joined g ds f)) h).computed write,
      k ∈ (domainsAt ds h).own write ∨ ∃ c ∈ g.calleesOf h, k ∈ (domainsAt ds c).visible write := by
    intro h write k hk
    rw [domainsAt_set hf] at hk
    split at hk
    · rename_i heq
      rw [heq]
      exact mem_computed_joined.mp hk
    · exact hds.justified_computed h write k hk
  refine ⟨hds.toGrowing.set hf, fun h w => ?_, fun h w k hk => ?_, fun h w k hk => ?_⟩
  · rw [domainsAt_set hf]
    split
    · exact FunctionDomains.increasing_computed_aggregate (hds.increasing_own f w) _
    · exact hds.increasing_computed h w
  · rcases hjust h w k hk with hown | ⟨c, -, hkc⟩
    · exact hds.bounded_own h w k hown
    · exact hds.bounded c w k hkc
  · rw [(hadv.keeps h).own_eq]
    exact (hjust h w k hk).imp_right fun ⟨c, hc, hkc⟩ => ⟨c, hc, hadv.mono c w k hkc⟩

/-- Sets are computed for the functions that are neither trusted nor left out. -/
theorem isComputed_iff {m : Ssa.Module} {d : FunctionDomains} {id : FuncId} :
    isComputed m d id = true ↔
      d.source ≠ .trusted ∧ ∃ f, m.functions[id]? = some f ∧ f.excluded = false := by
  unfold isComputed
  rw [Bool.and_eq_true, bne_iff_ne, Option.any_eq_true]
  simp

section Hashed

variable [Hashing] {m : Ssa.Module} {types : TypePool} {opt : DomainOptions}

/-! ## Equations -/

/-- Families of sets, one shown to callers and one computed, that satisfy the equations of an
analysis: nothing is shown by functions that are trusted or, unless they declare it, left out; a
declared set is the declared one; and another set has the keys of the function's own code and those
that its callees show. -/
structure DomainSolution (m : Ssa.Module) (opt : DomainOptions) (r : DomainAnalysis)
    (shown computed : FuncId → Bool → KeyId → Prop) : Prop where
  trusted : ∀ (id : FuncId) f, m.functions[id]? = some f →
    (parseAnnotations f.attrs).annotations.noState = true →
      ∀ write k, ¬shown id write k ∧ ¬computed id write k
  declared : ∀ (id : FuncId) f, m.functions[id]? = some f →
    (parseAnnotations f.attrs).annotations.noState = false →
      ∀ write ks, (parseAnnotations f.attrs).annotations.declared write = some ks →
        ∀ k, shown id write k ↔
          ∃ key ∈ ks.map (·.toDomainKey (analysisUnit m opt)), r.keys.Names k key.canonical
  excluded : ∀ (id : FuncId) f, m.functions[id]? = some f → f.excluded = true →
    ∀ write k, ¬computed id write k ∧
      ((parseAnnotations f.attrs).annotations.declared write = none → ¬shown id write k)
  inferred : ∀ (id : FuncId) f, m.functions[id]? = some f → f.excluded = false →
    ∀ write, f.Infers write → ∀ k, shown id write k ↔
      k ∈ (domainsAt r.functions id).own write ∨ ∃ c ∈ m.callGraph.calleesOf id, shown c write k
  computed : ∀ (id : FuncId) f, m.functions[id]? = some f → f.excluded = false →
    (parseAnnotations f.attrs).annotations.noState = false →
      ∀ write k, computed id write k ↔
        k ∈ (domainsAt r.functions id).own write ∨ ∃ c ∈ m.callGraph.calleesOf id, shown c write k

/-! ## The start of the passes -/

/-- The domains of all functions when the passes begin. -/
def Ssa.Module.gatheredDomains (m : Ssa.Module) (types : TypePool) (opt : DomainOptions) :
    Array FunctionDomains :=
  (((collectFunctions m types (analysisUnit m opt) opt m.functions.toList).run {}).1.map
    (·.1)).toArray

section Gathered

variable {keys : KeyTable} {ds : List (FunctionDomains × Bool)} {unit : String}
  (h : List.Forall₂ (fun f d => d.1.Gathered unit keys f) m.functions.toList ds)

include h

theorem domainsAt_gathered (id : FuncId) :
    (∃ f, m.functions[id]? = some f ∧ (domainsAt (ds.map (·.1)).toArray id).Gathered unit keys f) ∨
      (m.functions[id]? = none ∧ domainsAt (ds.map (·.1)).toArray id = {}) := by
  rcases domainsAt_of_forall₂ h id with ⟨f, d, hf, -, hdomains, hd⟩ | hnone
  · rw [hdomains]
    exact .inl ⟨f, hf, hd⟩
  · exact .inr hnone

theorem gathered_of_function {id : FuncId} {f : Ssa.Function} (hf : m.functions[id]? = some f) :
    (domainsAt (ds.map (·.1)).toArray id).Gathered unit keys f := by
  rcases domainsAt_gathered h id with ⟨f', hf', hd⟩ | ⟨hnone, -⟩
  · obtain rfl := Option.some.inj (hf.symm.trans hf')
    exact hd
  · cases hf.symm.trans hnone

theorem accounted_of_gathered : Accounted m m.callGraph keys.keys.size (ds.map (·.1)).toArray := by
  have hcomputed : ∀ f w, (domainsAt (ds.map (·.1)).toArray f).computed w = [] := by
    intro f w
    rcases domainsAt_gathered h f with ⟨fn, -, hd⟩ | ⟨-, heq⟩
    · exact hd.computed_nil w
    · rw [heq]
      cases w <;> rfl
  refine ⟨⟨?_, fun f w => ?_, fun f w => ?_, fun f w k hk => ?_, fun f w k hk => ?_,
    fun f w hdecl k hk => ?_⟩,
    fun f w => ?_, fun f w k hk => ?_, fun f w k hk => ?_⟩
  · simpa using h.length_eq.symm
  · rcases domainsAt_gathered h f with ⟨fn, -, hd⟩ | ⟨-, heq⟩
    · exact hd.increasing w
    · rw [heq]
      cases w <;> exact List.Pairwise.nil
  · rcases domainsAt_gathered h f with ⟨fn, -, hd⟩ | ⟨-, heq⟩
    · exact hd.increasing_own w
    · rw [heq]
      cases w <;> exact List.Pairwise.nil
  · rcases domainsAt_gathered h f with ⟨fn, -, hd⟩ | ⟨-, heq⟩
    · exact (hd.spells w).lt_size hk
    · rw [heq] at hk
      cases w <;> cases hk
  · rcases domainsAt_gathered h f with ⟨fn, -, hd⟩ | ⟨-, heq⟩
    · exact hd.bounded_own w k hk
    · rw [heq] at hk
      cases w <;> cases hk
  · rcases domainsAt_gathered h f with ⟨fn, -, hd⟩ | ⟨-, heq⟩
    · rw [hd.visible_nil hdecl] at hk
      cases hk
    · rw [heq] at hk
      cases w <;> cases hk
  · rw [hcomputed f w]
    exact List.Pairwise.nil
  · rw [hcomputed f w] at hk
    cases hk
  · rw [hcomputed f w] at hk
    cases hk

/-- Passes leave the domains of functions that are trusted or left out as they are. -/
theorem domainsAt_idle {keyCount : Nat} (comps : List (List FuncId)) {id : FuncId}
    (hidle : isComputed m (domainsAt (ds.map (·.1)).toArray id) id = false) :
    domainsAt (aggregateComponents m m.callGraph keyCount comps (ds.map (·.1)).toArray).1 id
      = domainsAt (ds.map (·.1)).toArray id := by
  refine (aggregateComponents_induct (P := fun ds' => ds'.size = m.functions.size ∧
    domainsAt ds' id = domainsAt (ds.map (·.1)).toArray id) (fun ds' h hds' hcomp => ?_) comps
    ⟨?_, rfl⟩).2
  · obtain ⟨hsize, heq⟩ := hds'
    have hlt : h < ds'.size := hsize ▸ lt_size_of_isComputed hcomp
    have hne : id ≠ h := by
      rintro rfl
      rw [heq, hidle] at hcomp
      cases hcomp
    rw [domainsAt_set hlt, if_neg hne]
    exact ⟨Array.size_setIfInBounds.trans hsize, heq⟩
  · simpa using h.length_eq.symm

/-- The sets at the end satisfy the equations. -/
theorem solution_aggregateComponents {r : DomainAnalysis} (hunit : unit = analysisUnit m opt)
    (hkeys : keys.Distinct) (hr : r.keys = keys)
    (hfunctions : r.functions =
      (aggregateComponents m m.callGraph keys.keys.size m.callGraph.components
      (ds.map (·.1)).toArray).1) :
    DomainSolution m opt r (fun id write k => k ∈ (domainsAt r.functions id).visible write)
      fun id write k => k ∈ (domainsAt r.functions id).computed write := by
  subst hunit
  have hstart := accounted_of_gathered h
  have hend : Accounted m m.callGraph keys.keys.size r.functions := by
    rw [hfunctions]
    exact aggregateComponents_induct (fun _ _ hds hcomp => hds.set hcomp) _ hstart
  obtain ⟨hkeeps, hclosed⟩ := aggregateComponents_closed m.callGraph_closed m.size_callGraph
    hstart.toGrowing
  rw [← hfunctions] at hkeeps hclosed
  have hidle : ∀ id, isComputed m (domainsAt (ds.map (·.1)).toArray id) id = false →
      domainsAt r.functions id = domainsAt (ds.map (·.1)).toArray id := by
    rw [hfunctions]
    exact fun id => domainsAt_idle h _
  -- in turn: trusted functions, declared sets, functions that were left out, inferred sets, and the
  -- sets that are computed beside declared ones
  refine ⟨fun id f hf hno w k => ?_, fun id f hf hno w ks hks k => ?_, fun id f hf hexcl w k => ?_,
    fun id f hf hlive w hinfers k => ?_, fun id f hf hlive hno w k => ?_⟩
  · have hd := gathered_of_function h hf
    have hsource := hd.source_iff.mpr hno
    rw [hidle id (Bool.eq_false_iff.mpr fun hcomp => (isComputed_iff.mp hcomp).1 hsource),
      hd.computed_nil, hd.visible_nil (by rw [hd.declares_eq, hno]; rfl)]
    exact ⟨List.not_mem_nil, List.not_mem_nil⟩
  · have hd := gathered_of_function h hf
    have hdecl : (domainsAt (ds.map (·.1)).toArray id).declares w = true := by
      rw [hd.declares_eq, hno, hks]
      rfl
    rw [(hkeeps id).visible_eq w hdecl, (hd.spells w).mem_iff hkeys, hr]
    unfold Ssa.Function.declaredKeys
    rw [hno, hks]
    rfl
  · have hd := gathered_of_function h hf
    have hcomp : isComputed m (domainsAt (ds.map (·.1)).toArray id) id = false := by
      refine Bool.eq_false_iff.mpr fun hcomp => ?_
      obtain ⟨-, f', hf', hlive⟩ := isComputed_iff.mp hcomp
      obtain rfl := Option.some.inj (hf.symm.trans hf')
      exact absurd (hexcl.symm.trans hlive) (by simp)
    rw [hidle id hcomp, hd.computed_nil]
    refine ⟨List.not_mem_nil, fun hnone => ?_⟩
    rw [hd.visible_nil (by rw [hd.declares_eq, hnone]; simp)]
    exact List.not_mem_nil
  · have hd := gathered_of_function h hf
    obtain ⟨hsource, hdecl⟩ := (infers_iff_of hd.source_iff (hd.declares_eq w)).mp hinfers
    rw [← (hkeeps id).source_eq] at hsource
    rw [← (hkeeps id).declares_eq] at hdecl
    have hclosedAt := hclosed id (isComputed_iff.mpr ⟨hsource, f, hf, hlive⟩)
    constructor
    · exact hend.justified id w hdecl k
    · rw [hclosedAt.visible_eq w hdecl]
      rintro (hown | ⟨c, hc, hk⟩)
      · exact hclosedAt.own_mem w k hown
      · exact hclosedAt.callee_mem w c hc k hk
  · have hd := gathered_of_function h hf
    have hsource : (domainsAt r.functions id).source ≠ .trusted := by
      rw [(hkeeps id).source_eq]
      exact fun htrusted => absurd (hno.symm.trans (hd.source_iff.mp htrusted)) (by simp)
    have hclosedAt := hclosed id (isComputed_iff.mpr ⟨hsource, f, hf, hlive⟩)
    constructor
    · exact hend.justified_computed id w k
    · rintro (hown | ⟨c, hc, hk⟩)
      · exact hclosedAt.own_mem w k hown
      · exact hclosedAt.callee_mem w c hc k hk

/-- Every family of sets that satisfies the equations holds the sets at the end. -/
theorem least_aggregateComponents {r : DomainAnalysis} (hunit : unit = analysisUnit m opt)
    (hr : r.keys = keys)
    (hfunctions : r.functions =
      (aggregateComponents m m.callGraph keys.keys.size m.callGraph.components
      (ds.map (·.1)).toArray).1) {shown computed : FuncId → Bool → KeyId → Prop}
    (hsolution : DomainSolution m opt r shown computed) (id : FuncId) (write : Bool) (k : KeyId)
    (hk : k ∈ (domainsAt r.functions id).visible write) : shown id write k := by
  subst hunit
  have hstart := accounted_of_gathered h
  obtain ⟨hkeepsEnd, -⟩ := aggregateComponents_closed m.callGraph_closed m.size_callGraph
    hstart.toGrowing
  rw [← hfunctions] at hkeepsEnd
  rw [hfunctions] at hk
  -- the invariant of the rounds: nothing is shown that the other solution does not show
  let P (ds' : Array FunctionDomains) : Prop := ds'.size = m.functions.size ∧
    (∀ id, (domainsAt (ds.map (·.1)).toArray id).Keeps (domainsAt ds' id)) ∧
    ∀ id write, ∀ k ∈ (domainsAt ds' id).visible write, shown id write k
  have hbegin : P (ds.map (·.1)).toArray := by
    refine ⟨hstart.size_eq, fun _ => .refl _, fun id write k hk => ?_⟩
    rcases domainsAt_gathered h id with ⟨f, hf, hd⟩ | ⟨-, heq⟩
    · -- only declared sets have members at the start
      cases hdecl : (domainsAt (ds.map (·.1)).toArray id).declares write with
      | false =>
        rw [hd.visible_nil hdecl] at hk
        cases hk
      | true =>
        rw [hd.declares_eq, Bool.and_eq_true, Bool.not_eq_true'] at hdecl
        obtain ⟨hno, hsome⟩ := hdecl
        obtain ⟨ks, hks⟩ := Option.isSome_iff_exists.mp hsome
        refine (hsolution.declared id f hf hno write ks hks k).mpr ?_
        rw [hr]
        have hnamed := (hd.spells write).named k hk
        unfold Ssa.Function.declaredKeys at hnamed
        rwa [hno, hks] at hnamed
    · rw [heq] at hk
      cases write <;> cases hk
  refine (aggregateComponents_induct (P := P) (fun ds' id hds hcomp => ?_) _ hbegin).2.2
    id write k hk
  obtain ⟨hsize, hkeeps, hshown⟩ := hds
  have hlt : id < ds'.size := hsize ▸ lt_size_of_isComputed hcomp
  refine ⟨Array.size_setIfInBounds.trans hsize, fun id' => ?_, fun id' write k hk => ?_⟩
  · rw [domainsAt_set hlt]
    split
    · rename_i heq
      rw [heq]
      exact (hkeeps id).trans (FunctionDomains.keeps_aggregate _ _)
    · exact hkeeps id'
  · rw [domainsAt_set hlt] at hk
    split at hk
    · rename_i heq
      rw [heq]
      unfold joined at hk
      rw [FunctionDomains.visible_aggregate] at hk
      cases hdecl : (domainsAt ds' id).declares write with
      | true =>
        rw [hdecl, if_pos rfl] at hk
        exact hshown id write k hk
      | false =>
        rw [hdecl, if_neg Bool.false_ne_true] at hk
        obtain ⟨hsource, f, hf, hlive⟩ := isComputed_iff.mp hcomp
        have hd := gathered_of_function h hf
        rw [(hkeeps id).source_eq] at hsource
        rw [(hkeeps id).declares_eq] at hdecl
        have hinfers := (infers_iff_of hd.source_iff (hd.declares_eq write)).mpr ⟨hsource, hdecl⟩
        refine (hsolution.inferred id f hf hlive write hinfers k).mpr ?_
        rcases mem_computed_joined.mp hk with hown | ⟨c, hc, hcalled⟩
        · rw [(hkeeps id).own_eq, ← (hkeepsEnd id).own_eq] at hown
          exact .inl hown
        · exact .inr ⟨c, hc, hshown c write k hcalled⟩
    · exact hshown id' write k hk

end Gathered

/-- The sets that an analysis leaves are the least ones that satisfy the equations of the module:
they are a solution, and every solution holds them. All of them stand in increasing order and have
numbers of keys, and the passes over groups end with them, after at most as many as there are
functions and groups of functions that call each other. -/
theorem analyzeDomains_least (m : Ssa.Module) (types : TypePool) (opt : DomainOptions) :
    let r := m.analyzeDomains types opt
    DomainSolution m opt r (fun id write k => k ∈ (domainsAt r.functions id).visible write)
        (fun id write k => k ∈ (domainsAt r.functions id).computed write) ∧
      (∀ shown computed, DomainSolution m opt r shown computed → ∀ id write k,
        (k ∈ (domainsAt r.functions id).visible write → shown id write k) ∧
          (k ∈ (domainsAt r.functions id).computed write → computed id write k)) ∧
      (∀ id write,
        ∀ set ∈ [(domainsAt r.functions id).own write, (domainsAt r.functions id).visible write,
            (domainsAt r.functions id).computed write],
          KeySet.Increasing set ∧ ∀ k ∈ set, k < r.keys.keys.size) ∧
      PassesOver m m.callGraph m.callGraph.components (m.gatheredDomains types opt)
        r.functions r.stats.passes ∧
      r.stats.passes ≤ m.functions.size + r.stats.cyclicComponents := by
  intro r
  obtain ⟨hgrow, hall⟩ := collectFunctions_gathered (m := m) (analysisUnit m opt) types opt
    m.functions.toList {}
  have hstart := accounted_of_gathered hall
  have hend : Accounted m m.callGraph r.keys.keys.size r.functions :=
    aggregateComponents_induct (fun _ _ hds hcomp => hds.set hcomp) m.callGraph.components hstart
  have hsolution := solution_aggregateComponents (r := r) hall rfl
      (hgrow.distinct KeyTable.distinct_empty) rfl rfl
  have hpasses : PassesOver m m.callGraph m.callGraph.components
      (m.gatheredDomains types opt) r.functions
      r.stats.passes := passesOver_aggregateComponents _ hstart.toGrowing
  refine ⟨hsolution, fun shown computed hother id write k => ?_, fun id write => ?_, hpasses, ?_⟩
  · have hshown := least_aggregateComponents (r := r) hall rfl rfl rfl hother
    refine ⟨hshown id write k, fun hk => ?_⟩
    obtain ⟨f, hf⟩ : ∃ f, m.functions[id]? = some f := by
      refine ⟨_, Array.getElem?_eq_getElem ?_⟩
      by_contra hge
      have hnone : r.functions[id]? = none := Array.getElem?_eq_none
        (hend.size_eq ▸ Nat.le_of_not_lt hge)
      rw [domainsAt, Array.getD_eq_getD_getElem?, hnone] at hk
      cases write <;> cases hk
    cases hno : (parseAnnotations f.attrs).annotations.noState with
    | true => exact absurd hk (hsolution.trusted id f hf hno write k).2
    | false =>
      cases hlive : f.excluded with
      | true => exact absurd hk (hsolution.excluded id f hf hlive write k).1
      | false =>
        refine (hother.computed id f hf hlive hno write k).mpr ?_
        exact ((hsolution.computed id f hf hlive hno write k).mp hk).imp_right
          fun ⟨c, hc, hkc⟩ => ⟨c, hc, hshown c write k hkc⟩
  · simp only [List.forall_mem_cons]
    exact ⟨⟨hend.increasing_own id write, hend.bounded_own id write⟩,
      ⟨hend.increasing id write, hend.bounded id write⟩,
      ⟨hend.increasing_computed id write, hend.bounded_computed id write⟩,
      fun _ hset => absurd hset List.not_mem_nil⟩
  · have hgrouped := CallGraph.grouped_components m.callGraph_closed
    have hle := hpasses.count_le hstart.toGrowing hgrouped.ne_nil
    rwa [CallGraph.sum_length_components m.callGraph_closed, m.size_callGraph] at hle

end Hashed

end ContractCompiler
