import ContractCompiler.Proofs.Domain.Coverage
import ContractCompiler.Proofs.Domain.Narrowing
import ContractCompiler.Proofs.Ssa.Faultless

/-!
# Domains of optimised modules

Optimising a contract does not widen the domains of its functions: what a function shows afterwards
it showed before, or a wildcard covered it.

- `DomainKey.Admits`: a key is another one, or the wildcard of its namespace;
- `fed_of_reached`: once all blocks are reached, searches for what is used do not run dry;
- `exists_admits_of_passes`: the keys of an access that comes from another one are admitted by its
  keys;
- `ShowsKey.of_narrows`: what is shown in a narrower module;
- `DomainAnalysis.AdmitsAt`: what a function shows is admitted by what it shows in another analysis;
- `domains_optimize`: the sets of an optimised module.
-/

namespace ContractCompiler

open Ssa Relation

variable {m m' : Module} {types : TypePool} {f g : Function} {maxKeys : Nat}

/-! ## Searches in modules without faults -/

/-- Nothing leads to the first block of a function, not even from another one. -/
theorem not_isEntry_of_preds (hverify : m.verify = [])
    (hapart : m.functions.toList.Pairwise fun f g => ∀ k ∈ f.blocks, k ∉ g.blocks) {id : FuncId}
    (hf : m.functions[id]? = some f) (hlive : f.excluded = false) {block : BlockId}
    {preds : List BlockId} (hpreds : (m.cfg f).predecessors[block]? = some preds)
    (hne : preds ≠ []) : ¬m.IsEntry block := by
  rintro ⟨g, hg, hglive, hentry⟩
  obtain ⟨id', hid'⟩ := Array.mem_iff_getElem?.mp hg
  obtain ⟨e, hmem, he⟩ := (Module.verified_of_verify hverify hid' hglive).entry
  obtain rfl := Option.some.inj (he.symm.trans hentry)
  have hlisted : (m.cfg f).predecessors.getD e [] = preds := by
    rw [Array.getD_eq_getD_getElem?, hpreds, Option.getD_some]
  obtain ⟨p, hp⟩ := List.exists_mem_of_ne_nil preds hne
  rw [← hlisted] at hp
  obtain ⟨-, hsucc, -⟩ := Cfg.mem_predecessors.mp hp
  obtain ⟨-, htarget, -⟩ := Module.mem_successors_cfg.mp hsucc
  rw [← Array.getElem?_toList] at hf hid'
  obtain ⟨hlt, hget⟩ := List.getElem?_eq_some_iff.mp hf
  obtain ⟨hlt', hget'⟩ := List.getElem?_eq_some_iff.mp hid'
  have hpair := List.pairwise_iff_getElem.mp hapart
  rcases Nat.lt_trichotomy id id' with hid | rfl | hid
  · exact hpair id id' hlt hlt' hid e (hget ▸ htarget) (hget' ▸ hmem)
  · obtain rfl := hget.symm.trans hget'
    have hnone := (Module.verified_of_verify hverify (Array.getElem?_toList.symm.trans hf)
      hlive).entry_preds e hentry
    exact hne (hlisted.symm.trans hnone)
  · exact hpair id' id hlt' hlt hid e (hget' ▸ hmem) (hget ▸ htarget)

theorem depends_of_fieldWithin {index n : Nat} {base w : ValueId}
    (h : m.fieldWithin index n base = some w) :
    m.Depends base w := by
  induction n generalizing base with
  | zero => cases h
  | succ n ih =>
    unfold Module.fieldWithin at h
    split at h
    · rename_i fields effect result span hdef
      have hdata : m.dataOf? base = some (.makeStruct fields) := by
        unfold Module.dataOf?
        rw [hdef, Option.map_some]
      exact Module.Uses.depends ⟨_, hdata, List.mem_of_getElem? h⟩
    · rename_i inner i value effect result span hdef
      have hdata : m.dataOf? base = some (.insert inner i value) := by
        unfold Module.dataOf?
        rw [hdef, Option.map_some]
      split at h
      · obtain rfl := Option.some.inj h
        exact Module.Uses.depends ⟨_, hdata, by simp [InstData.operands]⟩
      · have hinner : m.Depends base inner := Module.Uses.depends
          ⟨_, hdata, by simp [InstData.operands]⟩
        exact hinner.trans (ih h)
    · cases h

theorem depends_of_okPayload? {src w : ValueId} (h : m.okPayload? src = some w) :
    m.Depends src w := by
  unfold Module.okPayload? at h
  split at h
  · rename_i value effect result span hdef
    subst h
    have hdata : m.dataOf? src = some (.makeResult true (some w)) := by
      unfold Module.dataOf?
      rw [hdef, Option.map_some]
    exact Module.Uses.depends ⟨_, hdata, by simp [InstData.operands]⟩
  · cases h

/-- A search goes on with values that the one it is for depends on. -/
theorem depends_of_lookupAt? {s : KeySearch} {v : ValueId} {l : Lookup}
    (h : s.lookupAt? v = some l) :
    ∀ w ∈ l.operands, s.module.Depends v w := by
  obtain ⟨data, hdata, hl⟩ := Option.bind_eq_some_iff.mp h
  have huses : ∀ w ∈ data.operands, s.module.Depends v w :=
    fun w hw => Module.Uses.depends ⟨data, hdata, hw⟩
  cases data with
  | constInt | constBool | constBytes =>
    obtain rfl := Option.some.inj hl
    exact fun w hw => absurd hw List.not_mem_nil
  | cast mode type src =>
    obtain ⟨k, -, hl⟩ := Option.bind_eq_some_iff.mp hl
    obtain ⟨target, -, rfl⟩ := Option.map_eq_some_iff.mp hl
    exact huses
  | unary op mode src =>
    obtain ⟨k, -, rfl⟩ := Option.map_eq_some_iff.mp hl
    exact huses
  | binary op mode left right =>
    dsimp only [KeySearch.lookup?] at hl
    split at hl
    · cases hl
    · obtain ⟨k, -, rfl⟩ := Option.map_eq_some_iff.mp hl
      exact huses
  | extract base index =>
    obtain ⟨w, hw, rfl⟩ := Option.map_eq_some_iff.mp hl
    intro w' hw'
    obtain rfl := List.mem_singleton.mp hw'
    exact (huses base (by simp [InstData.operands])).trans (depends_of_fieldWithin hw)
  | resultValue src =>
    obtain ⟨w, hw, rfl⟩ := Option.map_eq_some_iff.mp hl
    intro w' hw'
    obtain rfl := List.mem_singleton.mp hw'
    exact (huses src (by simp [InstData.operands])).trans (depends_of_okPayload? hw)
  | _ => cases hl

/-- A value that the code of a function depends on. -/
def Ssa.Module.Needs (m : Module) (f : Function) (v : ValueId) : Prop :=
  ∃ b ∈ f.blocks, ∃ u ∈ m.usesOfBlock b, m.Depends u v

section Reached

variable (hm : m.Orderly) (hf : f ∈ m.functions) (hlive : f.excluded = false)
  (hreached : ∀ b ∈ f.blocks, m.Reaches f b)

include hm hf hlive hreached

/-- A parameter that is needed is one of a block that is reached. -/
theorem reaches_of_needs {v : ValueId} (hv : m.Needs f v) {block : BlockId} {index : Nat}
    (hsite : m.siteOf? v = some (.param block index)) (hinner : ¬m.IsEntry block) :
    m.Reaches f block := by
  obtain ⟨b, hb, u, hu, huv⟩ := hv
  refine (hreached b hb).of_not_around fun haround => ?_
  exact (hm.guarded f hf hlive block b hinner haround u hu v huv).2 index hsite

/-- Once all blocks of a function are reached, searches for what it needs do not run dry. -/
theorem fed_of_reached : (keySearch m types maxKeys f).Fed (m.Needs f) := by
  obtain ⟨e, hmem, he⟩ := hm.entry f hf hlive
  refine ⟨fun v l hv hl w hw => ?_, fun v block index hv hsite hinner => ?_,
    fun v block index hv hsite hinner args a hedge ha => ?_,
    fun v block index hv hsite hinner => ?_⟩
  · obtain ⟨b, hb, u, hu, huv⟩ := hv
    exact ⟨b, hb, u, hu, huv.trans (depends_of_lookupAt? hl w hw)⟩
  · have hblock := (reaches_of_needs hm hf hlive hreached hv hsite hinner).mem_blocks hmem he
    have hlt : block < (m.cfg f).predecessors.size := by
      rw [Cfg.size_predecessors]
      exact hm.blocks_lt f hf hlive block hblock
    have hpreds := Array.getElem?_eq_getElem hlt
    refine ⟨_, hpreds, fun p hp => ?_⟩
    have hlisted : p ∈ (m.cfg f).predecessors.getD block [] := by
      rw [Array.getD_eq_getD_getElem?, hpreds]
      exact hp
    obtain ⟨-, hsucc, -⟩ := Cfg.mem_predecessors.mp hlisted
    obtain ⟨term, hterm, -⟩ := exists_argsTo_of_successor (Module.mem_successors_cfg.mp hsucc).1
    exact ⟨term, hterm⟩
  · obtain ⟨htarget, hlt, p, hp, term, hterm, hargs⟩ := edge_keySearch.mp hedge
    have hused := mem_operands_of_argsTo hargs (List.mem_of_getElem? ha)
    exact ⟨p, hp, a, Module.mem_usesOfBlock.mpr (.inr ⟨term, hterm, hused⟩), .refl m a⟩
  · have hreach := reaches_of_needs hm hf hlive hreached hv hsite hinner
    have hne : e ≠ block := fun heq => hinner ⟨f, hf, hlive, heq ▸ he⟩
    obtain ⟨p, haround, hsucc⟩ := Module.exists_edge_around he hreach hne
    obtain ⟨hsucc, htarget, hlt⟩ := Module.mem_successors_cfg.mp hsucc
    obtain ⟨term, hterm, args, hargs⟩ := exists_argsTo_of_successor hsucc
    have hp := haround.reaches.mem_blocks hmem he
    refine ⟨args, edge_keySearch.mpr ⟨htarget, hlt, p, hp, term, hterm, hargs⟩, fun hself => ?_⟩
    -- what is passed from a block that is reached around this one has nothing to do with its
    -- parameters
    have hused := Module.mem_usesOfBlock.mpr
        (.inr ⟨term, hterm, mem_operands_of_argsTo hargs hself⟩)
    exact (hm.guarded f hf hlive block p hinner haround v hused v (.refl m v)).2 index hsite

end Reached

/-! ## Keys -/

/-- A key is another one, or the wildcard of its namespace. -/
def DomainKey.Admits (k k' : DomainKey) : Prop := k = k' ∨ k.wildcard = true ∧ k.ns = k'.ns

section Hashed

variable [Hashing] {opt : DomainOptions}

theorem StateAccess.ns_of_mem_keys {unit : String} {s : KeySearch} {policy : WildcardPolicy}
    {a : StateAccess} {k : DomainKey} (hk : k ∈ a.keys unit s policy) : k.ns = a.ns := by
  unfold StateAccess.keys at hk
  split at hk
  · obtain ⟨const, -, rfl⟩ := List.mem_map.mp hk
    rfl
  · split at hk
    · rw [List.mem_singleton.mp hk]
      rfl
    · cases hk

/-- The keys of an access that comes from another one are admitted by those of that one: either
these are not known, or the search succeeds again and finds no others. -/
theorem exists_admits_of_passes {unit : String} {s s' : KeySearch} {P : ValueId → Prop}
    {a a' : StateAccess}
    (hinner : ∀ block preds, s.preds[block]? = some preds → preds ≠ [] → ¬s.module.IsEntry block)
    (hfed : s'.Fed P) (ha' : P a'.key) (hmax : s'.maxKeys = s.maxKeys) (htypes : s'.types = s.types)
    (hns : a.ns = a'.ns) (hpasses : s.Passes a.key s' a'.key) {k' : DomainKey}
    (hk' : k' ∈ a'.keys unit s' .coarsen) : ∃ k ∈ a.keys unit s .coarsen, k.Admits k' := by
  cases hconsts : s.resolve a.key with
  | none =>
    refine ⟨.all unit a.ns, ?_, .inr ⟨rfl, hns.trans (StateAccess.ns_of_mem_keys hk').symm⟩⟩
    unfold StateAccess.keys
    rw [hconsts]
    exact List.mem_singleton.mpr rfl
  | some consts =>
    obtain ⟨hresolve, -⟩ := Option.filter_eq_some_iff.mp hconsts
    obtain ⟨hwithin, htype⟩ := hpasses _ _ (KeySearch.within_of_resolveWithin hinner hresolve)
    have hfew := KeySearch.length_le_of_resolveWithin hresolve
    obtain ⟨consts', hconsts', hsub⟩ :=
      KeySearch.resolve_of_within hfed (Nat.le_refl _) ha' hwithin (hmax ▸ hfew)
    have hsigned : s'.keySigned a'.key = s.keySigned a.key := by
      unfold KeySearch.keySigned
      rw [htypes, htype]
    unfold StateAccess.keys at hk' ⊢
    rw [hconsts'] at hk'
    rw [hconsts]
    obtain ⟨const, hconst, rfl⟩ := List.mem_map.mp hk'
    exact ⟨_, List.mem_map.mpr ⟨const, hsub hconst, rfl⟩, .inl (by rw [hns, hsigned])⟩

/-! ## What functions show -/

omit [Hashing] in
theorem infers_of_not_overrides (h : overridesDomains f.attrs = false) (write : Bool) :
    f.Infers write := by
  obtain ⟨hstate, hdeclared⟩ := parseAnnotations_of_not_overrides h
  exact ⟨hstate, hdeclared write⟩

/-- What a function shows is shown by the functions that expose it, as long as they infer what they
do. -/
theorem ShowsKey.of_exposes {id id₀ : FuncId} {write : Bool} {k : DomainKey}
    (hexposes : m.Exposes id id₀) (hf : m.functions[id]? = some f) (hinfers : f.Infers write)
    (hk : ∀ g, m.functions[id₀]? = some g → g.Infers write → ShowsKey m types opt id₀ write k) :
    ShowsKey m types opt id write k := by
  induction hexposes using ReflTransGen.head_induction_on generalizing f with
  | refl => exact hk f hf hinfers
  | head hstep _ ih =>
    obtain ⟨hcall, g, hg, hplain⟩ := hstep
    exact .called hf hinfers hcall (ih hg (infers_of_not_overrides hplain write))

/-- What is shown in a narrower module was shown, or a wildcard was that covers it. -/
theorem ShowsKey.of_narrows (hnarrows : m.Narrows types opt.maxEnumeratedKeys m')
    (hcoarsen : opt.wildcardPolicy = .coarsen)
    (hinner : ∀ (id : FuncId) f, m.functions[id]? = some f → f.excluded = false → ∀ block preds,
      (m.cfg f).predecessors[block]? = some preds → preds ≠ [] → ¬m.IsEntry block)
    (hfed : ∀ g ∈ m'.functions, g.excluded = false →
      (keySearch m' types opt.maxEnumeratedKeys g).Fed (m'.Needs g))
    {id : FuncId} {write : Bool} {k' : DomainKey} (hk' : ShowsKey m' types opt id write k') :
    ∃ k, ShowsKey m types opt id write k ∧ k.Admits k' := by
  have hunit : analysisUnit m' opt = analysisUnit m opt := by
    unfold analysisUnit
    rw [hnarrows.unit]
  induction hk' with
  | @declared id g write k' hg hk' =>
    obtain ⟨f, hf, htrims⟩ := hnarrows.trims.of_some hg
    refine ⟨k', .declared hf ?_, .inl rfl⟩
    unfold Function.declaredKeys at hk' ⊢
    rwa [htrims.attrs, hunit] at hk'
  | @entered id g write k' hg hinfers hk' =>
    obtain ⟨hlive, -, inst', hinst', a', ha', rfl, hmem⟩ := hk'
    obtain ⟨f, hf, htrims⟩ := hnarrows.trims.of_some hg
    obtain ⟨id₀, f₀, a, hexposes, haccess, hns, hwrite, hpasses⟩ :=
      hnarrows.access id g a' ⟨hg, hlive, inst', hinst', ha'⟩
    have hneeds : m'.Needs g a'.key := by
      obtain ⟨b, hb, i, hi, hget⟩ := Module.mem_instsOf.mp hinst'
      exact ⟨b, hb, a'.key, Module.mem_usesOfBlock.mpr
        (.inl ⟨i, hi, inst', hget, InstData.mem_operands_of_stateAccess? ha'⟩), .refl m' _⟩
    rw [hcoarsen, hunit] at hmem
    obtain ⟨k, hk, hadmits⟩ := exists_admits_of_passes
      (s := keySearch m types opt.maxEnumeratedKeys f₀)
      (hinner id₀ f₀ haccess.function_eq haccess.live) (hfed g (Array.mem_of_getElem? hg) hlive)
        hneeds rfl rfl hns hpasses hmem
    have hinfers' : f.Infers a'.isWrite := by
      unfold Function.Infers at hinfers ⊢
      rwa [htrims.attrs] at hinfers
    refine ⟨k, .of_exposes hexposes hf hinfers' fun f₁ hf₁ hinfers₁ => ?_, hadmits⟩
    obtain rfl := Option.some.inj (haccess.function_eq.symm.trans hf₁)
    obtain ⟨inst, hinst, ha⟩ := haccess.made
    exact .entered hf₁ hinfers₁ ⟨haccess.live, hinfers₁.1, inst, hinst, a, ha, hwrite.symm,
      hcoarsen ▸ hk⟩
  | @called id callee g write k' hg hinfers hcall _ ih =>
    obtain ⟨f, hf, htrims⟩ := hnarrows.trims.of_some hg
    obtain ⟨k, hk, hadmits⟩ := ih
    have hinfers' : f.Infers write := by
      unfold Function.Infers at hinfers ⊢
      rwa [htrims.attrs] at hinfers
    exact ⟨k, .called hf hinfers' (hnarrows.calls id hcall) hk, hadmits⟩

/-- Optimising a module without faults does not widen what its functions show. -/
theorem showsKey_optimize (htyped : m.Typed types) (hverify : m.verify = [])
    (hapart : m.functions.toList.Pairwise fun f g => ∀ k ∈ f.blocks, k ∉ g.blocks) (p : PassOptions)
    (hfits : (m.optimize types p).values.size ≤ invalidId)
    (hcoarsen : opt.wildcardPolicy = .coarsen) {id : FuncId} {write : Bool} {k' : DomainKey}
    (hk' : ShowsKey (m.optimize types p) types opt id write k') :
    ∃ k, ShowsKey m types opt id write k ∧ k.Admits k' := by
  have hm := orderly_of_verify hverify
  have hnarrows : m.Narrows types opt.maxEnumeratedKeys (m.optimize types p) :=
    narrows_optimize htyped hm p hfits
  rcases optimize_cases types m p with heq | ⟨m', heq, hsteps⟩
  · rw [heq] at hk'
    exact ⟨k', hk', .inl rfl⟩
  · rw [heq] at hnarrows hfits hk'
    rw [(prunes_simplifyCfg m').values] at hfits
    have hm' := (hsteps.steps hfits htyped hm).orderly hm
    have hlast := (prunes_simplifyCfg m').shrinks.orderly hm'
    refine ShowsKey.of_narrows hnarrows hcoarsen (fun id f hf hlive block preds hpreds hne =>
      not_isEntry_of_preds hverify hapart hf hlive hpreds hne) (fun g hg hlive => ?_) hk'
    exact fed_of_reached hlast hg hlive fun b hb => reaches_simplifyCfg hm' hg hlive hb

/-- The keys that a function shows to its callers in one analysis are admitted by those that it
shows in another one. -/
def DomainAnalysis.AdmitsAt (before after : DomainAnalysis) (id : FuncId) (write : Bool) : Prop :=
  ∀ n' ∈ (domainsAt after.functions id).visible write, ∃ k', after.keys.get? n' = some k' ∧
    ∃ n ∈ (domainsAt before.functions id).visible write, ∃ k, before.keys.get? n =
      some k ∧ k.Admits k'

theorem admitsAt_optimize (htyped : m.Typed types) (hverify : m.verify = [])
    (hapart : m.functions.toList.Pairwise fun f g => ∀ k ∈ f.blocks, k ∉ g.blocks) (p : PassOptions)
    (hfits : (m.optimize types p).values.size ≤ invalidId)
    (hcoarsen : opt.wildcardPolicy = .coarsen) (id : FuncId) (write : Bool) :
    (m.analyzeDomains types opt).AdmitsAt ((m.optimize types p).analyzeDomains types opt)
      id write := by
  have htyped' := (preserves_optimize types m p).typed hfits htyped
  have hspec : AnalysisSpec m types opt (m.analyzeDomains types opt) :=
    analysisSpec fun f _ inst hinst a ha => htyped.isNamespace hinst ha
  have hspec' : AnalysisSpec (m.optimize types p) types opt
      ((m.optimize types p).analyzeDomains types opt) :=
    analysisSpec fun f _ inst hinst a ha => htyped'.isNamespace hinst ha
  intro n' hn'
  obtain ⟨k', hget', hk'⟩ := (hspec'.shown id write).named n' hn'
  obtain ⟨k, hk, hadmits⟩ := showsKey_optimize htyped hverify hapart p hfits hcoarsen hk'
  obtain ⟨n, hn, hget⟩ := (hspec.shown id write).complete k hk
  exact ⟨k', hget', n, hn, k, hget, hadmits⟩

/-- What a function of an optimised contract shows to its callers it showed before, or it showed the
wildcard of the namespace. -/
theorem domains_optimize [Json.Library] {text docName : String} {sources : Sources}
    {doc : Hir.ReadOutcome} (hdoc : Hir.readDocument text docName {} sources = doc)
    (hok : doc.ok = true) (skip : Hir.FuncId → Bool) (p : PassOptions) {built : BuildResult}
    (hbuilt : buildModule doc.module doc.types skip = built)
    (hfits : (built.module.optimize built.types p).values.size ≤ invalidId)
    (hcoarsen : opt.wildcardPolicy = .coarsen) (id : FuncId) (write : Bool) :
    (built.module.analyzeDomains built.types opt).AdmitsAt
      ((built.module.optimize built.types p).analyzeDomains built.types opt) id write := by
  subst hdoc hbuilt
  obtain ⟨hsound, htyped⟩ := Hir.typed_readDocument text docName TypePool.sound_default sources
  obtain ⟨hscoped, hvalued⟩ := Hir.scoped_readDocument text docName sources
  have htypedBuilt := typed_buildModule (htyped hok) hsound skip
  have hcomplete := complete_buildModule (htyped hok) hsound hvalued hscoped skip
    fun _ _ _ _ (hfalse : False) => hfalse.elim
  exact admitsAt_optimize htypedBuilt (verify_of_complete htypedBuilt hcomplete)
    hcomplete.apart p hfits hcoarsen id write

omit [Hashing] in
/-- Inlining copies the two numbers that `f` uses. -/
theorem size_values_optimize_writer : (writerModule.optimize {} {}).values.size = 4 := by
  show ((((writerModule.simplifyCfg.1.constFold {}).1.inlineCalls 16).1.constFold
    {}).1.removeDeadCode.1 |>.simplifyCfg.1).values.size = 4
  rw [(prunes_simplifyCfg _).values, (prunes_removeDeadCode _).values, values_constFold]
  decide +kernel

omit [Hashing] in
/-- In the contract whose function `g` calls `f`, which writes to the state, `g` writes itself once
`f` is inlined. -/
theorem domains_optimize_writer : (writerModule.optimize {} {}).values.size ≤ invalidId ∧
    (@Module.analyzeDomains Hashing.sha256 writerModule {} {}).AdmitsAt
      (@Module.analyzeDomains Hashing.sha256 (writerModule.optimize {} {}) {} {}) 1 true := by
  obtain ⟨doc, hdoc, hmodule, htypes, hok⟩ := read_writerText
  obtain ⟨hbuiltModule, hbuiltTypes⟩ := build_writerHir
  have hfits : (writerModule.optimize {} {}).values.size ≤ invalidId := by
    rw [size_values_optimize_writer]
    decide
  have hnarrow := @domains_optimize Hashing.sha256 {} .standard _ _ _ doc hdoc hok
      (fun _ => false) {} (buildModule writerHir {} fun _ => false) (by rw [hmodule, htypes])
  rw [hbuiltModule, hbuiltTypes] at hnarrow
  exact ⟨hfits, hnarrow hfits rfl 1 true⟩

end Hashed

end ContractCompiler
