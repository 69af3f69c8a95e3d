import ContractCompiler.Json.Reader
import ContractCompiler.Proofs.Domain.Activation
import ContractCompiler.Proofs.Domain.Analysis
import ContractCompiler.Proofs.Hir.Equality
import ContractCompiler.Proofs.Pipeline
import Mathlib.Logic.Relation

/-!
# Domains cover what executions access

Whatever a function accesses while it runs, in its own code or in that of the functions it calls, is
among the keys that the analysis lets it show to its callers, by its text or by the wildcard of its
namespace.

- `Shows`: a function shows a key or the wildcard of its namespace;
- `shows_of_reach`: what a callee shows, its callers show, too, and theirs in turn;
- `nextAccess?`, `Ssa.Module.accessAfter?`: the access that an evaluation is about to make, and its
  key;
- `shows_of_active`: what the code of a function accesses is shown by those that it runs for;
- `access_shown`: every access of an evaluation is shown by the function that was called.
-/

namespace ContractCompiler

open Ssa

/-- The texts that an analysis hashes: those of its keys, and the wildcards of their namespaces. -/
def DomainAnalysis.hashedTexts (r : DomainAnalysis) (unit : String) : List String :=
  r.keys.keys.toList.flatMap fun k => [k.canonical, canonicalWildcard unit k.ns]

section Hashed

variable [Hashing] {m : Module} {types : TypePool} {opt : DomainOptions}

/-! ## Shown keys -/

/-- A function shows a key of a namespace to its callers, or the wildcard of the namespace. -/
def Shows (r : DomainAnalysis) (unit ns text : String) (write : Bool) (f : FuncId) : Prop :=
  ∃ id ∈ (domainsAt r.functions f).visible write,
    r.keys.Names id (canonicalKey unit ns text) ∨ r.keys.Names id (canonicalWildcard unit ns)

variable {r : DomainAnalysis}

omit [Hashing] in
theorem mem_hashedTexts {unit : String} {id : KeyId} {k : DomainKey} (h : r.keys.get? id = some k) :
    k.canonical ∈ r.hashedTexts unit ∧ canonicalWildcard unit k.ns ∈ r.hashedTexts unit := by
  have hmem : k ∈ r.keys.keys.toList := Array.mem_toList_iff.mpr (Array.mem_of_getElem? h)
  exact ⟨List.mem_flatMap.mpr ⟨k, hmem, by simp⟩, List.mem_flatMap.mpr ⟨k, hmem, by simp⟩⟩

/-- A declared set that covers a key has it, or the wildcard of its namespace. -/
theorem exists_of_covers {unit ns text : String} (hmade : r.keys.Made unit)
    (hinj : Hashing.InjectiveOn (r.hashedTexts unit)) (hns : IsNamespace ns) {declared : KeySet}
    {id : KeyId} (hid : r.keys.Names id (canonicalKey unit ns text))
    (hcovers : covers r.keys declared id = true) :
    ∃ d ∈ declared, d = id ∨ r.keys.Names d (canonicalWildcard unit ns) := by
  obtain ⟨k, hk, hcanonical⟩ := hid
  have hkreg := (hmade id k hk).regular
  unfold covers at hcovers
  rw [hk] at hcovers
  obtain ⟨d, hd, hsame⟩ := List.any_eq_true.mp hcovers
  refine ⟨d, hd, ?_⟩
  rcases Bool.or_eq_true_iff.mp hsame with heq | hwild
  · exact .inl (beq_iff_eq.mp heq)
  · cases hdk : r.keys.get? d with
    | none => simp [hdk] at hwild
    | some dk =>
      simp only [hdk, Option.any_some, Bool.and_eq_true, beq_iff_eq] at hwild
      refine .inr ⟨dk, hdk, ?_⟩
      have hhash := hwild.2
      rw [(hmade d dk hdk).regular.hash_eq, hkreg.scope_eq] at hhash
      have htext := hinj _ (mem_hashedTexts hdk).1 _ (mem_hashedTexts hk).2 hhash
      rw [htext, hkreg.ns_eq hns hcanonical]

omit [Hashing] in
theorem covers_of_not_underDeclared (hcompared : ∀ d ∈ r.diags, d.cause ≠ .underDeclared)
    {f : Function} {fd : FunctionDomains} (hdiags : ∀ d ∈ reconcile r.keys f fd, d ∈ r.diags)
    {write : Bool} (hdecl : fd.declares write = true) {id : KeyId} (hid : id ∈ fd.computed write) :
    covers r.keys (fd.visible write) id = true := by
  by_contra hnot
  have hcompare : ∀ d ∈ compareSets r.keys f fd (fd.computed write) (fd.visible write) write,
      d ∈ r.diags := by
    intro d hd
    refine hdiags d ?_
    unfold reconcile
    cases write with
    | false =>
      rw [if_pos (show fd.readsDeclared = true from hdecl)]
      exact List.mem_append_left _ hd
    | true =>
      rw [if_pos (show fd.writesDeclared = true from hdecl)]
      exact List.mem_append_right _ hd
  unfold compareSets at hcompare
  refine hcompared _ (hcompare _ (List.mem_append_left _ (List.mem_map.mpr ⟨id, ?_, rfl⟩))) rfl
  exact List.mem_filter.mpr ⟨hid, by simpa using hnot⟩

/-- What is computed for a function is shown by it, if no declaration misses a key. -/
theorem shows_of_computed (hspec : AnalysisSpec m types opt r)
    (hinj : Hashing.InjectiveOn (r.hashedTexts (analysisUnit m opt)))
    (hcompared : ∀ d ∈ r.diags, d.cause ≠ .underDeclared) {f : FuncId}
    (hcomp : isComputed m (domainsAt r.functions f) f = true) {ns text : String}
    (hns : IsNamespace ns) {write : Bool} {id : KeyId}
    (hid : id ∈ (domainsAt r.functions f).computed write)
    (hnames : r.keys.Names id (canonicalKey (analysisUnit m opt) ns text) ∨
      r.keys.Names id (canonicalWildcard (analysisUnit m opt) ns)) :
    Shows r (analysisUnit m opt) ns text write f := by
  cases hdecl : (domainsAt r.functions f).declares write with
  | false =>
    refine ⟨id, ?_, hnames⟩
    rw [(hspec.closed f hcomp).visible_eq write hdecl]
    exact hid
  | true =>
    obtain ⟨fn, hfn⟩ : ∃ fn, m.functions[f]? = some fn :=
      ⟨_, Array.getElem?_eq_getElem (lt_size_of_isComputed hcomp)⟩
    have hcovers := covers_of_not_underDeclared hcompared (hspec.compared f fn hfn hcomp) hdecl hid
    have htext : ∃ text', r.keys.Names id (canonicalKey (analysisUnit m opt) ns text') := by
      rcases hnames with hnames | hnames
      · exact ⟨text, hnames⟩
      · exact ⟨"*", hnames⟩
    obtain ⟨text', htext'⟩ := htext
    obtain ⟨d, hd, rfl | hwild⟩ := exists_of_covers hspec.made hinj hns htext' hcovers
    · exact ⟨d, hd, hnames⟩
    · exact ⟨d, hd, .inr hwild⟩

omit [Hashing] in
theorem isComputed_of_not_trusted (htrusted : ∀ d ∈ r.functions, d.source ≠ .trusted) {id : FuncId}
    {f : Function} (hf : m.functions[id]? = some f) (hincl : f.excluded = false) :
    isComputed m (domainsAt r.functions id) id = true := by
  have hsource : (domainsAt r.functions id).source ≠ .trusted := by
    unfold domainsAt
    rw [Array.getD_eq_getD_getElem?]
    cases hd : r.functions[id]? with
    | none => exact fun h => by cases h
    | some d => exact htrusted d (Array.mem_of_getElem? hd)
  unfold isComputed
  rw [hf]
  simp [hsource, hincl]

omit [Hashing] in
theorem source_ne_trusted_of_isComputed {id : FuncId}
    (h : isComputed m (domainsAt r.functions id) id = true) :
    (domainsAt r.functions id).source ≠ .trusted := by
  unfold isComputed at h
  exact bne_iff_ne.mp (Bool.and_eq_true_iff.mp h).1

/-- What a function that is reached by calls shows is shown by the function that reaches it. -/
theorem shows_of_reach (hspec : AnalysisSpec m types opt r)
    (hinj : Hashing.InjectiveOn (r.hashedTexts (analysisUnit m opt)))
    (hcompared : ∀ d ∈ r.diags, d.cause ≠ .underDeclared)
    (htrusted : ∀ d ∈ r.functions, d.source ≠ .trusted) {ns text : String} (hns : IsNamespace ns)
    {write : Bool} {f id : FuncId} (hreach : Walk.Reach m.callGraph.calleesOf f id)
    (hshows : Shows r (analysisUnit m opt) ns text write id) :
    Shows r (analysisUnit m opt) ns text write f := by
  induction hreach using Relation.ReflTransGen.head_induction_on with
  | refl => exact hshows
  | @head caller callee hcall _ ih =>
    obtain ⟨k, hk, hnames⟩ := ih
    obtain ⟨fn, hfn, hincl, -⟩ := Module.mem_calleesOf.mp hcall
    have hcomp : isComputed m (domainsAt r.functions caller) caller = true :=
      isComputed_of_not_trusted htrusted hfn hincl
    exact shows_of_computed hspec hinj hcompared hcomp hns
      ((hspec.closed caller hcomp).callee_mem write callee hcall k hk) hnames

/-! ## Accesses of executions -/

omit [Hashing] in
theorem stateAccess?_typed {Γ : TypeContext} {data : InstData} {t : TypeId} (h : InstType Γ data t)
    {a : StateAccess} (ha : data.stateAccess? = some a) : IsNamespace a.ns ∧ Γ.Key a.key := by
  cases h with
  | stateRead hns hkey => cases ha; exact ⟨hns, hkey⟩
  | stateWrite hns hkey => cases ha; exact ⟨hns, hkey⟩
  | stateHas hns hkey => cases ha; exact ⟨hns, hkey⟩
  | _ => cases ha

omit [Hashing] in
theorem Ssa.Module.Typed.isNamespace (htyped : m.Typed types) {f : Function} {inst : Inst}
    (hinst : inst ∈ m.instsOf f) {a : StateAccess} (ha : inst.data.stateAccess? = some a) :
    IsNamespace a.ns := by
  obtain ⟨b, -, i, -, hi⟩ := Module.mem_instsOf.mp hinst
  obtain ⟨t, htype, -⟩ := htyped.inst i inst hi
  exact (stateAccess?_typed htype ha).1

/-- The text of a key at run time: of a word its decimal value, read as the key's type says, and of
a byte string its bytes. -/
def Ssa.Val.keyText (signed : Bool) : Val → String
  | .word w => renderIntKey w signed
  | .bytes b => renderBytesKey b
  | .tuple _ | .cell _ => ""

omit [Hashing] in
theorem text_eq_keyText (k : KeyConst) (signed : Bool) : k.text signed = k.val.keyText signed := by
  cases k <;> rfl

omit [Hashing] in
/-- The value of a key is among the constants found for it, and is of the sort that the type of the
key asks for. -/
theorem resolve_sound {f : Function} {search : KeySearch} (hs : search.Sound f) {key : ValueId}
    (hkey : (search.module.typeContext search.types).Key key) {x : Val} (hx : search.Known key x)
    {consts : KeyConsts} (hconsts : search.resolve key = some consts) :
    ∃ k ∈ consts, k.val = x ∧ k.Fits search.types (search.module.valueType key) := by
  obtain ⟨hres, -⟩ := Option.filter_eq_some_iff.mp hconsts
  refine hx.finds _ _ _ _ hres ?_
  obtain ⟨a, ha, hkind⟩ := hkey
  obtain ⟨value, hvalue⟩ := KeySearch.exists_value_of_resolveWithin hres
  rw [hs.operand_eq ha hvalue]
  rcases hkind with hint | hbytes
  · obtain ⟨b, hb, -⟩ := TypePool.exists_builtin?_of_isInteger hint
    exact TypePool.resultElem?_of_builtin? hb
  · exact TypePool.resultElem?_of_builtin? (TypePool.builtin?_of_isBuiltin hbytes)

/-- The keys that an access of a function is entered by are computed for the function. -/
theorem exists_computed (hspec : AnalysisSpec m types opt r)
    (htrusted : ∀ d ∈ r.functions, d.source ≠ .trusted) {id : FuncId} {f : Function}
    (hf : m.functions[id]? = some f) (hincl : f.excluded = false) {inst : Inst}
    (hinst : inst ∈ m.instsOf f) {a : StateAccess} (ha : inst.data.stateAccess? = some a)
    {k : DomainKey} (hk : k ∈ a.keys (analysisUnit m opt)
      (keySearch m types opt.maxEnumeratedKeys f) opt.wildcardPolicy) :
    ∃ n ∈ (domainsAt r.functions id).computed a.isWrite, r.keys.get? n = some k := by
  have hcomp := isComputed_of_not_trusted htrusted hf hincl
  have hsource := source_ne_trusted_of_isComputed hcomp
  have hstate : (parseAnnotations f.attrs).annotations.noState = false :=
    Bool.eq_false_iff.mpr fun h => hsource ((hspec.source_iff id f hf).mpr h)
  obtain ⟨n, hn, hget⟩ := (hspec.own id f hf a.isWrite).complete k
    ⟨hincl, hstate, inst, hinst, a, ha, rfl, hk⟩
  exact ⟨n, (hspec.closed id hcomp).own_mem a.isWrite n hn, hget⟩

/-- The keys that an access of a function is entered by: those of the constants that are found for
its key, or all keys of its namespace. -/
theorem keys_cases (hspec : AnalysisSpec m types opt r)
    (htrusted : ∀ d ∈ r.functions, d.source ≠ .trusted) (hok : r.ok = true) {id : FuncId}
    {f : Function} (hf : m.functions[id]? = some f) (hincl : f.excluded = false) {inst : Inst}
    (hinst : inst ∈ m.instsOf f) {a : StateAccess} (ha : inst.data.stateAccess? = some a) :
    (∃ consts, (keySearch m types opt.maxEnumeratedKeys f).resolve a.key = some consts ∧
      a.keys (analysisUnit m opt) (keySearch m types opt.maxEnumeratedKeys f) opt.wildcardPolicy =
        consts.map fun k => .exact (analysisUnit m opt) a.ns
          (k.text (types.intKind (m.valueType a.key)).signed)) ∨
      a.keys (analysisUnit m opt) (keySearch m types opt.maxEnumeratedKeys f) opt.wildcardPolicy =
        [.all (analysisUnit m opt) a.ns] := by
  unfold StateAccess.keys
  cases hconsts : (keySearch m types opt.maxEnumeratedKeys f).resolve a.key with
  | some consts => exact .inl ⟨consts, rfl, rfl⟩
  | none =>
    cases hpolicy : opt.wildcardPolicy with
    | coarsen => exact .inr rfl
    | reject =>
      have hsource := source_ne_trusted_of_isComputed (isComputed_of_not_trusted htrusted hf hincl)
      have hresolved := hspec.resolved hok hpolicy id f hf hincl hsource inst hinst a ha
      rw [hconsts] at hresolved
      cases hresolved

/-- An access of an activation is shown by the function that is active. A value that is not of the
sort that the type of the key asks for is no constant that was found: the wildcard is shown then,
whatever the text. -/
theorem shows_of_active (hspec : AnalysisSpec m types opt r)
    (hinj : Hashing.InjectiveOn (r.hashedTexts (analysisUnit m opt)))
    (hcompared : ∀ d ∈ r.diags, d.cause ≠ .underDeclared)
    (htrusted : ∀ d ∈ r.functions, d.source ≠ .trusted) (hok : r.ok = true)
    (htyped : m.Typed types) (hfits : m.values.size ≤ invalidId) (hverify : m.verify = [])
    {start id : FuncId} {f : Function} {frame : Frame}
    (hframe : ActiveFrame m types opt.maxEnumeratedKeys start id f frame) {inst : Inst}
    (hmem : inst ∈ m.instsOf f) {a : StateAccess} (ha : inst.data.stateAccess? = some a) {x : Val}
    (hx : frame.env[a.key]? = some x) {text : String}
    (htext : ∀ k : KeyConst, k.val = x → k.Fits types (m.valueType a.key) →
      k.text (types.intKind (m.valueType a.key)).signed = text) :
    Shows r (analysisUnit m opt) a.ns text a.isWrite id := by
  have hcomp := isComputed_of_not_trusted htrusted hframe.function_eq hframe.included
  obtain ⟨b, -, i, -, hinst⟩ := Module.mem_instsOf.mp hmem
  obtain ⟨t, htype, -⟩ := htyped.inst i inst hinst
  obtain ⟨hns, hkey⟩ := stateAccess?_typed htype ha
  -- the keys that the access is entered by are shown
  have hshown {k : DomainKey} := exists_computed hspec htrusted hframe.function_eq hframe.included
    hmem ha (k := k)
  rcases keys_cases hspec htrusted hok hframe.function_eq hframe.included hmem
    ha with ⟨consts, hconsts, hkeys⟩ | hkeys
  · have hs := sound_keySearch opt.maxEnumeratedKeys htyped hfits hverify hframe.function_eq
      hframe.included
    obtain ⟨k, hk, hval, hfits⟩ := resolve_sound hs hkey (hframe.known a.key x hx) hconsts
    rw [hkeys] at hshown
    obtain ⟨n, hn, hget⟩ := hshown (List.mem_map.mpr ⟨k, hk, rfl⟩)
    rw [htext k hval hfits] at hget
    exact shows_of_computed hspec hinj hcompared hcomp hns hn (.inl ⟨_, hget, rfl⟩)
  · rw [hkeys] at hshown
    obtain ⟨n, hn, hget⟩ := hshown (List.mem_singleton.mpr rfl)
    exact shows_of_computed hspec hinj hcompared hcomp hns hn (.inr ⟨_, hget, rfl⟩)

/-! ## Evaluations -/

/-- The access to the state that is made next, with the value of its key. -/
def nextAccess? (m : Module) (c : Config) : Option (StateAccess × Val) := do
  let i ← c.frame.rest.head?
  let inst ← m.insts[i]?
  let a ← inst.data.stateAccess?
  let x ← c.frame.env[a.key]?
  return (a, x)

/-- The access that the evaluation of a function makes after a number of steps, if it makes one
then: by the function or by one that it calls. -/
def Ssa.Module.accessAfter? (m : Module) (types : TypePool) (unit : String) (f : FuncId)
    (args : List UInt64) (ledger : Ledger) (limits : EvalLimits) (steps : Nat) :
    Option (StateAccess × Val) :=
  match m.startEval f args ledger limits with
  | .error _ => none
  | .ok (_, c) => (configAfter { module := m, types, unit } limits steps c).bind (nextAccess? m)

/-- The instruction that is executed next, with the activation that executes it. -/
def nextInst? (m : Module) (c : Config) : Option (Inst × Frame) := do
  let i ← c.frame.rest.head?
  let inst ← m.insts[i]?
  return (inst, c.frame)

/-- The instruction that the evaluation of a function executes after a number of steps. -/
def Ssa.Module.instAfter? (m : Module) (types : TypePool) (unit : String) (f : FuncId)
    (args : List UInt64) (ledger : Ledger) (limits : EvalLimits) (steps : Nat) :
    Option (Inst × Frame) :=
  match m.startEval f args ledger limits with
  | .error _ => none
  | .ok (_, c) => (configAfter { module := m, types, unit } limits steps c).bind (nextInst? m)

/-- An access is made by the instruction that is executed. -/
theorem accessAfter?_eq_some {unit : String} {f : FuncId} {args : List UInt64} {ledger : Ledger}
    {limits : EvalLimits} {steps : Nat} {a : StateAccess} {x : Val} :
    m.accessAfter? types unit f args ledger limits steps = some (a, x) ↔
      ∃ inst frame, m.instAfter? types unit f args ledger limits steps = some (inst, frame) ∧
        inst.data.stateAccess? = some a ∧ frame.env[a.key]? = some x := by
  unfold Module.accessAfter? Module.instAfter?
  split
  · exact ⟨nofun, fun ⟨_, _, h, _⟩ => nomatch h⟩
  · constructor
    · intro haccess
      obtain ⟨c, hc, haccess⟩ := Option.bind_eq_some_iff.mp haccess
      obtain ⟨i, hi, haccess⟩ := Option.bind_eq_some_iff.mp haccess
      obtain ⟨inst, hinst, haccess⟩ := Option.bind_eq_some_iff.mp haccess
      obtain ⟨a', ha, haccess⟩ := Option.bind_eq_some_iff.mp haccess
      obtain ⟨x', hx, heq⟩ := Option.bind_eq_some_iff.mp haccess
      obtain ⟨rfl, rfl⟩ := Prod.mk.inj (Option.some.inj heq)
      exact ⟨inst, c.frame, by simp [hc, nextInst?, hi, hinst], ha, hx⟩
    · rintro ⟨inst, frame, hinst, ha, hx⟩
      obtain ⟨c, hc, hinst⟩ := Option.bind_eq_some_iff.mp hinst
      obtain ⟨i, hi, hinst⟩ := Option.bind_eq_some_iff.mp hinst
      obtain ⟨inst', hinst', heq⟩ := Option.bind_eq_some_iff.mp hinst
      obtain ⟨rfl, rfl⟩ := Prod.mk.inj (Option.some.inj heq)
      simp [hc, nextAccess?, hi, hinst', ha, hx]

/-- What is executed is an instruction of a function that is active. -/
theorem exists_active_of_inst (maxKeys : Nat) (htyped : m.Typed types)
    (hfits : m.values.size ≤ invalidId) (hverify : m.verify = []) {unit : String} {f : FuncId}
    {args : List UInt64} {ledger : Ledger} {limits : EvalLimits} {steps : Nat} {inst : Inst}
    {frame : Frame}
    (hinst : m.instAfter? types unit f args ledger limits steps = some (inst, frame)) :
    ∃ id g, ActiveFrame m types maxKeys f id g frame ∧ inst ∈ m.instsOf g := by
  unfold Module.instAfter? at hinst
  split at hinst
  · cases hinst
  · rename_i fn c₀ hstart
    obtain ⟨c, hc, hinst⟩ := Option.bind_eq_some_iff.mp hinst
    obtain ⟨i, hi, hinst⟩ := Option.bind_eq_some_iff.mp hinst
    obtain ⟨inst', hinst', heq⟩ := Option.bind_eq_some_iff.mp hinst
    obtain ⟨rfl, rfl⟩ := Prod.mk.inj (Option.some.inj heq)
    obtain ⟨rest, hrest⟩ := List.head?_eq_some_iff.mp hi
    have hactive : ActiveConfig m types maxKeys f c :=
      active_of_runs htyped hfits hverify hstart (runs_of_configAfter steps hc)
    obtain ⟨id, g, hframe⟩ := hactive.frame
    have hmem : i ∈ (m.block c.frame.block).insts :=
      hframe.rest_suffix.subset (hrest ▸ List.mem_cons_self)
    exact ⟨id, g, hframe, Module.mem_instsOf.mpr ⟨c.frame.block, hframe.block_mem, i, hmem, hinst'⟩⟩

/-- Every access that a function makes while it is evaluated is shown by it, under a text that the
value of its key has if it is of the sort that the type of the key asks for. -/
theorem shows_of_access (hm : FromDocument m types) (hfits : m.values.size ≤ invalidId)
    (hverify : m.verify = []) (hok : (m.analyzeDomains types opt).ok = true)
    (htrusted : ∀ d ∈ (m.analyzeDomains types opt).functions, d.source ≠ .trusted)
    (hdeclared : ∀ d ∈ (m.analyzeDomains types opt).diags, d.cause ≠ .underDeclared)
    (hinj : Hashing.InjectiveOn ((m.analyzeDomains types opt).hashedTexts (analysisUnit m opt)))
    {unit : String} {f : FuncId} {args : List UInt64} {ledger : Ledger} {limits : EvalLimits}
    {steps : Nat} {a : StateAccess} {x : Val}
    (haccess : m.accessAfter? types unit f args ledger limits steps = some (a, x)) {text : String}
    (htext : ∀ k : KeyConst, k.val = x → k.Fits types (m.valueType a.key) →
      k.text (types.intKind (m.valueType a.key)).signed = text) :
    IsNamespace a.ns ∧ (∃ inst ∈ m.insts, inst.data.stateAccess? = some a) ∧
      Shows (m.analyzeDomains types opt) (analysisUnit m opt) a.ns text a.isWrite f := by
  have htyped := hm.typed hfits
  have hspec : AnalysisSpec m types opt (m.analyzeDomains types opt) :=
    analysisSpec fun f _ inst hinst a ha => htyped.isNamespace hinst ha
  obtain ⟨inst, frame, hinst, ha, hx⟩ := accessAfter?_eq_some.mp haccess
  obtain ⟨id, g, hframe, hmem⟩ := exists_active_of_inst opt.maxEnumeratedKeys htyped hfits
    hverify hinst
  have hns := htyped.isNamespace hmem ha
  have hshows := shows_of_active hspec hinj hdeclared htrusted hok htyped hfits hverify hframe
    hmem ha hx htext
  obtain ⟨b, -, i, -, hinst⟩ := Module.mem_instsOf.mp hmem
  exact ⟨hns, ⟨inst, Array.mem_of_getElem? hinst, ha⟩,
    shows_of_reach hspec hinj hdeclared htrusted hns hframe.reached hshows⟩

/-- Every access that a function makes while it is evaluated, in its own code or in that of the
functions it calls, is shown by it. -/
theorem access_shown (hm : FromDocument m types) (hfits : m.values.size ≤ invalidId)
    (hverify : m.verify = []) (hok : (m.analyzeDomains types opt).ok = true)
    (htrusted : ∀ d ∈ (m.analyzeDomains types opt).functions, d.source ≠ .trusted)
    (hdeclared : ∀ d ∈ (m.analyzeDomains types opt).diags, d.cause ≠ .underDeclared)
    (hinj : Hashing.InjectiveOn ((m.analyzeDomains types opt).hashedTexts (analysisUnit m opt)))
    {unit : String} {f : FuncId} {args : List UInt64} {ledger : Ledger} {limits : EvalLimits}
    {steps : Nat} {a : StateAccess} {x : Val}
    (haccess : m.accessAfter? types unit f args ledger limits steps = some (a, x)) :
    Shows (m.analyzeDomains types opt) (analysisUnit m opt) a.ns
      (x.keyText (types.intKind (m.valueType a.key)).signed) a.isWrite f := by
  refine (shows_of_access hm hfits hverify hok htrusted hdeclared hinj haccess fun k hk _ => ?_).2.2
  -- whatever constant the value is, its text is that of the value
  subst hk
  exact text_eq_keyText k _

end Hashed

/-! ### A contract whose function `g` calls `f`, which writes a number -/

/-- The contract as a document. -/
def writerText : String :=
  "\x7b\"unit\":\"t\",\"fns\":[" ++
  "\x7b\"name\":\"f\",\"params\":[],\"body\":[\x7b\"put\":\"a\",\"key\":1,\"value\":5\x7d]\x7d," ++
  "\x7b\"name\":\"g\",\"params\":[],\"body\":[\x7b\"call\":\"f\",\"args\":[]\x7d]\x7d]\x7d"

/-- What the document says. -/
def writerJson : Json := .object
  [("fns", .array [
      .object [("body", .array [.object [("key", .number (.whole 1)), ("put", .string "a"),
        ("value", .number (.whole 5))]]), ("name", .string "f"), ("params", .array [])],
      .object [("body", .array [.object [("args", .array []), ("call", .string "f")]]),
        ("name", .string "g"), ("params", .array [])]]),
    ("unit", .string "t")]

/-- The program that is read. -/
def writerHir : Hir.Module where
  unit := "t"
  functions := #[
    { name := "f", ret := Builtin.unit.id, body := [.expr {} (.statePut ⟨2, {}, Builtin.unit.id⟩ "a"
        (.int ⟨0, {}, Builtin.u64.id⟩ 1) (.int ⟨1, {}, Builtin.i64.id⟩ 5))] },
    { name := "g", ret := Builtin.unit.id,
      body := [.expr {} (.call ⟨3, {}, Builtin.unit.id⟩ 0 [])] }]
  stmtCount := 2
  exprCount := 4

/-- The module that is built. -/
def writerModule : Module where
  unit := "t"
  functions := #[{ name := "f", ret := 1, blocks := [0], entry := some 0 },
    { name := "g", ret := 1, blocks := [1], entry := some 1 }]
  blocks := #[{ insts := [0, 1, 2], term := some (.ret none) },
              { insts := [3], term := some (.ret none) }]
  insts := #[{ data := .constInt 1, result := some 0 }, { data := .constInt 5, result := some 1 },
    { data := .stateWrite "a" 0 1, effect := .writesMemory },
    { data := .call 0 [], effect := .call }]
  values := #[{ type := Builtin.u64.id, site := .inst 0 },
              { type := Builtin.i64.id, site := .inst 1 }]

set_option maxRecDepth 100000 in
theorem parse_writerText : @Json.Library.parse? .standard writerText = some writerJson := by
  apply Json.parse?_eq_of_value?
  · unfold writerText
    iterate 2 apply Json.toList_append_eq
    all_goals exact Json.toList_eq_of_ofList rfl
  · unfold writerJson
    dsimp only [List.cons_append, List.nil_append]
    with_unfolding_all rfl

theorem read_writerText :
    ∃ doc, @Hir.readDocument .standard writerText "t" {} {} = doc ∧ doc.module = writerHir ∧
    doc.types = {} ∧ doc.ok = true := by
  refine ⟨_, rfl, ?_⟩
  unfold Hir.readDocument
  rw [parse_writerText]
  decide +kernel

theorem build_writerHir : (buildModule writerHir {} fun _ => false).module = writerModule ∧
    (buildModule writerHir {} fun _ => false).types = {} := by
  have hsignatures : signatures {} (writerHir.functions.toList.zipIdx.map fun p => (p.1, false)) =
      ([{ name := "f", ret := 1 }, { name := "g", ret := 1 }], {}) := rfl
  rw [buildModule_of_signatures hsignatures]
  unfold writerHir
  -- the code of statements does not compute by itself, so it is unrolled first
  simp -zeta only [List.zip_cons_cons, buildBodies, Bool.false_eq_true, if_false, lowerFunction,
    lowerBlock, lowerStmts, lowerStmt]
  decide +kernel

theorem fromDocument_writer : FromDocument writerModule {} := by
  obtain ⟨doc, hdoc, hmodule, htypes, hok⟩ := read_writerText
  have hbuilt := @FromDocument.built .standard _ _ _ (fun _ => false) doc hdoc hok
  rw [hmodule, htypes, build_writerHir.1, build_writerHir.2] at hbuilt
  exact hbuilt

/-- After three steps of `g`, `f` writes to the key 1 of the namespace `a`. -/
theorem accessAfter?_writer [Hashing] :
    writerModule.accessAfter? {} "t" 1 [] {} {} 3 = some (⟨"a", 0, true⟩, .word 1) := by
  have henv : ((({} : Env).insert 0 (.word 1)).insert 1 (.word 5))[0]? = some (.word 1) := by
    rw [Std.HashMap.getElem?_insert, Std.HashMap.getElem?_insert]
    rfl
  have hafter : configAfter { module := writerModule, types := {}, unit := "t" } {} 3
      { frame := { block := 1, rest := [3] }, store := { ledger := {} } } = some
      { frame := { block := 0, rest := [2],
                   env := (({} : Env).insert 0 (.word 1)).insert 1 (.word 5) }
        callers := [{ frame := { block := 1, rest := [] }, result := none }]
        depth := 2, steps := 3, store := { ledger := {} } } := rfl
  show (configAfter { module := writerModule, types := {}, unit := "t" } {} 3
    { frame := { block := 1, rest := [3] }, store := { ledger := {} } }).bind
    (nextAccess? writerModule) = _
  rw [hafter]
  show (((({} : Env).insert 0 (.word 1)).insert 1 (.word 5))[0]?).bind _ = _
  rw [henv]
  rfl

/-- With SHA-256, `g` shows the key that `f` writes to. -/
theorem access_shown_writer :
    Shows (@Module.analyzeDomains Hashing.sha256 writerModule {} {}) "t" "a" "1" true 1 :=
  @access_shown Hashing.sha256 _ _ _ fromDocument_writer (by decide)
    (List.isEmpty_iff.mp (by decide +kernel))
    (by decide +kernel) (by decide +kernel) (by decide +kernel)
    (by unfold Hashing.InjectiveOn; decide +kernel) _ _ _ _ _ _ _ _
      (@accessAfter?_writer Hashing.sha256)

end ContractCompiler
