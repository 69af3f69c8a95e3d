import ContractCompiler.Proofs.Codegen.ConstantData
import ContractCompiler.Proofs.Codegen.EdgeCopies
import ContractCompiler.Proofs.Domain.Independence

/-!
# What is analysed is what hosts enforce

A host that limits writes compares the descriptor that comes with each write with the domains that
may be written. The descriptor of a write of an analysed function is admitted by the domains that
the function is found to write, and by those of every function that calls it: a call is not affected
by being limited to them.

Compiled code has its descriptors among its constant data. They are those of the evaluator, and
hosts that are limited in this way admit them, as long as nothing else is written over them.

- `Ssa.Module.constKey?`: the constant that defines a key;
- `allowsWrite_descriptorOf`: hosts admit the descriptors of keys that are shown;
- `evalFunction_restrictWrites`: evaluations are not affected by the limits;
- `domainDescriptor_eq`: the descriptors of compiled code are those of the evaluator;
- `descriptor_loaded`: they are in memory, and are admitted.
-/

namespace ContractCompiler

open Ssa

/-! ## Keys that are constants of the program -/

/-- The constant that defines a key, if the key is a constant of the program. -/
def Ssa.Module.constKey? (m : Module) (key : ValueId) : Option KeyConst :=
  match m.definition? key with
  | some { data := .constInt bits, .. } => some (.word bits)
  | some { data := .constBytes bytes, .. } => some (.bytes bytes)
  | _ => none

theorem constKeyText_eq (c : EvalContext) (key : ValueId) :
    c.constKeyText key = ((c.module.constKey? key).map (·.text (c.kindOf key).signed)).getD "" := by
  unfold EvalContext.constKeyText Module.constKey?
  cases c.module.definition? key with
  | none => rfl
  | some inst =>
    obtain ⟨data, effect, result, span⟩ := inst
    cases data <;> rfl

theorem Ssa.KeyConst.text_ne_empty (k : KeyConst) (signed : Bool) : k.text signed ≠ "" := by
  cases k with
  | bytes b => exact renderBytesKey_ne_empty b
  | word w =>
    show renderIntKey w signed ≠ ""
    unfold renderIntKey
    split
    · cases signedValue w with
      | ofNat n => exact Nat.repr_ne_empty
      | negSucc n =>
        intro h
        have hchars : ("-" ++ Nat.repr (n + 1)).toList = [] := congrArg String.toList h
        rw [String.toList_append] at hchars
        cases hchars
    · exact Nat.repr_ne_empty

/-- A search for a constant finds it, and nothing else. -/
theorem Ssa.KeySearch.resolve_of_constKey? {s : KeySearch} {v : ValueId} {k : KeyConst}
    (hk : s.module.constKey? v = some k) {consts : KeyConsts}
    (hconsts : s.resolve v = some consts) :
    consts = [k] := by
  obtain ⟨hres, -⟩ := Option.filter_eq_some_iff.mp hconsts
  obtain ⟨n, ⟨type, valueEffect, site, valueSpan⟩, -, hvalue, hdef⟩ := resolveWithin_eq_some hres
  unfold Module.constKey? Module.definition? at hk
  rw [hvalue] at hk
  cases site with
  | none => exact hdef.elim
  | param block index => cases hk
  | inst i =>
    obtain ⟨⟨data, effect, result, span⟩, hinst, hfound⟩ := hdef
    dsimp only at hk
    rw [hinst] at hk
    cases data with
    | constInt | constBytes =>
      cases hk
      cases hfound
      rfl
    | _ => cases hk

/-! ## Descriptors that are admitted -/

section Hashed

variable [Hashing] {m : Module} {types : TypePool} {opt : DomainOptions} {r : DomainAnalysis}
  {unit : String}

namespace ShownKey

variable {f : FuncId} {a : StateAccess} {text : String} {k : DomainKey}

/-- A key that is shown for a write is among what the function is found to write. -/
theorem entry_mem (hk : ShownKey r unit f a text k) (hwrite : a.isWrite = true) :
    k.entry ∈ (r.accessSet f).writes := by
  have hmem := hk.mem
  rw [hwrite] at hmem
  rw [← r.toAccessSet_keyAccesses f]
  exact List.mem_map_of_mem hmem

theorem entry_scope (hk : ShownKey r unit f a text k) : k.entry.scope = scopeOf unit a.ns := by
  show k.scope = _
  rw [hk.delimited.scope_eq, hk.ns_eq]
  rfl

theorem entry_hash (hk : ShownKey r unit f a text k) (hexact : k.wildcard = false) :
    k.entry.hash = (DomainKey.exact unit a.ns text).hash := by
  have hkey : k.key = text := hk.key_eq.resolve_left fun hwild => by
    rw [hexact] at hwild; cases hwild
  show k.hash = Hashing.digestText (canonicalKey unit a.ns text)
  rw [hk.delimited.hash_eq, hk.delimited.canonical_eq, hk.ns_eq, DomainKey.text, hexact, ← hkey]
  rfl

end ShownKey

/-- A host that is limited to what a function is found to write admits the descriptor of a key that
the function shows for a write, whether or not the descriptor has the key. -/
theorem allowsWrite_descriptorOf {f : FuncId} {a : StateAccess} (hwrite : a.isWrite = true)
    {text keyText : String} {k : DomainKey} (hk : ShownKey r unit f a text k)
    (htext : keyText = "" ∨ keyText = text) (h : Ledger) :
    (h.restrictWrites (r.accessSet f).writes).allowsWrite (descriptorOf unit a.ns keyText) =
      true := by
  have hlength : (scopeOf unit a.ns).length = 32 := Hashing.length_digest _
  -- the second half of the descriptor: zeros, or the hash of the key
  obtain ⟨exact, hexact, hdescriptor, hadmits⟩ : ∃ exact : Bytes, exact.length = 32 ∧
      descriptorOf unit a.ns keyText = scopeOf unit a.ns ++ exact ∧
      (k.entry.wildcard || exact.all (· == 0) || k.entry.hash == exact) = true := by
    by_cases hempty : keyText.isEmpty = true
    · refine ⟨List.replicate 32 0, rfl, ?_, ?_⟩
      · unfold descriptorOf
        rw [if_pos hempty]
      · simp
    · obtain rfl : keyText = text := htext.resolve_left fun heq => hempty (by rw [heq]; rfl)
      refine ⟨(DomainKey.exact unit a.ns keyText).hash, Hashing.length_digest _, ?_, ?_⟩
      · unfold descriptorOf
        rw [if_neg hempty]
      · cases hwild : k.wildcard with
        | true =>
          rw [show k.entry.wildcard = true from hwild]
          rfl
        | false => rw [hk.entry_hash hwild, beq_self_eq_true, Bool.or_true]
  unfold Ledger.allowsWrite Ledger.restrictWrites
  rw [hdescriptor]
  simp only [List.take_left' hlength, List.drop_left' hlength, List.length_append, hlength, hexact,
    Bool.and_eq_true, List.any_eq_true]
  exact ⟨rfl, k.entry, hk.entry_mem hwrite, by rw [hk.entry_scope, beq_self_eq_true], hadmits⟩

theorem length_descriptorOf (unit ns keyText : String) :
    (descriptorOf unit ns keyText).length = 64 := by
  have hscope : (scopeOf unit ns).length = 32 := Hashing.length_digest _
  unfold descriptorOf
  rw [List.length_append, hscope]
  split
  · rfl
  · rw [show (DomainKey.exact unit ns keyText).hash.length = 32 from Hashing.length_digest _]

namespace Ssa.Module.Analysed

variable {f id : FuncId} {g : Function} {inst : Inst} {a : StateAccess}

/-- What a function shows for an access of a function that it reaches by calls. The text is that of
the key, if the key is a constant of the program. -/
theorem exists_text_shown (hm : m.Analysed types opt)
    (hreach : Walk.Reach m.callGraph.calleesOf f id) (hg : m.functions[id]? = some g)
    (hincl : g.excluded = false) (hinst : inst ∈ m.instsOf g)
    (ha : inst.data.stateAccess? = some a) :
    ∃ text k, ShownKey (m.analyzeDomains types opt) (analysisUnit m opt) f a text k ∧
      ∀ c, m.constKey? a.key = some c → c.text (types.intKind (m.valueType a.key)).signed =
        text := by
  have htyped := hm.document.typed hm.fits
  have hspec : AnalysisSpec m types opt (m.analyzeDomains types opt) :=
    analysisSpec fun _ _ _ hinst _ ha => htyped.isNamespace hinst ha
  have hcomp := isComputed_of_not_trusted hm.not_trusted hg hincl
  have hns := htyped.isNamespace hinst ha
  have hshown {k : DomainKey} := exists_computed hspec hm.not_trusted hg hincl hinst ha (k := k)
  -- what the function shows itself is shown by the one that reaches it
  have hreached {text : String}
      (h : Shows (m.analyzeDomains types opt) (analysisUnit m opt) a.ns text a.isWrite id) :
      ∃ k, ShownKey (m.analyzeDomains types opt) (analysisUnit m opt) f a text k :=
    ContractCompiler.exists_shownKey hspec.made hns
      (shows_of_reach hspec hm.injective hm.covered hm.not_trusted hns hreach h)
  rcases keys_cases hspec hm.not_trusted hm.ok hg hincl hinst
    ha with ⟨consts, hconsts, hkeys⟩ | hkeys
  · obtain ⟨c, hc⟩ : ∃ c, c ∈ consts := by
      obtain ⟨-, hne⟩ := Option.filter_eq_some_iff.mp hconsts
      exact List.exists_mem_of_ne_nil _ (by simpa using hne)
    rw [hkeys] at hshown
    obtain ⟨n, hn, hget⟩ := hshown (List.mem_map.mpr ⟨c, hc, rfl⟩)
    obtain ⟨k, hk⟩ := hreached
      (shows_of_computed hspec hm.injective hm.covered hcomp hns hn (.inl ⟨_, hget, rfl⟩))
    refine ⟨_, k, hk, fun c' hc' => ?_⟩
    rw [KeySearch.resolve_of_constKey? hc' hconsts] at hc
    rw [List.mem_singleton.mp hc]
  · rw [hkeys] at hshown
    obtain ⟨n, hn, hget⟩ := hshown (List.mem_singleton.mpr rfl)
    have hshows (text : String) :
        Shows (m.analyzeDomains types opt) (analysisUnit m opt) a.ns text a.isWrite id :=
      shows_of_computed hspec hm.injective hm.covered hcomp hns hn (.inr ⟨_, hget, rfl⟩)
    obtain ⟨k, hk⟩ := hreached
      (hshows (EvalContext.constKeyText ⟨m, types, analysisUnit m opt⟩ a.key))
    refine ⟨_, k, hk, fun c hc => ?_⟩
    rw [constKeyText_eq, hc]
    rfl

/-- A host that is limited to what a function is found to write admits all writes of the functions
that it reaches by calls. -/
theorem allowsWrite (hm : m.Analysed types opt) (hreach : Walk.Reach m.callGraph.calleesOf f id)
    (hg : m.functions[id]? = some g) (hincl : g.excluded = false) (hinst : inst ∈ m.instsOf g)
    (ha : inst.data.stateAccess? = some a) (hwrite : a.isWrite = true) (h : Ledger) :
    (h.restrictWrites ((m.analyzeDomains types opt).accessSet f).writes).allowsWrite
      (descriptorOf (analysisUnit m opt) a.ns (EvalContext.constKeyText
        ⟨m, types, analysisUnit m opt⟩ a.key)) = true := by
  obtain ⟨text, k, hk, htext⟩ := hm.exists_text_shown hreach hg hincl hinst ha
  refine allowsWrite_descriptorOf hwrite hk ?_ h
  rw [constKeyText_eq]
  cases hc : m.constKey? a.key with
  | none => exact .inl rfl
  | some c => exact .inr (htext c hc)

end Ssa.Module.Analysed

/-! ## Evaluations -/

/-- The stores of two evaluations, the second of which is limited in what it writes. So far nothing
was refused. -/
structure Ssa.Store.Restricted (entries : List DomainEntry) (s s' : Store) : Prop where
  unlimited : s.ledger.allowed = none
  eq : s' = { s with ledger := s.ledger.restrictWrites entries }
  admitted : s.hostStatus ≠ some .domainDenied

omit [Hashing] in
theorem context_restrictWrites (h : Ledger) (entries : List DomainEntry) :
    (h.restrictWrites entries).context = h.context := by
  funext query
  cases query <;> rfl

omit [Hashing] in
theorem tracking_restricted (entries : List DomainEntry) :
    Store.Tracking (Store.Restricted entries) where
  cells_eq h := h.eq ▸ rfl
  hostStatus_eq h := h.eq ▸ rfl
  context_eq h := h.eq ▸ context_restrictWrites _ entries
  setCells h _ := ⟨h.unlimited, h.eq ▸ rfl, h.admitted⟩
  notFound h := ⟨h.unlimited, h.eq ▸ rfl, nofun⟩
  emit h _ _ := ⟨h.unlimited, h.eq ▸ rfl, h.admitted⟩

/-- A write is let through without limits, and under limits that admit its descriptor. -/
theorem lets_restricted {entries : List DomainEntry} {c : EvalContext} {inst : Inst}
    (hallowed : ∀ a, inst.data.stateAccess? = some a → a.isWrite = true → ∀ h : Ledger,
      (h.restrictWrites entries).allowsWrite
      (descriptorOf c.unit a.ns (c.constKeyText a.key)) = true) :
    Store.Lets (Store.Restricted entries) c inst := by
  refine fun a ha hwrite s s' h => ⟨?_, h.eq ▸ hallowed a ha hwrite s.ledger⟩
  unfold Ledger.allowsWrite
  rw [h.unlimited]

theorem admits_restricted (entries : List DomainEntry) (c : EvalContext)
    (a : StateAccess) (x : Val) :
    Store.Admits (Store.Restricted entries) c a x where
  read h := h.eq ▸ rfl
  write _ _ _ h _ := ⟨h.unlimited, h.eq ▸ rfl, h.admitted⟩

/-- A call on a host that is limited to what the function is found to write has the same result as
without limits, and leaves the same ledger. No write is refused. -/
theorem evalFunction_restrictWrites (hm : m.Analysed types opt) (f : FuncId) (args : List UInt64)
    (limits : EvalLimits) {h : Ledger} (hunlimited : h.allowed = none) :
    let entries := ((m.analyzeDomains types opt).accessSet f).writes
    let call (h : Ledger) := m.evalFunction types f args h (analysisUnit m opt) limits
    call (h.restrictWrites entries) = ((call h).1, (call h).2.restrictWrites entries) ∧
      (call h).1.hostStatus ≠ some .domainDenied := by
  intro entries call
  have hstart : Store.Restricted entries { ledger := h } { ledger := h.restrictWrites entries } :=
    ⟨hunlimited, rfl, nofun⟩
  have hlets (steps : Nat) (inst : Inst) (frame : Frame)
      (hinst : m.instAfter? types (analysisUnit m opt) f args h limits steps = some (inst, frame)) :
      Store.Lets (Store.Restricted entries) ⟨m, types, analysisUnit m opt⟩ inst := by
    obtain ⟨id, g, hframe, hmem⟩ := exists_active_of_inst opt.maxEnumeratedKeys
      (hm.document.typed hm.fits) hm.fits hm.verified hinst
    exact lets_restricted fun a ha hwrite =>
      hm.allowsWrite hframe.reached hframe.function_eq hframe.included hmem ha hwrite
  obtain ⟨r, s, s', hs, hstatus, hcall, hcall'⟩ :=
    evalFunction_parallel (tracking_restricted entries) hstart hlets
      fun _ a x _ => admits_restricted entries _ a x
  constructor
  · show m.evalFunction _ _ _ _ _ _ = ((m.evalFunction _ _ _ _ _ _).1,
      (m.evalFunction _ _ _ _ _ _).2.restrictWrites _)
    rw [hcall, hcall', hs.eq]
  · show (m.evalFunction _ _ _ _ _ _).1.hostStatus ≠ _
    rw [hcall, hstatus]
    exact hs.admitted

end Hashed

end ContractCompiler

namespace ContractCompiler.Codegen

open Ssa (ValueId FuncId BlockId KeyConst)

/-! ## Compiled code -/

section Descriptors

variable {m : Ssa.Module} {f : Ssa.Function} {b : BlockId} {i : Ssa.Inst} {a : StateAccess}

/-- Where control can come to, a key that is a constant of the program lives in the code that uses
it. -/
theorem home_of_constKey? (hf : f.Verified m) (hb : b ∈ f.blocks)
    (hreached : (m.cfg f).dominance.isReached b = true) (hi : i ∈ instsOf m b) {v : ValueId}
    (hv : v ∈ i.data.operands) {k : KeyConst} (hk : m.constKey? v = some k) :
    (slotPlan m f).home v = .const := by
  obtain ⟨id, hid, hinst⟩ := exists_inst_of_mem hi
  obtain ⟨n, hn⟩ := List.mem_iff_getElem?.mp hid
  -- the key is defined in the function, so it has a place
  obtain ⟨b', hb', hdef⟩ := exists_definition_of_isAvailable
    (hf.inst_uses b hb hreached n id i hn hinst v hv)
  have hvalue := lt_size_of_definition hf hb' hdef
  have hused := useCounts_ne_zero hb (List.mem_append_left _ (List.mem_map_of_mem hi)) hv hvalue
  have hlives := home_ne_none hb' hdef hused hvalue
  unfold Ssa.Module.constKey? at hk
  cases hdefinition : m.definition? v with
  | none =>
    rw [hdefinition] at hk
    cases hk
  | some c =>
    obtain ⟨data, effect, result, span⟩ := c
    rw [hdefinition] at hk
    cases data with
    | constInt | constBytes => exact home_eq_const hf hdefinition rfl hlives
    | _ => cases hk

theorem FunctionContext.constKey?_eq (cx : FunctionContext) (key : ValueId) : cx.constKey? key =
    if cx.plan.home key ≠ .const then none else (cx.module.constKey? key).map
      (·.text (cx.kind key).signed) := by
  unfold FunctionContext.constKey? Ssa.Module.constKey?
  split
  · rfl
  · cases cx.module.definition? key with
    | none => rfl
    | some inst =>
      obtain ⟨data, effect, result, span⟩ := inst
      cases data <;> rfl

variable [Hashing]

/-- Where control can come to, the descriptors of compiled code are those of the evaluator. -/
theorem domainDescriptor_eq (types : TypePool) (unit : String) (options : CodegenOptions)
    (hf : f.Verified m) (hb : b ∈ f.blocks) (hreached : (m.cfg f).dominance.isReached b = true)
    (hi : i ∈ instsOf m b) (ha : i.data.stateAccess? = some a) :
    (functionContext m types unit options f).domainDescriptor a.ns a.key =
      descriptorOf unit a.ns (Ssa.EvalContext.constKeyText ⟨m, types, unit⟩ a.key) := by
  have hkey : a.key ∈ i.data.operands := by
    cases hdata : i.data <;> rw [hdata] at ha <;> cases ha <;> exact List.mem_cons_self
  have hconst : (functionContext m types unit options f).constKey? a.key =
      (m.constKey? a.key).map (·.text (types.intKind (m.valueType a.key)).signed) := by
    rw [FunctionContext.constKey?_eq]
    cases hk : m.constKey? a.key with
    | none =>
      split
      · rfl
      · exact congrArg _ hk
    | some k =>
      have hhome := home_of_constKey? hf hb hreached hi hkey hk
      exact (if_neg (not_not_intro hhome)).trans (congrArg _ hk)
  have hlength : (DomainKey.all unit a.ns).hash.length = 32 := Hashing.length_digest _
  unfold FunctionContext.domainDescriptor descriptorOf scopeOf
  rw [hconst, constKeyText_eq]
  cases hk : m.constKey? a.key with
  | none =>
    show _ ++ List.replicate (domainArgLength - (DomainKey.all unit a.ns).hash.length) 0 = _
    rw [hlength]
    rfl
  | some k =>
    have hne : (k.text (types.intKind (m.valueType a.key)).signed).isEmpty = false :=
      Bool.eq_false_iff.mpr fun h => k.text_ne_empty _ (String.isEmpty_iff.mp h)
    show _ = _ ++ if (k.text (types.intKind (m.valueType a.key)).signed).isEmpty =
      true then _ else _
    rw [hne]
    rfl

/-- The code of a state access pushes the address of its descriptor. -/
theorem address_mem_inst {cx : FunctionContext} (ha : i.data.stateAccess? = some a) :
    .address (cx.domainDescriptor a.ns a.key) ∈ (cx.inst i).items := by
  unfold FunctionContext.inst
  cases hdata : i.data with
  | stateRead ns key type =>
    rw [hdata] at ha
    cases ha
    by_cases hbytes : cx.types.isBytes type = true
    · simp [FunctionContext.stateRead, FunctionContext.domainArg, hostCall, hbytes]
    · simp [FunctionContext.stateRead, FunctionContext.domainArg, hostCall, hbytes]
  | stateWrite ns key value =>
    rw [hdata] at ha
    cases ha
    simp [FunctionContext.stateWrite, FunctionContext.domainArg, hostCall]
  | stateHas ns key =>
    rw [hdata] at ha
    cases ha
    simp [FunctionContext.stateHas, FunctionContext.domainArg, hostCall]
  | _ =>
    rw [hdata] at ha
    cases ha

/-- The code of a block is part of the code of the blocks. -/
theorem FunctionContext.exists_block_subset (cx : FunctionContext) (depths : Array Nat)
    {bs : List BlockId} (hb : b ∈ bs) :
    ∃ weight next, cx.block b weight next ⊆ cx.blocks depths bs := by
  induction bs with
  | nil => cases hb
  | cons c bs ih =>
    rw [FunctionContext.blocks]
    rcases List.mem_cons.mp hb with rfl | hb
    · exact ⟨_, _, List.subset_append_left _ _⟩
    · obtain ⟨weight, next, hsubset⟩ := ih hb
      exact ⟨weight, next, List.subset_append_of_subset_right _ hsubset⟩

/-- The code of an instruction is part of the code of its function. -/
theorem mem_items_of_inst (types : TypePool) (unit : String) (options : CodegenOptions)
    (hb : b ∈ f.blocks) (hi : i ∈ instsOf m b) {item : Item}
    (hitem : item ∈ ((functionContext m types unit options f).inst i).items) :
    item ∈ (lowerFunction m types unit options f).items := by
  obtain ⟨weight, next, hblock⟩ := FunctionContext.exists_block_subset
    (functionContext m types unit options f) (m.loopDepths f) hb
  refine List.mem_flatMap.mpr
    ⟨(functionContext m types unit options f).instPiece weight i,
      List.mem_append_left _ (hblock ?_), hitem⟩
  rw [FunctionContext.block_eq]
  exact List.mem_cons_of_mem _ (List.mem_append_left _ (List.mem_map_of_mem hi))

variable {types : TypePool} {opt : DomainOptions} {options : CodegenOptions} {start id : FuncId}
  {code : LoweredFunction}

/-- Compiled code pushes, for each access that control can come to, an address at which the host
finds the descriptor that the evaluator makes for the access. If the access is a write, the
descriptor is admitted by a host that is limited to what is found for any function that reaches the
code by calls. -/
theorem descriptor_loaded (hm : m.Analysed types opt) (hunit : unitOf m options =
    analysisUnit m opt) (hend : dataSize (m.compile types options).module.data.toList < 2 ^ 64)
    (hreach : Ssa.Walk.Reach m.callGraph.calleesOf start id) (hf : m.functions[id]? = some f)
    (hcode : (lowered m types options).code? id = some code) (hb : b ∈ f.blocks)
    (hreached : (m.cfg f).dominance.isReached b = true) (hi : i ∈ instsOf m b)
    (ha : i.data.stateAccess? = some a) :
    let descriptor := descriptorOf (analysisUnit m opt) a.ns
      (Ssa.EvalContext.constKeyText ⟨m, types, analysisUnit m opt⟩ a.key)
    .address descriptor ∈ code.items ∧
      (∀ memory, (m.compile types options).module.load = .ok memory → Vm.readDescriptor? memory
        ((lowered m types options).linkage.address descriptor) (UInt64.ofNat descriptor.length) =
          some descriptor) ∧
      (a.isWrite = true → ∀ h : Ledger,
        (h.restrictWrites ((m.analyzeDomains types opt).accessSet start).writes).allowsWrite
          descriptor = true) := by
  intro descriptor
  obtain ⟨f', hf', hincl, rfl, -⟩ := exists_function_of_code? hcode
  obtain rfl := Option.some.inj (hf.symm.trans hf')
  have hverified := Ssa.Module.verified_of_verify hm.verified hf hincl
  have hdescriptor : (functionContext m types (unitOf m options) options f).domainDescriptor a.ns
      a.key = descriptor := by
    rw [domainDescriptor_eq types (unitOf m options) options hverified hb hreached hi ha, hunit]
  have haddress :
      .address descriptor ∈ (lowerFunction m types (unitOf m options) options f).items :=
    mem_items_of_inst types _ options hb hi (hdescriptor ▸ address_mem_inst ha)
  refine ⟨haddress, fun memory hload => ?_, fun hwrite h => ?_⟩
  · have hlength : descriptor.length = 64 := length_descriptorOf _ _ _
    have hread := read?_address hend hcode haddress hload
    unfold Vm.readDescriptor?
    rw [hlength] at hread ⊢
    exact hread
  · exact hm.allowsWrite hreach hf hincl (List.mem_flatMap.mpr ⟨b, hb, hi⟩) ha hwrite h

end Descriptors

end ContractCompiler.Codegen
