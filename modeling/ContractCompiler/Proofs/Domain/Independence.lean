import ContractCompiler.Json.Reader
import ContractCompiler.Proofs.Domain.Conflicts
import ContractCompiler.Proofs.Domain.Footprint
import ContractCompiler.Proofs.Hir.Equality

/-!
# Functions that do not conflict are independent

Two functions that are not found to conflict may be called in either order: each has the same result
as if the other were not called, and the state that they leave is the same.

Schedulers tell keys apart by their texts, and a host by their bytes. A text does not say of what
sort a key is: the texts of the keys -1 and 18446744073709551615 differ, their eight bytes do not.
So keys of one namespace have to be of one sort.

- `keySort`, `Ssa.Module.UniformKeys`: the sorts of keys;
- `text_eq_of_buffer_eq`: keys of one sort that have the same bytes have the same text;
- `slotOf_ne`: functions that do not conflict access different slots, if one of the accesses is a
  write;
- `Commute`, `commute_of_footprints`: calls that write no slot that the other one accesses;
- `commute_of_not_conflicts`: calls of functions that do not conflict.
-/

namespace ContractCompiler

open Ssa

/-! ## Sorts of keys -/

/-- The sort of the keys of a type: byte strings, or integers that are signed or not. -/
def keySort (types : TypePool) (t : TypeId) : Option Bool :=
  if types.isBytes t then none else some (types.intKind t).signed

/-- In every namespace all keys are byte strings, or all are integers of one signedness. -/
def Ssa.Module.UniformKeys (m : Module) (types : TypePool) : Prop :=
  ∀ inst ∈ m.insts, ∀ inst' ∈ m.insts, ∀ a ∈ inst.data.stateAccess?, ∀ a' ∈ inst'.data.stateAccess?,
    a.ns = a'.ns → keySort types (m.valueType a.key) = keySort types (m.valueType a'.key)

instance (m : Module) (types : TypePool) : Decidable (m.UniformKeys types) := by
  unfold Ssa.Module.UniformKeys
  infer_instance

/-- Keys of one sort that have the same bytes have the same text. -/
theorem text_eq_of_buffer_eq (c : EvalContext) {v v' : ValueId} {k k' : KeyConst}
    (hk : k.Fits c.types (c.module.valueType v)) (hk' : k'.Fits c.types (c.module.valueType v'))
    (hsort : keySort c.types (c.module.valueType v) = keySort c.types (c.module.valueType v'))
    (hbuffer : c.buffer v k.val = c.buffer v' k'.val) :
    k.text (c.types.intKind (c.module.valueType v)).signed =
      k'.text (c.types.intKind (c.module.valueType v')).signed := by
  unfold EvalContext.buffer EvalContext.isBytes at hbuffer
  unfold keySort at hsort
  cases k with
  | word w =>
    have hv : c.types.isBytes (c.module.valueType v) = false := hk
    rw [hv] at hsort hbuffer
    cases k' with
    | word w' =>
      have hv' : c.types.isBytes (c.module.valueType v') = false := hk'
      rw [hv'] at hsort hbuffer
      obtain rfl : w = w' := littleEndian_injective hbuffer
      rw [Option.some.inj hsort]
    | bytes b' =>
      have hv' : c.types.isBytes (c.module.valueType v') = true := hk'
      rw [hv'] at hsort
      cases hsort
  | bytes b =>
    have hv : c.types.isBytes (c.module.valueType v) = true := hk
    rw [hv] at hsort hbuffer
    cases k' with
    | word w' =>
      have hv' : c.types.isBytes (c.module.valueType v') = false := hk'
      rw [hv'] at hsort
      cases hsort
    | bytes b' =>
      have hv' : c.types.isBytes (c.module.valueType v') = true := hk'
      rw [hv'] at hbuffer
      obtain rfl : b = b' := hbuffer
      rfl

theorem val_injective : Function.Injective KeyConst.val := by
  intro k k' h
  cases k <;> cases k' <;> cases h <;> rfl

/-- For two keys with the same bytes there is a text that both have, as far as they are of the sort
that their types ask for. -/
theorem exists_common_text (c : EvalContext) {v v' : ValueId} {x x' : Val}
    (hsort : keySort c.types (c.module.valueType v) = keySort c.types (c.module.valueType v'))
    (hbuffer : c.buffer v x = c.buffer v' x') : ∃ text,
      (∀ k : KeyConst, k.val = x → k.Fits c.types (c.module.valueType v) →
        k.text (c.types.intKind (c.module.valueType v)).signed = text) ∧
      ∀ k : KeyConst, k.val = x' → k.Fits c.types (c.module.valueType v') →
        k.text (c.types.intKind (c.module.valueType v')).signed = text := by
  by_cases hx : ∃ k : KeyConst, k.val = x ∧ k.Fits c.types (c.module.valueType v)
  · obtain ⟨k, rfl, hk⟩ := hx
    refine ⟨k.text _, fun k₁ hk₁ _ => congrArg (KeyConst.text _) (val_injective hk₁),
      fun k' hk' hfits => ?_⟩
    subst hk'
    exact (text_eq_of_buffer_eq c hk hfits hsort hbuffer).symm
  · by_cases hx' : ∃ k : KeyConst, k.val = x' ∧ k.Fits c.types (c.module.valueType v')
    · obtain ⟨k', rfl, hk'⟩ := hx'
      exact ⟨k'.text _, fun k hk hfits => absurd ⟨k, hk, hfits⟩ hx,
        fun k₁ hk₁ _ => congrArg (KeyConst.text _) (val_injective hk₁)⟩
    · exact ⟨"", fun k hk hfits => absurd ⟨k, hk, hfits⟩ hx,
        fun k hk hfits => absurd ⟨k, hk, hfits⟩ hx'⟩

/-! ## Slots of functions that do not conflict -/

section Hashed

variable [Hashing] {m : Module} {types : TypePool} {opt : DomainOptions} {r : DomainAnalysis}
  {unit ns : String}

/-- A key that a function shows for an access: that of a text, or all keys of the namespace. -/
structure ShownKey (r : DomainAnalysis) (unit : String) (f : FuncId) (a : StateAccess)
    (text : String) (k : DomainKey) : Prop where
  mem : k ∈ (r.keyAccesses f).of a.isWrite
  ns_eq : k.ns = a.ns
  key_eq : k.wildcard = true ∨ k.key = text
  isNamespace : IsNamespace a.ns
  delimited : k.Delimited unit
  hashed : canonicalWildcard unit a.ns ∈ r.hashedTexts unit

theorem exists_shownKey (hmade : r.keys.Made unit) {f : FuncId} {a : StateAccess}
    (hns : IsNamespace a.ns) {text : String} (h : Shows r unit a.ns text a.isWrite f) :
    ∃ k, ShownKey r unit f a text k := by
  obtain ⟨id, hid, hnames⟩ := h
  obtain ⟨k, hk, text', hcanonical, htext'⟩ : ∃ k, r.keys.get? id = some k ∧
      ∃ text', k.canonical = canonicalKey unit a.ns text' ∧ (text' = "*" ∨ text' = text) := by
    rcases hnames with ⟨k, hk, hcanonical⟩ | ⟨k, hk, hcanonical⟩
    · exact ⟨k, hk, text, hcanonical, .inr rfl⟩
    · exact ⟨k, hk, "*", hcanonical, .inl rfl⟩
  have hmem : k ∈ (r.keyAccesses f).of a.isWrite := by
    cases hwrite : a.isWrite with
    | false =>
      rw [hwrite] at hid
      exact List.mem_filterMap.mpr ⟨id, hid, hk⟩
    | true =>
      rw [hwrite] at hid
      exact List.mem_filterMap.mpr ⟨id, hid, hk⟩
  have hdelimited := (hmade id k hk).delimited
  have hhashed : canonicalWildcard unit k.ns ∈ r.hashedTexts unit := (mem_hashedTexts hk).2
  -- the canonical text of the key is split into its namespace and its text
  rw [hdelimited.canonical_eq] at hcanonical
  obtain ⟨hkns, hkey⟩ := canonicalKey_split hdelimited.ns_plain hns.not_mem_separator hcanonical
  refine ⟨k, hmem, hkns, ?_, hns, hdelimited, hkns ▸ hhashed⟩
  cases hwild : k.wildcard with
  | true => exact .inl rfl
  | false =>
    have hexact : k.text = k.key := by
      unfold DomainKey.text
      rw [hwild]
      rfl
    have hne : text' ≠ "*" := hkey ▸ hdelimited.text_ne hwild
    exact .inr (hexact.symm.trans (hkey.trans (htext'.resolve_left hne)))

/-- Keys that are shown for accesses to one namespace meet if they are of the same text. -/
theorem ShownKey.meets {f g : FuncId} {a a' : StateAccess} {text : String} {k k' : DomainKey}
    (hk : ShownKey r unit f a text k) (hk' : ShownKey r unit g a' text k') (hns : a.ns = a'.ns) :
    k.Meets k' := by
  refine ⟨hk.ns_eq.trans (hns.trans hk'.ns_eq.symm), ?_⟩
  rcases hk.key_eq with hwild | hkey
  · exact .inl hwild
  · rcases hk'.key_eq with hwild' | hkey'
    · exact .inr (.inl hwild')
    · exact .inr (.inr (hkey.trans hkey'.symm))

/-- Slots are the same only if scopes and keys are. -/
theorem slot_inj {ns ns' : String} {key key' : Bytes}
    (h : Ledger.slot (scopeOf unit ns) key = Ledger.slot (scopeOf unit ns') key') :
    scopeOf unit ns = scopeOf unit ns' ∧ key = key' := by
  have hlength : (scopeOf unit ns).length = (scopeOf unit ns').length :=
    (Hashing.length_digest _).trans (Hashing.length_digest _).symm
  obtain ⟨hscope, hrest⟩ := List.append_inj h hlength
  exact ⟨hscope, (List.cons.inj hrest).2⟩

/-- A module of a document that was analysed: it has no faults, no function is trusted or shows less
than it does, and the hashes of the texts that are compared are different. -/
structure Ssa.Module.Analysed (m : Module) (types : TypePool) (opt : DomainOptions) : Prop where
  document : FromDocument m types
  fits : m.values.size ≤ invalidId
  verified : m.verify = []
  ok : (m.analyzeDomains types opt).ok = true
  not_trusted : ∀ d ∈ (m.analyzeDomains types opt).functions, d.source ≠ .trusted
  covered : ∀ d ∈ (m.analyzeDomains types opt).diags, d.cause ≠ .underDeclared
  injective : Hashing.InjectiveOn ((m.analyzeDomains types opt).hashedTexts (analysisUnit m opt))

namespace Ssa.Module.Analysed

variable {f g : FuncId} {args args' : List UInt64} {limits : EvalLimits} {ledger ledger' : Ledger}
  {steps steps' : Nat} {a a' : StateAccess} {x x' : Val}

omit [Hashing] in
theorem text_eq_of_val {k : KeyConst} (hk : k.val = x) (signed : Bool) :
    k.text signed = x.keyText signed :=
  hk ▸ text_eq_keyText k signed

/-- An access that is made is that of an instruction. -/
theorem exists_inst (hm : m.Analysed types opt)
    (ha : m.accessAfter? types (analysisUnit m opt) f args ledger limits steps = some (a, x)) :
    ∃ inst ∈ m.insts, inst.data.stateAccess? = some a :=
  (shows_of_access hm.document hm.fits hm.verified hm.ok hm.not_trusted hm.covered hm.injective ha
    fun _ hk _ => text_eq_of_val hk _).2.1

/-- What a function shows for an access that it makes. -/
theorem exists_shownKey (hm : m.Analysed types opt)
    (ha : m.accessAfter? types (analysisUnit m opt) f args ledger limits steps = some (a, x))
    {text : String} (htext : ∀ k : KeyConst, k.val = x → k.Fits types (m.valueType a.key) →
      k.text (types.intKind (m.valueType a.key)).signed = text) :
    ∃ k, ShownKey (m.analyzeDomains types opt) (analysisUnit m opt) f a text k := by
  obtain ⟨hns, -, hshown⟩ := shows_of_access hm.document hm.fits hm.verified hm.ok
    hm.not_trusted hm.covered hm.injective ha htext
  have hmade : (m.analyzeDomains types opt).keys.Made (analysisUnit m opt) :=
    (analysisSpec fun _ _ _ hinst _ ha => (hm.document.typed hm.fits).isNamespace hinst ha).made
  exact ContractCompiler.exists_shownKey hmade hns hshown

/-- The scope of an access determines its namespace. -/
theorem ns_eq (hm : m.Analysed types opt)
    (ha : m.accessAfter? types (analysisUnit m opt) f args ledger limits steps = some (a, x))
    (ha' : m.accessAfter? types (analysisUnit m opt) g args' ledger' limits steps' = some (a', x'))
    (hscope : scopeOf (analysisUnit m opt) a.ns = scopeOf (analysisUnit m opt) a'.ns) :
    a.ns = a'.ns := by
  obtain ⟨k, hk⟩ := hm.exists_shownKey ha fun _ hval _ => text_eq_of_val hval _
  obtain ⟨k', hk'⟩ := hm.exists_shownKey ha' fun _ hval _ => text_eq_of_val hval _
  exact (canonicalKey_inj hk.isNamespace hk'.isNamespace
    (hm.injective _ hk.hashed _ hk'.hashed hscope)).1

/-- Two functions that do not conflict access different slots while they are evaluated, if one of
the two accesses is a write. -/
theorem slotOf_ne (hm : m.Analysed types opt) (huniform : m.UniformKeys types)
    (hfree : ((m.analyzeDomains types opt).accessSet f).conflicts
      ((m.analyzeDomains types opt).accessSet g) = false)
      (ha : m.accessAfter? types (analysisUnit m opt) f args ledger limits steps = some (a, x))
      (ha' : m.accessAfter? types (analysisUnit m opt) g args' ledger' limits steps' =
        some (a', x')) (hwrite : (a.isWrite || a'.isWrite) = true) :
    EvalContext.slotOf ⟨m, types, analysisUnit m opt⟩ a x ≠
    EvalContext.slotOf ⟨m, types, analysisUnit m opt⟩ a' x' := by
  intro hslot
  obtain ⟨hscope, hbuffer⟩ := slot_inj hslot
  have hns := hm.ns_eq ha ha' hscope
  obtain ⟨inst, hinst, hdata⟩ := hm.exists_inst ha
  obtain ⟨inst', hinst', hdata'⟩ := hm.exists_inst ha'
  have hsort := huniform inst hinst inst' hinst' a hdata a' hdata' hns
  -- the two keys have a text in common, under which both functions show them
  obtain ⟨text, htext, htext'⟩ := exists_common_text ⟨m, types, analysisUnit m opt⟩ hsort hbuffer
  obtain ⟨k, hk⟩ := hm.exists_shownKey ha htext
  obtain ⟨k', hk'⟩ := hm.exists_shownKey ha' htext'
  have hmeet : ((m.analyzeDomains types opt).keyAccesses f).Meet
      ((m.analyzeDomains types opt).keyAccesses g) :=
    ⟨a.isWrite, a'.isWrite, hwrite, k, hk.mem, k', hk'.mem, hk.meets hk' hns⟩
  rw [(conflicts_accessSet hm.document hm.fits hm.injective f g).mpr hmeet] at hfree
  cases hfree

end Ssa.Module.Analysed

/-! ## Calls in either order -/

/-- From a ledger, two calls have the same results in either order, and leave the same state. -/
structure Commute (call call' : Ledger → RunResult × Ledger) (h : Ledger) : Prop where
  result : (call (call' h).2).1 = (call h).1
  result' : (call' (call h).2).1 = (call' h).1
  lookup : ∀ slot, (call (call' h).2).2.state.lookup slot = (call' (call h).2).2.state.lookup slot
  state : OrderedSlots h.state → (call (call' h).2).2.state = (call' (call h).2).2.state

/-- Calls commute if neither writes a slot that the other one accesses. -/
theorem commute_of_footprints {f g : FuncId} {args args' : List UInt64} {limits : EvalLimits}
    {h : Ledger} (hunlimited : h.allowed = none)
    (hf : ∀ slot, (m.footprint types unit f args h limits).written slot →
      ¬(m.footprint types unit g args' h limits).accessed slot)
    (hg : ∀ slot, (m.footprint types unit g args' h limits).written slot →
      ¬(m.footprint types unit f args h limits).accessed slot) :
    Commute (fun h => m.evalFunction types f args h unit limits)
      (fun h => m.evalFunction types g args' h unit limits) h := by
  obtain ⟨r', sg, _, hself, hcallg, -⟩ := evalFunction_agree hunlimited hunlimited rfl
    fun _ _ => rfl
  -- `f` from `h` and from what `g` leaves
  obtain ⟨r, sf, sgf, hparf, hcallf, hcallgf⟩ :=
    evalFunction_agree hunlimited hself.within.unlimited hself.within.context_eq
        fun slot haccessed =>
      hself.within.kept slot fun hwritten => hg slot hwritten haccessed
  -- `g` from `h` and from what `f` leaves
  obtain ⟨r'', sg', sfg, hparg, hcallg', hcallfg⟩ :=
    evalFunction_agree hunlimited hparf.within.unlimited hparf.within.context_eq
        fun slot haccessed =>
      hparf.within.kept slot fun hwritten => hf slot hwritten haccessed
  obtain ⟨rfl, hsg⟩ := Prod.mk.inj (hcallg.symm.trans hcallg')
  have hlookup : ∀ slot, sgf.ledger.state.lookup slot = sfg.ledger.state.lookup slot := by
    intro slot
    by_cases hwf : (m.footprint types unit f args h limits).written slot
    · have haccessed := (m.footprint types unit f args h limits).accessed_of_written slot hwf
      rw [hparf.same slot haccessed, hparg.within'.kept slot fun hwg => hg slot hwg haccessed]
    · rw [hparf.within'.kept slot hwf, hsg]
      by_cases hwg : (m.footprint types unit g args' h limits).written slot
      · exact (hparg.same slot ((m.footprint types unit g args' h limits).accessed_of_written
          slot hwg)).symm
      · rw [hparg.within'.kept slot hwg, hparg.within.kept slot hwg, hparf.within.kept slot hwf]
  refine ⟨?_, ?_, ?_, fun hordered => ?_⟩
  · rw [hcallg, hcallf, hcallgf]
  · rw [hcallg, hcallf, hcallfg]
  · rw [hcallg, hcallf, hcallgf, hcallfg]
    exact hlookup
  · rw [hcallg, hcallf, hcallgf, hcallfg]
    exact OrderedSlots.ext (hparf.within'.ordered (hself.within.ordered hordered))
      (hparg.within'.ordered (hparf.within.ordered hordered)) hlookup

/-- Calls of functions that do not conflict have the same results in either order, and leave the
same state, whatever their arguments, if the keys of each namespace are of one sort. -/
theorem commute_of_not_conflicts (hm : m.Analysed types opt) (huniform : m.UniformKeys types)
    {f g : FuncId} (hfree : ((m.analyzeDomains types opt).accessSet f).conflicts
      ((m.analyzeDomains types opt).accessSet g) = false) (args args' : List UInt64)
      (limits : EvalLimits) {h : Ledger} (hunlimited : h.allowed = none) :
    Commute (fun h => m.evalFunction types f args h (analysisUnit m opt) limits)
      (fun h => m.evalFunction types g args' h (analysisUnit m opt) limits) h := by
  refine commute_of_footprints hunlimited ?_ ?_
  · rintro slot ⟨steps, a, x, ha, rfl, hwrite⟩ ⟨steps', a', x', ha', hslot⟩
    exact hm.slotOf_ne huniform hfree ha ha' (by rw [hwrite, Bool.true_or]) hslot.symm
  · rintro slot ⟨steps', a', x', ha', rfl, hwrite⟩ ⟨steps, a, x, ha, hslot⟩
    exact hm.slotOf_ne huniform hfree ha ha' (by rw [hwrite, Bool.or_true]) hslot

end Hashed

/-! ### A contract whose functions write to different keys of one namespace -/

/-- The contract as a document. -/
def pairText : String :=
  "\x7b\"unit\":\"t\",\"fns\":[" ++
  "\x7b\"name\":\"f\",\"params\":[],\"body\":[\x7b\"put\":\"a\",\"key\":1,\"value\":5\x7d]\x7d," ++
  "\x7b\"name\":\"g\",\"params\":[],\"body\":[\x7b\"put\":\"a\",\"key\":2,\"value\":6\x7d]\x7d]\x7d"

/-- What the document says. -/
def pairJson : Json := .object
  [("fns", .array [
      .object [("body", .array [.object [("key", .number (.whole 1)), ("put", .string "a"),
        ("value", .number (.whole 5))]]), ("name", .string "f"), ("params", .array [])],
      .object [("body", .array [.object [("key", .number (.whole 2)), ("put", .string "a"),
        ("value", .number (.whole 6))]]), ("name", .string "g"), ("params", .array [])]]),
    ("unit", .string "t")]

/-- The program that is read. -/
def pairHir : Hir.Module where
  unit := "t"
  functions := #[
    { name := "f", ret := Builtin.unit.id, body := [.expr {} (.statePut ⟨2, {}, Builtin.unit.id⟩ "a"
        (.int ⟨0, {}, Builtin.u64.id⟩ 1) (.int ⟨1, {}, Builtin.i64.id⟩ 5))] },
    { name := "g", ret := Builtin.unit.id, body := [.expr {} (.statePut ⟨5, {}, Builtin.unit.id⟩ "a"
        (.int ⟨3, {}, Builtin.u64.id⟩ 2) (.int ⟨4, {}, Builtin.i64.id⟩ 6))] }]
  stmtCount := 2
  exprCount := 6

/-- The module that is built. -/
def pairModule : Module where
  unit := "t"
  functions := #[{ name := "f", ret := 1, blocks := [0], entry := some 0 },
    { name := "g", ret := 1, blocks := [1], entry := some 1 }]
  blocks := #[{ insts := [0, 1, 2], term := some (.ret none) },
    { insts := [3, 4, 5], term := some (.ret none) }]
  insts := #[{ data := .constInt 1, result := some 0 }, { data := .constInt 5, result := some 1 },
    { data := .stateWrite "a" 0 1, effect := .writesMemory },
    { data := .constInt 2, result := some 2 }, { data := .constInt 6, result := some 3 },
    { data := .stateWrite "a" 2 3, effect := .writesMemory }]
  values := #[{ type := Builtin.u64.id, site := .inst 0 },
    { type := Builtin.i64.id, site := .inst 1 }, { type := Builtin.u64.id, site := .inst 3 },
    { type := Builtin.i64.id, site := .inst 4 }]

set_option maxRecDepth 100000 in
theorem parse_pairText : @Json.Library.parse? .standard pairText = some pairJson := by
  apply Json.parse?_eq_of_value?
  · unfold pairText
    iterate 2 apply Json.toList_append_eq
    all_goals exact Json.toList_eq_of_ofList rfl
  · unfold pairJson
    dsimp only [List.cons_append, List.nil_append]
    with_unfolding_all rfl

theorem read_pairText :
    ∃ doc, @Hir.readDocument .standard pairText "t" {} {} = doc ∧ doc.module = pairHir ∧
    doc.types = {} ∧ doc.ok = true := by
  refine ⟨_, rfl, ?_⟩
  unfold Hir.readDocument
  rw [parse_pairText]
  decide +kernel

theorem build_pairHir : (buildModule pairHir {} fun _ => false).module = pairModule ∧
    (buildModule pairHir {} fun _ => false).types = {} := by
  have hsignatures : signatures {} (pairHir.functions.toList.zipIdx.map fun p => (p.1, false)) =
      ([{ name := "f", ret := 1 }, { name := "g", ret := 1 }], {}) := rfl
  rw [buildModule_of_signatures hsignatures]
  unfold pairHir
  -- the code of statements does not compute by itself, so it is unrolled first
  simp -zeta only [List.zip_cons_cons, buildBodies, Bool.false_eq_true, if_false, lowerFunction,
    lowerBlock, lowerStmts, lowerStmt]
  decide +kernel

theorem fromDocument_pair : FromDocument pairModule {} := by
  obtain ⟨doc, hdoc, hmodule, htypes, hok⟩ := read_pairText
  have hbuilt := @FromDocument.built .standard _ _ _ (fun _ => false) doc hdoc hok
  rw [hmodule, htypes, build_pairHir.1, build_pairHir.2] at hbuilt
  exact hbuilt

/-- The contract is analysed without faults, with SHA-256. -/
theorem analysed_pair : @Module.Analysed Hashing.sha256 pairModule {} {} := by
  refine @Module.Analysed.mk Hashing.sha256 _ _ _ fromDocument_pair (by decide) ?_ ?_ ?_ ?_ ?_
  · exact List.isEmpty_iff.mp (by decide +kernel)
  · decide +kernel
  · decide +kernel
  · decide +kernel
  · unfold Hashing.InjectiveOn
    decide +kernel

/-- With SHA-256, `f` and `g` may be called in either order. -/
theorem commute_of_not_conflicts_pair :
    Commute (fun h => @Module.evalFunction Hashing.sha256 pairModule {} 0 [] h "t" {})
      (fun h => @Module.evalFunction Hashing.sha256 pairModule {} 1 [] h "t" {}) {} :=
  @commute_of_not_conflicts Hashing.sha256 pairModule {} {} analysed_pair (by decide) 0 1
    (by decide +kernel) [] [] {} {} rfl

end ContractCompiler
