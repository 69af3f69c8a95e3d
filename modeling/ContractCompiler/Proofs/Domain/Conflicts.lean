import ContractCompiler.Proofs.Domain.Coverage

/-!
# When accesses conflict

Schedulers compare accesses by hashes alone. Where no two of the hashed texts have the same hash,
that decides the rule in terms of namespaces and keys: accesses meet if they are in one namespace
and have the same key or a wildcard on either side.

- `renderBytesKey_injective`: the text of a byte string key determines the bytes;
- `IsKeyText`: the texts that keys have; none stands for all keys;
- `DomainKey.Meets`: two keys meet;
- `DomainKey.overlaps_iff_meets`: what their hashes say about it is right;
- `conflicts_iff_meets`: two sets of accesses conflict exactly if accesses of theirs meet, one of
  them a write;
- `conflicts_accessSet`: the same of the functions of a module.
-/

namespace ContractCompiler

/-! ## Hexadecimal texts -/

theorem Bytes.hexDigit_injective : ∀ a < 16, ∀ b < 16, hexDigit a = hexDigit b → a = b := by
  decide

theorem Bytes.hexDigit_plain : ∀ a < 16, hexDigit a ≠ ':' ∧ hexDigit a ≠ '*' := by
  decide

theorem Bytes.hexDigits_lt (b : UInt8) : b.toNat / 16 < 16 ∧ b.toNat % 16 < 16 := by
  have := b.toNat_lt
  omega

/-- Hexadecimal texts determine the bytes. -/
theorem Bytes.hex_injective : Function.Injective Bytes.hex := by
  intro bs bs' h
  have hchars := String.ofList_injective h
  clear h
  induction bs generalizing bs' with
  | nil =>
    cases bs' with
    | nil => rfl
    | cons b' bs' => cases hchars
  | cons b bs ih =>
    cases bs' with
    | nil => cases hchars
    | cons b' bs' =>
      simp only [List.flatMap_cons, List.cons_append, List.nil_append, List.cons.injEq] at hchars
      obtain ⟨hhigh, hlow, hrest⟩ := hchars
      obtain ⟨hlt, hlt'⟩ := hexDigits_lt b
      obtain ⟨glt, glt'⟩ := hexDigits_lt b'
      have hdiv : b.toNat / 16 = b'.toNat / 16 := hexDigit_injective _ hlt _ glt hhigh
      have hmod : b.toNat % 16 = b'.toNat % 16 := hexDigit_injective _ hlt' _ glt' hlow
      have hbyte : b = b' := UInt8.toNat_inj.mp (by omega)
      rw [hbyte, ih hrest]

theorem Bytes.hex_plain (bs : Bytes) : ∀ c ∈ (hex bs).toList, c ≠ ':' ∧ c ≠ '*' := by
  intro c hc
  rw [hex, String.toList_ofList] at hc
  obtain ⟨b, -, hc⟩ := List.mem_flatMap.mp hc
  obtain ⟨hlt, hlt'⟩ := hexDigits_lt b
  rcases List.mem_cons.mp hc with rfl | hc
  · exact hexDigit_plain _ hlt
  · obtain rfl := List.mem_singleton.mp hc
    exact hexDigit_plain _ hlt'

/-! ## Texts of byte string keys -/

theorem toNat_ofNat_byte (b : UInt8) : (Char.ofNat b.toNat).toNat = b.toNat := by
  have hvalid : b.toNat.isValidChar := .inl (Nat.lt_of_lt_of_le b.toNat_lt (by decide))
  rw [Char.ofNat, dif_pos hvalid]
  rfl

theorem ofNat_byte_injective : Function.Injective fun b : UInt8 => Char.ofNat b.toNat := by
  intro b b' h
  have hnat := congrArg Char.toNat h
  rw [toNat_ofNat_byte, toNat_ofNat_byte] at hnat
  exact UInt8.toNat_inj.mp hnat

/-- A text that is written as it is cannot be mistaken for a hexadecimal one. -/
theorem plainText_ne_hex {bs : Bytes} (h : ¬ (bs.take 2 == [48, 120]) = true) (bs' : Bytes) :
    String.ofList (bs.map fun b => Char.ofNat b.toNat) ≠ "0x" ++ Bytes.hex bs' := by
  intro heq
  have hchars := congrArg String.toList heq
  rw [String.toList_ofList, String.toList_append] at hchars
  -- the first two characters are those of `0x`, so the first two bytes are those that were ruled
  -- out
  have htake := congrArg (List.take 2) hchars
  rw [← List.map_take] at htake
  have hprefix : (bs.take 2).map (fun b => Char.ofNat b.toNat) =
      ([48, 120] : Bytes).map fun b => Char.ofNat b.toNat := htake
  exact h (beq_iff_eq.mpr (ofNat_byte_injective.list_map hprefix))

/-- The text of a byte string key determines the bytes. -/
theorem renderBytesKey_injective : Function.Injective renderBytesKey := by
  intro bs bs' h
  unfold renderBytesKey at h
  split at h <;> rename_i hplain <;> split at h <;> rename_i hplain'
  · exact ofNat_byte_injective.list_map (String.ofList_injective h)
  · simp only [Bool.and_eq_true, Bool.not_eq_true'] at hplain
    exact absurd h (plainText_ne_hex (by simp [hplain.1.2]) bs')
  · simp only [Bool.and_eq_true, Bool.not_eq_true'] at hplain'
    exact absurd h.symm (plainText_ne_hex (by simp [hplain'.1.2]) bs)
  · exact Bytes.hex_injective ((String.append_right_inj "0x").mp h)

/-- The text of a byte string key has neither the separator nor the wildcard in it. -/
theorem renderBytesKey_plain (bs : Bytes) :
    ∀ c ∈ (renderBytesKey bs).toList, c ≠ ':' ∧ c ≠ '*' := by
  intro c hc
  unfold renderBytesKey at hc
  split at hc
  · rename_i hplain
    rw [String.toList_ofList] at hc
    obtain ⟨b, hb, rfl⟩ := List.mem_map.mp hc
    have hbyte := List.all_eq_true.mp (Bool.and_eq_true_iff.mp hplain).2 b hb
    refine ⟨fun heq => ?_, ofNat_toNat_ne hbyte⟩
    obtain rfl : b = 58 := ofNat_byte_injective heq
    cases hbyte
  · rw [String.toList_append, List.mem_append] at hc
    rcases hc with hc | hc
    · rw [show "0x".toList = ['0', 'x'] from rfl] at hc
      rcases List.mem_pair.mp hc with rfl | rfl <;> decide
    · exact Bytes.hex_plain bs c hc

theorem renderBytesKey_ne_empty (bs : Bytes) : renderBytesKey bs ≠ "" := by
  intro h
  unfold renderBytesKey at h
  split at h
  · rename_i hplain
    have hchars := congrArg String.toList h
    rw [String.toList_ofList] at hchars
    obtain rfl := List.map_eq_nil_iff.mp hchars
    cases hplain
  · have hchars := congrArg String.toList h
    rw [String.toList_append] at hchars
    cases hchars

/-! ## Keys that meet -/

/-- The text of a key: that of an integer, that of a byte string, or what an annotation names. -/
inductive IsKeyText : String → Prop where
  | int (w : UInt64) (signed : Bool) : IsKeyText (renderIntKey w signed)
  | bytes (bs : Bytes) : IsKeyText (renderBytesKey bs)
  | declared {text : String} {k : DeclaredKey} (h : Annotation.declaredKey text = .ok k)
      (hexact : k.wildcard = false) : IsKeyText k.key

/-- The text of a key does not stand for all keys. -/
theorem IsKeyText.ne_wildcard {text : String} (h : IsKeyText text) : text ≠ "*" := by
  cases h with
  | int w signed => exact Ssa.KeyConst.text_ne (.word w) signed
  | bytes bs => exact renderBytesKey_ne bs
  | declared h hexact => exact key_ne_of_declaredKey h hexact

/-- Two keys of a unit meet: they are in one namespace, and are the same or one of them is all
keys. -/
def DomainKey.Meets (k k' : DomainKey) : Prop :=
  k.ns = k'.ns ∧ (k.wildcard = true ∨ k'.wildcard = true ∨ k.key = k'.key)

/-- What stands for a key after the separator of its canonical text. -/
def DomainKey.text (k : DomainKey) : String := if k.wildcard then "*" else k.key

section Hashed

variable [Hashing] {unit : String}

/-- A key of a namespace, or all of its keys; the namespace is without the separator. -/
inductive DomainKey.Keyed (unit : String) : DomainKey → Prop where
  | exact {ns text : String} (hns : ':' ∉ ns.toList) (htext : IsKeyText text) :
      Keyed unit (.exact unit ns text)
  | all {ns : String} (hns : ':' ∉ ns.toList) : Keyed unit (.all unit ns)

/-- A key whose canonical text can be taken apart, with the hashes of that text and of its
namespace. -/
structure DomainKey.Delimited (unit : String) (k : DomainKey) : Prop where
  ns_plain : ':' ∉ k.ns.toList
  text_ne : k.wildcard = false → k.text ≠ "*"
  canonical_eq : k.canonical = canonicalKey unit k.ns k.text
  hash_eq : k.hash = Hashing.digestText k.canonical
  scope_eq : k.scope = Hashing.digestText (canonicalWildcard unit k.ns)

namespace DomainKey

theorem Keyed.delimited {k : DomainKey} (h : k.Keyed unit) : k.Delimited unit := by
  cases h with
  | exact hns htext => exact ⟨hns, fun _ => htext.ne_wildcard, rfl, rfl, rfl⟩
  | all hns => exact ⟨hns, (fun h => by cases h), rfl, rfl, rfl⟩

theorem Made.delimited {k : DomainKey} (h : k.Made unit) : k.Delimited unit := by
  cases h with
  | exact hns hkey => exact ⟨hns.not_mem_separator, fun _ => hkey, rfl, rfl, rfl⟩
  | all hns => exact ⟨hns.not_mem_separator, (fun h => by cases h), rfl, rfl, rfl⟩

/-- Canonical texts are the same for the same namespace and key only. -/
theorem Delimited.canonical_inj {k k' : DomainKey} (h : k.Delimited unit) (h' : k'.Delimited unit) :
    k.canonical = k'.canonical ↔ k.ns = k'.ns ∧ k.text = k'.text := by
  rw [h.canonical_eq, h'.canonical_eq]
  constructor
  · exact canonicalKey_split h.ns_plain h'.ns_plain
  · rintro ⟨hns, htext⟩
    rw [hns, htext]

/-- The canonical text of a key is that of all keys of a namespace only if it is all keys of it. -/
theorem Delimited.canonical_eq_wildcard {k k' : DomainKey} (h : k.Delimited unit)
    (h' : k'.Delimited unit) :
    k.canonical = canonicalWildcard unit k'.ns ↔ k.ns = k'.ns ∧ k.wildcard = true := by
  rw [h.canonical_eq, canonicalWildcard]
  constructor
  · intro heq
    obtain ⟨hns, htext⟩ := canonicalKey_split h.ns_plain h'.ns_plain heq
    refine ⟨hns, ?_⟩
    by_contra hexact
    exact h.text_ne (Bool.eq_false_iff.mpr hexact) htext
  · rintro ⟨hns, hwild⟩
    rw [hns, text, if_pos hwild]

/-- The texts that are hashed to compare keys. -/
def hashedTexts (unit : String) (ks : List DomainKey) : List String :=
  ks.flatMap fun k => [k.canonical, canonicalWildcard unit k.ns]

omit [Hashing] in
theorem mem_hashedTexts (unit : String) {ks : List DomainKey} {k : DomainKey} (hk : k ∈ ks) :
    k.canonical ∈ hashedTexts unit ks ∧ canonicalWildcard unit k.ns ∈ hashedTexts unit ks :=
  ⟨List.mem_flatMap.mpr ⟨k, hk, by simp⟩, List.mem_flatMap.mpr ⟨k, hk, by simp⟩⟩

/-- Hashes say of two keys what their namespaces and texts say. -/
theorem overlaps_iff_meets {ks : List DomainKey} (hks : ∀ k ∈ ks, k.Delimited unit)
    (hinj : Hashing.InjectiveOn (hashedTexts unit ks)) {k k' : DomainKey} (hk : k ∈ ks)
    (hk' : k' ∈ ks) :
    k.entry.overlaps k'.entry = true ↔ k.Meets k' := by
  have h := hks k hk
  have h' := hks k' hk'
  obtain ⟨hmem, hmemScope⟩ := mem_hashedTexts unit hk
  obtain ⟨hmem', hmemScope'⟩ := mem_hashedTexts unit hk'
  -- each comparison of hashes is one of texts
  have hsame : k.hash = k'.hash ↔ k.ns = k'.ns ∧ k.text = k'.text := by
    rw [← h.canonical_inj h', h.hash_eq, h'.hash_eq]
    exact ⟨hinj _ hmem _ hmem', congrArg _⟩
  have hscope' : k'.scope = k.hash ↔ k.ns = k'.ns ∧ k.wildcard = true := by
    rw [← h.canonical_eq_wildcard h', h'.scope_eq, h.hash_eq, eq_comm]
    exact ⟨hinj _ hmem _ hmemScope', congrArg _⟩
  have hscope : k.scope = k'.hash ↔ k'.ns = k.ns ∧ k'.wildcard = true := by
    rw [← h'.canonical_eq_wildcard h, h.scope_eq, h'.hash_eq, eq_comm]
    exact ⟨hinj _ hmem' _ hmemScope, congrArg _⟩
  show (k.hash == k'.hash || (k.wildcard && k'.scope == k.hash) ||
    (k'.wildcard && k.scope == k'.hash)) = true ↔ _
  simp only [Bool.or_eq_true, Bool.and_eq_true, beq_iff_eq, hsame, hscope, hscope']
  constructor
  · rintro ((⟨hns, htext⟩ | ⟨hwild, hns, -⟩) | ⟨hwild, hns, -⟩)
    · refine ⟨hns, ?_⟩
      by_cases hwild : k.wildcard = true
      · exact .inl hwild
      · by_cases hwild' : k'.wildcard = true
        · exact .inr (.inl hwild')
        · rw [text, text, if_neg hwild, if_neg hwild'] at htext
          exact .inr (.inr htext)
    · exact ⟨hns, .inl hwild⟩
    · exact ⟨hns.symm, .inr (.inl hwild)⟩
  · rintro ⟨hns, hkeys⟩
    by_cases hwild : k.wildcard = true
    · exact .inl (.inr ⟨hwild, hns, hwild⟩)
    · by_cases hwild' : k'.wildcard = true
      · exact .inr ⟨hwild', hns.symm, hwild'⟩
      · refine .inl (.inl ⟨hns, ?_⟩)
        rw [text, text, if_neg hwild, if_neg hwild']
        exact (hkeys.resolve_left hwild).resolve_left hwild'

/-- A key by its text is never taken for all keys of a namespace. -/
theorem Delimited.wildcard_eq {k k' : DomainKey} (h : k.Delimited unit) (h' : k'.Delimited unit)
    (heq : k.canonical = k'.canonical) : k.wildcard = k'.wildcard := by
  obtain ⟨hns, htext⟩ := (h.canonical_inj h').mp heq
  rw [Bool.eq_iff_iff]
  constructor
  · intro hwild
    have hk := (h.canonical_eq_wildcard h').mpr ⟨hns, hwild⟩
    exact ((h'.canonical_eq_wildcard h').mp (heq ▸ hk)).2
  · intro hwild
    have hk' := (h'.canonical_eq_wildcard h').mpr ⟨rfl, hwild⟩
    exact ((h.canonical_eq_wildcard h').mp (heq ▸ hk')).2

end DomainKey

end Hashed

/-! ## Sets of accesses -/

/-- The keys that a function reads and writes. -/
structure KeyAccesses where
  reads : List DomainKey := []
  writes : List DomainKey := []

namespace KeyAccesses

/-- The keys that are written, or read. -/
def of (s : KeyAccesses) (write : Bool) : List DomainKey := if write then s.writes else s.reads

/-- All keys. -/
def keys (s : KeyAccesses) : List DomainKey := s.reads ++ s.writes

/-- The keys as schedulers compare them. -/
def toAccessSet (s : KeyAccesses) : AccessSet where
  reads := s.reads.map (·.entry)
  writes := s.writes.map (·.entry)

theorem mem_keys_of_mem {s : KeyAccesses} {write : Bool} {k : DomainKey} (h : k ∈ s.of write) :
    k ∈ s.keys := by
  cases write with
  | false => exact List.mem_append_left _ h
  | true => exact List.mem_append_right _ h

/-- Two sets of accesses meet: keys of theirs do, at least one of which is written. -/
def Meet (a b : KeyAccesses) : Prop :=
  ∃ write write', (write || write') = true ∧ ∃ k ∈ a.of write, ∃ k' ∈ b.of write', k.Meets k'

end KeyAccesses

theorem anyOverlap_iff {xs ys : List DomainEntry} :
    anyOverlap xs ys = true ↔ ∃ x ∈ xs, ∃ y ∈ ys, x.overlaps y = true := by
  simp only [anyOverlap, List.any_eq_true]

theorem DomainEntry.overlaps_comm (a b : DomainEntry) : a.overlaps b = b.overlaps a := by
  unfold overlaps
  rw [Bool.beq_comm (a := a.hash), Bool.or_right_comm]

theorem anyOverlap_comm (xs ys : List DomainEntry) : anyOverlap xs ys = anyOverlap ys xs := by
  rw [Bool.eq_iff_iff, anyOverlap_iff, anyOverlap_iff]
  constructor
  · rintro ⟨x, hx, y, hy, h⟩
    exact ⟨y, hy, x, hx, y.overlaps_comm x ▸ h⟩
  · rintro ⟨y, hy, x, hx, h⟩
    exact ⟨x, hx, y, hy, x.overlaps_comm y ▸ h⟩

/-- Whether sets conflict does not depend on their order. -/
theorem AccessSet.conflicts_comm (a b : AccessSet) : a.conflicts b = b.conflicts a := by
  unfold conflicts
  rw [anyOverlap_comm a.writes b.writes, anyOverlap_comm a.writes b.reads,
    anyOverlap_comm a.reads b.writes, Bool.or_right_comm]

section Hashed

variable [Hashing] {unit : String}

/-- The comparison of hashes finds the accesses that meet. -/
theorem conflicts_of_delimited {ks : List DomainKey} (hks : ∀ k ∈ ks, k.Delimited unit)
    (hinj : Hashing.InjectiveOn (DomainKey.hashedTexts unit ks)) {a b : KeyAccesses}
    (ha : ∀ write, ∀ k ∈ a.of write, k ∈ ks) (hb : ∀ write, ∀ k ∈ b.of write, k ∈ ks) :
    a.toAccessSet.conflicts b.toAccessSet = true ↔ a.Meet b := by
  have hany : ∀ write write', anyOverlap ((a.of write).map (·.entry))
      ((b.of write').map (·.entry)) = true ↔
      ∃ k ∈ a.of write, ∃ k' ∈ b.of write', k.Meets k' := by
    intro write write'
    simp only [anyOverlap_iff, List.mem_map, exists_exists_and_eq_and]
    refine exists_congr fun k => and_congr_right fun hk => exists_congr fun k' =>
      and_congr_right fun hk' => ?_
    exact DomainKey.overlaps_iff_meets hks hinj (ha write k hk) (hb write' k' hk')
  show (anyOverlap ((a.of true).map (·.entry)) ((b.of true).map (·.entry))
    || anyOverlap ((a.of true).map (·.entry)) ((b.of false).map (·.entry))
    || anyOverlap ((a.of false).map (·.entry)) ((b.of true).map (·.entry))) = true ↔ _
  rw [Bool.or_eq_true, Bool.or_eq_true, hany, hany, hany, KeyAccesses.Meet]
  simp [or_comm, or_left_comm]

/-- Sets of accesses conflict exactly if accesses of theirs meet and are not both reads, in either
order. The texts of byte string keys are told apart, and no key by its text is taken for all
keys. -/
theorem conflicts_iff_meets {a b : KeyAccesses} (hks : ∀ k ∈ a.keys ++ b.keys, k.Keyed unit)
    (hinj : Hashing.InjectiveOn (DomainKey.hashedTexts unit (a.keys ++ b.keys))) :
    (a.toAccessSet.conflicts b.toAccessSet = true ↔ a.Meet b) ∧
      a.toAccessSet.conflicts b.toAccessSet = b.toAccessSet.conflicts a.toAccessSet ∧
      Function.Injective renderBytesKey ∧
      (∀ bs, renderBytesKey bs ≠ "" ∧ ∀ c ∈ (renderBytesKey bs).toList, c ≠ ':' ∧ c ≠ '*') ∧
      ∀ k k' : DomainKey, k.Keyed unit → k'.Keyed unit → k.canonical = k'.canonical →
        k.wildcard = k'.wildcard := by
  refine ⟨?_, AccessSet.conflicts_comm _ _, renderBytesKey_injective,
    fun bs => ⟨renderBytesKey_ne_empty bs, renderBytesKey_plain bs⟩,
    fun _ _ h h' => h.delimited.wildcard_eq h'.delimited⟩
  exact conflicts_of_delimited (fun k hk => (hks k hk).delimited) hinj
    (fun _ _ hk => List.mem_append_left _ (KeyAccesses.mem_keys_of_mem hk))
    (fun _ _ hk => List.mem_append_right _ (KeyAccesses.mem_keys_of_mem hk))

omit [Hashing] in
/-- With SHA-256, a write to the key 1 of the namespace `a` conflicts with a read of the whole
namespace. -/
theorem conflicts_reader_of_all :
    ({ writes := [@DomainKey.exact Hashing.sha256 "t" "a" (renderIntKey 1 false)] } :
        KeyAccesses).toAccessSet.conflicts
      ({ reads := [@DomainKey.all Hashing.sha256 "t" "a"] } : KeyAccesses).toAccessSet = true := by
  refine (@conflicts_iff_meets Hashing.sha256 "t" _ _ ?_ ?_).1.mpr
    ⟨true, false, rfl, _, List.mem_singleton.mpr rfl, _, List.mem_singleton.mpr rfl, rfl,
      .inr (.inl rfl)⟩
  · intro k hk
    rcases List.mem_cons.mp hk with rfl | hk
    · exact @DomainKey.Keyed.exact Hashing.sha256 "t" "a" _ (by decide) (.int 1 false)
    · obtain rfl := List.mem_singleton.mp hk
      exact @DomainKey.Keyed.all Hashing.sha256 "t" "a" (by decide)
  · unfold Hashing.InjectiveOn
    decide +kernel

/-! ## Functions of a module -/

/-- The keys that a function shows to schedulers. -/
def DomainAnalysis.keyAccesses (r : DomainAnalysis) (f : Ssa.FuncId) : KeyAccesses where
  reads := (r.functions.getD f {}).reads.filterMap r.keys.get?
  writes := (r.functions.getD f {}).writes.filterMap r.keys.get?

omit [Hashing] in
theorem DomainAnalysis.toAccessSet_keyAccesses (r : DomainAnalysis) (f : Ssa.FuncId) :
    (r.keyAccesses f).toAccessSet = r.accessSet f := by
  simp only [KeyAccesses.toAccessSet, keyAccesses, accessSet, entries, List.map_filterMap]

omit [Hashing] in
theorem DomainAnalysis.mem_of_mem_keyAccesses {r : DomainAnalysis} {f : Ssa.FuncId} {write : Bool}
    {k : DomainKey} (h : k ∈ (r.keyAccesses f).of write) : k ∈ r.keys.keys.toList := by
  have hget : ∃ id, r.keys.get? id = some k := by
    cases write with
    | false =>
      obtain ⟨id, -, hid⟩ := List.mem_filterMap.mp (show k ∈ (r.keyAccesses f).reads from h)
      exact ⟨id, hid⟩
    | true =>
      obtain ⟨id, -, hid⟩ := List.mem_filterMap.mp (show k ∈ (r.keyAccesses f).writes from h)
      exact ⟨id, hid⟩
  obtain ⟨id, hid⟩ := hget
  exact Array.mem_toList_iff.mpr (Array.mem_of_getElem? hid)

/-- Two functions of a module are found to conflict exactly if they show keys that meet and that one
of them writes. -/
theorem conflicts_accessSet {m : Ssa.Module} {types : TypePool} {opt : DomainOptions}
    (hm : FromDocument m types) (hfits : m.values.size ≤ Ssa.invalidId)
    (hinj : Hashing.InjectiveOn ((m.analyzeDomains types opt).hashedTexts (analysisUnit m opt)))
    (f g : Ssa.FuncId) :
    ((m.analyzeDomains types opt).accessSet f).conflicts
      ((m.analyzeDomains types opt).accessSet g) = true ↔
      ((m.analyzeDomains types opt).keyAccesses f).Meet
        ((m.analyzeDomains types opt).keyAccesses g) := by
  have hspec : AnalysisSpec m types opt (m.analyzeDomains types opt) :=
    analysisSpec fun _ _ _ hinst _ ha => (hm.typed hfits).isNamespace hinst ha
  rw [← DomainAnalysis.toAccessSet_keyAccesses, ← DomainAnalysis.toAccessSet_keyAccesses]
  refine conflicts_of_delimited (fun k hk => ?_) hinj
    (fun _ _ => DomainAnalysis.mem_of_mem_keyAccesses)
    fun _ _ => DomainAnalysis.mem_of_mem_keyAccesses
  obtain ⟨id, hid⟩ := Array.mem_iff_getElem?.mp (Array.mem_toList_iff.mp hk)
  exact (hspec.made id k hid).delimited

end Hashed

end ContractCompiler
