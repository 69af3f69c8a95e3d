import ContractCompiler.Proofs.Leb128
import ContractCompiler.Vm.Container
import Mathlib.Tactic.IntervalCases

/-!
# The module container is read back

Two judgements relate a reader to the bytes it is meant for.

- `Reader.Reads`: whatever follows them, the reader takes exactly these bytes and returns a given
  value;
- `Reader.Takes`: where the input agrees with these bytes as far as both go, the reader succeeds
  only if it finds all of them. It says nothing about numbers that do not fit: there the reader
  fails.

Both have a rule for `bind`, and a lemma for each part of the format. The results:

- `deserialize_serialize`: a module is read back from its container, save for the names that
  functions are exported under, which stand in the export section only;
- `exists_cut_of_deserialize`, `deserialize_cut`: a container that was cut off is refused unless the
  cut is between two sections. One cut there reads as a module without the sections after the cut:
  the reader asks for no section.
-/

namespace ContractCompiler.Vm

namespace Reader

variable {α β : Type} {r : Reader α} {k : α → Reader β} {e e₁ e₂ : Bytes} {x : α} {y : β}
  {P : α → Prop} {Q : β → Prop}

/-! ## The two judgements -/

/-- The reader takes exactly the bytes given and returns the value given. -/
def Reads (r : Reader α) (e : Bytes) (x : α) : Prop := ∀ rest, r (e ++ rest) = .ok (x, rest)

/-- An input that agrees with the bytes given is read only to their end, and what is returned has a
property. -/
def Takes (r : Reader α) (e : Bytes) (P : α → Prop) : Prop :=
  ∀ ⦃bs t u rest : Bytes⦄ ⦃x : α⦄, bs ++ t = e ++ u → r bs = .ok (x, rest) → bs = e ++ rest ∧ P x

theorem bind_ok {bs rest : Bytes} (h : (r >>= k) bs = .ok (y, rest)) :
    ∃ x mid, r bs = .ok (x, mid) ∧ k x mid = .ok (y, rest) := by
  change Except.bind (r bs) (fun p => k p.1 p.2) = _ at h
  cases hr : r bs with
  | error fault =>
    rw [hr] at h
    cases h
  | ok p =>
    rw [hr] at h
    exact ⟨p.1, p.2, rfl, h⟩

theorem reads_pure (x : α) : Reads (pure x) [] x := fun _ => rfl

theorem Reads.bind (hr : Reads r e₁ x) (hk : Reads (k x) e₂ y) : Reads (r >>= k) (e₁ ++ e₂) y := by
  intro rest
  show Except.bind (r (e₁ ++ e₂ ++ rest)) (fun p => k p.1 p.2) = _
  rw [List.append_assoc, hr]
  exact hk rest

theorem Reads.map (f : α → β) (hr : Reads r e x) : Reads (r >>= fun x => pure (f x)) e (f x) := by
  have := hr.bind (reads_pure (f x)) (k := fun x => pure (f x))
  rwa [List.append_nil] at this

theorem takes_pure (h : P x) : Takes (pure x) [] P := by
  intro bs t u rest y _ hread
  obtain ⟨rfl, rfl⟩ := Prod.mk.inj (Except.ok.inj hread)
  exact ⟨rfl, h⟩

theorem takes_throw (fault : ContainerFault) : Takes (throw fault : Reader α) e P := by
  intro bs t u rest x _ hread
  cases hread

theorem Takes.bind (hr : Takes r e₁ P) (hk : ∀ x, P x → Takes (k x) e₂ Q) :
    Takes (r >>= k) (e₁ ++ e₂) Q := by
  intro bs t u rest y hagree hread
  obtain ⟨x, mid, hfirst, hthen⟩ := bind_ok hread
  rw [List.append_assoc] at hagree
  obtain ⟨rfl, hx⟩ := hr hagree hfirst
  rw [List.append_assoc] at hagree
  obtain ⟨rfl, hy⟩ := hk x hx (List.append_cancel_left hagree) hthen
  exact ⟨(List.append_assoc _ _ _).symm, hy⟩

/-- What comes after may look at the value, as long as it takes nothing. -/
theorem Takes.then (hr : Takes r e P) (hk : ∀ x, P x → Takes (k x) [] Q) : Takes (r >>= k) e Q := by
  have := hr.bind hk
  rwa [List.append_nil] at this

theorem Takes.map (f : α → β) (hr : Takes r e P) :
    Takes (r >>= fun x => pure (f x)) e fun _ => True :=
  hr.then fun _ _ => takes_pure trivial

/-! ## Numbers, texts and truth values -/

theorem reads_byte (b : UInt8) : Reads byte [b] b := fun _ => rfl

theorem takes_byte (b : UInt8) : Takes byte [b] (· = b) := by
  intro bs t u rest x hagree hread
  cases bs with
  | nil => cases hread
  | cons b' bs =>
    obtain ⟨rfl, -⟩ := List.cons.inj hagree
    obtain ⟨rfl, rfl⟩ := Prod.mk.inj (Except.ok.inj hread)
    exact ⟨rfl, rfl⟩

theorem encode_ne_nil (n : Nat) : Leb128.encode n ≠ [] := by
  rw [Leb128.encode]
  split <;> exact List.cons_ne_nil _ _

theorem reads_number {n : Nat} (h : n < 2 ^ 64) : Reads number (Leb128.encode n) n := by
  intro rest
  have hne : (Leb128.encode n ++ rest).isEmpty = false := by simp [encode_ne_nil]
  simp [number, hne, Leb128.decode_encode h]

theorem takes_number (n : Nat) : Takes number (Leb128.encode n) (· = n) := by
  intro bs t u rest x hagree hread
  unfold number at hread
  split at hread
  · cases hread
  · split at hread
    · rename_i decoded hdecode
      rw [Except.ok.inj hread] at hdecode
      exact (Leb128.eq_of_decode hagree hdecode).symm
    · cases hread

theorem reads_number32 {n : Nat} (h : n < 2 ^ 32) : Reads number32 (Leb128.encode n) n := by
  have hthen : Reads (if Nat.pow 2 32 ≤ n then throw ContainerFault.outOfRange else pure n)
      [] n := by
    rw [if_neg (by simpa using h)]
    exact reads_pure n
  have := (reads_number (n := n) (by omega)).bind hthen
    (k := fun n => if Nat.pow 2 32 ≤ n then throw ContainerFault.outOfRange else pure n)
  rwa [List.append_nil] at this

theorem takes_number32 (n : Nat) : Takes number32 (Leb128.encode n) (· = n) := by
  refine (takes_number n).then fun x hx => ?_
  split
  · exact takes_throw _
  · exact takes_pure hx

theorem reads_take (s : Bytes) (fault : ContainerFault) : Reads (take s.length fault) s s := by
  intro rest
  simp [take]

theorem takes_take (s : Bytes) (fault : ContainerFault) :
    Takes (take s.length fault) s (· = s) := by
  intro bs t u rest x hagree hread
  unfold take at hread
  extract_lets taken at hread
  split at hread
  · cases hread
  · rename_i hlong
    obtain ⟨rfl, rfl⟩ := Prod.mk.inj (Except.ok.inj hread)
    have hlen : s.length ≤ bs.length := by
      have : taken.length ≤ bs.length := List.length_take_le' _ _
      omega
    have htaken : bs.take s.length = s := by
      have := congrArg (List.take s.length) hagree
      rwa [List.take_append_of_le_length hlen, List.take_left] at this
    refine ⟨?_, htaken⟩
    calc bs = bs.take s.length ++ bs.drop s.length := (List.take_append_drop _ _).symm
      _ = s ++ bs.drop s.length := by rw [htaken]

theorem reads_text {s : Bytes} (h : s.length < 2 ^ 64) : Reads text (encodeText s) s :=
  (reads_number h).bind (reads_take s .textPastEnd)

theorem reads_flag (b : Bool) : Reads flag (encodeFlag b) b := by
  intro rest
  cases b <;> rfl

/-! ## Lists -/

theorem reads_times {entry : Reader α} {enc : β → Bytes} {dec : β → α} (xs : List β)
    (h : ∀ x ∈ xs, Reads entry (enc x) (dec x)) (acc : Array α) :
    Reads (times entry xs.length acc) (xs.flatMap enc) (acc ++ (xs.map dec).toArray) := by
  induction xs generalizing acc with
  | nil =>
    rw [List.map_nil, Array.append_empty]
    exact reads_pure acc
  | cons x xs ih =>
    have hrest := ih (fun y hy => h y (List.mem_cons_of_mem _ hy)) (acc.push (dec x))
    have hpush : acc.push (dec x) ++ (xs.map dec).toArray =
      acc ++ ((x :: xs).map dec).toArray := by simp
    rw [List.flatMap_cons, ← hpush]
    exact (h x List.mem_cons_self).bind hrest

theorem reads_list {entry : Reader α} {enc : β → Bytes} {dec : β → α} {xs : Array β}
    (hsize : xs.size < 2 ^ 32) (h : ∀ x ∈ xs, Reads entry (enc x) (dec x)) :
    Reads (list entry) (encodeList enc xs) (xs.map dec) := by
  have htimes := reads_times xs.toList (fun x hx => h x (Array.mem_toList_iff.mp hx)) #[]
  rw [Array.length_toList, Array.empty_append, ← Array.toList_map] at htimes
  exact (reads_number32 hsize).bind htimes

/-- A list of entries that are read back is read back. -/
theorem reads_back {entry : Reader α} {enc : α → Bytes} {xs : Array α} (hsize : xs.size < 2 ^ 32)
    (h : ∀ x ∈ xs, Reads entry (enc x) x) : Reads (list entry) (encodeList enc xs) xs := by
  have hread : Reads (list entry) (encodeList enc xs) (xs.map id) := reads_list hsize h
  rwa [Array.map_id] at hread

/-! ## Instructions -/

theorem ofNumber?_number (op : Op) : Op.ofNumber? op.number = some op := by
  cases op <;> rfl

theorem toNat_number (op : Op) : (UInt8.ofNat op.number).toNat = op.number := by
  cases op <;> rfl

theorem reads_instr (function : Bytes) {i : Instr} (h : i.op.hasImm = false → i.imm = 0) :
    Reads (instr function) i.encode i := by
  show Reads (instr function) ([UInt8.ofNat i.op.number] ++ if i.op.hasImm then _ else []) i
  refine (reads_byte (UInt8.ofNat i.op.number)).bind ?_
  rw [toNat_number, ofNumber?_number]
  cases himm : i.op.hasImm with
  | false =>
    simp only [himm, Bool.false_eq_true, if_false]
    have hi : ({ op := i.op } : Instr) = i := by rw [← h himm]
    exact hi ▸ reads_pure _
  | true =>
    simp only [himm, if_true]
    have hread := (reads_number i.imm.toNat_lt).map
      fun imm => ({ op := i.op, imm := UInt64.ofNat imm } : Instr)
    rwa [UInt64.ofNat_toNat] at hread

/-! ## Entries -/

theorem length_le_encodeText (s : Bytes) : s.length ≤ (encodeText s).length := by
  simp [encodeText]

theorem length_le_encodeList {enc : α → Bytes} {xs : Array α} {x : α} (h : x ∈ xs) :
    (enc x).length ≤ (encodeList enc xs).length := by
  obtain ⟨before, after, hsplit⟩ := List.append_of_mem (Array.mem_toList_iff.mpr h)
  simp only [encodeList, hsplit, List.flatMap_append, List.flatMap_cons, List.length_append]
  omega

theorem reads_importEntry {i : Import} (hversion : i.version < 2 ^ 32) (hargs : i.numArgs < 2 ^ 32)
    (hlength : i.encode.length < 2 ^ 64) : Reads importEntry i.encode i := by
  have hmodule := length_le_encodeText i.module
  have hname := length_le_encodeText i.name
  simp only [Import.encode, List.length_append] at hlength
  simp only [Import.encode, List.append_assoc]
  exact (reads_text (by omega)).bind <| (reads_number32 hversion).bind <|
    (reads_text (by omega)).bind <|
    (reads_number32 hargs).bind <| (reads_flag i.hasResult).map fun hasResult =>
      ({ i with hasResult } : Import)

theorem reads_functionEntry {f : Function} (hparams : f.numParams < 2 ^ 32)
    (hlocals : f.numLocals < 2 ^ 32) (hcode : f.code.size < 2 ^ 32)
    (himm : ∀ i ∈ f.code, i.op.hasImm = false → i.imm = 0) (hlength : f.encode.length < 2 ^ 64) :
    Reads functionEntry f.encode { f with exportName := [] } := by
  have hname := length_le_encodeText f.name
  have hinstrs : Reads (list (instr f.name)) (encodeList Instr.encode f.code) f.code :=
    reads_back hcode fun i hi => reads_instr f.name (himm i hi)
  simp only [Function.encode, List.length_append] at hlength
  simp only [Function.encode, List.append_assoc]
  exact (reads_text (by omega)).bind <| (reads_number32 hparams).bind <|
    (reads_number32 hlocals).bind <|
    (reads_flag f.hasResult).bind <| hinstrs.map fun code =>
      ({ f with exportName := [], code } : Function)

theorem reads_exportEntry {e : Export} (hfunction : e.function < 2 ^ 32)
    (hlength : e.encode.length < 2 ^ 64) : Reads exportEntry e.encode e := by
  have hname := length_le_encodeText e.name
  simp only [Export.encode, List.length_append] at hlength
  exact (reads_text (by omega)).bind <| (reads_number32 hfunction).map fun function =>
    ({ e with function } : Export)

theorem reads_dataEntry {d : DataSegment} (hlength : d.encode.length < 2 ^ 64) :
    Reads dataEntry d.encode d := by
  have hbytes := length_le_encodeText d.bytes
  simp only [DataSegment.encode, List.length_append] at hlength
  have hread :
      Reads dataEntry d.encode { offset := UInt64.ofNat d.offset.toNat, bytes := d.bytes } :=
    (reads_number d.offset.toNat_lt).bind <| (reads_text (by omega)).map fun bytes =>
      ({ offset := UInt64.ofNat d.offset.toNat, bytes } : DataSegment)
  rwa [UInt64.ofNat_toNat] at hread

/-! ## Sections -/

/-- A section: its number and its payload. -/
abbrev Section := UInt8 × Bytes

/-- The bytes of sections one after the other. -/
def encodeSections (ss : List Section) : Bytes := ss.flatMap fun s => encodeSection s.1 s.2

theorem reads_sectionFrame (id : UInt8) {payload : Bytes} (h : payload.length < 2 ^ 64) :
    Reads sectionFrame (encodeSection id payload) (id, payload) :=
  (reads_byte id).bind <| (reads_number h).bind <| (reads_take payload .endOfInput).map
    fun p => (id, p)

theorem takes_sectionFrame (id : UInt8) (payload : Bytes) :
    Takes sectionFrame (encodeSection id payload) fun _ => True :=
  (takes_byte id).bind fun _ _ => (takes_number payload.length).bind fun _ hn =>
    hn ▸ (takes_take payload .endOfInput).map _

theorem sections_of_frame {fuel : Nat} {m : Module} {bs payload rest : Bytes} {id : UInt8}
    (hne : bs ≠ []) (hframe : sectionFrame bs = .ok ((id, payload), rest)) :
    sections (fuel + 1) m bs = (sectionInto m id payload).bind fun m => sections fuel m rest := by
  cases bs with
  | nil => exact absurd rfl hne
  | cons b bs =>
    show Except.bind (sectionFrame (b :: bs)) _ = _
    rw [hframe]
    rfl

theorem exists_frame_of_sections {fuel : Nat} {m m' : Module} {bs : Bytes} (hne : bs ≠ [])
    (hread : sections (fuel + 1) m bs = .ok m') :
    ∃ id payload rest m₁, sectionFrame bs = .ok ((id, payload), rest) ∧
      sections fuel m₁ rest = .ok m' := by
  cases hframe : sectionFrame bs with
  | error fault =>
    cases bs with
    | nil => exact absurd rfl hne
    | cons b bs =>
      change Except.bind (sectionFrame (b :: bs)) _ = _ at hread
      rw [hframe] at hread
      cases hread
  | ok framed =>
    obtain ⟨⟨id, payload⟩, rest⟩ := framed
    rw [sections_of_frame hne hframe] at hread
    cases hinto : sectionInto m id payload with
    | error fault =>
      rw [hinto] at hread
      cases hread
    | ok m₁ =>
      rw [hinto] at hread
      exact ⟨id, payload, rest, m₁, rfl, hread⟩

theorem encodeSections_cons (s : Section) (ss : List Section) :
    encodeSections (s :: ss) = encodeSection s.1 s.2 ++ encodeSections ss := rfl

theorem length_encodeSections_cons (s : Section) (ss : List Section) :
    (encodeSections ss).length < (encodeSections (s :: ss)).length := by
  simp only [encodeSections_cons, encodeSection, List.cons_append, List.length_cons,
    List.length_append]
  omega

/-- Sections are read into a module one after the other. -/
theorem sections_encodeSections (ss : List Section) (h : ∀ s ∈ ss, s.2.length < 2 ^ 64) {fuel : Nat}
    (hfuel : (encodeSections ss).length ≤ fuel) (m : Module) :
    sections fuel m (encodeSections ss) = ss.foldlM (fun m s => sectionInto m s.1 s.2) m := by
  induction ss generalizing fuel m with
  | nil => cases fuel <;> rfl
  | cons s ss ih =>
    have hlonger := length_encodeSections_cons s ss
    have hne : encodeSections (s :: ss) ≠ [] := List.ne_nil_of_length_pos (by omega)
    obtain ⟨fuel, rfl⟩ : ∃ n, fuel = n + 1 := Nat.exists_eq_succ_of_ne_zero (by omega)
    have hframe := reads_sectionFrame s.1 (h s List.mem_cons_self) (encodeSections ss)
    rw [sections_of_frame hne hframe, List.foldlM_cons]
    show Except.bind _ _ = Except.bind _ _
    congr 1
    funext m'
    exact ih (fun t ht => h t (List.mem_cons_of_mem _ ht)) (by omega) m'

/-- The start of a list of sections that reads at all ends where a section does. -/
theorem exists_take_of_sections (ss : List Section) {bs t : Bytes}
    (hagree : bs ++ t = encodeSections ss) {fuel : Nat} (hfuel : bs.length ≤ fuel) {m m' : Module}
    (hread : sections fuel m bs = .ok m') : ∃ n ≤ ss.length, bs = encodeSections (ss.take n) := by
  induction ss generalizing bs fuel m with
  | nil => exact ⟨0, le_rfl, (List.append_eq_nil_iff.mp hagree).1⟩
  | cons s ss ih =>
    by_cases hnil : bs = []
    · exact ⟨0, Nat.zero_le _, hnil⟩
    · have hpos : 0 < bs.length := List.length_pos_iff.mpr hnil
      obtain ⟨fuel, rfl⟩ : ∃ n, fuel = n + 1 := Nat.exists_eq_succ_of_ne_zero (by omega)
      obtain ⟨id, payload, rest, m₁, hframe, hrest⟩ := exists_frame_of_sections hnil hread
      -- the first section is there as a whole, so what is left agrees with the sections after it
      obtain ⟨rfl, -⟩ := takes_sectionFrame s.1 s.2 hagree hframe
      have hlength : rest.length ≤ fuel := by
        simp only [encodeSection, List.cons_append, List.length_cons, List.length_append] at hfuel
        omega
      rw [encodeSections_cons, List.append_assoc] at hagree
      obtain ⟨n, hn, rfl⟩ := ih (List.append_cancel_left hagree) hlength hrest
      exact ⟨n + 1, Nat.succ_le_succ hn, rfl⟩

end Reader

/-! ## Modules that a container can hold -/

/-- The part of a module that its container holds: the names that functions are exported under stand
in the export section only. -/
def Module.contained (m : Module) : Module :=
  { m with functions := m.functions.map fun f => { f with exportName := [] } }

/-- The numbers of a module are 32-bit words, its lists have fewer than 2³² entries, an instruction
without immediate operand has none, and the container has fewer than 2⁶⁴ bytes. -/
structure Module.Storable (m : Module) : Prop where
  pages : m.memoryPages < 2 ^ 32
  imports : m.imports.size < 2 ^ 32
  importWords : ∀ i ∈ m.imports, i.version < 2 ^ 32 ∧ i.numArgs < 2 ^ 32
  functions : m.functions.size < 2 ^ 32
  functionWords : ∀ f ∈ m.functions, f.numParams < 2 ^ 32 ∧ f.numLocals < 2 ^ 32
  code : ∀ f ∈ m.functions, f.code.size < 2 ^ 32
  immediate : ∀ f ∈ m.functions, ∀ i ∈ f.code, i.op.hasImm = false → i.imm = 0
  exports : m.exports.size < 2 ^ 32
  exportWords : ∀ e ∈ m.exports, e.function < 2 ^ 32
  data : m.data.size < 2 ^ 32
  length : m.serialize.length < 2 ^ 64

/-! ## The container -/

/-- What stands before the sections. -/
def Module.encodeHeader (m : Module) : Bytes :=
  magic ++ ([UInt8.ofNat formatVersion, UInt8.ofNat (formatVersion / 256)]
    ++ (Leb128.encode m.memoryPages ++ Leb128.encode m.heapBase.toNat))

/-- The sections of a module. -/
def Module.sections (m : Module) : List Reader.Section :=
  [(1, encodeList Import.encode m.imports), (2, encodeList Function.encode m.functions),
   (3, encodeList Export.encode m.exports), (4, encodeList DataSegment.encode m.data)]

/-- The container of a module cut off after some of its sections. -/
def Module.cut (m : Module) (n : Nat) : Bytes :=
  m.encodeHeader ++ Reader.encodeSections (m.sections.take n)

theorem serialize_eq (m : Module) :
    m.serialize = m.encodeHeader ++ Reader.encodeSections m.sections := by
  simp [Module.serialize, Module.encodeHeader, Module.sections, Reader.encodeSections]

theorem serialize_contained (m : Module) : m.contained.serialize = m.serialize := by
  have hfunctions : encodeList Function.encode m.contained.functions
      = encodeList Function.encode m.functions := by
    simp only [encodeList, Module.contained, Array.size_map, Array.toList_map, List.flatMap_map]
    rfl
  simp only [Module.serialize, hfunctions]
  rfl

theorem length_magic : magic.length = 4 := by decide

theorem reads_header {m : Module} (h : m.memoryPages < 2 ^ 32) :
    Reader.Reads Reader.header m.encodeHeader
      { memoryPages := m.memoryPages, heapBase := m.heapBase } := by
  have hword := Reader.reads_take magic .notAContainer
  rw [length_magic] at hword
  refine hword.bind ?_
  rw [if_neg (not_not.mpr rfl)]
  refine (Reader.reads_take [UInt8.ofNat formatVersion, UInt8.ofNat (formatVersion / 256)]
    .endOfInput).bind ?_
  show Reader.Reads (if formatVersion ≠ formatVersion then _ else _) _ _
  rw [if_neg (not_not.mpr rfl)]
  have hread := (Reader.reads_number m.heapBase.toNat_lt).map fun heapBase =>
    ({ memoryPages := m.memoryPages, heapBase := UInt64.ofNat heapBase } : Module)
  rw [UInt64.ofNat_toNat] at hread
  exact (Reader.reads_number32 h).bind hread

theorem takes_header (m : Module) : Reader.Takes Reader.header m.encodeHeader fun _ => True := by
  have hword := Reader.takes_take magic .notAContainer
  rw [length_magic] at hword
  refine hword.bind fun word _ => ?_
  split
  · exact Reader.takes_throw _
  · refine (Reader.takes_take [UInt8.ofNat formatVersion, UInt8.ofNat (formatVersion / 256)]
      .endOfInput).bind fun bytes _ => ?_
    extract_lets version
    split
    · exact Reader.takes_throw _
    · exact (Reader.takes_number32 m.memoryPages).bind
        fun _ _ => (Reader.takes_number m.heapBase.toNat).map _

namespace Module.Storable

variable {m : Module}

theorem section_lt (h : m.Storable) : ∀ s ∈ m.sections, s.2.length < 2 ^ 64 := by
  intro s hs
  have hlength := h.length
  rw [serialize_eq, List.length_append] at hlength
  have hsection : (encodeSection s.1 s.2).length ≤ (Reader.encodeSections m.sections).length := by
    obtain ⟨before, after, hsplit⟩ := List.append_of_mem hs
    simp only [Reader.encodeSections, hsplit, List.flatMap_append, List.flatMap_cons,
      List.length_append]
    omega
  have hpayload : s.2.length ≤ (encodeSection s.1 s.2).length :=
    (Reader.length_le_encodeText s.2).trans (Nat.le_succ _)
  omega

theorem entry_lt (h : m.Storable) {α : Type} {enc : α → Bytes} {xs : Array α} (id : UInt8)
    (hs : (id, encodeList enc xs) ∈ m.sections) {x : α} (hx : x ∈ xs) : (enc x).length < 2 ^ 64 :=
  (Reader.length_le_encodeList hx).trans_lt (h.section_lt _ hs)

theorem reads_imports (h : m.Storable) :
    Reader.Reads (Reader.list Reader.importEntry) (encodeList Import.encode m.imports) m.imports :=
  Reader.reads_back h.imports fun i hi =>
    Reader.reads_importEntry (h.importWords i hi).1 (h.importWords i hi).2
      (h.entry_lt 1 (by simp [Module.sections]) hi)

theorem reads_functions (h : m.Storable) :
    Reader.Reads (Reader.list Reader.functionEntry) (encodeList Function.encode m.functions)
      m.contained.functions :=
  Reader.reads_list h.functions fun f hf =>
    Reader.reads_functionEntry (h.functionWords f hf).1 (h.functionWords f hf).2 (h.code f hf)
      (h.immediate f hf) (h.entry_lt 2 (by simp [Module.sections]) hf)

theorem reads_exports (h : m.Storable) :
    Reader.Reads (Reader.list Reader.exportEntry) (encodeList Export.encode m.exports) m.exports :=
  Reader.reads_back h.exports fun e he =>
    Reader.reads_exportEntry (h.exportWords e he) (h.entry_lt 3 (by simp [Module.sections]) he)

theorem reads_data (h : m.Storable) :
    Reader.Reads (Reader.list Reader.dataEntry) (encodeList DataSegment.encode m.data) m.data :=
  Reader.reads_back h.data fun d hd => Reader.reads_dataEntry
    (h.entry_lt 4 (by simp [Module.sections]) hd)

end Module.Storable

theorem Reader.Reads.run {α : Type} {r : Reader α} {e : Bytes} {x : α} (h : r.Reads e x) :
    r e = .ok (x, []) := by
  have := h []
  rwa [List.append_nil] at this

/-- A module with only the first of the sections of another. -/
def Module.kept (m : Module) (n : Nat) : Module where
  imports := if 1 ≤ n then m.imports else #[]
  functions := if 2 ≤ n then m.contained.functions else #[]
  exports := if 3 ≤ n then m.exports else #[]
  data := if 4 ≤ n then m.data else #[]
  memoryPages := m.memoryPages
  heapBase := m.heapBase

/-- A container that was cut off after some of its sections is read as a module without the
others. -/
theorem deserialize_cut {m : Module} (h : m.Storable) {n : Nat} (hn : n ≤ 4) :
    Module.deserialize (m.cut n) = .ok (m.kept n) := by
  have hread : Module.deserialize (m.cut n) = (m.sections.take n).foldlM
      (fun m s => Reader.sectionInto m s.1 s.2)
        { memoryPages := m.memoryPages, heapBase := m.heapBase } := by
    show Except.bind (Reader.header (m.cut n)) _ = _
    rw [Module.cut, reads_header h.pages]
    exact Reader.sections_encodeSections _ (fun s hs => h.section_lt s (List.mem_of_mem_take hs))
      le_rfl _
  rw [hread]
  have himports := h.reads_imports.run
  have hfunctions := h.reads_functions.run
  have hexports := h.reads_exports.run
  have hdata := h.reads_data.run
  interval_cases n <;>
    simp [Module.sections, Module.kept, Reader.sectionInto, himports, hfunctions, hexports, hdata,
      Except.map, bind, Except.bind, pure, Except.pure]

/-- A module is read back from its container, and its container is that of the module read. -/
theorem deserialize_serialize {m : Module} (h : m.Storable) :
    Module.deserialize m.serialize = .ok m.contained ∧ m.contained.serialize = m.serialize := by
  refine ⟨?_, serialize_contained m⟩
  rw [serialize_eq]
  exact deserialize_cut h (n := 4) le_rfl

/-- A module with an import, an exported function, and a data segment for the end of the heap. -/
def doublingModule : Module where
  imports := #[{ module := Bytes.utf8 "vellum.state", version := 1, name := Bytes.utf8 "read",
                 numArgs := 6, hasResult := true }]
  functions := #[{ name := Bytes.utf8 "double", exportName := Bytes.utf8 "_VL1t6double_m",
                   numParams := 1, numLocals := 1, hasResult := true
                   code := #[⟨.localGet, 0⟩, ⟨.const, 2⟩, ⟨.mul, 0⟩, ⟨.ret, 0⟩] }]
  exports := #[{ name := Bytes.utf8 "_VL1t6double_m", function := 0 }]
  data := #[{ offset := 0, bytes := Bytes.littleEndian 8 }]

theorem storable_doublingModule : doublingModule.Storable where
  pages := by decide
  imports := by decide
  importWords := by decide
  functions := by decide
  functionWords := by decide
  code := by decide
  immediate := by decide
  exports := by decide
  exportWords := by decide
  data := by decide
  length := by decide +kernel

theorem deserialize_serialize_doublingModule : doublingModule.Storable ∧
    Module.deserialize doublingModule.serialize = .ok doublingModule.contained ∧
      doublingModule.contained.serialize = doublingModule.serialize :=
  ⟨storable_doublingModule, deserialize_serialize storable_doublingModule⟩

/-- A start of a container that is read at all was cut off after one of the sections. -/
theorem exists_cut_of_deserialize {m m' : Module} {bs : Bytes} (hstart : bs <+: m.serialize)
    (hread : Module.deserialize bs = .ok m') : ∃ n ≤ 4, bs = m.cut n := by
  obtain ⟨t, ht⟩ := hstart
  rw [serialize_eq] at ht
  change Except.bind (Reader.header bs) _ = _ at hread
  cases hheader : Reader.header bs with
  | error fault =>
    rw [hheader] at hread
    cases hread
  | ok r =>
    obtain ⟨m₁, rest⟩ := r
    rw [hheader] at hread
    obtain ⟨rfl, -⟩ := takes_header m ht hheader
    rw [List.append_assoc] at ht
    obtain ⟨n, hn, rfl⟩ := Reader.exists_take_of_sections m.sections (List.append_cancel_left ht)
      le_rfl hread
    exact ⟨n, hn, rfl⟩

end ContractCompiler.Vm
