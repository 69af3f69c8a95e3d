import ContractCompiler.Proofs.Bytes
import ContractCompiler.Proofs.Codegen.NamedData
import ContractCompiler.Proofs.Codegen.OperationRun

/-!
# Constant data does not overlap

Constant data is requested byte string by byte string, also for functions that are left out later.
Whatever is requested, the byte strings stand one after the other, each once, and none moves when
others follow. So the address with which a request is answered is still that of its bytes when the
data is put into memory.

- `place`: byte strings one after the other; `apart_place`: they do not overlap;
- `DataLayout.request`, `layoutAfter`, `answer?`: requests, the layout after them, and what they are
  answered with;
- `DataLayout.Tidy`: the invariant of requests;
- `read?_loadData`: what is put into memory apart from the rest is read there;
- `Intact`, `intact_of_lt`: what holds of the memory that is made from the layout after some
  requests;
- `requestsOf`, `data_lowered`: the constant data of a module is such a layout;
- `exists_request_of_address`: what stands in code is the answer to a request;
- `KeepsData`, `constantData_exact`: all of it, for any requests and for compiled modules.
-/

namespace ContractCompiler.Codegen

open Ssa (FuncId)

/-! ## Byte strings one after the other -/

/-- Segments with some bytes, each at the first multiple of eight behind the one before it. -/
def place : Nat → List Bytes → List Vm.DataSegment
  | _, [] => []
  | start, bytes :: rest => { offset := UInt64.ofNat start, bytes } ::
      place (start + align8 bytes.length) rest

section Place

variable {start : Nat} {strings more : List Bytes} {s : Vm.DataSegment}

theorem dataSize_place_cons (start : Nat) (bytes : Bytes) (strings : List Bytes) :
    dataSize (place start (bytes :: strings)) =
      align8 bytes.length + dataSize (place (start + align8 bytes.length) strings) :=
  List.sum_cons

theorem place_append : place start (strings ++ more) =
    place start strings ++ place (start + dataSize (place start strings)) more := by
  induction strings generalizing start with
  | nil => rfl
  | cons bytes strings ih =>
    rw [List.cons_append, place, ih, dataSize_place_cons, ← Nat.add_assoc]
    rfl

/-- Where there are words for all addresses, segments stand at multiples of eight between the start
and the end. -/
theorem bounds_of_mem_place (hstart : 8 ∣ start)
    (hend : start + dataSize (place start strings) < 2 ^ 64) (hs : s ∈ place start strings) :
    start ≤ s.offset.toNat ∧
      s.offset.toNat + s.bytes.length ≤ start + dataSize (place start strings) ∧
      8 ∣ s.offset.toNat := by
  induction strings generalizing start with
  | nil => cases hs
  | cons bytes strings ih =>
    rw [dataSize_place_cons, ← Nat.add_assoc] at hend ⊢
    have hlength := le_align8 bytes.length
    rcases List.mem_cons.mp hs with rfl | hs
    · have hoffset : (UInt64.ofNat start).toNat = start :=
        UInt64.toNat_ofNat_of_lt' (Nat.lt_of_le_of_lt (by omega) hend)
      show start ≤ (UInt64.ofNat start).toNat ∧ (UInt64.ofNat start).toNat + bytes.length ≤ _ ∧
        8 ∣ (UInt64.ofNat start).toNat
      rw [hoffset]
      exact ⟨Nat.le_refl start, by omega, hstart⟩
    · obtain ⟨hle, hbound, hdvd⟩ := ih (Nat.dvd_add hstart (dvd_align8 _)) hend hs
      exact ⟨by omega, hbound, hdvd⟩

/-- They do not overlap: each ends before those behind it start. -/
theorem apart_place (hstart : 8 ∣ start) (hend : start + dataSize (place start strings) < 2 ^ 64) :
    (place start strings).Pairwise fun s s' => s.offset.toNat + s.bytes.length ≤
      s'.offset.toNat := by
  induction strings generalizing start with
  | nil => exact .nil
  | cons bytes strings ih =>
    rw [dataSize_place_cons, ← Nat.add_assoc] at hend
    have hstart' : 8 ∣ start + align8 bytes.length := Nat.dvd_add hstart (dvd_align8 _)
    refine List.pairwise_cons.mpr ⟨fun s hs => ?_, ih hstart' hend⟩
    have hlength := le_align8 bytes.length
    have hoffset : (UInt64.ofNat start).toNat = start :=
      UInt64.toNat_ofNat_of_lt' (Nat.lt_of_le_of_lt (by omega) hend)
    have hle := (bounds_of_mem_place hstart' hend hs).1
    show (UInt64.ofNat start).toNat + bytes.length ≤ s.offset.toNat
    omega

end Place

/-! ## Requests -/

namespace DataLayout

/-- A request for constant data: the address with which it is answered, unless it is refused, and
the layout after it. -/
def request (limit : UInt64) (d : DataLayout) (bytes : Bytes) : Option UInt64 × DataLayout :=
  match d.add? limit.toNat bytes with
  | some d' => (some (d'.offset bytes), d')
  | none => (none, d)

/-- The bytes of the segments, in order. -/
def strings (d : DataLayout) : List Bytes := d.segments.toList.map (·.bytes)

/-- Where the heap starts. -/
def heapBase (d : DataLayout) : UInt64 := UInt64.ofNat (align8 d.next)

/-- What is put into memory: the end of the heap, then the segments. -/
def image (d : DataLayout) : List Vm.DataSegment :=
  { offset := 0, bytes := Bytes.littleEndian d.heapBase } :: d.segments.toList

/-- Different byte strings stand one after the other, and their lengths are counted. -/
structure Tidy (d : DataLayout) : Prop extends d.Sound where
  placed : d.segments.toList = place 8 d.strings
  nodup : d.strings.Nodup
  used : d.used = (d.strings.map List.length).sum

variable {d d' : DataLayout} {limit : UInt64} {bytes : Bytes}

theorem tidy_empty : Tidy {} := ⟨sound_empty, rfl, .nil, rfl⟩

theorem has_iff_mem_strings : d.Has bytes ↔ bytes ∈ d.strings := by
  rw [has_iff, strings, List.mem_map]
  simp only [Array.mem_toList_iff]

/-- What a request does: bytes that are laid out stay where they are, others are put behind them if
there is room below the limit. -/
theorem request_eq (limit : UInt64) (d : DataLayout) (bytes : Bytes) :
    (d.Has bytes ∧ d.request limit bytes = (some (d.offset bytes), d)) ∨
    (¬d.Has bytes ∧ limit.toNat < d.used + bytes.length ∧ d.request limit bytes = (none, d)) ∨
    (¬d.Has bytes ∧ d.used + bytes.length ≤ limit.toNat ∧
      ∃ d', d.request limit bytes = (some (d'.offset bytes), d') ∧
      d'.used = d.used + bytes.length ∧ d'.next = align8 (d.next + bytes.length) ∧
      d'.segments = d.segments.push { offset := UInt64.ofNat d.next, bytes }) := by
  unfold request add? Has
  by_cases hfound : (d.find? bytes).isSome = true
  · rw [if_pos hfound]
    exact .inl ⟨hfound, rfl⟩
  · rw [if_neg hfound]
    by_cases hlimit : limit.toNat < d.used + bytes.length
    · rw [if_pos hlimit]
      exact .inr (.inl ⟨hfound, hlimit, rfl⟩)
    · rw [if_neg hlimit]
      exact .inr (.inr ⟨hfound, Nat.not_lt.mp hlimit, _, rfl, rfl, rfl, rfl⟩)

theorem Sound.request (h : d.Sound) (limit : UInt64) (bytes : Bytes) :
    (d.request limit bytes).2.Sound := by
  unfold DataLayout.request
  split
  · rename_i hadd
    exact h.add? hadd
  · exact h

theorem Tidy.request (h : d.Tidy) (limit : UInt64) (bytes : Bytes) :
    (d.request limit bytes).2.Tidy := by
  have hsound := h.toSound.request limit bytes
  rcases request_eq limit d bytes with ⟨-, heq⟩ | ⟨-, -, heq⟩ |
    ⟨hnew, -, d', heq, hused, -, hsegments⟩
  · exact heq ▸ h
  · exact heq ▸ h
  · have hstrings : d'.strings = d.strings ++ [bytes] := by
      rw [strings, hsegments, Array.toList_push, List.map_append]
      rfl
    rw [heq] at hsound ⊢
    refine ⟨hsound, ?_, ?_, ?_⟩
    · -- the next address is the end of what stands there already
      rw [hstrings, place_append, ← h.placed, ← h.next, hsegments, Array.toList_push]
      rfl
    · rw [hstrings]
      exact h.nodup.append (List.nodup_singleton _)
        (List.disjoint_singleton.mpr fun hmem => hnew (has_iff_mem_strings.mpr hmem))
    · rw [hused, h.used, hstrings]
      simp

/-- The limit is kept. -/
theorem used_request (h : d.used ≤ limit.toNat) (bytes : Bytes) :
    (d.request limit bytes).2.used ≤ limit.toNat := by
  rcases request_eq limit d bytes with ⟨-, heq⟩ | ⟨-, -, heq⟩ | ⟨-, hroom, d', heq, hused, -⟩
  · exact heq ▸ h
  · exact heq ▸ h
  · rw [heq]
    exact hused ▸ hroom

/-- Segments stay. -/
theorem segments_request (limit : UInt64) (d : DataLayout) (bytes : Bytes) :
    d.segments.toList <+: (d.request limit bytes).2.segments.toList := by
  rcases request_eq limit d bytes with ⟨-, heq⟩ | ⟨-, -, heq⟩ | ⟨-, -, d', heq, -, -, hsegments⟩
  · exact heq ▸ List.prefix_refl _
  · exact heq ▸ List.prefix_refl _
  · rw [heq]
    show d.segments.toList <+: d'.segments.toList
    rw [hsegments, Array.toList_push]
    exact List.prefix_append _ _

/-- What is laid out keeps its address when other byte strings follow. -/
theorem offset_of_prefix (h : d.segments.toList <+: d'.segments.toList) (hbytes : d.Has bytes) :
    d'.offset bytes = d.offset bytes := by
  obtain ⟨more, hmore⟩ := h
  obtain ⟨s, hs⟩ := Option.isSome_iff_exists.mp hbytes
  have hs' : d'.find? bytes = some s := by
    unfold find? at hs ⊢
    rw [← Array.find?_toList] at hs ⊢
    rw [← hmore, List.find?_append, hs, Option.some_or]
  rw [offset, offset, hs, hs']

theorem Has.of_prefix (hbytes : d.Has bytes) (h : d.segments.toList <+: d'.segments.toList) :
    d'.Has bytes := by
  rw [has_iff_mem_strings] at hbytes ⊢
  exact (h.map _).subset hbytes

/-- A request is answered with the address at which its bytes are laid out. -/
theorem answered_request {address : UInt64} (h : (d.request limit bytes).1 = some address) :
    (d.request limit bytes).2.Has bytes ∧ (d.request limit bytes).2.offset bytes = address := by
  unfold DataLayout.request at h ⊢
  split
  · rename_i d' hadd
    rw [hadd] at h
    exact ⟨(has_add? [] hadd).1, Option.some.inj h⟩
  · rename_i hadd
    rw [hadd] at h
    cases h

end DataLayout

/-- The layout after some requests. -/
def layoutAfter (limit : UInt64) (requests : List Bytes) : DataLayout :=
  requests.foldl (fun d bytes => (d.request limit bytes).2) {}

/-- What one of some requests is answered with. -/
def answer? (limit : UInt64) (requests : List Bytes) (i : Nat) : Option UInt64 := do
  let bytes ← requests[i]?
  ((layoutAfter limit (requests.take i)).request limit bytes).1

section Requests

variable {limit : UInt64} {requests : List Bytes} {i : Nat} {bytes : Bytes} {address : UInt64}

theorem layoutAfter_concat (limit : UInt64) (requests : List Bytes) (bytes : Bytes) :
    layoutAfter limit (requests ++ [bytes]) =
      ((layoutAfter limit requests).request limit bytes).2 := by
  rw [layoutAfter, List.foldl_append]
  rfl

/-- Requests leave different byte strings one after the other, within the limit. -/
theorem tidy_layoutAfter (limit : UInt64) (requests : List Bytes) :
    (layoutAfter limit requests).Tidy ∧ (layoutAfter limit requests).used ≤ limit.toNat := by
  induction requests using List.reverseRecOn with
  | nil => exact ⟨DataLayout.tidy_empty, Nat.zero_le _⟩
  | append_singleton requests bytes ih =>
    rw [layoutAfter_concat]
    exact ⟨ih.1.request limit bytes, DataLayout.used_request ih.2 bytes⟩

/-- What was laid out by some requests stays when others follow. -/
theorem segments_layoutAfter_append (limit : UInt64) (requests more : List Bytes) :
    (layoutAfter limit requests).segments.toList <+:
    (layoutAfter limit (requests ++ more)).segments.toList := by
  induction more using List.reverseRecOn with
  | nil => rw [List.append_nil]
  | append_singleton more bytes ih =>
    rw [← List.append_assoc, layoutAfter_concat]
    exact ih.trans (DataLayout.segments_request limit _ bytes)

theorem layoutAfter_take_succ (hi : requests[i]? = some bytes) :
    layoutAfter limit (requests.take (i + 1)) =
    ((layoutAfter limit (requests.take i)).request limit bytes).2 := by
  rw [List.take_add_one, hi]
  exact layoutAfter_concat limit _ bytes

/-- The answer to a request is where its bytes are laid out in the end. -/
theorem offset_layoutAfter (hi : requests[i]? = some bytes)
    (hanswer : answer? limit requests i = some address) :
    (layoutAfter limit requests).Has bytes ∧ (layoutAfter limit requests).offset bytes =
      address := by
  have hanswer : ((layoutAfter limit (requests.take i)).request limit bytes).1 = some address := by
    unfold answer? at hanswer
    rw [hi] at hanswer
    exact hanswer
  obtain ⟨hhas, hoffset⟩ := DataLayout.answered_request hanswer
  rw [← layoutAfter_take_succ hi] at hhas hoffset
  have hprefix : (layoutAfter limit (requests.take (i + 1))).segments.toList <+:
      (layoutAfter limit requests).segments.toList := by
    have happend := segments_layoutAfter_append limit (requests.take (i + 1))
        (requests.drop (i + 1))
    rwa [List.take_append_drop] at happend
  exact ⟨hhas.of_prefix hprefix, (DataLayout.offset_of_prefix hprefix hhas).trans hoffset⟩

theorem answer?_append (hi : i < requests.length) (more : List Bytes) :
    answer? limit (requests ++ more) i = answer? limit requests i := by
  rw [answer?, answer?, List.getElem?_append_left hi, List.take_append_of_le_length hi.le]

/-- Whatever is laid out was requested and the request answered. -/
theorem exists_answer_of_has (h : (layoutAfter limit requests).Has bytes) :
    ∃ (i : Nat) (address : UInt64), requests[i]? = some bytes ∧
      answer? limit requests i = some address := by
  induction requests using List.reverseRecOn with
  | nil => cases h
  | append_singleton requests last ih =>
    by_cases hbefore : (layoutAfter limit requests).Has bytes
    · obtain ⟨i, address, hi, hanswer⟩ := ih hbefore
      obtain ⟨hlt, -⟩ := List.getElem?_eq_some_iff.mp hi
      exact ⟨i, address, (List.getElem?_append_left hlt).trans hi,
        (answer?_append hlt _).trans hanswer⟩
    · -- it was put there by the last request
      rw [layoutAfter_concat] at h
      have hanswer : answer? limit (requests ++ [last]) requests.length =
          ((layoutAfter limit requests).request limit last).1 := by
        rw [answer?, List.getElem?_concat_length, List.take_left]
        rfl
      rcases DataLayout.request_eq limit (layoutAfter limit requests) last with
        ⟨-, heq⟩ | ⟨-, -, heq⟩ | ⟨-, -, d', heq, -, -, hsegments⟩
      · rw [heq] at h
        exact absurd h hbefore
      · rw [heq] at h
        exact absurd h hbefore
      · rw [heq] at h hanswer
        obtain ⟨s, hs, rfl⟩ := DataLayout.has_iff.mp h
        rw [hsegments] at hs
        rcases Array.mem_push.mp hs with hs | rfl
        · exact absurd (DataLayout.has_iff.mpr ⟨s, hs, rfl⟩) hbefore
        · exact ⟨requests.length, _, List.getElem?_concat_length, hanswer⟩

/-- A request is refused if its bytes are not laid out yet and would exceed the limit, and then
changes nothing. -/
theorem refused_iff (hi : requests[i]? = some bytes) : answer? limit requests i = none ↔
    ¬(layoutAfter limit (requests.take i)).Has bytes ∧
      limit.toNat < (layoutAfter limit (requests.take i)).used + bytes.length := by
  have hanswer : answer? limit requests i =
      ((layoutAfter limit (requests.take i)).request limit bytes).1 := by
    unfold answer?
    rw [hi]
    rfl
  rw [hanswer]
  rcases DataLayout.request_eq limit (layoutAfter limit (requests.take i)) bytes with
    ⟨hhas, heq⟩ | ⟨hnew, hlimit, heq⟩ | ⟨-, hroom, d', heq, -⟩
  · simp [heq, hhas]
  · simp [heq, hnew, hlimit]
  · simp [heq, hroom]

theorem layoutAfter_of_refused (hi : requests[i]? = some bytes)
    (hanswer : answer? limit requests i = none) :
    layoutAfter limit (requests.take (i + 1)) = layoutAfter limit (requests.take i) := by
  obtain ⟨hnew, hlimit⟩ := (refused_iff hi).mp hanswer
  rw [layoutAfter_take_succ hi]
  rcases DataLayout.request_eq limit (layoutAfter limit (requests.take i)) bytes with
    ⟨hhas, -⟩ | ⟨-, -, heq⟩ | ⟨-, hroom, -⟩
  · exact absurd hhas hnew
  · rw [heq]
  · exact absurd hlimit (Nat.not_lt.mpr hroom)

/-- Byte strings take at most eight times their length, so for most limits there are words for all
addresses. -/
theorem next_layoutAfter_le (limit : UInt64) (requests : List Bytes) :
    (layoutAfter limit requests).next ≤ 8 + 8 * limit.toNat := by
  obtain ⟨htidy, hused⟩ := tidy_layoutAfter limit requests
  have hsize (segments : List Vm.DataSegment) :
      dataSize segments ≤ 8 * ((segments.map (·.bytes)).map List.length).sum := by
    induction segments with
    | nil => exact Nat.zero_le _
    | cons s segments ih =>
      have halign : align8 s.bytes.length ≤ 8 * s.bytes.length := by
        unfold align8
        omega
      simp only [dataSize, List.map_cons, List.sum_cons] at ih ⊢
      omega
  have hdata := hsize (layoutAfter limit requests).segments.toList
  have hcount : (layoutAfter limit requests).used =
      (((layoutAfter limit requests).segments.toList.map (·.bytes)).map List.length).sum :=
    htidy.used
  rw [htidy.next]
  omega

end Requests

/-! ## Memory -/

section Memory

variable {segments : List Vm.DataSegment} {memory memory' : Vm.Memory} {addr len : Nat}

theorem loadData_cons {s : Vm.DataSegment} : Vm.loadData memory (s :: segments) = .ok memory' ↔
    memory.inBounds s.offset.toNat s.bytes.length = true ∧
      Vm.loadData (memory.set s.offset.toNat s.bytes) segments = .ok memory' := by
  rw [Vm.loadData, Vm.Memory.write?]
  cases memory.inBounds s.offset.toNat s.bytes.length <;> simp

/-- Putting segments into memory changes nothing before them. -/
theorem read?_loadData_apart (hload : Vm.loadData memory segments = .ok memory')
    (hapart : ∀ s ∈ segments, addr + len ≤ s.offset.toNat) :
    memory'.read? addr len = memory.read? addr len := by
  induction segments generalizing memory with
  | nil =>
    cases hload
    rfl
  | cons s segments ih =>
    rw [ih (loadData_cons.mp hload).2 fun s' hs' => hapart s' (List.mem_cons_of_mem s hs')]
    exact Vm.Memory.read?_set_apart (.inl (hapart s List.mem_cons_self))

/-- Segments of which each ends before those behind it start are all in memory in the end. -/
theorem read?_loadData (hload : Vm.loadData memory segments = .ok memory')
    (hapart : segments.Pairwise fun s s' => s.offset.toNat + s.bytes.length ≤ s'.offset.toNat)
    {s : Vm.DataSegment} (hs : s ∈ segments) :
    memory'.read? s.offset.toNat s.bytes.length = some s.bytes := by
  induction segments generalizing memory with
  | nil => cases hs
  | cons s' segments ih =>
    obtain ⟨hfirst, hrest⟩ := List.pairwise_cons.mp hapart
    obtain ⟨hroom, hload⟩ := loadData_cons.mp hload
    rcases List.mem_cons.mp hs with rfl | hs
    · rw [read?_loadData_apart hload hfirst]
      exact Vm.Memory.read?_set_self hroom
    · exact ih hload hrest hs

end Memory

/-! ## What is in memory in the end -/

/-- What holds of the constant data after some requests. Its image is put into a memory of any size
in which the heap starts. -/
structure Intact (limit : UInt64) (requests : List Bytes) : Prop where
  loads : ∀ size, (layoutAfter limit requests).heapBase.toNat ≤ size →
    ∃ memory, Vm.loadData { size } (layoutAfter limit requests).image = .ok memory
  /-- At the address with which a request is answered, memory has its bytes. -/
  held : ∀ (i : Nat) bytes address, requests[i]? = some bytes →
      answer? limit requests i = some address →
    ∀ size memory, Vm.loadData { size } (layoutAfter limit requests).image = .ok memory →
      memory.read? address.toNat bytes.length = some bytes
  /-- Equal byte strings have one address. -/
  same : ∀ (i j : Nat) address address', requests[i]? = requests[j]? →
      answer? limit requests i = some address →
    answer? limit requests j = some address' → address = address'
  inside : ∀ s ∈ (layoutAfter limit requests).segments,
    8 ≤ s.offset.toNat ∧ s.offset.toNat + s.bytes.length ≤
      (layoutAfter limit requests).heapBase.toNat ∧
      8 ∣ s.offset.toNat
  /-- Each segment ends before those behind it start. -/
  apart : (layoutAfter limit requests).segments.toList.Pairwise fun s s' =>
    s.offset.toNat + s.bytes.length ≤ s'.offset.toNat
  /-- No byte string is laid out twice. -/
  distinct : (layoutAfter limit requests).strings.Nodup
  heapTop : ∀ size memory, Vm.loadData { size } (layoutAfter limit requests).image = .ok memory →
    heapEnd? memory = some (layoutAfter limit requests).heapBase
  heapBase_dvd : 8 ∣ (layoutAfter limit requests).heapBase.toNat
  size_le : ((layoutAfter limit requests).segments.toList.map (·.bytes.length)).sum ≤ limit.toNat
  /-- Requests are refused only for the limit. -/
  refused : ∀ (i : Nat) bytes, requests[i]? = some bytes → (answer? limit requests i = none ↔
    ¬(layoutAfter limit (requests.take i)).Has bytes ∧
      limit.toNat < (layoutAfter limit (requests.take i)).used + bytes.length)
  unchanged : ∀ (i : Nat) bytes, requests[i]? = some bytes → answer? limit requests i = none →
    layoutAfter limit (requests.take (i + 1)) = layoutAfter limit (requests.take i)

section Intact

variable {limit : UInt64} {requests : List Bytes}

/-- The word for the end of the heap and the segments do not overlap. -/
theorem pairwise_image {d : DataLayout} (hinside : ∀ s ∈ d.segments, 8 ≤ s.offset.toNat)
    (hapart : d.segments.toList.Pairwise fun s s' => s.offset.toNat + s.bytes.length ≤
      s'.offset.toNat) :
    d.image.Pairwise fun s s' => s.offset.toNat + s.bytes.length ≤ s'.offset.toNat :=
  List.pairwise_cons.mpr ⟨fun s hs => hinside s (Array.mem_toList_iff.mp hs), hapart⟩

theorem toNat_heapBase {d : DataLayout} (h : d.Tidy) (hend : d.next < 2 ^ 64) :
    d.heapBase.toNat = d.next := by
  rw [DataLayout.heapBase, align8_of_dvd h.dvd_next]
  exact UInt64.toNat_ofNat_of_lt' hend

/-- All of it holds as long as there are words for all addresses. -/
theorem intact_of_lt (hend : (layoutAfter limit requests).next < 2 ^ 64) :
    Intact limit requests := by
  obtain ⟨htidy, hused⟩ := tidy_layoutAfter limit requests
  have hbase := toNat_heapBase htidy hend
  have hsize : (layoutAfter limit requests).next =
      8 + dataSize (place 8 (layoutAfter limit requests).strings) := by
    rw [← htidy.placed]
    exact htidy.next
  have hbounds : ∀ s ∈ (layoutAfter limit requests).segments, 8 ≤ s.offset.toNat ∧
      s.offset.toNat + s.bytes.length ≤ (layoutAfter limit requests).heapBase.toNat ∧
      8 ∣ s.offset.toNat := by
    intro s hs
    rw [hbase, hsize]
    exact bounds_of_mem_place (Nat.dvd_refl 8) (hsize ▸ hend)
      (htidy.placed ▸ Array.mem_toList_iff.mpr hs)
  have hapart : (layoutAfter limit requests).segments.toList.Pairwise fun s s' =>
      s.offset.toNat + s.bytes.length ≤ s'.offset.toNat := by
    rw [htidy.placed]
    exact apart_place (Nat.dvd_refl 8) (hsize ▸ hend)
  have himage := pairwise_image (fun s hs => (hbounds s hs).1) hapart
  refine { loads := ?loads, held := ?held, same := ?same, inside := hbounds, apart := hapart
           distinct := htidy.nodup, heapTop := ?heapTop, heapBase_dvd :=
    ?heapBase_dvd, size_le := ?size_le
           refused := fun i bytes => refused_iff, unchanged :=
    fun i bytes => layoutAfter_of_refused }
  case loads =>
    intro size hle
    refine exists_loadData _ fun s hs => ?_
    rcases List.mem_cons.mp hs with rfl | hs
    · show 0 + 8 ≤ size
      omega
    · exact (hbounds s (Array.mem_toList_iff.mp hs)).2.1.trans hle
  case held =>
    intro i bytes address hi hanswer size memory hload
    obtain ⟨hhas, rfl⟩ := offset_layoutAfter hi hanswer
    obtain ⟨s, hs⟩ := Option.isSome_iff_exists.mp hhas
    have hbytes : s.bytes = bytes := by simpa using Array.find?_some hs
    have hmem := Array.mem_toList_iff.mpr (Array.mem_of_find?_eq_some hs)
    have hread := read?_loadData hload himage (List.mem_cons_of_mem _ hmem)
    rw [DataLayout.offset, hs]
    rwa [hbytes] at hread
  case same =>
    intro i j address address' hij hanswer hanswer'
    cases hi : requests[i]? with
    | none =>
      unfold answer? at hanswer
      rw [hi] at hanswer
      cases hanswer
    | some bytes =>
      -- both are the address at which the bytes stand in the end
      obtain ⟨-, rfl⟩ := offset_layoutAfter hi hanswer
      exact (offset_layoutAfter (hij ▸ hi) hanswer').2
  case heapTop =>
    intro size memory hload
    have hread :
        memory.read? 0 8 = some (Bytes.littleEndian (layoutAfter limit requests).heapBase) :=
      read?_loadData hload himage List.mem_cons_self
    rw [heapEnd?, hread, Option.map_some, wordOfBytes_littleEndian]
  case heapBase_dvd =>
    rw [hbase]
    exact htidy.dvd_next
  case size_le =>
    have hcount : (layoutAfter limit requests).used =
        (((layoutAfter limit requests).segments.toList.map (·.bytes)).map List.length).sum :=
      htidy.used
    rw [List.map_map] at hcount
    exact hcount ▸ hused

end Intact

/-! ## The constant data of modules -/

section Modules

variable [Hashing] {m : Ssa.Module} {types : TypePool} {options : CodegenOptions} {limit : UInt64}

/-- The byte strings that the code of some functions reserves, in order; functions that are left out
at the start have no code. -/
def dataRequests (m : Ssa.Module) (types : TypePool) (unit : String) (options : CodegenOptions)
    (fs : List Ssa.Function) : List Bytes :=
  (fs.filter fun f => !f.excluded).flatMap
    fun f => reserved (lowerFunction m types unit options f).items

omit [Hashing] in
/-- Laying out code makes the requests of the code. -/
theorem layOut_eq_requests (limit : UInt64) (is : List Item) (d : DataLayout) :
    (layOut limit is d).2 = (reserved is).foldl (fun d bytes => (d.request limit bytes).2) d := by
  fun_induction layOut limit is d with
  | case1 => rfl
  | case2 use bytes span rest d d' hadd ih =>
    rw [ih, reserved_cons]
    show _ = (reserved rest).foldl _ (d.request limit bytes).2
    rw [DataLayout.request, hadd]
  | case3 use bytes span rest d hadd faults d' hrest ih =>
    rw [hrest] at ih
    rw [ih, reserved_cons]
    show _ = (reserved rest).foldl _ (d.request limit bytes).2
    rw [DataLayout.request, hadd]
  | case4 f rest d faults d' hrest ih =>
    rw [hrest] at ih
    exact ih
  | case5 i rest d hreserve _ ih =>
    rw [ih, reserved_cons]
    cases i with
    | reserve use bytes span => exact absurd rfl (hreserve use bytes span)
    | _ => rfl

theorem dataOf_eq_layoutAfter (unit : String) (fs : List Ssa.Function) :
    dataOf m types unit options fs =
    layoutAfter options.maxDataBytes (dataRequests m types unit options fs) := by
  induction fs using List.reverseRecOn with
  | nil => rfl
  | append_singleton fs f ih =>
    unfold dataOf dataRequests layoutAfter at ih ⊢
    rw [List.foldl_append, ih, List.filter_append, List.flatMap_append, List.foldl_append]
    cases hexcl : f.excluded with
    | true => simp [hexcl]
    | false =>
      simp only [List.foldl_cons, List.foldl_nil, hexcl, List.filter_cons, List.filter_nil,
        Bool.not_false, if_true, List.flatMap_singleton]
      exact layOut_eq_requests options.maxDataBytes _ _

/-- The requests for the constant data of a module. -/
def requestsOf (m : Ssa.Module) (types : TypePool) (options : CodegenOptions) : List Bytes :=
  dataRequests m types (unitOf m options) options m.functions.toList

theorem data_lowered : (lowered m types options).data =
    layoutAfter options.maxDataBytes (requestsOf m types options) := by
  have hdrops : (lowerAll m types (unitOf m options) options).Drops (lowered m types options) :=
    Lowering.drops_dropCallersRounds m _ _
  rw [hdrops.data, (sorts_lowerAll m types (unitOf m options) options).data]
  exact dataOf_eq_layoutAfter _ _

theorem image_compile : (m.compile types options).module.data.toList =
    (layoutAfter options.maxDataBytes (requestsOf m types options)).image := by
  rw [data_compile, data_lowered]
  rfl

theorem heapBase_compile_eq : (m.compile types options).module.heapBase =
    (layoutAfter options.maxDataBytes (requestsOf m types options)).heapBase := by
  rw [heapBase_compile, data_lowered]
  rfl

/-- An address in the code of a compiled function is what a request for its bytes was answered
with. -/
theorem exists_request_of_address {id : FuncId} {code : LoweredFunction} {bytes : Bytes}
    (hcode : (lowered m types options).code? id = some code) (hmem : .address bytes ∈ code.items) :
    ∃ i : Nat, (requestsOf m types options)[i]? = some bytes ∧
      answer? options.maxDataBytes (requestsOf m types options) i =
        some ((lowered m types options).linkage.address bytes) := by
  have hhas : (lowered m types options).data.Has bytes := by
    obtain ⟨f, hf, -, rfl, -⟩ := exists_function_of_code? hcode
    have hreserved := ((backed_lowerFunction m types (unitOf m options) options f).mem_reserved
      hmem).resolve_left List.not_mem_nil
    obtain ⟨use, span, hreserve⟩ := mem_reserved.mp hreserved
    exact has_lowered hf hcode hreserve
  rw [data_lowered] at hhas
  obtain ⟨i, address, hi, hanswer⟩ := exists_answer_of_has hhas
  refine ⟨i, hi, hanswer.trans (congrArg some ?_)⟩
  rw [← (offset_layoutAfter hi hanswer).2, ← data_lowered]
  rfl

end Modules

theorem load_eq_ok_iff {vm : Vm.Module} {memory : Vm.Memory} : vm.load = .ok memory ↔
    Vm.loadData { size := vm.memoryPages * Vm.pageSize } vm.data.toList = .ok memory ∧
      vm.imports.toList.forM Vm.checkImport = .ok () := by
  unfold Vm.Module.load
  cases Vm.loadData { size := vm.memoryPages * Vm.pageSize } vm.data.toList with
  | error halt => simp [bind, Except.bind]
  | ok loaded => cases vm.imports.toList.forM Vm.checkImport <;>
      simp [bind, Except.bind, pure, Except.pure]

/-- In the memory of a compiled module, the bytes that code expects stand at each address that it
pushes. -/
theorem read?_address [Hashing] {m : Ssa.Module} {types : TypePool} {options : CodegenOptions}
    (hend : dataSize (m.compile types options).module.data.toList < 2 ^ 64) {id : FuncId}
    {code : LoweredFunction} {bytes : Bytes}
    (hcode : (lowered m types options).code? id = some code) (hmem : .address bytes ∈ code.items)
    {memory : Vm.Memory} (hload : (m.compile types options).module.load = .ok memory) :
    memory.read? ((lowered m types options).linkage.address bytes).toNat bytes.length =
      some bytes := by
  rw [dataSize_compile, data_lowered] at hend
  have hload := (load_eq_ok_iff.mp hload).1
  rw [image_compile] at hload
  -- code pushes what a request was answered with, while its function was lowered or before
  obtain ⟨i, hi, hanswer⟩ := exists_request_of_address hcode hmem
  exact (intact_of_lt hend).held i bytes _ hi hanswer _ memory hload

/-- What holds of the constant data of a compiled module. -/
structure KeepsData [Hashing] (m : Ssa.Module) (types : TypePool)
    (options : CodegenOptions) : Prop where
  intact : Intact options.maxDataBytes (requestsOf m types options)
  image : (m.compile types options).module.data.toList =
    (layoutAfter options.maxDataBytes (requestsOf m types options)).image
  heapBase : (m.compile types options).module.heapBase =
    (layoutAfter options.maxDataBytes (requestsOf m types options)).heapBase
  loads : (m.compile types options).module.heapBase.toNat ≤
      (m.compile types options).module.memoryPages * Vm.pageSize →
    ∃ memory, (m.compile types options).module.load = .ok memory
  /-- An address in the code of a function that is left is what a request for its bytes was answered
  with. -/
  named : ∀ id code bytes, (lowered m types options).code? id = some code →
      .address bytes ∈ code.items →
    ∃ i : Nat, (requestsOf m types options)[i]? = some bytes ∧
      answer? options.maxDataBytes (requestsOf m types options) i =
        some ((lowered m types options).linkage.address bytes)
  /-- Memory has the end of the heap, all segments, and what code expects at the addresses it
  pushes. -/
  loaded : ∀ memory, (m.compile types options).module.load = .ok memory →
    heapEnd? memory = some (m.compile types options).module.heapBase ∧
    ConstantData (m.compile types options).module memory ∧
    ∀ id code bytes, (lowered m types options).code? id = some code → .address bytes ∈ code.items →
      memory.read? ((lowered m types options).linkage.address bytes).toNat bytes.length = some bytes

/-- Constant data never overlaps. After any requests, whatever the limit, memory has at each address
with which a request was answered the bytes that were requested. This takes words for all addresses,
of which there are enough if the limit is below an eighth of the address space. The constant data of
a compiled module is that of the requests of its functions, also of those that are left out in the
end, and the addresses in its code are what such requests were answered with. -/
theorem constantData_exact [Hashing] :
    (∀ (limit : UInt64) (requests : List Bytes), (layoutAfter limit requests).next ≤
      8 + 8 * limit.toNat ∧
      ((layoutAfter limit requests).next < 2 ^ 64 → Intact limit requests)) ∧
    ∀ (m : Ssa.Module) (types : TypePool) (options : CodegenOptions),
      dataSize (m.compile types options).module.data.toList < 2 ^ 64 →
      KeepsData m types options := by
  refine ⟨fun limit requests => ⟨next_layoutAfter_le limit requests, intact_of_lt⟩,
    fun m types options hdata => ?_⟩
  have hend := hdata
  rw [dataSize_compile, data_lowered] at hend
  have hintact := intact_of_lt hend
  refine { intact := hintact, image := image_compile, heapBase := heapBase_compile_eq,
           loads := ?loads
           named := fun id code bytes => exists_request_of_address, loaded := ?loaded }
  case loads =>
    intro hheap
    rw [heapBase_compile_eq] at hheap
    obtain ⟨memory, hload⟩ := hintact.loads _ hheap
    refine ⟨memory, load_eq_ok_iff.mpr ⟨?_, forM_checkImport fun im => checkImport_of_mem⟩⟩
    rw [image_compile]
    exact hload
  case loaded =>
    intro memory hloaded
    have hload := (load_eq_ok_iff.mp hloaded).1
    rw [image_compile] at hload
    refine ⟨?_, ?_, fun id code bytes hcode hmem => read?_address hdata hcode hmem hloaded⟩
    · rw [heapBase_compile_eq]
      exact hintact.heapTop _ memory hload
    · intro s hs
      rw [image_compile] at hs
      exact read?_loadData hload (pairwise_image (fun s hs => (hintact.inside s hs).1)
        hintact.apart) (List.mem_cons_of_mem _ hs)

/-- Requests for a byte string, the empty one, the first one again, one that is too long, and
another. -/
def repeatedRequests : List Bytes := [[1, 2, 3], [], [1, 2, 3], [4, 5, 6, 7, 8, 9], [4, 5]]

/-- The empty byte string stands where the last one does. In the contract of `writerText`, memory
starts with the end of the heap. -/
theorem constantData_exact_repeated :
    (List.range 5).map (answer? 8 repeatedRequests) = [some 8, some 16, some 8, none, some 16] ∧
    (∀ size memory, Vm.loadData { size } (layoutAfter 8 repeatedRequests).image = .ok memory →
      memory.read? 16 2 = some [4, 5]) ∧
    ∃ memory, compiledWriter.module.load = .ok memory ∧
      heapEnd? memory = some compiledWriter.module.heapBase := by
  have hfacts : dataSize compiledWriter.module.data.toList < 2 ^ 64 ∧
      compiledWriter.module.heapBase.toNat ≤ compiledWriter.module.memoryPages * Vm.pageSize := by
    decide +kernel
  obtain ⟨hintact, hcompiled⟩ := @constantData_exact Hashing.sha256
  refine ⟨by decide +kernel, fun size memory hload => ?_, ?_⟩
  · have hrepeated := (hintact 8 repeatedRequests).2 (by decide +kernel)
    exact hrepeated.held 4 [4, 5] 16 rfl (by decide +kernel) size memory hload
  · obtain ⟨-, -, -, hloads, -, hloaded⟩ := hcompiled writerModule {} {} hfacts.1
    obtain ⟨memory, hload⟩ := hloads hfacts.2
    exact ⟨memory, hload, (hloaded memory hload).1⟩

end ContractCompiler.Codegen
