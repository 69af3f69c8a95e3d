import ContractCompiler.Codegen.Program
import ContractCompiler.Proofs.CallGraph
import ContractCompiler.Proofs.Codegen.Flow
import Mathlib.Algebra.Ring.Nat
import Mathlib.Data.List.Perm.Subperm

/-!
# What is left, and its numbers

Functions in which something is wrong are left out together with their callers. The functions that
are left call only one another, and the numbers that calls, host calls and addresses get are those
of what they name.

- `DataLayout.Sound`: byte strings stand one after the other;
- `Lowering.Covers`: what is known after some functions have been lowered;
- `Lowering.Closed`: the functions that are left call only such functions; `closed_dropCallers`;
- `Lowering.function_linkage`: the number of a function is its place among those that are left;
- `exists_import`: the number of a host operation is the place of its import.
-/

namespace ContractCompiler

theorem Bytes.text?_utf8 (s : String) : Bytes.text? (Bytes.utf8 s) = some s := by
  unfold Bytes.text? Bytes.utf8
  rw [Array.toArray_toList]
  show String.fromUTF8? s.toByteArray = some s
  unfold String.fromUTF8?
  rw [dif_pos s.isValidUTF8]
  rfl

theorem HostOp.mem_all (op : HostOp) : op ∈ HostOp.all := by cases op <;> decide

namespace Codegen

open Ssa (FuncId)

/-! ## Data -/

theorem align8_add {n : Nat} (hn : 8 ∣ n) (k : Nat) : align8 (n + k) = n + align8 k := by
  obtain ⟨j, rfl⟩ := hn
  unfold align8
  omega

theorem align8_of_dvd {n : Nat} (hn : 8 ∣ n) : align8 n = n := align8_add hn 0

theorem le_align8 (n : Nat) : n ≤ align8 n := by
  unfold align8
  omega

theorem dvd_align8 (n : Nat) : 8 ∣ align8 n := Nat.dvd_mul_left 8 _

/-- How much memory segments take, each from a multiple of eight on. -/
def dataSize (segments : List Vm.DataSegment) : Nat :=
  (segments.map fun s => align8 s.bytes.length).sum

/-- Byte strings stand one after the other, behind the word for the end of the heap. -/
structure DataLayout.Sound (d : DataLayout) : Prop where
  next : d.next = 8 + dataSize d.segments.toList
  segment : ∀ s ∈ d.segments, ∃ offset, s.offset = UInt64.ofNat offset ∧
      offset + s.bytes.length ≤ d.next

namespace DataLayout

variable {d d' : DataLayout}

theorem sound_empty : Sound {} := ⟨rfl, by simp⟩

theorem Sound.dvd_next (h : d.Sound) : 8 ∣ d.next := by
  have hsize (segments : List Vm.DataSegment) : 8 ∣ dataSize segments := by
    induction segments with
    | nil => exact Nat.dvd_zero 8
    | cons s segments ih => exact Nat.dvd_add (dvd_align8 _) ih
  rw [h.next]
  exact Nat.dvd_add (Nat.dvd_refl 8) (hsize _)

theorem Sound.add? (h : d.Sound) {limit : Nat} {bytes : Bytes}
    (hadd : d.add? limit bytes = some d') :
    d'.Sound := by
  unfold DataLayout.add? at hadd
  split at hadd
  · exact Option.some.inj hadd ▸ h
  · split at hadd
    · cases hadd
    · obtain rfl := Option.some.inj hadd
      have hnext := h.next
      refine ⟨?_, fun s hs => ?_⟩
      · simp only [Array.toList_push, dataSize, List.map_append, List.sum_append, List.map_cons,
          List.map_nil, List.sum_cons, List.sum_nil, align8_add h.dvd_next] at hnext ⊢
        omega
      · show ∃ offset, s.offset = UInt64.ofNat offset ∧
          offset + s.bytes.length ≤ align8 (d.next + bytes.length)
        have hle := le_align8 (d.next + bytes.length)
        rcases Array.mem_push.mp hs with hs | rfl
        · obtain ⟨offset, hoffset, hbound⟩ := h.segment s hs
          exact ⟨offset, hoffset, by omega⟩
        · exact ⟨d.next, rfl, hle⟩

end DataLayout

theorem sound_layOut (limit : UInt64) (is : List Item) {d : DataLayout} (h : d.Sound) :
    (layOut limit is d).2.Sound := by
  fun_induction layOut limit is d with
  | case1 => exact h
  | case2 _ _ _ _ _ _ hadd ih => exact ih (h.add? hadd)
  | case3 _ _ _ _ _ _ _ _ hrest ih | case4 _ _ _ _ _ hrest ih =>
    rw [hrest] at ih
    exact ih h
  | case5 _ _ _ _ _ ih => exact ih h

/-- Nothing is wrong with code in which nothing was found wrong. -/
theorem fault_not_mem_of_layOut {limit : UInt64} {is : List Item} {d : DataLayout}
    (h : (layOut limit is d).1 = []) (fault : Fault) : .fault fault ∉ is := by
  fun_induction layOut limit is d with
  | case1 => exact List.not_mem_nil
  | case2 _ _ _ _ _ _ _ ih => exact List.not_mem_cons_of_ne_of_not_mem nofun (ih h)
  | case3 | case4 => cases h
  | case5 i _ _ _ hfault ih =>
    refine List.not_mem_cons_of_ne_of_not_mem (fun heq => ?_) (ih h)
    exact hfault fault heq.symm

/-! ## Functions -/

namespace Lowering

section Covers

variable [Hashing] {m : Ssa.Module} {types : TypePool} {unit : String} {options : CodegenOptions}
  {fs : List Ssa.Function} {l : Lowering}

/-- What is known after some functions have been lowered: their code, and that nothing is wrong with
those that are left. -/
structure Covers (m : Ssa.Module) (types : TypePool) (unit : String) (options : CodegenOptions)
    (fs : List Ssa.Function) (l : Lowering) : Prop where
  functions : l.functions.toList =
    fs.map fun f => if f.excluded then none else some (lowerFunction m types unit options f)
  size_alive : l.alive.size = fs.length
  alive : ∀ (id : FuncId) f, fs[id]? = some f → l.alive.getD id false = true → f.excluded = false ∧
    ∀ fault, .fault fault ∉ (lowerFunction m types unit options f).items
  data : l.data.Sound

theorem covers_empty : Covers m types unit options [] {} :=
  ⟨rfl, rfl, nofun, DataLayout.sound_empty⟩

omit [Hashing] in
/-- A function that is left after one more has been lowered was left before, or is that one. -/
theorem alive_push {alive : Array Bool} (hsize : alive.size = fs.length)
    {f g : Ssa.Function} {x : Bool} {id : FuncId} (hg : (fs ++ [f])[id]? = some g)
    (halive : (alive.push x).getD id false = true) :
    (fs[id]? = some g ∧ alive.getD id false = true) ∨ (g = f ∧ x = true) := by
  rw [Array.getD_eq_getD_getElem?, Array.getElem?_push, hsize] at halive
  rw [List.getElem?_append] at hg
  split at hg
  · rename_i hlt
    rw [if_neg hlt.ne] at halive
    exact .inl ⟨hg, by rwa [Array.getD_eq_getD_getElem?]⟩
  · rename_i hle
    have hid : id - fs.length = 0 := by
      have hlt := (List.getElem?_eq_some_iff.mp hg).1
      exact Nat.lt_one_iff.mp hlt
    rw [hid] at hg
    rw [if_pos (Nat.le_antisymm (Nat.sub_eq_zero_iff_le.mp hid) (Nat.not_lt.mp hle))] at halive
    exact .inr ⟨(Option.some.inj hg).symm, halive⟩

theorem Covers.add (h : l.Covers m types unit options fs) (f : Ssa.Function) :
    (l.add m types unit options f).Covers m types unit options (fs ++ [f]) := by
  unfold Lowering.add
  split
  · rename_i hexcl
    refine ⟨by simp [h.functions, hexcl], by simp [h.size_alive], fun id g hg halive => ?_, h.data⟩
    rcases alive_push h.size_alive hg halive with ⟨hg, halive⟩ | ⟨-, hfalse⟩
    · exact h.alive id g hg halive
    · cases hfalse
  · rename_i hincl
    refine ⟨by simp [h.functions, hincl], by simp [h.size_alive], fun id g hg halive => ?_,
      sound_layOut _ _ h.data⟩
    rcases alive_push h.size_alive hg halive with ⟨hg, halive⟩ | ⟨rfl, hempty⟩
    · exact h.alive id g hg halive
    · have hfaults := (List.append_eq_nil_iff.mp (List.isEmpty_iff.mp hempty)).1
      exact ⟨Bool.eq_false_iff.mpr hincl, fault_not_mem_of_layOut hfaults⟩

theorem covers_lowerAll (m : Ssa.Module) (types : TypePool) (unit : String)
    (options : CodegenOptions) :
    (lowerAll m types unit options).Covers m types unit options m.functions.toList := by
  have hfold (rest fs : List Ssa.Function) (l : Lowering) (h : l.Covers m types unit options fs) :
      (rest.foldl (fun l f => l.add m types unit options f) l).Covers m types unit options
        (fs ++ rest) := by
    induction rest generalizing fs l with
    | nil => simpa using h
    | cons f rest ih => simpa using ih (fs ++ [f]) _ (h.add f)
  unfold lowerAll
  rw [← Array.foldl_toList]
  exact hfold m.functions.toList [] {} covers_empty

end Covers

/-! ## Callers -/

/-- A state in which at most the same functions are left. -/
structure Drops (l l' : Lowering) : Prop where
  functions : l'.functions = l.functions
  data : l'.data = l.data
  size : l'.alive.size = l.alive.size
  alive : ∀ id : FuncId, l'.alive[id]? = some true → l.alive[id]? = some true

/-- The functions that are left call only functions that are left. -/
def Closed (l : Lowering) :
    Prop := ∀ id : FuncId, l.alive[id]? = some true → l.lostCallee? id = none

variable {l l' l'' : Lowering}

theorem getD_false_iff {alive : Array Bool} {id : Nat} :
    alive.getD id false = true ↔ alive[id]? = some true := by
  rw [Array.getD_eq_getD_getElem?]
  cases alive[id]? <;> simp

/-- Flags of which some were cleared are as before, or there are fewer of them. -/
theorem eq_or_count_lt {xs ys : List Bool} (hlength : xs.length = ys.length)
    (h : ∀ i : Nat, xs[i]? = some true → ys[i]? = some true) :
    xs = ys ∨ xs.count true < ys.count true := by
  induction xs generalizing ys with
  | nil => exact .inl (List.eq_nil_of_length_eq_zero hlength.symm).symm
  | cons x xs ih =>
    cases ys with
    | nil => cases hlength
    | cons y ys =>
      have hhead : x = true → y = true := by simpa using h 0
      have htail := ih (Nat.succ.inj hlength) fun i hi => by
        simpa using h (i + 1) (by simpa using hi)
      rcases htail with rfl | hlt
      · cases x <;> cases y <;> simp_all
      · refine .inr ?_
        cases x <;> cases y <;> simp_all
        omega

namespace Drops

theorem refl (l : Lowering) : l.Drops l := ⟨rfl, rfl, rfl, fun _ h => h⟩

theorem trans (h : l.Drops l') (h' : l'.Drops l'') : l.Drops l'' :=
  ⟨h'.functions.trans h.functions, h'.data.trans h.data, h'.size.trans h.size,
    fun id hid => h.alive id (h'.alive id hid)⟩

theorem eq_or_count_lt (h : l.Drops l') :
    l'.alive = l.alive ∨ l'.alive.toList.count true < l.alive.toList.count true := by
  refine (Lowering.eq_or_count_lt h.size fun i hi => ?_).imp_left Array.toList_inj.mp
  rw [Array.getElem?_toList] at hi ⊢
  exact h.alive i hi

/-- What lies between two states in which the same functions are left leaves the same. -/
theorem alive_eq (h : l.Drops l') (h' : l'.Drops l'') (heq : l''.alive = l.alive) :
    l'.alive = l.alive := by
  rcases h.eq_or_count_lt with hsame | hlt
  · exact hsame
  · rcases h'.eq_or_count_lt with hsame | hlt'
    · exact hsame.symm.trans heq
    · rw [heq] at hlt'
      omega

end Drops

theorem drops_dropCaller (m : Ssa.Module) (l : Lowering) (id : FuncId) :
    l.Drops (dropCaller m l id) := by
  unfold dropCaller
  split
  · split
    · refine ⟨rfl, rfl, Array.size_setIfInBounds, fun id' hid' => ?_⟩
      rw [Array.getElem?_setIfInBounds] at hid'
      split at hid'
      · split at hid' <;> cases hid'
      · exact hid'
    · exact .refl l
  · exact .refl l

theorem drops_foldl (m : Ssa.Module) (ids : List FuncId) (l : Lowering) :
    l.Drops (ids.foldl (dropCaller m) l) := by
  induction ids generalizing l with
  | nil => exact .refl l
  | cons id ids ih => exact (drops_dropCaller m l id).trans (ih _)

theorem drops_dropCallersRounds (m : Ssa.Module) (n : Nat) (l : Lowering) :
    l.Drops (dropCallersRounds m n l) := by
  induction n generalizing l with
  | zero => exact .refl l
  | succ n ih =>
    unfold dropCallersRounds
    dsimp only
    split
    · exact .refl l
    · exact (drops_foldl m _ l).trans (ih _)

/-- If a function is not left out, it calls none that is, or is left out already. -/
theorem dropCaller_eq {m : Ssa.Module} {id : FuncId} (h : (dropCaller m l id).alive = l.alive) :
    dropCaller m l id = l ∧ (l.alive[id]? = some true → l.lostCallee? id = none) := by
  unfold dropCaller at h ⊢
  split at h
  · rename_i halive
    rw [if_pos halive]
    split at h
    · -- The flag that was cleared was set.
      have hid := congrArg (fun a : Array Bool => a[id]?) h
      have hset := getD_false_iff.mp halive
      obtain ⟨hlt, -⟩ := Array.getElem?_eq_some_iff.mp hset
      simp only [Array.getElem?_setIfInBounds_self_of_lt hlt, hset] at hid
      cases hid
    · rename_i hnone
      exact ⟨rfl, fun _ => hnone⟩
  · rename_i hdead
    rw [if_neg hdead]
    exact ⟨rfl, fun halive => absurd (getD_false_iff.mpr halive) hdead⟩

theorem lostCallee?_of_foldl {m : Ssa.Module} {ids : List FuncId}
    (h : (ids.foldl (dropCaller m) l).alive = l.alive) {id : FuncId} (hid : id ∈ ids)
    (halive : l.alive[id]? = some true) : l.lostCallee? id = none := by
  induction ids with
  | nil => cases hid
  | cons id' ids ih =>
    have hsame := (drops_dropCaller m l id').alive_eq (drops_foldl m ids _) h
    obtain ⟨heq, hnone⟩ := dropCaller_eq hsame
    rcases List.mem_cons.mp hid with rfl | hid
    · exact hnone halive
    · rw [List.foldl_cons, heq] at h
      exact ih h hid

theorem closed_dropCallersRounds (m : Ssa.Module) (n : Nat) (l : Lowering)
    (hn : l.alive.toList.count true < n) :
    (dropCallersRounds m n l).Closed := by
  induction n generalizing l with
  | zero => cases hn
  | succ n ih =>
    have hdrops := drops_foldl m (List.range l.functions.size) l
    unfold dropCallersRounds
    dsimp only
    split
    · rename_i hsame
      intro id halive
      by_cases hid : id < l.functions.size
      · exact lostCallee?_of_foldl (beq_iff_eq.mp hsame) (List.mem_range.mpr hid) halive
      · unfold lostCallee?
        rw [Array.getElem?_eq_none (Nat.not_lt.mp hid)]
        rfl
    · rename_i hother
      refine ih _ ?_
      have := hdrops.eq_or_count_lt.resolve_left fun heq => hother (beq_iff_eq.mpr heq)
      omega

/-- The functions that are left in the end call only one another. -/
theorem closed_dropCallers (m : Ssa.Module) (hsize : l.alive.size = l.functions.size) :
    (l.dropCallers m).Closed := by
  refine closed_dropCallersRounds m _ l (Nat.lt_succ_of_le ?_)
  exact hsize ▸ List.count_le_length

theorem Covers.drops [Hashing] {m : Ssa.Module} {types : TypePool} {unit : String}
    {options : CodegenOptions} {fs : List Ssa.Function} (h : l.Covers m types unit options fs)
    (hdrops : l.Drops l') : l'.Covers m types unit options fs := by
  refine ⟨hdrops.functions ▸ h.functions, hdrops.size.trans h.size_alive, fun id f hf halive => ?_,
    hdrops.data ▸ h.data⟩
  exact h.alive id f hf (getD_false_iff.mpr (hdrops.alive id (getD_false_iff.mp halive)))

/-! ## Numbers -/

theorem mem_kept {id : FuncId} : id ∈ l.kept ↔ ∃ code, l.code? id = some code := by
  unfold kept
  rw [List.mem_filter, List.mem_range, Option.isSome_iff_exists]
  refine and_iff_right_of_imp ?_
  rintro ⟨code, hcode⟩
  unfold code? at hcode
  split at hcode
  · by_contra hlt
    rw [Array.getD_eq_getD_getElem?, Array.getElem?_eq_none (Nat.not_lt.mp hlt)] at hcode
    cases hcode
  · cases hcode

theorem nodup_kept (l : Lowering) : l.kept.Nodup := List.Nodup.filter _ List.nodup_range

/-- What is made from all members stands where they stand. -/
theorem getElem?_filterMap_of_isSome {α β : Type} {g : α → Option β} {xs : List α}
    (h : ∀ x ∈ xs, (g x).isSome = true) (i : Nat) : (xs.filterMap g)[i]? = (xs[i]?).bind g := by
  induction xs generalizing i with
  | nil => rfl
  | cons x xs ih =>
    obtain ⟨y, hy⟩ := Option.isSome_iff_exists.mp (h x List.mem_cons_self)
    rw [List.filterMap_cons_some hy]
    cases i with
    | zero => exact hy.symm
    | succ i => exact ih (fun x' hx' => h x' (List.mem_cons_of_mem x hx')) i

theorem getElem?_idxOf {α : Type} [BEq α] [LawfulBEq α] {xs : List α} {x : α} (hx : x ∈ xs) :
    xs[xs.idxOf x]? = some x := by
  have hlt := List.idxOf_lt_length_of_mem hx
  rw [List.getElem?_eq_getElem hlt, List.getElem_idxOf hlt]

theorem getD_numbers {ids : List FuncId} (hnodup : ids.Nodup) (n : Nat) {numbers : Array Nat}
    {id : FuncId} (hlt : id < numbers.size) :
    ((ids.zipIdx n).foldl (fun a x => a.setIfInBounds x.1 x.2) numbers).getD id 0 =
      if id ∈ ids then n + ids.idxOf id else numbers.getD id 0 := by
  induction ids generalizing n numbers with
  | nil => simp
  | cons id' ids ih =>
    obtain ⟨hnot, hnodup⟩ := List.nodup_cons.mp hnodup
    rw [List.zipIdx_cons, List.foldl_cons, ih hnodup (n + 1) (by simpa using hlt)]
    by_cases heq : id = id'
    · subst heq
      simp [hnot, Array.getD_eq_getD_getElem?, hlt]
    · by_cases hmem : id ∈ ids
      · simp only [hmem, if_true, List.mem_cons, or_true, List.idxOf_cons_ne ids (Ne.symm heq)]
        omega
      · simp [hmem, heq, Array.getD_eq_getD_getElem?, Array.getElem?_setIfInBounds_ne (Ne.symm heq)]

/-- The number of a function is its place among those that are left. -/
theorem function_linkage {id : FuncId} (hid : id ∈ l.kept) :
    l.linkage.function id = UInt64.ofNat (l.kept.idxOf id) := by
  have hlt : id < (Array.replicate l.functions.size 0).size := by
    have hrange := (List.mem_filter.mp hid).1
    simpa using hrange
  have hnumber := getD_numbers (nodup_kept l) 0 hlt
  rw [if_pos hid, Nat.zero_add] at hnumber
  exact congrArg UInt64.ofNat hnumber

theorem toNat_function_linkage {id : FuncId} (hid : id ∈ l.kept)
    (hword : l.kept.idxOf id < 2 ^ 64) :
    (l.linkage.function id).toNat = l.kept.idxOf id := by
  rw [function_linkage hid]
  exact UInt64.toNat_ofNat_of_lt' hword

end Lowering

/-! ## Imports -/

/-- The host has what an import names, with the arguments and the result that the code counts on. -/
theorem importOf_spec (op : HostOp) : ∃ im ref, importOf op = some im ∧ im.hostRef? = some ref ∧
    im.numArgs = hostTakes op ∧ im.hasResult.toNat = hostLeaves op ∧
    ref.function.arity = im.numArgs := by
  cases op <;>
  · refine ⟨_, _, rfl, ?_, rfl, rfl, rfl⟩
    simp only [Vm.Import.hostRef?, Bytes.text?_utf8]
    rfl

theorem isSome_importOf (op : HostOp) : (importOf op).isSome = true := by
  obtain ⟨im, -, him, -⟩ := importOf_spec op
  rw [him]
  rfl

theorem length_hostOps_le (l : Lowering) : l.hostOps.length ≤ 8 := by
  have hnodup : l.hostOps.Nodup := Ssa.nodup_eraseDups _ _ (Nat.le_refl _)
  exact (hnodup.subperm fun op _ => HostOp.mem_all op).length_le

/-- The number of a host operation is the place of its import. -/
theorem getElem?_imports {l : Lowering} {op : HostOp} (hop : op ∈ l.hostOps) :
    (l.hostOps.filterMap importOf)[(l.linkage.host op).toUInt32.toNat]? = importOf op := by
  have hlt := (List.idxOf_lt_length_of_mem hop).trans_le (length_hostOps_le l)
  have hnumber : (l.linkage.host op).toUInt32.toNat = l.hostOps.idxOf op := by
    show (UInt64.ofNat (l.hostOps.idxOf op)).toUInt32.toNat = _
    rw [UInt64.toNat_toUInt32, UInt64.toNat_ofNat_of_lt' (hlt.trans (by decide))]
    exact Nat.mod_eq_of_lt (hlt.trans (by decide))
  rw [hnumber, Lowering.getElem?_filterMap_of_isSome fun op _ => isSome_importOf op,
    Lowering.getElem?_idxOf hop]
  rfl

end Codegen

end ContractCompiler
