import ContractCompiler.Source
import Mathlib.Algebra.Group.Nat.Even
import Mathlib.Data.List.TakeWhile

/-!
# Positions in source texts

Whatever bytes a file holds and whatever a span says, the line and the column of an offset are
found, and the line of a span with what is underlined of it. An offset splits a text into the lines
before its own line, the parts of that line before and after it, and the lines that follow; the
offsets at which lines start are those of the first part and those of the last one, with the offset
between them. Offsets and positions are numbers of 32 bits, so texts are bounded: of a text of less
than `2 ^ 32 - 1` bytes, lines and columns are numbers of 32 bits as well.

- `upperBound?_append`: halving finds where the greater numbers begin;
- `Around`, `exists_around`: a text around an offset;
- `Around.lineIndex?`, `Around.start`, `Around.stop`: the line of an offset, where it starts and
  where it ends;
- `Sources.positions_exact`: the positions that a reader is shown.
-/

namespace ContractCompiler

/-! ## Offsets -/

theorem toNat_ofNat_of_le {n size : Nat} (hle : n ≤ size) (hsize : size < 2 ^ 32) :
    (UInt32.ofNat n).toNat = n :=
  UInt32.toNat_ofNat_of_lt' (Nat.lt_of_le_of_lt hle hsize)

/-- Lines and columns count from one. -/
theorem toNat_ofNat_add_one {n size : Nat} (hle : n ≤ size) (hsize : size + 1 < 2 ^ 32) :
    (UInt32.ofNat n + 1).toNat = n + 1 := by
  rw [UInt32.toNat_add, toNat_ofNat_of_le hle (Nat.lt_of_succ_lt hsize), UInt32.toNat_one]
  omega

theorem toNat_succ_offset {o : UInt32} {size : Nat} (hlt : o.toNat < size) (hsize : size < 2 ^ 32) :
    (o + 1).toNat = o.toNat + 1 := by
  rw [UInt32.toNat_add, UInt32.toNat_one]
  omega

theorem toNat_min_offset (a b : UInt32) : (min a b).toNat = min a.toNat b.toNat := by
  rw [show min a b = if a ≤ b then a else b from rfl]
  split <;> rename_i h <;> rw [UInt32.le_iff_toNat_le] at h <;> omega

theorem toNat_max_offset (a b : UInt32) : (max a b).toNat = max a.toNat b.toNat := by
  rw [show max a b = if a ≤ b then b else a from rfl]
  split <;> rename_i h <;> rw [UInt32.le_iff_toNat_le] at h <;> omega

/-! ## Halving -/

/-- Where the first numbers are not greater than a given one and the others are, halving finds the
first of the others. By induction on how many numbers are left: the place stays among them. -/
theorem upperBound?_append {low high : List UInt32} {x : UInt32} (hlow : ∀ y ∈ low, y ≤ x)
    (hhigh : ∀ y ∈ high, x < y) {first len : Nat} (hfirst : first ≤ low.length)
    (hlast : low.length ≤ first + len) (hlen : first + len ≤ low.length + high.length) :
    upperBound? (low ++ high).toArray x first len = some low.length := by
  induction len using Nat.strong_induction_on generalizing first with
  | _ len ih =>
    unfold upperBound?
    by_cases hzero : len = 0
    · rw [if_pos hzero]
      exact congrArg some (by omega)
    · rw [if_neg hzero, List.getElem?_toArray]
      by_cases hplace : first + len / 2 < low.length
      · have hle : low[first + len / 2] ≤ x := hlow _ (List.getElem_mem hplace)
        rw [List.getElem?_append_left hplace, List.getElem?_eq_getElem hplace, Option.bind_eq_bind,
          Option.bind_some, if_neg (UInt32.not_lt.mpr hle)]
        exact ih _ (by omega) (by omega) (by omega) (by omega)
      · have hbound : first + len / 2 - low.length < high.length := by omega
        have hlt : x < high[first + len / 2 - low.length] := hhigh _ (List.getElem_mem hbound)
        rw [List.getElem?_append_right (by omega), List.getElem?_eq_getElem hbound,
          Option.bind_eq_bind, Option.bind_some, if_pos hlt]
        exact ih _ (by omega) (by omega) (by omega) (by omega)

/-! ## Starts of lines -/

section Starts

variable {xs ys : Bytes} {o : UInt32}

theorem startsFrom_append (o : UInt32) (xs ys : Bytes) :
    startsFrom o (xs ++ ys) = startsFrom o xs ++ startsFrom (o + .ofNat xs.length) ys := by
  induction xs generalizing o with
  | nil => exact congrArg (startsFrom · ys) (UInt32.add_zero o).symm
  | cons b xs ih =>
    have hrest := ih (o + 1)
    rw [List.length_cons, Nat.add_comm xs.length 1, UInt32.ofNat_add, ← UInt32.add_assoc]
    rw [List.cons_append, startsFrom, startsFrom, hrest]
    split <;> rfl

theorem startsFrom_of_not_mem (hxs : lineBreak ∉ xs) (o : UInt32) : startsFrom o xs = [] := by
  induction xs generalizing o with
  | nil => rfl
  | cons b xs ih =>
    obtain ⟨hb, hxs⟩ := not_or.mp (mt List.mem_cons.mpr hxs)
    rw [startsFrom, if_neg (Ne.symm hb), ih hxs]

theorem length_startsFrom (o : UInt32) (xs : Bytes) :
    (startsFrom o xs).length = xs.count lineBreak := by
  induction xs generalizing o with
  | nil => rfl
  | cons b xs ih =>
    rw [startsFrom, List.count_cons]
    split
    · rename_i hb
      rw [List.length_cons, ih, hb, if_pos (beq_self_eq_true _)]
    · rename_i hb
      rw [ih, if_neg (by simpa using hb), Nat.add_zero]

/-- Lines start behind their line breaks, as long as offsets do not wrap around. -/
theorem mem_startsFrom {y : UInt32} (hy : y ∈ startsFrom o xs)
    (hsize : o.toNat + xs.length < 2 ^ 32) :
    o.toNat < y.toNat ∧ y.toNat ≤ o.toNat + xs.length := by
  induction xs generalizing o with
  | nil => cases hy
  | cons b xs ih =>
    rw [List.length_cons] at hsize ⊢
    have hnext : (o + 1).toNat = o.toNat + 1 := toNat_succ_offset (by omega) hsize
    rw [startsFrom] at hy
    split at hy
    · rcases List.mem_cons.mp hy with rfl | hy
      · omega
      · have hbounds := ih hy (by omega)
        omega
    · have hbounds := ih hy (by omega)
      omega

end Starts

/-! ## Lines -/

theorem splitOn_append_cons (xs ys : Bytes) :
    (xs ++ lineBreak :: ys).splitOn lineBreak = xs.splitOn lineBreak ++ ys.splitOn lineBreak :=
  List.splitOnP_append_cons xs ys (beq_self_eq_true _)

theorem length_splitOn (xs : Bytes) : (xs.splitOn lineBreak).length = xs.count lineBreak + 1 := by
  induction xs with
  | nil => rfl
  | cons b xs ih =>
    rw [List.splitOn] at ih ⊢
    rw [List.splitOnP_cons_eq_if_modifyHead, List.count_cons]
    split
    · rw [List.length_cons, ih]
    · rw [List.length_modifyHead, ih, Nat.add_zero]

/-! ## Parts of texts -/

theorem slice?_append {xs ys : Bytes} {lo hi : UInt32} (hlo : lo.toNat = xs.length)
    (hhi : hi.toNat = xs.length + ys.length) (zs : Bytes) :
    slice? (xs ++ ys ++ zs) lo hi = some ys := by
  have hrange : lo ≤ hi ∧ hi.toNat ≤ (xs ++ ys ++ zs).length := by
    rw [UInt32.le_iff_toNat_le, hlo, hhi]
    exact ⟨Nat.le_add_right _ _, by simp⟩
  unfold slice?
  rw [if_pos hrange, hlo, hhi, List.append_assoc, List.drop_left, Nat.add_sub_cancel_left,
    List.take_left]

/-- What follows the last line break of bytes. -/
def lastLine (bs : Bytes) : Bytes := (bs.reverse.takeWhile (· != lineBreak)).reverse

/-- A text around an offset: lines, the parts of a line before and after the offset, and what
follows that line. -/
structure Around (bs before left right after : Bytes) : Prop where
  split : bs = before ++ left ++ right ++ after
  before : before = [] ∨ ∃ lines, before = lines ++ [lineBreak]
  left : lineBreak ∉ left
  right : lineBreak ∉ right
  after : after = [] ∨ ∃ lines, after = lineBreak :: lines

theorem dropWhile_eq_nil_or_cons (bs : Bytes) :
    bs.dropWhile (· != lineBreak) = [] ∨ ∃ lines, bs.dropWhile (· != lineBreak) =
      lineBreak :: lines := by
  cases hrest : bs.dropWhile (· != lineBreak) with
  | nil => exact .inl rfl
  | cons b lines =>
    have hb := @List.head_dropWhile_not _ (· != lineBreak) bs (by simp [hrest])
    simp only [hrest, List.head_cons, bne_eq_false_iff_eq] at hb
    exact .inr ⟨lines, by rw [hb]⟩

theorem not_mem_takeWhile (bs : Bytes) : lineBreak ∉ bs.takeWhile (· != lineBreak) := by
  intro hmem
  simpa using List.mem_takeWhile_imp hmem

/-- Every offset splits a text. -/
theorem exists_around (bs : Bytes) (offset : Nat) : ∃ before after,
    Around bs before (lastLine (bs.take offset)) ((bs.drop offset).takeWhile (· != lineBreak))
      after ∧
      before ++ lastLine (bs.take offset) = bs.take offset := by
  have hjoin : ((bs.take offset).reverse.dropWhile (· != lineBreak)).reverse ++ lastLine
      (bs.take offset) = bs.take offset := by
    rw [lastLine, ← List.reverse_append, List.takeWhile_append_dropWhile, List.reverse_reverse]
  refine ⟨_, (bs.drop offset).dropWhile (· != lineBreak),
    ⟨?_, ?_, ?_, not_mem_takeWhile _, dropWhile_eq_nil_or_cons _⟩,
    hjoin⟩
  · rw [hjoin, List.append_assoc, List.takeWhile_append_dropWhile, List.take_append_drop]
  · rcases dropWhile_eq_nil_or_cons (bs.take offset).reverse with hnil | ⟨lines, hcons⟩
    · exact .inl (by rw [hnil]; rfl)
    · exact .inr ⟨lines.reverse, by rw [hcons, List.reverse_cons]⟩
  · rw [lastLine, List.mem_reverse]
    exact not_mem_takeWhile _

namespace Around

variable {bs before left right after : Bytes} {offset : UInt32}

/-- The offsets at which lines start, up to that of the line of the offset. -/
def starts (before : Bytes) : List UInt32 := 0 :: startsFrom 0 before

/-- The offsets at which lines start behind the line of the offset. -/
def laterStarts (before left right after : Bytes) : List UInt32 :=
  startsFrom (.ofNat (before.length + left.length + right.length)) after

/-- All offsets at which lines start. -/
def allStarts (before left right after : Bytes) : Array UInt32 :=
  (starts before ++ laterStarts before left right after).toArray

theorem length_eq (h : Around bs before left right after) :
    bs.length = before.length + left.length + right.length + after.length := by
  rw [h.split]
  simp [Nat.add_assoc]

theorem lineStarts?_eq (h : Around bs before left right after) (hsize : bs.length < 2 ^ 32) :
    lineStarts? bs = some (allStarts before left right after) := by
  have hfits : bs.length < UInt32.size := hsize
  unfold lineStarts? allStarts starts laterStarts
  rw [if_pos hfits, h.split, startsFrom_append, startsFrom_append, startsFrom_append,
    startsFrom_of_not_mem h.left, startsFrom_of_not_mem h.right, List.append_nil, List.append_nil,
    UInt32.zero_add, List.length_append, List.length_append, List.cons_append]

theorem length_starts (before : Bytes) : (starts before).length = before.count lineBreak + 1 :=
  congrArg (· + 1) (length_startsFrom 0 before)

/-- The line of the offset starts after the lines before it. -/
theorem getElem?_starts (h : Around bs before left right after) :
    (starts before)[before.count lineBreak]? = some (.ofNat before.length) := by
  rcases h.before with rfl | ⟨lines, rfl⟩
  · rfl
  · have hlast : startsFrom 0 (lines ++ [lineBreak]) =
      startsFrom 0 lines ++ [.ofNat (lines.length + 1)] := by
      rw [startsFrom_append, UInt32.zero_add, UInt32.ofNat_add]
      rfl
    rw [starts, hlast, List.count_append, List.count_singleton_self, List.getElem?_cons_succ,
      ← length_startsFrom 0, List.getElem?_append_right (Nat.le_refl _), Nat.sub_self,
      List.length_append]
    rfl

/-- The line of the offset is found by halving. -/
theorem lineIndex?_eq (h : Around bs before left right after) (hsize : bs.length < 2 ^ 32)
    (hoffset : offset.toNat = before.length + left.length) :
    lineIndex? (allStarts before left right after) offset =
      some (.ofNat (before.count lineBreak)) := by
  have hlength := h.length_eq
  have hlow : ∀ y ∈ starts before, y ≤ offset := by
    intro y hy
    rw [UInt32.le_iff_toNat_le, hoffset]
    rcases List.mem_cons.mp hy with rfl | hy
    · exact Nat.zero_le _
    · have hbounds := mem_startsFrom hy (by rw [UInt32.toNat_zero]; omega)
      rw [UInt32.toNat_zero] at hbounds
      omega
  have hhigh : ∀ y ∈ laterStarts before left right after, offset < y := by
    intro y hy
    have hstart : (UInt32.ofNat (before.length + left.length + right.length)).toNat = _ :=
      toNat_ofNat_of_le (by omega) hsize
    have hbounds := mem_startsFrom hy (by omega)
    rw [UInt32.lt_iff_toNat_lt]
    omega
  have hfound := @upperBound?_append _ _ _ hlow hhigh 0 (allStarts before left right after).size
      (Nat.zero_le _) (by simp [allStarts]) (by simp [allStarts])
  rw [length_starts] at hfound
  rw [lineIndex?]
  exact congrArg (Option.map _) hfound

theorem getElem?_allStarts (h : Around bs before left right after) :
    (allStarts before left right after)[before.count lineBreak]? = some (.ofNat before.length) := by
  rw [allStarts, List.getElem?_toArray, List.getElem?_append_left, h.getElem?_starts]
  rw [length_starts]
  exact Nat.lt_succ_self _

/-- The line of the offset ends where what follows it starts. -/
theorem lineEnd?_eq (h : Around bs before left right after) (hsize : bs.length + 1 < 2 ^ 32) :
    lineEnd? (allStarts before left right after) (.ofNat bs.length)
      (.ofNat (before.count lineBreak)) =
      some (.ofNat (before.length + left.length + right.length)) := by
  have hlength := h.length_eq
  have hcount : before.count lineBreak ≤ before.length := List.count_le_length
  have hindex : (UInt32.ofNat (before.count lineBreak) + 1).toNat = before.count lineBreak + 1 :=
    toNat_ofNat_add_one (by omega) hsize
  have hnext : (allStarts before left right after)[before.count lineBreak + 1]? =
      (laterStarts before left right after)[0]? := by
    rw [allStarts, List.getElem?_toArray, List.getElem?_append_right
      (Nat.le_of_eq (length_starts before)), length_starts, Nat.sub_self]
  unfold lineEnd?
  rw [hindex, hnext]
  rcases h.after with rfl | ⟨lines, rfl⟩
  · rw [hlength]
    rfl
  · have hnext : (UInt32.ofNat (before.length + left.length + right.length) + 1).toNat = _ :=
      toNat_ofNat_add_one (by omega) hsize
    have hne : UInt32.ofNat (before.length + left.length + right.length) + 1 ≠ 0 := by
      intro heq
      rw [heq, UInt32.toNat_zero] at hnext
      omega
    rw [laterStarts, startsFrom, if_pos rfl, List.getElem?_cons_zero]
    dsimp only
    rw [if_neg hne, UInt32.add_sub_cancel]

/-- The parts of the line of the offset. -/
theorem slices (h : Around bs before left right after) (hsize : bs.length < 2 ^ 32)
    (hoffset : offset.toNat = before.length + left.length) :
    slice? bs (.ofNat before.length) offset = some left ∧
      slice? bs (.ofNat before.length) (.ofNat (before.length + left.length + right.length)) =
        some (left ++ right) := by
  have hlength := h.length_eq
  have hstart : (UInt32.ofNat before.length).toNat = before.length :=
    toNat_ofNat_of_le (by omega) hsize
  constructor
  · rw [h.split, List.append_assoc]
    exact slice?_append hstart hoffset (right ++ after)
  · rw [h.split, List.append_assoc before]
    refine slice?_append hstart ?_ after
    rw [List.length_append, ← Nat.add_assoc]
    exact toNat_ofNat_of_le (by omega) hsize

/-- The part of the line after the offset, up to another offset. -/
theorem slice?_right (h : Around bs before left right after) (hsize : bs.length < 2 ^ 32)
    (hoffset : offset.toNat = before.length + left.length) {stop : UInt32}
    (hle : offset.toNat ≤ stop.toNat) :
    slice? bs offset (min stop (.ofNat (before.length + left.length + right.length))) =
      some (right.take (stop.toNat - offset.toNat)) := by
  have hlength := h.length_eq
  have hend : (UInt32.ofNat (before.length + left.length + right.length)).toNat = _ :=
    toNat_ofNat_of_le (by omega) hsize
  have hsplit : bs = (before ++ left) ++ right.take (stop.toNat - offset.toNat) ++
      (right.drop (stop.toNat - offset.toNat) ++ after) := by
    rw [List.append_assoc, ← List.append_assoc (List.take _ _), List.take_append_drop, h.split,
      List.append_assoc]
  have hstop : (min stop (.ofNat (before.length + left.length + right.length))).toNat =
      (before ++ left).length + (right.take (stop.toNat - offset.toNat)).length := by
    rw [toNat_min_offset, hend, List.length_append, List.length_take]
    omega
  rw [hsplit]
  exact slice?_append (hoffset.trans List.length_append.symm) hstop _

/-- The line of the offset is the one with its number. -/
theorem getElem?_splitOn (h : Around bs before left right after) :
    (bs.splitOn lineBreak)[before.count lineBreak]? = some (left ++ right) := by
  have hline : ((left ++ right ++ after).splitOn lineBreak)[0]? = some (left ++ right) := by
    have hsingle : (left ++ right).splitOn lineBreak = [left ++ right] := by
      refine List.splitOnP_eq_singleton fun b hb => ?_
      rw [beq_eq_false_iff_ne]
      rintro rfl
      exact (List.mem_append.mp hb).elim h.left h.right
    rcases h.after with rfl | ⟨lines, rfl⟩
    · rw [List.append_nil, hsingle]
      rfl
    · rw [splitOn_append_cons, hsingle]
      rfl
  have hsplit := h.split
  rw [List.append_assoc, List.append_assoc, ← List.append_assoc left] at hsplit
  rcases h.before with rfl | ⟨lines, rfl⟩
  · rw [hsplit]
    exact hline
  · rw [List.append_assoc, List.singleton_append] at hsplit
    rw [hsplit, splitOn_append_cons, List.count_append, List.count_singleton_self, ← length_splitOn,
      List.getElem?_append_right (Nat.le_refl _), Nat.sub_self, hline]

end Around

/-! ## Positions -/

section Positions

variable {f : SourceFile} {lo hi : UInt32}

theorem characterCount_append (xs ys : Bytes) :
    characterCount (xs ++ ys) = characterCount xs + characterCount ys :=
  List.countP_append

theorem characterCount_le_length (bs : Bytes) : characterCount bs ≤ bs.length :=
  List.countP_le_length

theorem length_lastLine_le (bs : Bytes) : (lastLine bs).length ≤ bs.length := by
  rw [lastLine, List.length_reverse]
  exact Nat.le_trans (List.takeWhile_sublist _).length_le (Nat.le_of_eq List.length_reverse)

/-- An offset past the end stands for the end, where nothing is to the right. -/
theorem exists_around_min (hsize : f.bytes.length < 2 ^ 32) (offset : UInt32) : ∃ before after,
    Around f.bytes before (lastLine (f.bytes.take offset.toNat))
        ((f.bytes.drop offset.toNat).takeWhile (· != lineBreak)) after ∧
      (min offset f.size).toNat = before.length + (lastLine (f.bytes.take offset.toNat)).length ∧
      before.count lineBreak = (f.bytes.take offset.toNat).count lineBreak := by
  obtain ⟨before, after, h, hjoin⟩ := exists_around f.bytes offset.toNat
  refine ⟨before, after, h, ?_, ?_⟩
  · rw [toNat_min_offset, SourceFile.size, toNat_ofNat_of_le (Nat.le_refl _) hsize,
      ← List.length_append, hjoin, List.length_take]
  · rw [← hjoin, List.count_append, List.count_eq_zero_of_not_mem h.left, Nat.add_zero]

/-- Line breaks of a text are looked up by their number in 32 bits. -/
theorem getElem?_allStarts_toNat {bs before left right after : Bytes}
    (h : Around bs before left right after) (hsize : bs.length < 2 ^ 32) :
    (Around.allStarts before left right after)[(UInt32.ofNat (before.count lineBreak)).toNat]? =
      some (.ofNat before.length) := by
  have hlength := h.length_eq
  have hcount : before.count lineBreak ≤ before.length := List.count_le_length
  rw [toNat_ofNat_of_le (show before.count lineBreak ≤ bs.length by omega) hsize]
  exact h.getElem?_allStarts

/-- The line and the column of an offset. -/
theorem lineCol?_eq (hsize : f.bytes.length + 1 < 2 ^ 32) (offset : UInt32) : f.lineCol? offset =
    some { line := .ofNat ((f.bytes.take offset.toNat).count lineBreak) + 1
           col := columns (lastLine (f.bytes.take offset.toNat)) + 1 } := by
  have hlt : f.bytes.length < 2 ^ 32 := Nat.lt_of_succ_lt hsize
  obtain ⟨before, after, h, hmin, hcount⟩ := exists_around_min hlt offset
  unfold SourceFile.lineCol?
  simp only [Option.bind_eq_bind, h.lineStarts?_eq hlt, Option.bind_some, h.lineIndex?_eq hlt hmin,
    getElem?_allStarts_toNat h hlt, (h.slices hlt hmin).1, ← hcount]
  rfl

/-- What a span covers of the line that it starts in. -/
def coveredBytes (bs : Bytes) (lo hi : Nat) : Bytes :=
  ((bs.drop lo).takeWhile (· != lineBreak)).take (hi - lo)

theorem coveredBytes_eq (bs : Bytes) (lo hi : Nat) : coveredBytes bs lo hi =
    ((bs.drop lo).takeWhile (· != lineBreak)).take
      (min (max hi (min lo bs.length)) bs.length - min lo bs.length) := by
  unfold coveredBytes
  have hlength : ((bs.drop lo).takeWhile (· != lineBreak)).length ≤ bs.length - lo :=
    Nat.le_trans (List.takeWhile_sublist _).length_le (Nat.le_of_eq List.length_drop)
  generalize (bs.drop lo).takeWhile (· != lineBreak) = right at hlength
  rw [List.take_eq_take_iff]
  omega

theorem length_coveredBytes_le (bs : Bytes) (lo hi : Nat) :
    (coveredBytes bs lo hi).length ≤ bs.length :=
  Nat.le_trans (List.take_sublist _ _).length_le
    (Nat.le_trans (List.takeWhile_sublist _).length_le (List.drop_sublist _ _).length_le)

/-- The line of a span, and what is underlined of it. -/
theorem snippet?_eq (hsize : f.bytes.length + 1 < 2 ^ 32) (lo hi : UInt32) :
    let covered := columns (coveredBytes f.bytes lo.toNat hi.toNat)
    f.snippet? lo hi =
      some { bytes := lastLine (f.bytes.take lo.toNat) ++
        (f.bytes.drop lo.toNat).takeWhile (· != lineBreak)
             line := .ofNat ((f.bytes.take lo.toNat).count lineBreak) + 1
             before := columns (lastLine (f.bytes.take lo.toNat))
             length := if covered = 0 then 1 else covered } := by
  have hlt : f.bytes.length < 2 ^ 32 := Nat.lt_of_succ_lt hsize
  obtain ⟨before, after, h, hmin, hcount⟩ := exists_around_min hlt lo
  have hfile : f.size.toNat = f.bytes.length := toNat_ofNat_of_le (Nat.le_refl _) hlt
  -- what the span covers of the text goes on behind the line
  have hstop : (min (max hi (min lo f.size)) f.size).toNat =
      min (max hi.toNat (min lo.toNat f.bytes.length)) f.bytes.length := by
    rw [toNat_min_offset, toNat_max_offset, toNat_min_offset, hfile]
  have hcovered := h.slice?_right hlt hmin
    (show (min lo f.size).toNat ≤ (min (max hi (min lo f.size)) f.size).toNat by
      rw [hstop, toNat_min_offset, hfile]
      omega)
  rw [hstop, toNat_min_offset, hfile, ← coveredBytes_eq] at hcovered
  have hend : lineEnd? _ f.size _ = _ := h.lineEnd?_eq hsize
  unfold SourceFile.snippet?
  simp only [Option.bind_eq_bind, h.lineStarts?_eq hlt, Option.bind_some, h.lineIndex?_eq hlt hmin,
    getElem?_allStarts_toNat h hlt, hend, h.slices hlt hmin, hcovered, ← hcount]
  rfl

/-- What is underlined of a line ends in it, if it is more than one column. -/
theorem underlined_le (bs : Bytes) (lo hi : Nat)
    (h : 1 < max 1 (characterCount (coveredBytes bs lo hi))) :
    characterCount (lastLine (bs.take lo)) + max 1 (characterCount (coveredBytes bs lo hi)) ≤
      characterCount (lastLine (bs.take lo) ++ (bs.drop lo).takeWhile (· != lineBreak)) := by
  have hle : characterCount (coveredBytes bs lo hi) ≤ characterCount
      ((bs.drop lo).takeWhile (· != lineBreak)) :=
    (List.take_sublist _ _).countP_le
  rw [characterCount_append]
  omega

theorem toNat_columns {bs : Bytes} {size : Nat} (hle : bs.length ≤ size) (hsize : size < 2 ^ 32) :
    (columns bs).toNat = characterCount bs :=
  toNat_ofNat_of_le (Nat.le_trans (characterCount_le_length bs) hle) hsize

/-- At least one column is underlined. -/
theorem toNat_underlined {bs : Bytes} {size : Nat} (hle : bs.length ≤ size)
    (hsize : size < 2 ^ 32) :
    (if columns bs = 0 then 1 else columns bs).toNat = max 1 (characterCount bs) := by
  have hcolumns := toNat_columns hle hsize
  split
  · rename_i hzero
    rw [hzero, UInt32.toNat_zero] at hcolumns
    rw [UInt32.toNat_one]
    omega
  · rename_i hne
    rw [← UInt32.toNat_inj, UInt32.toNat_zero] at hne
    omega

end Positions

/-- A reader is shown the exact position of every span in every text: its line and its column, the
text of the line, and under it what the span covers of the line. Nothing is looked up out of range
on the way. -/
theorem positions_exact {s : Sources} {span : Span} {f : SourceFile}
    (hf : s.file? span.file = some f) (hne : f.bytes ≠ []) (hsize : f.bytes.length + 1 < 2 ^ 32) :
    (f.lineCol? span.lo = some (s.lineCol span.file span.lo) ∧
      (s.lineCol span.file span.lo).line.toNat = (f.bytes.take span.lo.toNat).count lineBreak + 1 ∧
      (s.lineCol span.file span.lo).col.toNat =
        characterCount (lastLine (f.bytes.take span.lo.toNat)) + 1) ∧
    (f.snippet? span.lo span.hi = some (s.snippet span) ∧
      (s.snippet span).line = (s.lineCol span.file span.lo).line ∧
      (f.bytes.splitOn lineBreak)[(s.snippet span).line.toNat - 1]? = some (s.snippet span).bytes ∧
      (s.snippet span).before.toNat = (s.lineCol span.file span.lo).col.toNat - 1 ∧
      1 ≤ (s.snippet span).length.toNat ∧
      (1 < (s.snippet span).length.toNat →
        (s.snippet span).before.toNat + (s.snippet span).length.toNat ≤
          characterCount (s.snippet span).bytes)) := by
  have hlt : f.bytes.length < 2 ^ 32 := Nat.lt_of_succ_lt hsize
  have hlineCol : s.lineCol span.file span.lo = (f.lineCol? span.lo).getD {} := by
    rw [Sources.lineCol, hf]
    simp [SourceFile.lineCol, hne]
  have hsnippet : s.snippet span = (f.snippet? span.lo span.hi).getD {} := by
    rw [Sources.snippet, hf]
    simp [SourceFile.snippet, hne]
  have htake : (f.bytes.take span.lo.toNat).length ≤ f.bytes.length :=
    (List.take_sublist _ _).length_le
  have hlast := Nat.le_trans (length_lastLine_le (f.bytes.take span.lo.toNat)) htake
  have hline := toNat_ofNat_add_one
      (Nat.le_trans (List.count_le_length (a := lineBreak)) htake) hsize
  have hcolumn := toNat_columns hlast hlt
  have hcol := toNat_ofNat_add_one (Nat.le_trans (characterCount_le_length _) hlast) hsize
  have hunderlined := toNat_underlined
      (length_coveredBytes_le f.bytes span.lo.toNat span.hi.toNat) hlt
  obtain ⟨before, after, h, -, hcount⟩ := exists_around_min hlt span.lo
  rw [hlineCol, hsnippet, lineCol?_eq hsize, snippet?_eq hsize]
  dsimp only [Option.getD_some]
  rw [hline, hcolumn, hunderlined]
  refine ⟨⟨rfl, rfl, hcol⟩, rfl, rfl, ?_, ?_, Nat.le_max_left _ _,
    underlined_le f.bytes span.lo.toNat span.hi.toNat⟩
  · have hbytes := h.getElem?_splitOn
    rwa [hcount] at hbytes
  · rw [columns, hcol]
    rfl

/-- A text whose second line starts with a character of two bytes. -/
def accentedSources : Sources where
  files := #[{ name := "a", bytes := [0x78, 0x0A, 0xC3, 0xA9, 0x79] }]

/-- A span that ends before it starts, at the last character of the text. -/
theorem positions_exact_reversed :
    (accentedSources.lineCol 0 4).line.toNat = 2 ∧ (accentedSources.lineCol 0 4).col.toNat = 2 ∧
      (accentedSources.snippet { lo := 4, hi := 1 }).bytes = [0xC3, 0xA9, 0x79] ∧
      (accentedSources.snippet { lo := 4, hi := 1 }).before.toNat = 1 := by
  obtain ⟨⟨-, hline, hcol⟩, -, hnumber, hbytes, hbefore, -⟩ :=
    @positions_exact accentedSources { lo := 4, hi := 1 } _ rfl (by decide) (by decide)
  rw [hnumber, hline] at hbytes
  rw [hcol] at hbefore
  refine ⟨hline, hcol, (Option.some.inj (hbytes.symm.trans ?_)), hbefore⟩
  decide

end ContractCompiler
