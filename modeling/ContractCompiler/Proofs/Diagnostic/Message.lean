import ContractCompiler.Diagnostic.Message
import Mathlib.Data.List.GetD

/-!
# What messages say

A message is its template with all holes filled at once, but not with the arguments as they are:
since holes are filled one number after the other, an argument that spells the hole of a later
argument has that one put into it as well. Arguments that spell no such hole stand in the message as
they are.

- `fillAtOnce`: a text with all its holes filled at once;
- `Wording`: a text taken apart at its holes; the templates keep their holes apart
  (`tidy_template`);
- `settle`: arguments with the holes of later ones filled;
- `message_eq_fillAtOnce`: what every message is;
- `message_verbatim`: messages whose arguments spell no holes of later ones;
- `message_of_hole`: a message that does not tell its arguments apart.
-/

namespace ContractCompiler

/-! ## Filling at once -/

/-- The hole that a text starts with, of those that have arguments. -/
def leadingHole? (n : Nat) (text : List Char) : Option Nat :=
  (List.range n).find? fun i => (hole i).toList.isPrefixOf text

/-- Fills all holes of a text that have arguments at once. What is put in is not looked at again. -/
def fillAtOnce (args : List (List Char)) : List Char → List Char
  | [] => []
  | c :: cs =>
    match leadingHole? args.length (c :: cs) with
    | some i => args.getD i [] ++ fillAtOnce args (cs.drop ((hole i).toList.length - 1))
    | none => c :: fillAtOnce args cs
termination_by cs => cs.length
decreasing_by
  all_goals simp only [List.length_drop, List.length_cons]; omega

/-! ## Holes -/

section Holes

variable {i j : Nat} {r xs ys : List Char}

theorem toList_hole (i : Nat) : (hole i).toList = '\x7b' :: (Nat.toDigits 10 i ++ ['\x7d']) := by
  simp [hole, Nat.repr_eq_ofList_toDigits]

theorem isDigit_of_mem {c : Char} (hc : c ∈ Nat.toDigits 10 i) : c.isDigit = true :=
  Nat.isDigit_of_mem_toDigits (by decide) (by decide) hc

theorem not_mem_digits (i : Nat) : '\x7b' ∉ Nat.toDigits 10 i ++ ['\x7d'] := by
  intro hmem
  rcases List.mem_append.mp hmem with hmem | hmem
  · cases isDigit_of_mem hmem
  · cases List.mem_singleton.mp hmem

/-- A text that starts with a hole starts with no other one. -/
theorem eq_of_startsWith_hole (h : (hole j).toList <+: (hole i).toList ++ ys) : j = i := by
  obtain ⟨rest, h⟩ := h
  rw [toList_hole, toList_hole, List.cons_append, List.cons_append, List.append_assoc,
    List.append_assoc] at h
  have hdigits := congrArg (List.takeWhile Char.isDigit) (List.cons.inj h).2
  rw [List.takeWhile_append_of_pos fun c => isDigit_of_mem,
    List.takeWhile_append_of_pos fun c => isDigit_of_mem] at hdigits
  have heq : Nat.toDigits 10 j = Nat.toDigits 10 i := by simpa using hdigits
  rw [← Nat.ofDigitChars_ten_toDigits (n := j), heq, Nat.ofDigitChars_ten_toDigits]

theorem not_startsWith_hole {c : Char} (hc : c ≠ '\x7b') :
    (hole j).toList.isPrefixOf (c :: xs) = false := by
  rw [toList_hole, List.isPrefixOf_cons_cons]
  simp [hc.symm]

theorem replaceAll_cons_of_ne {c : Char} (hc : c ≠ '\x7b') :
    replaceAll (hole j).toList r (c :: xs) = c :: replaceAll (hole j).toList r xs := by
  rw [replaceAll, not_startsWith_hole hc]
  rfl

/-- A text after which no hole goes on that starts before it. -/
def Apart : List Char → Prop
  | [] => True
  | c :: _ => c.isDigit = false ∧ c ≠ '\x7d'

theorem replaceAll_of_not_mem (hxs : '\x7b' ∉ xs) :
    replaceAll (hole j).toList r (xs ++ ys) = xs ++ replaceAll (hole j).toList r ys := by
  induction xs with
  | nil => rfl
  | cons c xs ih =>
    obtain ⟨hc, hxs⟩ := not_or.mp (mt List.mem_cons.mpr hxs)
    rw [List.cons_append, replaceAll_cons_of_ne (Ne.symm hc), ih hxs]
    rfl

/-- No hole starts before a text that is apart and goes on in it. -/
theorem isPrefixOf_append (hys : Apart ys) {c : Char} :
    (hole j).toList.isPrefixOf (c :: xs ++ ys) = (hole j).toList.isPrefixOf (c :: xs) := by
  rw [Bool.eq_iff_iff, List.isPrefixOf_iff_prefix, List.isPrefixOf_iff_prefix]
  refine ⟨fun h => ?_, fun h => h.trans (List.prefix_append _ _)⟩
  rcases Nat.le_total (hole j).toList.length (c :: xs).length with hle | hle
  · exact List.prefix_of_prefix_length_le h (List.prefix_append _ _) hle
  · obtain ⟨zs, hzs⟩ := List.prefix_of_prefix_length_le (List.prefix_append _ _) h hle
    cases zs with
    | nil => exact ⟨[], by rw [List.append_nil, ← hzs, List.append_nil]⟩
    | cons z zs =>
      -- The hole ends in the second text, which starts with one of its digits or with its end.
      rw [← hzs] at h
      obtain ⟨rest, hrest⟩ := (List.prefix_append_right_inj _).mp h
      rw [← hrest] at hys
      obtain ⟨hdigit, hend⟩ := hys
      rw [toList_hole, List.cons_append] at hzs
      have hz : z ∈ Nat.toDigits 10 j ++ ['\x7d'] := by
        rw [← (List.cons.inj hzs).2]
        simp
      rcases List.mem_append.mp hz with hz | hz
      · rw [isDigit_of_mem hz] at hdigit
        cases hdigit
      · exact absurd (List.mem_singleton.mp hz) hend

/-- Holes before a text that is apart are filled without it. -/
theorem replaceAll_append (hys : Apart ys) (xs : List Char) :
    replaceAll (hole j).toList r (xs ++ ys) =
      replaceAll (hole j).toList r xs ++ replaceAll (hole j).toList r ys := by
  induction xs using replaceAll.induct (hole j).toList with
  | case1 => rw [replaceAll, List.nil_append, List.nil_append]
  | case2 c xs hstarts ih =>
    have hlength : (hole j).toList.length - 1 ≤ xs.length :=
      Nat.sub_le_of_le_add (List.isPrefixOf_iff_prefix.mp hstarts).length_le
    rw [List.cons_append, replaceAll, ← List.cons_append, isPrefixOf_append hys,
      if_pos hstarts, replaceAll, if_pos hstarts, List.drop_append_of_le_length hlength, ih,
      List.append_assoc]
  | case3 c xs hstarts ih =>
    rw [List.cons_append, replaceAll, ← List.cons_append, isPrefixOf_append hys,
      if_neg hstarts, replaceAll, if_neg hstarts, ih, List.cons_append]

/-- Of the holes only the one with the number is filled. -/
theorem replaceAll_hole (i j : Nat) (r : List Char) :
    replaceAll (hole j).toList r (hole i).toList = if i = j then r else (hole i).toList := by
  by_cases heq : i = j
  · subst heq
    rw [if_pos rfl, toList_hole, replaceAll,
      if_pos (List.isPrefixOf_iff_prefix.mpr (List.prefix_refl _)),
      List.length_cons, Nat.add_sub_cancel, List.drop_length, replaceAll, List.append_nil]
  · have hstarts : ¬(hole j).toList.isPrefixOf ('\x7b' :: (Nat.toDigits 10 i ++ ['\x7d'])) =
      true := by
      rw [← toList_hole, List.isPrefixOf_iff_prefix]
      exact fun h => heq (eq_of_startsWith_hole (h.trans (List.prefix_append _ []))).symm
    have hrest := @replaceAll_of_not_mem j r _ [] (not_mem_digits i)
    rw [replaceAll, List.append_nil] at hrest
    rw [if_neg heq, toList_hole i, replaceAll, if_neg hstarts, hrest]

end Holes

/-! ## Wordings -/

/-- A text taken apart at its holes: what stands before the first one, and each hole with what
follows it. -/
structure Wording where
  lead : List Char := []
  holes : List (Nat × List Char) := []
deriving DecidableEq

namespace Wording

/-- The text with something in the place of each hole. -/
def fill (w : Wording) (value : Nat → List Char) : List Char :=
  w.lead ++ w.holes.flatMap fun x => value x.1 ++ x.2

/-- The text itself. -/
def text (w : Wording) : List Char := w.fill fun i => '\x7b' :: (Nat.toDigits 10 i ++ ['\x7d'])

theorem text_eq_fill (w : Wording) : w.text = w.fill fun i => (hole i).toList :=
  congrArg w.fill (funext fun i => (toList_hole i).symm)

/-- Takes a text apart at its holes, if their numbers have one digit. -/
def ofText : List Char → Wording
  | [] => {}
  | '\x7b' :: d :: '\x7d' :: cs =>
    { holes := (d.toNat - 48, (ofText cs).lead) :: (ofText cs).holes }
  | c :: cs => { lead := c :: (ofText cs).lead, holes := (ofText cs).holes }

/-- Between the holes stand texts without braces that keep them apart. -/
def Keeps : List (Nat × List Char) → Prop
  | [] => True
  | (_, after) :: rest => '\x7b' ∉ after ∧ Apart after ∧ (after = [] → rest = []) ∧ Keeps rest

/-- Only holes start with a brace, and there is text between them that keeps them apart. -/
def Tidy (w : Wording) : Prop := '\x7b' ∉ w.lead ∧ Keeps w.holes

instance : (ys : List Char) → Decidable (Apart ys)
  | [] => .isTrue trivial
  | c :: _ => inferInstanceAs (Decidable (c.isDigit = false ∧ c ≠ '\x7d'))

instance decidableKeeps : (hs : List (Nat × List Char)) → Decidable (Keeps hs)
  | [] => .isTrue trivial
  | (_, after) :: rest =>
    have := decidableKeeps rest
    inferInstanceAs (Decidable ('\x7b' ∉ after ∧ Apart after ∧ (after = [] → rest = []) ∧
      Keeps rest))

instance (w : Wording) : Decidable w.Tidy := inferInstanceAs (Decidable (_ ∧ _))

end Wording

/-- A text keeps its holes apart. -/
def KeepsHolesApart (text : List Char) : Prop :=
  (Wording.ofText text).Tidy ∧ (Wording.ofText text).text = text

instance (text : List Char) : Decidable (KeepsHolesApart text) :=
  inferInstanceAs (Decidable (_ ∧ _))

theorem keepsHolesApart_english (c : Cause) : KeepsHolesApart c.english.toList := by
  cases c with
  | tooManyErrors =>
    delta Cause.english
    dsimp only
    rw [String.toList_ofList]
    decide +kernel
  | _ =>
    delta Cause.english
    dsimp only
    simp only [toString, String.toList_append, toList_hole]
    repeat rw [String.toList_ofList]
    decide +kernel

theorem keepsHolesApart_korean (c : Cause) : KeepsHolesApart c.korean.toList := by
  cases c with
  | tooManyErrors =>
    delta Cause.korean
    dsimp only
    rw [String.toList_ofList]
    decide +kernel
  | _ =>
    delta Cause.korean
    dsimp only
    simp only [toString, String.toList_append, toList_hole]
    repeat rw [String.toList_ofList]
    decide +kernel

/-- The templates keep their holes apart. -/
theorem keepsHolesApart_template (c : Cause) (lang : Language) :
    KeepsHolesApart (c.template lang).toList := by
  cases lang with
  | english => exact keepsHolesApart_english c
  | korean => exact keepsHolesApart_korean c

/-! ## Filling a wording -/

section Filling

variable {w : Wording} {j : Nat} {r : List Char} {value : Nat → List Char} {args : List String}

namespace Wording

/-- What follows a hole keeps it apart from the next one. -/
theorem Keeps.apart {i : Nat} {after : List Char} {rest : List (Nat × List Char)}
    (h : Keeps ((i, after) :: rest)) (value : Nat → List Char) :
    Apart (after ++ rest.flatMap fun x => value x.1 ++ x.2) := by
  obtain ⟨-, hapart, hlast, -⟩ := h
  cases after with
  | nil =>
    rw [hlast rfl]
    trivial
  | cons c cs => exact hapart

/-- Filling one hole in a tidy wording fills it in what stands in the places of the holes. -/
theorem replaceAll_fill (hw : w.Tidy) (value : Nat → List Char) :
    replaceAll (hole j).toList r (w.fill value) =
      w.fill fun i => replaceAll (hole j).toList r (value i) := by
  obtain ⟨hlead, hkeeps⟩ := hw
  unfold fill
  rw [replaceAll_of_not_mem hlead]
  congr 1
  generalize w.holes = holes at hkeeps
  induction holes with
  | nil => rw [List.flatMap_nil, replaceAll, List.flatMap_nil]
  | cons x rest ih =>
    have hrest := ih hkeeps.2.2.2
    have hapart := hkeeps.apart value
    rw [List.flatMap_cons, List.append_assoc, replaceAll_append hapart,
      replaceAll_of_not_mem hkeeps.1, hrest, List.flatMap_cons, List.append_assoc]

theorem fillFrom_fill (hw : w.Tidy) (i : Nat) (value : Nat → List Char) (args : List String) :
    fillFrom i (w.fill value) args = w.fill fun k => fillFrom i (value k) args := by
  induction args generalizing i value with
  | nil => rfl
  | cons a as ih => rw [fillFrom, replaceAll_fill hw, ih]; rfl

end Wording

/-- Arguments from the given number on, with the holes of later ones filled. -/
def settle : Nat → List String → List (List Char)
  | _, [] => []
  | i, a :: as => fillFrom (i + 1) a.toList as :: settle (i + 1) as

/-- What comes to stand in the place of a hole. -/
theorem fillFrom_hole (i k : Nat) (args : List String) :
    fillFrom i (hole (i + k)).toList args = ((settle i args)[k]?).getD (hole (i + k)).toList := by
  induction args generalizing i k with
  | nil => rfl
  | cons a as ih =>
    rw [fillFrom, replaceAll_hole]
    cases k with
    | zero =>
      rw [if_pos (Nat.add_zero i)]
      rfl
    | succ k =>
      have hrest := ih (i + 1) k
      rw [Nat.add_assoc, Nat.add_comm 1 k] at hrest
      rw [if_neg (by omega), hrest, settle, List.getElem?_cons_succ]

variable {xs : List (List Char)} {ys zs : List Char}

theorem leadingHole?_hole (n i : Nat) (ys : List Char) :
    leadingHole? n ((hole i).toList ++ ys) = if i < n then some i else none := by
  have hiff (j : Nat) : (hole j).toList.isPrefixOf ((hole i).toList ++ ys) = true ↔ j = i := by
    rw [List.isPrefixOf_iff_prefix]
    refine ⟨eq_of_startsWith_hole, ?_⟩
    rintro rfl
    exact List.prefix_append _ _
  unfold leadingHole?
  split
  · rename_i hlt
    refine List.find?_range_eq_some.mpr ⟨(hiff i).mpr rfl, List.mem_range.mpr hlt, fun j hj => ?_⟩
    rw [Bool.not_eq_true', Bool.eq_false_iff, ne_eq, hiff]
    exact Nat.ne_of_lt hj
  · rename_i hlt
    refine List.find?_eq_none.mpr fun j hj hstarts => hlt ?_
    rw [← (hiff j).mp hstarts]
    exact List.mem_range.mp hj

theorem fillAtOnce_of_not_mem (hys : '\x7b' ∉ ys) (zs : List Char) :
    fillAtOnce xs (ys ++ zs) = ys ++ fillAtOnce xs zs := by
  induction ys with
  | nil => rfl
  | cons c ys ih =>
    obtain ⟨hc, hys⟩ := not_or.mp (mt List.mem_cons.mpr hys)
    have hnone : leadingHole? xs.length (c :: (ys ++ zs)) = none :=
      List.find?_eq_none.mpr fun j _ => by simp [not_startsWith_hole (Ne.symm hc)]
    rw [List.cons_append, fillAtOnce, hnone]
    exact congrArg (c :: ·) (ih hys)

theorem fillAtOnce_hole (i : Nat) (ys : List Char) :
    fillAtOnce xs ((hole i).toList ++ ys) = (xs[i]?).getD (hole i).toList ++ fillAtOnce xs ys := by
  have hleading := leadingHole?_hole xs.length i ys
  rw [toList_hole, List.cons_append] at hleading ⊢
  rw [fillAtOnce, hleading]
  by_cases hlt : i < xs.length
  · rw [if_pos hlt, List.getElem?_eq_getElem hlt]
    dsimp only
    rw [toList_hole, List.length_cons, Nat.add_sub_cancel, List.drop_left,
      List.getD_eq_getElem _ _ hlt]
    rfl
  · rw [if_neg hlt, List.getElem?_eq_none (Nat.le_of_not_lt hlt)]
    exact congrArg ('\x7b' :: ·) (fillAtOnce_of_not_mem (not_mem_digits i) ys)

/-- Filling a wording at once puts the arguments in the places of the holes. -/
theorem fillAtOnce_text (hw : w.Tidy) :
    fillAtOnce xs w.text = w.fill fun i => (xs[i]?).getD (hole i).toList := by
  obtain ⟨hlead, hkeeps⟩ := hw
  rw [Wording.text_eq_fill]
  unfold Wording.fill
  rw [fillAtOnce_of_not_mem hlead]
  congr 1
  generalize w.holes = holes at hkeeps
  induction holes with
  | nil => rw [List.flatMap_nil, fillAtOnce, List.flatMap_nil]
  | cons x rest ih =>
    obtain ⟨hafter, -, -, hrest⟩ := hkeeps
    rw [List.flatMap_cons, List.append_assoc, fillAtOnce_hole,
      fillAtOnce_of_not_mem hafter, ih hrest, List.flatMap_cons, List.append_assoc]

end Filling

/-! ## Messages -/

/-- A message is its template with the holes filled at once, each with its argument in which the
holes of later arguments have been filled. -/
theorem message_eq_fillAtOnce (d : Diagnostic) (lang : Language) :
    d.message lang = String.ofList (fillAtOnce (settle 0 d.args)
      (d.cause.template lang).toList) := by
  obtain ⟨htidy, htext⟩ := keepsHolesApart_template d.cause lang
  unfold Diagnostic.message fill
  rw [← htext, fillAtOnce_text htidy, Wording.text_eq_fill, Wording.fillFrom_fill htidy]
  congr 2
  funext i
  have hhole := fillFrom_hole 0 i d.args
  rwa [Nat.zero_add] at hhole

/-- Arguments of which none spells the hole of a later one. -/
def SpellNoLaterHoles (args : List String) : Prop :=
  ∀ i a, args[i]? = some a → ∀ j, i < j → j < args.length → ¬(hole j).toList <:+: a.toList

theorem replaceAll_of_absent {p r xs : List Char} (h : ¬p <:+: xs) : replaceAll p r xs = xs := by
  induction xs using replaceAll.induct p with
  | case1 => rw [replaceAll]
  | case2 c xs hstarts => exact absurd (List.isPrefixOf_iff_prefix.mp hstarts).isInfix h
  | case3 c xs hstarts ih =>
    rw [replaceAll, if_neg hstarts, ih fun hin => h (hin.trans (List.suffix_cons c xs).isInfix)]

theorem fillFrom_of_absent {xs : List Char} {i : Nat} {args : List String}
    (h : ∀ j, i ≤ j → j < i + args.length → ¬(hole j).toList <:+: xs) :
    fillFrom i xs args = xs := by
  induction args generalizing i with
  | nil => rfl
  | cons a as ih =>
    rw [List.length_cons] at h
    rw [fillFrom, replaceAll_of_absent (h i (Nat.le_refl i) (by omega))]
    exact ih fun j hij hj => h j (by omega) (by omega)

theorem settle_eq_map {i : Nat} {args : List String}
    (h : ∀ k a, args[k]? = some a → ∀ j, i + k < j → j < i + args.length →
      ¬(hole j).toList <:+: a.toList) :
    settle i args = args.map String.toList := by
  induction args generalizing i with
  | nil => rfl
  | cons a as ih =>
    rw [List.length_cons] at h
    rw [settle, fillFrom_of_absent fun j hij hj => h 0 a rfl j (by omega) (by omega), List.map_cons]
    exact congrArg (_ :: ·) (ih fun k b hb j hkj hj => h (k + 1) b hb j (by omega) (by omega))

/-- Arguments that spell no holes of later ones stand in the message as they are. -/
theorem message_verbatim (d : Diagnostic) (lang : Language) (hargs : SpellNoLaterHoles d.args) :
    d.message lang = String.ofList (fillAtOnce (d.args.map String.toList)
      (d.cause.template lang).toList) := by
  have hsettle : settle 0 d.args = d.args.map String.toList := by
    refine settle_eq_map fun k a ha j hkj hj => hargs k a ha j ?_ ?_ <;> omega
  rw [message_eq_fillAtOnce, hsettle]

/-- A first argument that spells the hole of the second one cannot be told from the second one. -/
theorem message_of_hole (c : Cause) (lang : Language) {a : String}
    (ha : ¬(hole 1).toList <:+: a.toList) :
    ({ cause := c, args := [hole 1, a] } : Diagnostic).message lang =
      ({ cause := c, args := [a, a] } : Diagnostic).message lang := by
  have hspelled : fillFrom 1 (hole 1).toList [a] = a.toList := fillFrom_hole 1 0 [a]
  have hkept : fillFrom 1 a.toList [a] = a.toList := by
    refine fillFrom_of_absent fun j hij hj => ?_
    obtain rfl : j = 1 := by simp at hj; omega
    exact ha
  have hsettle : settle 0 [hole 1, a] = settle 0 [a, a] :=
    congrArg (· :: settle 1 [a]) (hspelled.trans hkept.symm)
  rw [message_eq_fillAtOnce, message_eq_fillAtOnce, hsettle]

end ContractCompiler
