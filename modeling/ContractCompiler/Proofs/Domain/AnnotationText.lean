import ContractCompiler.Proofs.Domain.Annotation
import Mathlib.Data.List.Forall2

/-!
# How annotations are written

The grammar of annotations, apart from how they are read, and that reading accepts what is written
by it and nothing else: a name, then at most one parenthesised list of string literals with commas
between them. Spaces may stand between any two of these. Reading back what was written yields the
keys that were written.

- `Annotation.Spaces`, `Annotation.quoted`, `Annotation.Items`, `Annotation.ArgText`,
  `Annotation.Spells`: the grammar;
- `Annotation.literalRest?_iff`, `Annotation.literals?_sound`, `Annotation.argList?_sound`, and so
  on: each reader accepts its part of the grammar;
- `Annotation.scan_iff`: reading accepts exactly what is spelled;
- `Annotation.Broken`: texts with one of the faults that are turned down;
- `Annotation.Wraps`: an annotation with or without its brackets;
- `Annotation.Writes`: how keys are written;
- `annotations_exact`: annotations are read as they were written, and the inliner sees what they
  declare.
-/

namespace ContractCompiler

namespace Annotation

variable {cs rest w w' w'' : List Char} {c d : Char}

/-! ## Spaces -/

/-- Nothing but what may stand between tokens. -/
def Spaces (w : List Char) : Prop := ∀ c ∈ w, isSpace c = true

theorem spaces_nil : Spaces [] := fun _ h => absurd h List.not_mem_nil

theorem Spaces.append (h : Spaces w) (h' : Spaces w') : Spaces (w ++ w') :=
  fun c hc => (List.mem_append.mp hc).elim (h c) (h' c)

theorem skipSpaces_append (h : Spaces w) (cs : List Char) : skipSpaces (w ++ cs) = skipSpaces cs :=
  List.dropWhile_append_of_pos h

theorem skipSpaces_cons (hc : isSpace c = false) : skipSpaces (c :: cs) = c :: cs :=
  List.dropWhile_cons_of_neg (by simp [hc])

theorem exists_spaces (cs : List Char) : ∃ w, Spaces w ∧ cs = w ++ skipSpaces cs :=
  ⟨cs.takeWhile isSpace, fun _ hc => List.mem_takeWhile_imp hc,
    List.takeWhile_append_dropWhile.symm⟩

theorem skipSpaces_eq_nil : skipSpaces cs = [] ↔ Spaces cs := List.dropWhile_eq_nil_iff

theorem isSpace_of_isNameChar (hc : isNameChar c = true) : isSpace c = false := by
  by_contra hspace
  unfold isSpace at hspace
  simp only [Bool.not_eq_false, Bool.or_eq_true, decide_eq_true_eq] at hspace
  rcases hspace with ((((rfl | rfl) | rfl) | rfl) | rfl) | rfl <;> exact absurd hc (by decide)

theorem eat?_eq_some (hc : isSpace c = false) :
    eat? c cs = some rest ↔ ∃ w, Spaces w ∧ cs = w ++ c :: rest := by
  constructor
  · intro h
    obtain ⟨w, hw, hcs⟩ := exists_spaces cs
    unfold eat? at h
    cases hskip : skipSpaces cs with
    | nil => simp [hskip] at h
    | cons d tail =>
      rw [hskip] at h hcs
      dsimp only at h
      split at h
      · rename_i heq
        subst heq
        obtain rfl := Option.some.inj h
        exact ⟨w, hw, hcs⟩
      · cases h
  · rintro ⟨w, hw, rfl⟩
    unfold eat?
    rw [skipSpaces_append hw, skipSpaces_cons hc]
    exact if_pos rfl

theorem eat?_of_ne (hw : Spaces w) (hd : isSpace d = false) (hne : d ≠ c) :
    eat? c (w ++ d :: rest) = none := by
  unfold eat?
  rw [skipSpaces_append hw, skipSpaces_cons hd]
  exact if_neg hne

theorem eat?_of_spaces (hw : Spaces w) : eat? c w = none := by
  unfold eat?
  rw [skipSpaces_eq_nil.mpr hw]

/-! ## String literals -/

/-- Characters as they stand in a string literal. -/
def escape (s : List Char) : List Char :=
  s.flatMap fun c => if c = '"' ∨ c = '\\' then ['\\', c] else [c]

/-- A string literal. -/
def quoted (s : List Char) : List Char := '"' :: (escape s ++ ['"'])

theorem literalRest?_escape (s acc : List Char) (cs : List Char) :
    literalRest? acc (escape s ++ cs) = literalRest? (s.reverse ++ acc) cs := by
  induction s generalizing acc with
  | nil => rfl
  | cons c s ih =>
    rw [List.reverse_cons, List.append_assoc, List.singleton_append, ← ih]
    unfold escape
    rw [List.flatMap_cons]
    split
    · rename_i hc
      rw [List.append_assoc, List.cons_append, List.singleton_append, literalRest?, if_pos hc]
    · rename_i hc
      obtain ⟨hquote, hslash⟩ := not_or.mp hc
      rw [List.append_assoc, List.singleton_append, literalRest?, if_neg hslash]
      · exact fun heq => hquote heq
      · exact fun _ _ heq => absurd heq hslash

theorem escape_cons (c : Char) (s : List Char) :
    escape (c :: s) = (if c = '"' ∨ c = '\\' then ['\\', c] else [c]) ++ escape s :=
  List.flatMap_cons

theorem literalRest?_sound {acc : List Char} {t : String}
    (h : literalRest? acc cs = some (t, rest)) :
    ∃ s, cs = escape s ++ '"' :: rest ∧ t = String.ofList (acc.reverse ++ s) := by
  induction acc, cs using literalRest?.induct with
  | case1 acc => cases h
  | case2 acc rest' =>
    rw [literalRest?] at h
    cases h
    exact ⟨[], rfl, by rw [List.append_nil]⟩
  | case3 acc e rest' he ih =>
    rw [literalRest?, if_pos he] at h
    obtain ⟨s, rfl, rfl⟩ := ih h
    refine ⟨e :: s, ?_, by rw [List.reverse_cons, List.append_assoc]; rfl⟩
    rw [escape_cons, if_pos he]
    rfl
  | case4 acc e rest' he =>
    rw [literalRest?, if_neg he] at h
    cases h
  | case5 acc rest' hquote hescape =>
    rw [literalRest?.eq_4 _ _ _ hquote hescape, if_pos rfl] at h
    cases h
  | case6 acc c rest' hquote hescape hslash ih =>
    rw [literalRest?.eq_4 _ _ _ hquote hescape, if_neg hslash] at h
    obtain ⟨s, rfl, rfl⟩ := ih h
    refine ⟨c :: s, ?_, by rw [List.reverse_cons, List.append_assoc]; rfl⟩
    rw [escape_cons, if_neg (not_or.mpr ⟨hquote, hslash⟩)]
    rfl

theorem isSpace_quote : isSpace '"' = false := by decide

/-- What is read as a string literal is the literal of what is read. -/
theorem literal?_eq_some {t : String} :
    literal? cs = some (t, rest) ↔ ∃ w, Spaces w ∧ cs = w ++ quoted t.toList ++ rest := by
  constructor
  · intro h
    obtain ⟨w, hw, hcs⟩ := exists_spaces cs
    unfold literal? at h
    split at h
    · rename_i rest' hskip
      rw [hskip] at hcs
      obtain ⟨s, rfl, rfl⟩ := literalRest?_sound h
      refine ⟨w, hw, ?_⟩
      rw [hcs, String.toList_ofList]
      simp [quoted]
    · cases h
  · rintro ⟨w, hw, rfl⟩
    unfold literal? quoted
    rw [List.append_assoc, skipSpaces_append hw, List.cons_append, skipSpaces_cons isSpace_quote]
    show literalRest? [] (escape t.toList ++ ['"'] ++ rest) = _
    rw [List.append_assoc, literalRest?_escape, List.singleton_append, literalRest?,
      List.append_nil, List.reverse_reverse, String.ofList_toList]

/-! ## Lists of literals -/

/-- String literals with commas between them. -/
inductive Items : List String → List Char → Prop where
  | one {s : String} {w : List Char} (hw : Spaces w) : Items [s] (w ++ quoted s.toList)
  | more {s : String} {ss : List String} {w w' cs : List Char} (hw : Spaces w) (hw' : Spaces w')
      (h : Items ss cs) : Items (s :: ss) (w ++ quoted s.toList ++ w' ++ ',' :: cs)

theorem literals?_sound {fuel : Nat} {ss : List String} (h : literals? fuel cs = some (ss, rest)) :
    ∃ items w, Items ss items ∧ Spaces w ∧ cs = items ++ w ++ ')' :: rest := by
  induction fuel generalizing cs ss with
  | zero => cases h
  | succ fuel ih =>
    unfold literals? at h
    split at h
    · cases h
    · rename_i s rest₁ hliteral
      obtain ⟨w, hw, rfl⟩ := literal?_eq_some.mp hliteral
      split at h
      · rename_i rest₂ hcomma
        obtain ⟨w', hw', rfl⟩ := (eat?_eq_some (by decide)).mp hcomma
        obtain ⟨⟨ss', rest'⟩, hrest, heq⟩ := Option.map_eq_some_iff.mp h
        cases heq
        obtain ⟨items, w'', hitems, hw'', rfl⟩ := ih hrest
        exact ⟨_, w'', .more hw hw' hitems, hw'', by simp⟩
      · obtain ⟨rest', hclose, heq⟩ := Option.map_eq_some_iff.mp h
        cases heq
        obtain ⟨w', hw', rfl⟩ := (eat?_eq_some (by decide)).mp hclose
        exact ⟨_, w', .one hw, hw', by simp⟩

theorem literals?_complete {items : List Char} {ss : List String} (h : Items ss items)
    (hw : Spaces w) {fuel : Nat} (hfuel : ss.length ≤ fuel) :
    literals? fuel (items ++ w ++ ')' :: rest) = some (ss, rest) := by
  induction h generalizing fuel with
  | @one s w₁ hw₁ =>
    obtain ⟨fuel, rfl⟩ : ∃ n, fuel = n + 1 := ⟨fuel - 1, by simp at hfuel; omega⟩
    have hliteral : literal? (w₁ ++ quoted s.toList ++ w ++ ')' :: rest) =
        some (s, w ++ ')' :: rest) :=
      literal?_eq_some.mpr ⟨w₁, hw₁, by simp⟩
    unfold literals?
    rw [hliteral]
    dsimp only
    rw [eat?_of_ne hw (by decide) (by decide), (eat?_eq_some (by decide)).mpr ⟨w, hw, rfl⟩]
    rfl
  | @more s ss w₁ w₂ cs hw₁ hw₂ _ ih =>
    obtain ⟨fuel, rfl⟩ : ∃ n, fuel = n + 1 := ⟨fuel - 1, by simp at hfuel; omega⟩
    have hliteral : literal? (w₁ ++ quoted s.toList ++ w₂ ++ ',' :: cs ++ w ++ ')' :: rest) =
        some (s, w₂ ++ ',' :: (cs ++ w ++ ')' :: rest)) :=
      literal?_eq_some.mpr ⟨w₁, hw₁, by simp⟩
    unfold literals?
    rw [hliteral]
    dsimp only
    rw [(eat?_eq_some (by decide)).mpr ⟨w₂, hw₂, rfl⟩]
    dsimp only
    rw [ih (by simp at hfuel; omega)]
    rfl

theorem Items.length_le {ss : List String} (h : Items ss cs) : ss.length ≤ cs.length := by
  induction h with
  | one _ =>
    simp [quoted]
    omega
  | more _ _ _ ih =>
    simp
    omega

/-- An argument list, or none. -/
inductive ArgText : Option (List String) → List Char → Prop where
  | none : ArgText none []
  | empty {w w' : List Char} (hw : Spaces w) (hw' : Spaces w') :
      ArgText (some []) (w ++ '(' :: (w' ++ [')']))
  | items {w w' cs : List Char} {ss : List String} (hw : Spaces w) (hw' : Spaces w')
      (h : Items ss cs) :
      ArgText (some ss) (w ++ '(' :: (cs ++ w' ++ [')']))

theorem argList?_sound {args : Option (List String)} (h : argList? cs = some (args, rest)) :
    ∃ text, ArgText args text ∧ cs = text ++ rest := by
  unfold argList? at h
  split at h
  · cases h
    exact ⟨[], .none, rfl⟩
  · rename_i rest₁ hopen
    obtain ⟨w, hw, rfl⟩ := (eat?_eq_some (by decide)).mp hopen
    split at h
    · rename_i rest₂ hclose
      cases h
      obtain ⟨w', hw', rfl⟩ := (eat?_eq_some (by decide)).mp hclose
      exact ⟨_, .empty hw hw', by simp⟩
    · obtain ⟨⟨ss, rest'⟩, hitems, heq⟩ := Option.map_eq_some_iff.mp h
      cases heq
      obtain ⟨items, w', hspelled, hw', rfl⟩ := literals?_sound hitems
      exact ⟨_, .items hw hw' hspelled, by simp⟩

theorem exists_quote_of_items {ss : List String} (h : Items ss cs) :
    ∃ w rest, Spaces w ∧ cs = w ++ '"' :: rest := by
  cases h with
  | one hw => exact ⟨_, _, hw, rfl⟩
  | @more s _ w w' cs hw _ _ => exact ⟨w, escape s.toList ++ '"' :: (w' ++ ',' :: cs), hw,
      by simp [quoted]⟩

theorem argList?_some {ss : List String} {text : List Char} (h : ArgText (some ss) text) :
    argList? (text ++ rest) = some (some ss, rest) := by
  unfold argList?
  cases h with
  | @empty w w' hw hw' =>
    have hopen : eat? '(' (w ++ '(' :: (w' ++ [')']) ++ rest) = some (w' ++ ')' :: rest) :=
      (eat?_eq_some (by decide)).mpr ⟨w, hw, by simp⟩
    rw [hopen]
    dsimp only
    rw [(eat?_eq_some (by decide)).mpr ⟨w', hw', rfl⟩]
  | @items w w' cs _ hw hw' hitems =>
    have hopen : eat? '(' (w ++ '(' :: (cs ++ w' ++ [')']) ++ rest) =
        some (cs ++ w' ++ ')' :: rest) :=
      (eat?_eq_some (by decide)).mpr ⟨w, hw, by simp⟩
    have hclose : eat? ')' (cs ++ w' ++ ')' :: rest) = none := by
      obtain ⟨w₁, rest₁, hw₁, rfl⟩ := exists_quote_of_items hitems
      rw [List.append_assoc, List.append_assoc, List.cons_append]
      exact eat?_of_ne hw₁ isSpace_quote (by decide)
    rw [hopen]
    dsimp only
    rw [hclose]
    dsimp only
    rw [literals?_complete hitems hw']
    · rfl
    · have := hitems.length_le
      simp
      omega

/-! ## Whole annotations -/

/-- A text that begins with a name, and what follows the name. -/
theorem name_append {n : List Char} (hw : Spaces w) (hne : n ≠ [])
    (hn : ∀ c ∈ n, isNameChar c = true)
    (hrest : ∀ c tail, rest = c :: tail → isNameChar c = false) :
    name (w ++ n ++ rest) = (String.ofList n, rest) := by
  obtain ⟨c, n, rfl⟩ := List.exists_cons_of_ne_nil hne
  have hstop : rest.takeWhile isNameChar = [] ∧ rest.dropWhile isNameChar = rest := by
    cases rest with
    | nil => exact ⟨rfl, rfl⟩
    | cons c tail => simp [hrest c tail rfl]
  unfold name
  dsimp only
  rw [List.append_assoc, skipSpaces_append hw, List.cons_append,
    skipSpaces_cons (isSpace_of_isNameChar (hn c (.head _))), ← List.cons_append,
    List.takeWhile_append_of_pos hn, List.dropWhile_append_of_pos hn, hstop.1, hstop.2,
    List.append_nil]

theorem name_spec (cs : List Char) : ∃ w n, Spaces w ∧ (∀ c ∈ n, isNameChar c = true) ∧
    cs = w ++ n ++ (name cs).2 ∧ (name cs).1 = String.ofList n := by
  obtain ⟨w, hw, hcs⟩ := exists_spaces cs
  refine ⟨w, (skipSpaces cs).takeWhile isNameChar, hw,
    fun _ hc => List.mem_takeWhile_imp hc, ?_, rfl⟩
  unfold name
  dsimp only
  rw [List.append_assoc, List.takeWhile_append_dropWhile]
  exact hcs

/-- A text that spells an annotation: a name and its arguments, with spaces around them. -/
inductive Spells : String → Option (List String) → List Char → Prop where
  | mk {n : List Char} {args : Option (List String)} {w w' text : List Char} (hw : Spaces w)
      (hne : n ≠ []) (hn : ∀ c ∈ n, isNameChar c = true) (hargs : ArgText args text)
      (hw' : Spaces w') : Spells (String.ofList n) args (w ++ n ++ text ++ w')

/-- The name and the arguments of an annotation, if it has a name and nothing follows its
arguments. -/
def scan (cs : List Char) : Option (String × Option (List String)) :=
  if (name cs).1.isEmpty then none
  else (argList? (name cs).2).bind fun r =>
    if (skipSpaces r.2).isEmpty then some ((name cs).1, r.1) else none

theorem read_eq (acc : Annotations) (text : String) (n : String) (args : Option (List String))
    (h : scan (body text) = some (n, args)) : read acc text = apply acc n args := by
  unfold scan at h
  split at h
  · cases h
  · rename_i hname
    obtain ⟨⟨args', rest⟩, hargs, h⟩ := Option.bind_eq_some_iff.mp h
    dsimp only at h
    split at h
    · rename_i hrest
      cases h
      unfold read
      dsimp only
      rw [if_neg hname, hargs]
      dsimp only
      rw [if_pos hrest]
    · cases h

theorem read_of_scan_eq_none (acc : Annotations) {text : String} (h : scan (body text) = none) :
    ∃ fault, read acc text = .error fault := by
  unfold read
  dsimp only
  split
  · exact ⟨_, rfl⟩
  · rename_i hname
    split
    · rename_i args rest hargs
      split
      · rename_i hrest
        unfold scan at h
        rw [if_neg hname, hargs, Option.bind_some, if_pos hrest] at h
        cases h
      · exact ⟨_, rfl⟩
    · exact ⟨_, rfl⟩

theorem scan_sound {n : String} {args : Option (List String)} (h : scan cs = some (n, args)) :
    Spells n args cs := by
  unfold scan at h
  split at h
  · cases h
  · rename_i hname
    obtain ⟨⟨args', rest⟩, hargs, h⟩ := Option.bind_eq_some_iff.mp h
    dsimp only at h
    split at h
    · rename_i hrest
      cases h
      obtain ⟨w, n, hw, hn, hcs, hn'⟩ := name_spec cs
      obtain ⟨text, htext, hsplit⟩ := argList?_sound hargs
      rw [hsplit, ← List.append_assoc] at hcs
      rw [hn'] at hname ⊢
      rw [hcs]
      refine .mk hw ?_ hn htext (skipSpaces_eq_nil.mp (List.isEmpty_iff.mp hrest))
      rintro rfl
      exact hname rfl
    · cases h

theorem exists_paren_of_argText {ss : List String} {text : List Char} (h : ArgText (some ss) text) :
    ∃ w rest, Spaces w ∧ text = w ++ '(' :: rest := by
  cases h with
  | empty hw _ => exact ⟨_, _, hw, rfl⟩
  | items hw _ _ => exact ⟨_, _, hw, rfl⟩

theorem not_isNameChar_of_spaces (hw : Spaces (c :: w)) : isNameChar c = false :=
  Bool.eq_false_iff.mpr fun hname =>
    absurd (hw c (.head _)) (Bool.eq_false_iff.mp (isSpace_of_isNameChar hname))

/-- What stands after a name is not part of it, if it starts with a space or another character. -/
theorem not_isNameChar_of_append (hw : Spaces w) (hname : isNameChar c = false) (tail : List Char) :
    ∀ d tail', w ++ c :: tail = d :: tail' → isNameChar d = false := by
  intro d tail' heq
  cases w with
  | nil =>
    cases heq
    exact hname
  | cons e w =>
    cases heq
    exact not_isNameChar_of_spaces hw

theorem isEmpty_ofList {n : List Char} (hne : n ≠ []) : (String.ofList n).isEmpty = false := by
  rw [Bool.eq_false_iff, ne_eq, String.isEmpty_iff, ← String.toList_inj, String.toList_ofList]
  exact hne

/-- Reading gets past the name of an annotation to its arguments. -/
theorem scan_append {n : List Char} (hw : Spaces w) (hne : n ≠ [])
    (hn : ∀ c ∈ n, isNameChar c = true)
    (hrest : ∀ c tail, rest = c :: tail → isNameChar c = false) : scan (w ++ n ++ rest) =
      (argList? rest).bind fun r => if (skipSpaces r.2).isEmpty then some (String.ofList n, r.1)
        else none := by
  unfold scan
  rw [name_append hw hne hn hrest]
  dsimp only
  rw [isEmpty_ofList hne, if_neg Bool.false_ne_true]

theorem scan_complete {n : String} {args : Option (List String)} (h : Spells n args cs) :
    scan cs = some (n, args) := by
  obtain @⟨n, args, w, w', text, hw, hne, hn, hargs, hw'⟩ := h
  rw [List.append_assoc]
  cases args with
  | none =>
    obtain rfl : text = [] := by cases hargs; rfl
    rw [List.nil_append, scan_append hw hne hn fun _ _ heq => not_isNameChar_of_spaces (heq ▸ hw')]
    unfold argList?
    rw [eat?_of_spaces hw', Option.bind_some, skipSpaces_eq_nil.mpr hw']
    rfl
  | some ss =>
    have hrest : ∀ c tail, text ++ w' = c :: tail → isNameChar c = false := by
      obtain ⟨v, rest, hv, rfl⟩ := exists_paren_of_argText hargs
      rw [List.append_assoc]
      exact not_isNameChar_of_append hv (by decide) (rest ++ w')
    rw [scan_append hw hne hn hrest, argList?_some hargs, Option.bind_some,
      skipSpaces_eq_nil.mpr hw']
    rfl

theorem scan_iff {n : String} {args : Option (List String)} :
    scan cs = some (n, args) ↔ Spells n args cs :=
  ⟨scan_sound, scan_complete⟩

/-! ## Faulty annotations -/

/-- What stands where a list of literals should go on, with a fault. -/
inductive BadItems : List Char → Prop where
  /-- There is no literal. -/
  | missing {cs : List Char} (h : ∀ tail, skipSpaces cs ≠ '"' :: tail) : BadItems cs
  /-- A literal has no closing quote. -/
  | unterminated {w s : List Char} (hw : Spaces w) : BadItems (w ++ '"' :: escape s)
  /-- A literal ends with the escaping of nothing. -/
  | cutEscape {w s : List Char} (hw : Spaces w) : BadItems (w ++ '"' :: (escape s ++ ['\\']))
  /-- A literal escapes another character than a quote or a backslash. -/
  | unknownEscape {w s rest : List Char} {c : Char} (hw : Spaces w) (hquote : c ≠ '"')
      (hslash : c ≠ '\\') :
      BadItems (w ++ '"' :: (escape s ++ '\\' :: c :: rest))
  /-- After a literal there is neither a comma nor the closing parenthesis. -/
  | unclosed {s : String} {w rest : List Char} (hw : Spaces w)
      (h : ∀ c tail, skipSpaces rest = c :: tail → c ≠ ',' ∧ c ≠ ')') :
        BadItems (w ++ quoted s.toList ++ rest)
  /-- The last literal is followed by a comma. -/
  | trailingComma {s : String} {w w' w'' rest : List Char} (hw : Spaces w) (hw' : Spaces w')
      (hw'' : Spaces w'') :
      BadItems (w ++ quoted s.toList ++ w' ++ ',' :: (w'' ++ ')' :: rest))
  /-- The fault is further on. -/
  | later {s : String} {w w' cs : List Char} (hw : Spaces w) (hw' : Spaces w') (h : BadItems cs) :
      BadItems (w ++ quoted s.toList ++ w' ++ ',' :: cs)

/-- Texts of annotations with a fault. -/
inductive Broken : List Char → Prop where
  /-- The list has a fault, and does not end at once. -/
  | badList {n w w' cs : List Char} (hw : Spaces w) (hne : n ≠ [])
      (hn : ∀ c ∈ n, isNameChar c = true) (hw' : Spaces w') (h : BadItems cs)
      (hopen : ∀ tail, skipSpaces cs ≠ ')' :: tail) : Broken (w ++ n ++ w' ++ '(' :: cs)
  /-- What follows the name does not start with a parenthesis. -/
  | notOpened {n w w' rest : List Char} {c : Char} (hw : Spaces w) (hne : n ≠ [])
      (hn : ∀ c ∈ n, isNameChar c = true) (hw' : Spaces w') (hspace : isSpace c = false)
      (hname : isNameChar c = false) (hparen : c ≠ '(') : Broken (w ++ n ++ w' ++ c :: rest)
  /-- Something follows the closing parenthesis. -/
  | trailing {n : String} {ss : List String} {cs rest : List Char} {c : Char}
      (h : Spells n (some ss) cs) (hspace : isSpace c = false) : Broken (cs ++ c :: rest)
  /-- A read or write set has no parentheses at all. -/
  | noList {n : String} {cs : List Char} (h : Spells n none cs)
      (hn : n = "reads" ∨ n = "writes") : Broken cs

theorem eat?_eq_none (h : ∀ tail, skipSpaces cs ≠ c :: tail) : eat? c cs = none := by
  unfold eat?
  split
  · rename_i d tail hskip
    exact if_neg fun (heq : d = c) => h tail (heq ▸ hskip)
  · rfl

theorem literal?_quote (hw : Spaces w) (cs : List Char) :
    literal? (w ++ '"' :: cs) = literalRest? [] cs := by
  unfold literal?
  rw [skipSpaces_append hw, skipSpaces_cons isSpace_quote]
  rfl

theorem literal?_eq_none (h : ∀ tail, skipSpaces cs ≠ '"' :: tail) : literal? cs = none := by
  unfold literal?
  split
  · rename_i tail hskip
    exact absurd hskip (h tail)
  · rfl

theorem literals?_of_literal {s : String} (hw : Spaces w) (hw' : Spaces w') (cs : List Char)
    (fuel : Nat) :
    literals? (fuel + 1) (w ++ quoted s.toList ++ w' ++ ',' :: cs) =
      (literals? fuel cs).map fun r => (s :: r.1, r.2) := by
  have hliteral : literal? (w ++ quoted s.toList ++ w' ++ ',' :: cs) = some (s, w' ++ ',' :: cs) :=
    literal?_eq_some.mpr ⟨w, hw, by simp⟩
  rw [literals?, hliteral]
  dsimp only
  rw [(eat?_eq_some (by decide)).mpr ⟨w', hw', rfl⟩]

theorem literals?_bad (h : BadItems cs) (fuel : Nat) : literals? fuel cs = none := by
  have hnone {cs : List Char} (hliteral : literal? cs = none) (fuel : Nat) :
      literals? fuel cs = none := by
    cases fuel with
    | zero => rfl
    | succ fuel => rw [literals?, hliteral]
  induction h generalizing fuel with
  | missing h => exact hnone (literal?_eq_none h) fuel
  | @unterminated w s hw =>
    refine hnone ?_ fuel
    rw [literal?_quote hw, ← List.append_nil (escape s), literalRest?_escape]
    rfl
  | @cutEscape w s hw =>
    refine hnone ?_ fuel
    rw [literal?_quote hw, literalRest?_escape]
    rfl
  | @unknownEscape w s rest c hw hquote hslash =>
    refine hnone ?_ fuel
    rw [literal?_quote hw, literalRest?_escape, literalRest?, if_neg (not_or.mpr ⟨hquote, hslash⟩)]
  | @unclosed s w rest hw h =>
    cases fuel with
    | zero => rfl
    | succ fuel =>
      rw [literals?, literal?_eq_some.mpr ⟨w, hw, rfl⟩]
      dsimp only
      rw [eat?_eq_none fun tail htail => (h _ tail htail).1 rfl,
        eat?_eq_none fun tail htail => (h _ tail htail).2 rfl]
      rfl
  | @trailingComma s w w' w'' rest hw hw' hw'' =>
    cases fuel with
    | zero => rfl
    | succ fuel =>
      have hend : literal? (w'' ++ ')' :: rest) = none := by
        refine literal?_eq_none fun tail htail => ?_
        rw [skipSpaces_append hw'', skipSpaces_cons (by decide)] at htail
        exact absurd (List.cons.inj htail).1 (by decide)
      rw [literals?_of_literal hw hw', hnone hend]
      rfl
  | later hw hw' _ ih =>
    cases fuel with
    | zero => rfl
    | succ fuel =>
      rw [literals?_of_literal hw hw', ih]
      rfl

/-- Annotations with a fault are not read. -/
theorem read_broken (h : Broken cs) (acc : Annotations) {text : String}
    (htext : scan (body text) = scan cs) :
    ∃ fault, read acc text = .error fault := by
  have hnone (hscan : scan cs = none) : ∃ fault, read acc text = .error fault :=
    read_of_scan_eq_none acc (htext.trans hscan)
  cases h with
  | @badList n w w' cs hw hne hn hw' h hopen =>
    refine hnone ?_
    have hargs : argList? (w' ++ '(' :: cs) = none := by
      unfold argList?
      rw [(eat?_eq_some (by decide)).mpr ⟨w', hw', rfl⟩]
      dsimp only
      rw [eat?_eq_none hopen]
      dsimp only
      rw [literals?_bad h]
      rfl
    rw [List.append_assoc (w ++ n), scan_append hw hne hn
      (not_isNameChar_of_append hw' (by decide) cs), hargs]
    rfl
  | @notOpened n w w' rest c hw hne hn hw' hspace hname hparen =>
    refine hnone ?_
    have hskip : skipSpaces (w' ++ c :: rest) = c :: rest := by
      rw [skipSpaces_append hw', skipSpaces_cons hspace]
    have hargs : argList? (w' ++ c :: rest) = some (none, w' ++ c :: rest) := by
      unfold argList?
      rw [eat?_of_ne hw' hspace hparen]
    rw [List.append_assoc (w ++ n), scan_append hw hne hn (not_isNameChar_of_append hw' hname rest),
      hargs, Option.bind_some, hskip]
    rfl
  | @trailing n ss cs rest c h hspace =>
    refine hnone ?_
    obtain @⟨n, _, w, w', text, hw, hne, hn, hargs, hw'⟩ := h
    have hrest : ∀ d tail, text ++ (w' ++ c :: rest) = d :: tail → isNameChar d = false := by
      obtain ⟨v, u, hv, rfl⟩ := exists_paren_of_argText hargs
      rw [List.append_assoc]
      exact not_isNameChar_of_append hv (by decide) (u ++ (w' ++ c :: rest))
    rw [List.append_assoc, List.append_assoc, scan_append hw hne hn hrest, argList?_some hargs,
      Option.bind_some, skipSpaces_append hw', skipSpaces_cons hspace]
    rfl
  | noList h hn =>
    rw [scan_complete h] at htext
    refine ⟨.noKeyList, (read_eq acc text _ _ htext).trans ?_⟩
    rcases hn with rfl | rfl <;> rfl

/-! ## Brackets -/

/-- An annotation as it stands in a document: with brackets, or without them. -/
inductive Wraps : String → List Char → Prop where
  | plain {cs : List Char} (h : ∀ tail, skipSpaces cs ≠ '#' :: tail) : Wraps (String.ofList cs) cs
  | bracketed {w w' cs : List Char} (hw : Spaces w) (hw' : Spaces w') :
      Wraps (String.ofList (w ++ '#' :: '[' :: (cs ++ ']' :: w'))) cs

/-- A text without the spaces at its end. -/
def trimEnd (cs : List Char) : List Char := (cs.reverse.dropWhile isSpace).reverse

theorem trimEnd_append (hc : isSpace c = false) (hw : Spaces w) (cs : List Char) :
    trimEnd (cs ++ c :: w) = cs ++ [c] := by
  have hrev : ∀ d ∈ w.reverse, isSpace d = true := fun d hd => hw d (List.mem_reverse.mp hd)
  unfold trimEnd
  rw [List.reverse_append, List.reverse_cons, List.append_assoc, List.dropWhile_append_of_pos hrev,
    List.singleton_append, List.dropWhile_cons_of_neg (by simp [hc]), List.reverse_cons,
    List.reverse_reverse]

theorem exists_trimEnd (cs : List Char) : ∃ w, Spaces w ∧ cs = trimEnd cs ++ w := by
  refine ⟨(cs.reverse.takeWhile isSpace).reverse, fun d hd => ?_, ?_⟩
  · exact List.mem_takeWhile_imp (List.mem_reverse.mp hd)
  · unfold trimEnd
    rw [← List.reverse_append, List.takeWhile_append_dropWhile, List.reverse_reverse]

theorem body_bracketed (hw : Spaces w) (hw' : Spaces w') (cs : List Char) :
    body (String.ofList (w ++ '#' :: '[' :: (cs ++ ']' :: w'))) = cs := by
  have htrim : trimEnd (skipSpaces (w ++ '#' :: '[' :: (cs ++ ']' :: w'))) =
      '#' :: '[' :: (cs ++ [']']) := by
    rw [skipSpaces_append hw, skipSpaces_cons (by decide)]
    exact trimEnd_append (by decide) hw' ('#' :: '[' :: cs)
  unfold trimEnd at htrim
  unfold body
  rw [String.toList_ofList]
  simp only [htrim]
  rw [List.getLast?_concat, if_pos rfl, List.dropLast_concat]

/-- The body of a text is what stands in its brackets, or the text itself without spaces around
it. -/
theorem body_cases (text : String) : (∃ w w', Spaces w ∧ Spaces w' ∧
      text.toList = w ++ '#' :: '[' :: (body text ++ ']' :: w')) ∨
    body text = trimEnd (skipSpaces text.toList) := by
  obtain ⟨w, hw, hstart⟩ := exists_spaces text.toList
  obtain ⟨w', hw', hend⟩ := exists_trimEnd (skipSpaces text.toList)
  unfold trimEnd at hend ⊢
  unfold body
  dsimp only
  split
  · rename_i rest hrest
    split
    · rename_i hlast
      refine .inl ⟨w, w', hw, hw', ?_⟩
      rw [hstart, hend, hrest]
      obtain ⟨front, rfl⟩ := List.getLast?_eq_some_iff.mp hlast
      simp
    · exact .inr rfl
  · exact .inr rfl

/-! Spaces around an annotation do not matter. -/

theorem scan_skipSpaces (cs : List Char) : scan (skipSpaces cs) = scan cs := by
  have hname : name (skipSpaces cs) = name cs := by
    obtain ⟨w, hw, hcs⟩ := exists_spaces cs
    unfold name
    rw [show skipSpaces (skipSpaces cs) = skipSpaces cs by rw [← skipSpaces_append hw, ← hcs]]
  unfold scan
  rw [hname]

/-- What is spelled ends with a name or a parenthesis, apart from spaces. -/
theorem exists_last {n : List Char} {args : Option (List String)} {text : List Char} (hne : n ≠ [])
    (hn : ∀ c ∈ n, isNameChar c = true) (hargs : ArgText args text) (w : List Char) :
    ∃ front c, w ++ n ++ text = front ++ [c] ∧ isSpace c = false := by
  cases hargs with
  | none =>
    refine ⟨w ++ n.dropLast, n.getLast hne, ?_, isSpace_of_isNameChar (hn _ (List.getLast_mem hne))⟩
    rw [List.append_nil, List.append_assoc, List.dropLast_concat_getLast]
  | @empty v v' _ _ => exact ⟨w ++ n ++ (v ++ '(' :: v'), ')', by simp, by decide⟩
  | @items v v' cs _ _ _ _ => exact ⟨w ++ n ++ (v ++ '(' :: (cs ++ v')), ')', by simp, by decide⟩

theorem spells_of_append {n : String} {args : Option (List String)} (hw : Spaces w)
    (h : Spells n args (cs ++ w)) : Spells n args cs := by
  generalize htext : cs ++ w = text at h
  obtain @⟨n, args, v, v', text, hv, hne, hn, hargs, hv'⟩ := h
  rcases List.append_eq_append_iff.mp htext with ⟨u, hleft, rfl⟩ | ⟨u, rfl, rfl⟩
  · -- the end of what is spelled would be a space
    obtain ⟨front, c, hlast, hc⟩ := exists_last hne hn hargs v
    rcases List.eq_nil_or_concat u with rfl | ⟨u, d, rfl⟩
    · rw [List.append_nil] at hleft
      rw [← hleft, ← List.append_nil (v ++ n ++ text)]
      exact .mk hv hne hn hargs spaces_nil
    · rw [hleft, List.concat_eq_append, ← List.append_assoc] at hlast
      obtain rfl : d = c := (List.append_inj' hlast rfl).2 |> List.singleton_inj.mp
      rw [hw d (by simp)] at hc
      cases hc
  · exact .mk hv hne hn hargs fun c hc => hv' c (List.mem_append_left _ hc)

theorem scan_append_spaces (hw : Spaces w) (cs : List Char) : scan (cs ++ w) = scan cs := by
  refine Option.ext fun ⟨n, args⟩ => ?_
  rw [scan_iff, scan_iff]
  refine ⟨spells_of_append hw, fun h => ?_⟩
  obtain ⟨hv, hne, hn, hargs, hv'⟩ := h
  rw [List.append_assoc]
  exact .mk hv hne hn hargs (hv'.append hw)

theorem scan_trimmed (cs : List Char) : scan (trimEnd (skipSpaces cs)) = scan cs := by
  obtain ⟨w, hw, hcs⟩ := exists_trimEnd (skipSpaces cs)
  rw [← scan_append_spaces hw, ← hcs, scan_skipSpaces]

/-- Brackets and spaces around an annotation do not matter. -/
theorem scan_body {text : String} (h : Wraps text cs) : scan (body text) = scan cs := by
  cases h with
  | plain h =>
    rcases body_cases (String.ofList cs) with ⟨w, w', hw, -, htext⟩ | hbody
    · rw [String.toList_ofList] at htext
      have hskip := congrArg skipSpaces htext
      rw [skipSpaces_append hw, skipSpaces_cons (by decide)] at hskip
      exact absurd hskip (h _)
    · rw [hbody, String.toList_ofList, scan_trimmed]
  | bracketed hw hw' => rw [body_bracketed hw hw']

/-- A text that is read is an annotation with or without brackets. -/
theorem exists_wraps {text : String} {n : String} {args : Option (List String)}
    (h : scan (body text) = some (n, args)) : ∃ cs, Wraps text cs ∧ Spells n args cs := by
  rcases body_cases text with ⟨w, w', hw, hw', htext⟩ | hbody
  · obtain ⟨cs, hcs⟩ : ∃ cs, body text = cs := ⟨_, rfl⟩
    rw [hcs] at h htext
    have hwhole : text = String.ofList (w ++ '#' :: '[' :: (cs ++ ']' :: w')) := by
      rw [← htext, String.ofList_toList]
    exact ⟨cs, hwhole ▸ .bracketed hw hw', scan_sound h⟩
  · rw [hbody, scan_trimmed] at h
    refine ⟨text.toList, ?_, scan_sound h⟩
    have hwraps := @Wraps.plain text.toList fun tail htail => ?_
    · rwa [String.ofList_toList] at hwraps
    · rw [← scan_skipSpaces, htail] at h
      cases h

/-! ## Declared keys -/

/-- How a key is written: a namespace for all of its keys, or with a star, or with one key. -/
inductive Writes : DeclaredKey → String → Prop where
  | all {ns : String} (hns : IsNamespace ns) : Writes { ns, wildcard := true } ns
  | star {ns : String} (hns : IsNamespace ns) : Writes { ns, wildcard := true } (ns ++ ":*")
  | exact {ns key : String} (hns : IsNamespace ns) (hne : key ≠ "") (hstar : '*' ∉ key.toList) :
      Writes { ns, key } (ns ++ ":" ++ key)

/-- What is declared by a namespace and what follows it. -/
def declaredTail (ns : String) : List Char → Except AnnotationFault DeclaredKey
  | [] => .ok { ns, wildcard := true }
  | _ :: key =>
    if key = ['*'] then .ok { ns, wildcard := true }
    else if key.isEmpty then .error .emptyKey
    else if key.contains '*' then .error .partialWildcard
    else .ok { ns, key := String.ofList key }

/-- Reading takes the namespace off a text, up to the colon. -/
theorem declaredKey_eq {text ns : String} {tail : List Char} (hns : IsNamespace ns)
    (htext : text.toList = ns.toList ++ tail) (htail : ∀ c rest, tail = c :: rest → c = ':') :
    declaredKey text = declaredTail ns tail := by
  have hcolon : ∀ c ∈ ns.toList, (c != ':') = true := fun c hc => by simp [(hns.plain c hc).1]
  have hstop : tail.takeWhile (· != ':') = [] ∧ tail.dropWhile (· != ':') = tail := by
    cases tail with
    | nil => exact ⟨rfl, rfl⟩
    | cons c rest => simp [htail c rest rfl]
  have hempty : ns.toList.isEmpty = false := by
    rw [Bool.eq_false_iff, ne_eq, List.isEmpty_iff]
    intro h
    exact hns.ne_empty (String.toList_inj.mp h)
  have hplain : (ns.toList.any fun c => c = '*' || c = '.') = false := by
    rw [List.any_eq_false]
    intro c hc
    simp [(hns.plain c hc).2.1, (hns.plain c hc).2.2]
  unfold declaredKey
  dsimp only
  rw [htext, List.takeWhile_append_of_pos hcolon, List.dropWhile_append_of_pos hcolon,
    hstop.1, hstop.2, List.append_nil, hempty, if_neg Bool.false_ne_true, hplain,
    if_neg Bool.false_ne_true, String.ofList_toList]
  rfl

theorem declaredKey_of_writes {k : DeclaredKey} {text : String} (h : Writes k text) :
    declaredKey text = .ok k := by
  cases h with
  | all hns =>
    rw [declaredKey_eq hns (List.append_nil _).symm nofun]
    rfl
  | @star ns hns =>
    have htext : (ns ++ ":*").toList = ns.toList ++ [':', '*'] := String.toList_append
    rw [declaredKey_eq hns htext fun c rest heq => (List.cons.inj heq).1.symm]
    rfl
  | @exact ns key hns hne hstar =>
    have htext : (ns ++ ":" ++ key).toList = ns.toList ++ ':' :: key.toList := by simp
    have hkey : key.toList ≠ [] := fun heq => hne (String.toList_inj.mp heq)
    have hwild : key.toList ≠ ['*'] := fun heq => hstar (heq ▸ .head _)
    rw [declaredKey_eq hns htext fun c rest heq => (List.cons.inj heq).1.symm]
    unfold declaredTail
    dsimp only
    rw [if_neg hwild, if_neg (by simpa using hkey), if_neg (by simpa using hstar),
      String.ofList_toList]

theorem mapM_of_writes {ks : List DeclaredKey} {ss : List String} (h : List.Forall₂ Writes ks ss) :
    ss.mapM declaredKey = .ok ks := by
  induction h with
  | nil => rfl
  | cons hk _ ih =>
    rw [List.mapM_cons, declaredKey_of_writes hk, ih]
    rfl

end Annotation

open Annotation

/-- The name of the annotation for a read or a write set. -/
def setName (write : Bool) : String := if write then "writes" else "reads"

/-- An annotation that writes keys is read as these keys. -/
theorem parseAnnotations_of_writes {ks : List DeclaredKey} {ss : List String}
    (hks : List.Forall₂ Writes ks ss) (write : Bool) {cs : List Char}
    (hcs : Spells (setName write) (some ss) cs) {a : Attribute} (ha : Wraps a.text cs) :
    parseAnnotations [a] =
      { annotations := if write then { writes := some ks } else { reads := some ks }, ok := true,
        diags := [] } := by
  have hread := read_eq {} a.text _ _ ((scan_body ha).trans (scan_complete hcs))
  have happly : apply {} (setName write) (some ss) =
      .ok (if write then { writes := some ks } else { reads := some ks }) := by
    cases write <;> simp [apply, setName, declareKeys, mapM_of_writes hks, Except.map]
  rw [happly] at hread
  unfold parseAnnotations
  rw [readAnnotations, hread]
  cases write <;> rfl

/-- Faults are reported, and nothing is accepted that has one. -/
theorem diags_readAnnotations {attrs : List Attribute} {a : Attribute} (ha : a ∈ attrs)
    (hread : ∀ acc, ∃ fault, read acc a.text = .error fault) (acc : Annotations) :
    (readAnnotations acc attrs).2 ≠ [] := by
  induction attrs generalizing acc with
  | nil => exact absurd ha List.not_mem_nil
  | cons b attrs ih =>
    rw [readAnnotations]
    rcases List.mem_cons.mp ha with rfl | ha
    · obtain ⟨fault, hfault⟩ := hread acc
      rw [hfault]
      exact List.cons_ne_nil _ _
    · split
      · exact ih ha _
      · exact List.cons_ne_nil _ _

theorem not_ok_of_diags {attrs : List Attribute} (h : (readAnnotations {} attrs).2 ≠ []) :
    (parseAnnotations attrs).ok = false := by
  unfold parseAnnotations
  dsimp only
  split
  · rfl
  · exact Bool.eq_false_iff.mpr fun hempty => h (List.isEmpty_iff.mp hempty)

/-- Annotations are read as they were written. Keys that are written come back; a text with a fault
is turned down, and so is every other text that is not spelled like an annotation; and functions
whose annotations declare or promise something are those that the inliner leaves alone. -/
theorem annotations_exact :
    (∀ ks ss, List.Forall₂ Writes ks ss → ∀ write cs, Spells (setName write) (some ss) cs →
      ∀ a : Attribute, Wraps a.text cs → parseAnnotations [a] =
        { annotations := if write then { writes := some ks } else { reads := some ks }, ok := true,
          diags := [] }) ∧
    (∀ attrs, ∀ a ∈ attrs, ∀ cs, Wraps a.text cs → Broken cs →
      (parseAnnotations attrs).ok = false) ∧
    (∀ attrs, (parseAnnotations attrs).ok = true → ∀ a ∈ attrs, ∃ cs n args, Wraps a.text cs ∧
      Spells n args cs) ∧
    ∀ attrs, ((parseAnnotations attrs).annotations.reads.isSome = true ∨
      (parseAnnotations attrs).annotations.writes.isSome = true ∨
      (parseAnnotations attrs).annotations.noState = true) →
        overridesDomains attrs = true := by
  refine ⟨fun ks ss hks write cs hcs a ha => parseAnnotations_of_writes hks write hcs ha,
    fun attrs a ha cs hwraps hbroken => ?_, fun attrs hok a ha => ?_, fun attrs hset => ?_⟩
  · exact not_ok_of_diags (diags_readAnnotations ha
      (fun acc => read_broken hbroken acc (scan_body hwraps)) {})
  · cases hscan : scan (body a.text) with
    | none =>
      rw [not_ok_of_diags (diags_readAnnotations ha (fun acc => read_of_scan_eq_none acc hscan)
        {})] at hok
      cases hok
    | some r =>
      obtain ⟨cs, hwraps, hspells⟩ := exists_wraps hscan
      exact ⟨cs, r.1, r.2, hwraps, hspells⟩
  · by_contra hover
    obtain ⟨hstate, hdeclared⟩ := parseAnnotations_of_not_overrides (Bool.eq_false_iff.mpr hover)
    have hreads : (parseAnnotations attrs).annotations.reads = none := hdeclared false
    have hwrites : (parseAnnotations attrs).annotations.writes = none := hdeclared true
    rw [hreads, hwrites, hstate] at hset
    simp at hset

/-- A quote is escaped, and spaces stand where they may. -/
example :
    (parseAnnotations [{ text := " #[ reads ( \"a:b\\\"c\" , \"ns:*\") ]" }]).annotations.reads =
    some [{ ns := "a", key := "b\"c" }, { ns := "ns", wildcard := true }] := by decide

end ContractCompiler
