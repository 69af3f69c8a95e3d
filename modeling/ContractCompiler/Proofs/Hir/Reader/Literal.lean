import ContractCompiler.Proofs.Hir.Reading
import ContractCompiler.Proofs.Integer.Exactness
import ContractCompiler.Proofs.Json.Number
import ContractCompiler.Proofs.Types
import Mathlib.Data.Nat.Digits.Lemmas

/-!
# Integer literals

A literal is accepted if its type has the number that it stands for, whether the number is written
as decimal digits in a string or as a number of the document. Its word is then the word of that
number in the type. A number of the document stands for the integer that it is held as, which may
differ from what is written if that has a fraction or an exponent.

- `SpellsInt`: a text is an optional sign and decimal digits, and stands for a number;
- `ExprForm.literalValue_string`: which texts have a value, as far as words reach;
- `ExprForm.wordInKind?_spec`: the word of a number, if the type has it;
- `ReadsAs`: a literal is accepted as far as the type reaches, with the word of its number;
- `literal_exact`: this is how literals of every integer type are read;
- `not_literal_exact_rounded`: a number with a fraction may be read as another one than is written.
-/

namespace ContractCompiler.Hir

/-! ## Decimal texts -/

/-- The number that decimal digits stand for. -/
def digitsValue (cs : List Char) : Nat :=
  Nat.ofDigits 10 (cs.reverse.map fun c => c.toNat - '0'.toNat)

/-- A text is one or more decimal digits with an optional minus sign, and stands for a number. -/
inductive SpellsInt : String → Int → Prop where
  | plain {cs : List Char} (hne : cs ≠ []) (hdigits : ∀ c ∈ cs, c.isDigit = true) :
      SpellsInt (String.ofList cs) (digitsValue cs)
  | negative {cs : List Char} (hne : cs ≠ []) (hdigits : ∀ c ∈ cs, c.isDigit = true) :
      SpellsInt (String.ofList ('-' :: cs)) (-(digitsValue cs : Int))

/-- What is spelled, in terms of the characters. -/
theorem SpellsInt.cases_toList {text : String} {n : Int} (h : SpellsInt text n) :
    ((∀ c ∈ text.toList, c.isDigit = true) ∧ n = digitsValue text.toList) ∨
      ∃ cs, text.toList = '-' :: cs ∧ n = -(digitsValue cs : Int) := by
  cases h with
  | plain _ hdigits =>
    rw [String.toList_ofList]
    exact .inl ⟨hdigits, rfl⟩
  | negative _ _ => exact .inr ⟨_, String.toList_ofList, rfl⟩

/-- A text stands for one number at most: a sign is no digit. -/
theorem SpellsInt.unique {text : String} {n n' : Int} (h : SpellsInt text n)
    (h' : SpellsInt text n') : n = n' := by
  have hsign {cs : List Char} (htext : text.toList = '-' :: cs) :
      ¬∀ c ∈ text.toList, c.isDigit = true :=
    fun hdigits => absurd (hdigits '-' (htext ▸ .head _)) (by decide)
  rcases h.cases_toList with ⟨hdigits, rfl⟩ | ⟨cs, htext, rfl⟩
  · rcases h'.cases_toList with ⟨-, rfl⟩ | ⟨cs', htext', -⟩
    · rfl
    · exact absurd hdigits (hsign htext')
  · rcases h'.cases_toList with ⟨hdigits', -⟩ | ⟨cs', htext', rfl⟩
    · exact absurd hdigits' (hsign htext)
    · obtain rfl : cs = cs' := List.tail_eq_of_cons_eq (htext.symm.trans htext')
      rfl

namespace ExprForm

theorem foldl_digits (cs : List Char) :
    cs.foldl (fun n c => 10 * n + (c.toNat - '0'.toNat)) 0 = digitsValue cs := by
  unfold digitsValue
  induction cs using List.reverseRecOn with
  | nil => rfl
  | append_singleton cs c ih =>
    rw [List.foldl_append, ih, List.reverse_append, List.reverse_singleton, List.singleton_append,
      List.map_cons, Nat.ofDigits_cons]
    exact Nat.add_comm _ _

theorem magnitude?_eq_some {cs : List Char} {n : Nat} : magnitude? cs = some n ↔
    cs ≠ [] ∧ (∀ c ∈ cs, c.isDigit = true) ∧ digitsValue cs = n ∧ n < 2 ^ 64 := by
  have hempty : cs.isEmpty = true ↔ cs = [] := List.isEmpty_iff
  have hall : cs.all Char.isDigit = true ↔ ∀ c ∈ cs, c.isDigit = true := List.all_eq_true
  unfold magnitude?
  simp only [foldl_digits, Bool.or_eq_true, Bool.not_eq_true', ← Bool.not_eq_true, hempty, hall]
  by_cases hform : cs = [] ∨ ¬∀ c ∈ cs, c.isDigit = true
  · rw [if_pos hform]
    refine ⟨nofun, fun ⟨hne, hdigits, _⟩ => ?_⟩
    exact absurd hform (not_or.mpr ⟨hne, not_not.mpr hdigits⟩)
  · rw [if_neg hform]
    obtain ⟨hne, hdigits⟩ := not_or.mp hform
    by_cases hlt : digitsValue cs < Nat.pow 2 64
    · rw [if_pos hlt, Option.some_inj]
      exact ⟨fun h => ⟨hne, not_not.mp hdigits, h, h ▸ hlt⟩, fun h => h.2.2.1⟩
    · rw [if_neg hlt]
      exact ⟨nofun, fun ⟨_, _, heq, hn⟩ => absurd (heq ▸ hn) hlt⟩

theorem literalValue_plain [Json.Library] {text : String} (hsign : ∀ cs, text.toList ≠ '-' :: cs) :
    literalValue (.string text) = match magnitude? text.toList with
      | some n => .ok (n : Int)
      | none => .error (.intSpelling text) := by
  unfold literalValue
  dsimp only [Json.int64?]
  split
  · rename_i cs htext
    exact absurd htext (hsign cs)
  · rfl

theorem literalValue_negative [Json.Library] {text : String} {cs : List Char}
    (htext : text.toList = '-' :: cs) :
    literalValue (.string text) = match magnitude? cs with
      | some n => .ok (-(n : Int))
      | none => .error (.intSpelling text) := by
  unfold literalValue
  dsimp only [Json.int64?]
  rw [htext]
  rfl

/-- The texts with a value are the spellings of numbers, as far as words reach. -/
theorem literalValue_string [Json.Library] {text : String} {n : Int} :
    literalValue (.string text) = .ok n ↔ SpellsInt text n ∧ -2 ^ 64 < n ∧ n < 2 ^ 64 := by
  constructor
  · intro h
    by_cases hsign : ∃ cs, text.toList = '-' :: cs
    · obtain ⟨cs, htext⟩ := hsign
      rw [literalValue_negative htext] at h
      split at h
      · rename_i m hm
        obtain rfl : -(m : Int) = n := by simpa using h
        obtain ⟨hne, hdigits, rfl, hlt⟩ := magnitude?_eq_some.mp hm
        rw [← String.ofList_toList (s := text), htext]
        exact ⟨.negative hne hdigits, by omega, by omega⟩
      · cases h
    · rw [literalValue_plain fun cs hcs => hsign ⟨cs, hcs⟩] at h
      split at h
      · rename_i m hm
        obtain rfl : (m : Int) = n := by simpa using h
        obtain ⟨hne, hdigits, rfl, hlt⟩ := magnitude?_eq_some.mp hm
        have hspells := SpellsInt.plain hne hdigits
        rw [String.ofList_toList] at hspells
        exact ⟨hspells, by omega, by omega⟩
      · cases h
  · rintro ⟨hspells, hleast, hgreatest⟩
    cases hspells with
    | @plain cs hne hdigits =>
      have hsign (r : List Char) : (String.ofList cs).toList ≠ '-' :: r := by
        rw [String.toList_ofList]
        rintro rfl
        exact absurd (hdigits '-' (.head _)) (by decide)
      rw [literalValue_plain hsign, String.toList_ofList,
        magnitude?_eq_some.mpr ⟨hne, hdigits, rfl, by omega⟩]
    | @negative cs hne hdigits =>
      rw [literalValue_negative String.toList_ofList,
        magnitude?_eq_some.mpr ⟨hne, hdigits, rfl, by omega⟩]

/-- A number that is held has the value that it stands for. -/
theorem literalValue_number [Json.Library] {num : Json.Number} {n : Int}
    (h : Json.Library.toInt64? num = some n) :
    literalValue (.number num) = .ok n := by
  unfold literalValue Json.int64?
  dsimp only
  rw [h]

/-! ## Words -/

/-- Types have no numbers beyond those of words. -/
theorem bounds_of_has {k : IntKind} (hk : k.HasWidth) {n : Int} (hn : k.Has n) :
    -2 ^ 63 ≤ n ∧ n < 2 ^ 64 := by
  have hhalf := hk.half_pow
  have hpow := hk.pow_le
  obtain ⟨hleast, hgreatest⟩ := hn
  unfold IntKind.least at hleast
  unfold IntKind.greatest at hgreatest
  split at hleast <;> split at hgreatest <;> omega

/-- The word from which a number is converted: a signed one for negative numbers. -/
theorem toInt_wordOfInt_source {n : Int} (hlow : -2 ^ 63 ≤ n) (hn : n < 2 ^ 64) :
    ({ signed := decide (n < 0), bits := 64 } : IntKind).toInt (wordOfInt n) = n := by
  unfold IntKind.toInt
  dsimp only
  by_cases hneg : n < 0
  · rw [decide_eq_true hneg, if_pos rfl, signedValue_wordOfInt]
    exact Int.bmod_eq_of_le (by omega) (by omega)
  · rw [decide_eq_false hneg, if_neg Bool.false_ne_true, toNat_wordOfInt]
    exact Int.emod_eq_of_lt (by omega) hn

/-- A number has a word in a type if the type has the number, and that is the normal word which
agrees with it. -/
theorem wordInKind?_spec {k : IntKind} (hk : k.HasWidth) {n : Int} (hn : n < 2 ^ 64) :
    ((wordInKind? k n).isSome = true ↔ k.Has n) ∧
      ∀ w, wordInKind? k n = some w → k.Normal w ∧ (w.toNat : Int) ≡ n [ZMOD 2 ^ 64] := by
  unfold wordInKind?
  split
  · rename_i hlow
    exact ⟨⟨nofun, fun hhas => absurd (bounds_of_has hk hhas).1 (by simpa using hlow)⟩, nofun⟩
  · rename_i hlow
    have hsource := toInt_wordOfInt_source (by simpa using hlow) hn
    have hcast := IntKind.casts_cast (k := { signed := decide (n < 0), bits := 64 })
        (by simp [IntKind.HasWidth]) hk
      (w := wordOfInt n) (by simp [IntKind.Normal, IntKind.normalize])
    rw [hsource] at hcast
    dsimp only
    obtain ⟨hword, hoverflow⟩ := hcast
    split
    · rename_i hover
      exact ⟨⟨nofun, fun hhas => absurd hhas (hoverflow.mp hover)⟩, nofun⟩
    · rename_i hover
      have hhas : k.Has n := by_contra fun hhas => hover (hoverflow.mpr hhas)
      refine ⟨⟨fun _ => hhas, fun _ => rfl⟩, ?_⟩
      rintro _ ⟨⟩
      have hsame := IntKind.toInt_modEq k
          (IntKind.cast { signed := decide (n < 0), bits := 64 } k (wordOfInt n)).value
      rw [hword.toInt_eq hk hhas] at hsame
      exact ⟨hword.normal, hsame.symm⟩

/-! ## Reading -/

theorem intKind_of_builtin {p : TypePool} {t : TypeId} {b : Builtin} (hb : p.builtin? t = some b)
    (hinteger : b.isInteger = true) : p.isInteger t = true ∧ p.intKind t = b.intKind := by
  have hbool : b ≠ .bool := by
    rintro rfl
    cases hinteger
  unfold TypePool.isInteger TypePool.intKind TypePool.isBool TypePool.isBuiltin
  rw [hb]
  exact ⟨hinteger, by simp [hbool]⟩

theorem hasWidth_of_isInteger {b : Builtin} (hinteger : b.isInteger = true) :
    b.intKind.HasWidth := by
  cases b <;> first | decide | exact absurd hinteger (by decide)

/-- What is read of a literal of an integer type. -/
theorem run_readIntValue [Json.Library] {t : TypeId} {b : Builtin} {s : ReadState}
    (hb : s.types.builtin? t = some b) (hinteger : b.isInteger = true) (v : Json) (span : Span) :
    ((readIntValue v (some t) span).run s).1 = match literalValue v with
      | .ok n => (wordInKind? b.intKind n).map fun w => .int { id := s.nextExpr, span, type := t } w
      | .error _ => none := by
  obtain ⟨hpool, hkind⟩ := intKind_of_builtin hb hinteger
  unfold readIntValue
  rw [Read.run_bind, Read.run_types]
  dsimp only
  rw [if_pos hpool, ← hkind]
  cases literalValue v with
  | error what => rfl
  | ok n =>
    dsimp only
    cases wordInKind? (s.types.intKind t) n <;> rfl

theorem parse?_name (p : TypePool) (b : Builtin) : p.parse? b.name = some (b.id, p) := by
  unfold TypePool.parse? TypePool.parseChars?
  cases b <;> rfl

/-- An object with an integer and the name of a type is a literal of that type. -/
theorem run_readObject_int [Json.Library] {o v : Json} {b : Builtin} (hv : o.field? "int" = some v)
    (htype : textField? o "type" = some b.name) (ctx : ReadContext) (sub : SubReader) (hint : Hint)
    (s : ReadState) :
    (readObject ctx sub o hint).run s = (readIntValue v (some b.id) (spanOf ctx.file o)).run s := by
  have hrule : (rules.findSome? fun r => (r.value? o).map fun v => (r, v)) =
      some ({ key := "int", read := fun _ _ f => f.int }, v) := by
    unfold rules
    rw [List.findSome?_cons]
    have hvalue : Rule.value? { key := "int", read := fun _ _ f => f.int } o = some v := by
      unfold Rule.value?
      rw [hv]
      rfl
    rw [hvalue]
    rfl
  have hparse : (Read.parseType b.name (spanOf ctx.file o)).run s = (some b.id, s) := by
    unfold Read.parseType
    rw [Read.run_bind, Read.run_types]
    dsimp only
    rw [parse?_name]
    rfl
  unfold readObject
  rw [hrule]
  dsimp only
  unfold int
  rw [htype]
  dsimp only
  rw [Read.run_bind, hparse]

end ExprForm

/-- What comes of reading a literal that stands for a number: an expression if the type has the
number, with the word of the number in the type. -/
structure ReadsAs (b : Builtin) (n : Int) (r : Option Expr) : Prop where
  accepted : r.isSome = true ↔ b.intKind.Has n
  word : ∀ e, r = some e → ∃ i w, e = .int i w ∧ i.type = b.id ∧ b.intKind.Normal w ∧
    (w.toNat : Int) ≡ n [ZMOD 2 ^ 64]

section

variable [Json.Library] {b : Builtin} {s : ReadState} (hinteger : b.isInteger = true)
  (hs : s.types.Standard)
include hinteger hs

theorem readsAs_of_value {v : Json} {n : Int} (hv : ExprForm.literalValue v = .ok n)
    (hn : n < 2 ^ 64) (span : Span) :
    ReadsAs b n ((ExprForm.readIntValue v (some b.id) span).run s).1 := by
  obtain ⟨hsome, hword⟩ := ExprForm.wordInKind?_spec (ExprForm.hasWidth_of_isInteger hinteger) hn
  rw [ExprForm.run_readIntValue (hs b) hinteger, hv]
  dsimp only
  refine ⟨Option.isSome_map.symm ▸ hsome, fun e he => ?_⟩
  obtain ⟨w, hw, rfl⟩ := Option.map_eq_some_iff.mp he
  obtain ⟨hnormal, hsame⟩ := hword w hw
  exact ⟨_, w, rfl, rfl, hnormal, hsame⟩

theorem none_of_no_value {v : Json} (hv : ∀ n, ExprForm.literalValue v ≠ .ok n) (span : Span) :
    ((ExprForm.readIntValue v (some b.id) span).run s).1 = none := by
  rw [ExprForm.run_readIntValue (hs b) hinteger]
  split
  · rename_i n hn
    exact absurd hn (hv n)
  · rfl

theorem readsAs_string {text : String} {n : Int} (htext : SpellsInt text n) (span : Span) :
    ReadsAs b n ((ExprForm.readIntValue (.string text) (some b.id) span).run s).1 := by
  by_cases hn : -2 ^ 64 < n ∧ n < 2 ^ 64
  · exact readsAs_of_value hinteger hs (ExprForm.literalValue_string.mpr ⟨htext, hn⟩) hn.2 span
  · -- the text has no value, and no type has the number
    have hnone : ∀ m, ExprForm.literalValue (.string text) ≠ .ok m := by
      intro m hm
      obtain ⟨hspells, hlow, hhigh⟩ := ExprForm.literalValue_string.mp hm
      exact hn ((htext.unique hspells) ▸ ⟨hlow, hhigh⟩)
    rw [none_of_no_value hinteger hs hnone span]
    refine ⟨⟨nofun, fun hhas => ?_⟩, nofun⟩
    obtain ⟨hlow, hhigh⟩ := ExprForm.bounds_of_has (ExprForm.hasWidth_of_isInteger hinteger) hhas
    exact absurd ⟨by omega, hhigh⟩ hn

end

/-- Literals of an integer type that are written as an object are read by what they stand for: a
string of decimal digits with an optional sign, or a number that is held as an integer in the range
of signed words. -/
theorem literal_exact [Json.Library] (hlib : Json.Library.Exact) {b : Builtin}
    (hinteger : b.isInteger = true) {s : ReadState} (hs : s.types.Standard) {o v : Json}
    (hv : o.field? "int" = some v) (htype : textField? o "type" = some b.name) (ctx : ReadContext)
    (sub : SubReader) (hint : Hint) {r : Option Expr}
    (hr : ((ExprForm.readObject ctx sub o hint).run s).1 = r) :
    (∀ text, v = .string text →
      (∀ n, SpellsInt text n → ReadsAs b n r) ∧ ((∀ n, ¬SpellsInt text n) → r = none)) ∧
    ∀ num n, v = .number num → (Json.Library.toInt64? num = some n ∨ num.Is n) → ReadsAs b n r := by
  rw [ExprForm.run_readObject_int hv htype] at hr
  subst hr
  refine ⟨?_, ?_⟩
  · rintro text rfl
    refine ⟨fun n htext => readsAs_string hinteger hs htext _, fun hnone => ?_⟩
    exact none_of_no_value hinteger hs (fun n hn => hnone n (ExprForm.literalValue_string.mp hn).1)
      _
  · rintro num n rfl hnum
    have hheld : Json.Library.toInt64? num = some n := hnum.elim id hlib.held
    refine readsAs_of_value hinteger hs (ExprForm.literalValue_number hheld) ?_ _
    have := (hlib.bounds hheld).2
    omega

/-- The least number of `i8`: with a sign and a leading zero in a string, and as a number with a
fraction. -/
theorem literal_exact_least :
    let read (v : Json) := ((@ExprForm.readObject .standard {} (fun _ _ => failure)
      (.object [("int", v), ("type", .string "i8")]) none).run {}).1
    ReadsAs .i8 (-128) (read (.string "-0128")) ∧
    ReadsAs .i8 (-128) (read (.number (.decimal true 1280 (-1)))) := by
  have hexact (v : Json) := @literal_exact .standard Json.Library.exact_standard .i8 rfl
      {} TypePool.standard_default
    (.object [("int", v), ("type", .string "i8")]) v rfl rfl {} (fun _ _ => failure) none _ rfl
  have hdigits : "0128".toList.all Char.isDigit = true := by decide
  have hspells : SpellsInt "-0128" (-128) :=
    @SpellsInt.negative "0128".toList (by decide) (List.all_eq_true.mp hdigits)
  have his : (Json.Number.decimal true 1280 (-1)).Is (-128) :=
    @Json.Number.Is.decimal true 1280 128 (-1) (by norm_num) (one_dvd _) (by decide) (by decide)
  exact ⟨((hexact (.string "-0128")).1 "-0128" rfl).1 (-128) hspells,
    (hexact (.number (.decimal true 1280 (-1)))).2 _ (-128) rfl (.inr his)⟩

/-- A number that has a fraction and more than 53 significant bits is rounded before it is read: the
literal `9007199254740993.0` is read as the even number before it. -/
theorem not_literal_exact_rounded :
    ¬∀ (num : Json.Number) (n : Int), num.value = n → -2 ^ 63 ≤ n → n < 2 ^ 63 →
      ReadsAs .u64 n ((@ExprForm.readObject .standard {} (fun _ _ => failure)
        (.object [("int", .number num), ("type", .string "u64")]) none).run {}).1 := by
  intro hall
  have hvalue : (Json.Number.decimal false 90071992547409930 (-1)).value =
      (9007199254740993 : Int) := by
    norm_num [Json.Number.value]
  obtain ⟨haccepted, hword⟩ := hall _ 9007199254740993 hvalue (by decide) (by decide)
  have hhas : Builtin.u64.intKind.Has 9007199254740993 := by decide
  obtain ⟨e, he⟩ := Option.isSome_iff_exists.mp (haccepted.mpr hhas)
  obtain ⟨i, w, rfl, -, -, hsame⟩ := hword e he
  -- the same expression is read of the number that is held
  have hheld : @Json.Library.toInt64? .standard (.decimal false 90071992547409930 (-1)) =
      some 9007199254740992 := by
    decide +kernel
  rw [@ExprForm.run_readObject_int .standard _ (.number _) .u64 rfl rfl] at he
  obtain ⟨-, hword'⟩ := @readsAs_of_value .standard .u64 {} rfl TypePool.standard_default _ _
    (@ExprForm.literalValue_number .standard _ _ hheld) (by decide) _
  obtain ⟨i', w', heq, -, -, hsame'⟩ := hword' _ he
  obtain ⟨-, rfl⟩ := Expr.int.inj heq
  exact absurd (hsame.symm.trans hsame') (by decide)

end ContractCompiler.Hir
