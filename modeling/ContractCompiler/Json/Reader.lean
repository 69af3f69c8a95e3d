import ContractCompiler.Json.Basic
import ContractCompiler.Bytes

/-!
# Reading values

`Json.parse?` reads a whole text as one value, and `Library.standard` is the library that does so.
Every step works on the list of characters still to be read; nesting is followed with a fuel of one
unit a character, which no text can exhaust, since each bracket takes a character.

The grammar is that of RFC 8259, with leading zeros allowed in numbers. A surrogate escape that has
no partner stands for the replacement character.
-/

namespace ContractCompiler.Json

/-- The characters that may stand between tokens. -/
def isBlank (c : Char) : Bool := c = ' ' || c = '\t' || c = '\n' || c = '\r'

/-- Skips the characters that may stand between tokens. -/
def skipBlanks (cs : List Char) : List Char := cs.dropWhile isBlank

/-! ## Numbers -/

/-- The decimal digits that a text starts with, and what follows them. -/
def digits (cs : List Char) : List Char × List Char :=
  (cs.takeWhile Char.isDigit, cs.dropWhile Char.isDigit)

/-- The value of a list of decimal digits. -/
def digitsValue (ds : List Char) : Nat := ds.foldl (fun n d => 10 * n + (d.toNat - '0'.toNat)) 0

/-- The digits of a fraction after its point; none if there is no point. -/
def fraction? : List Char → Option (List Char × List Char)
  | '.' :: rest =>
    let ds := digits rest
    if ds.1.isEmpty then none else some ds
  | cs => some ([], cs)

/-- The digits of an exponent with its sign. -/
def exponentDigits? (negative : Bool) (cs : List Char) : Option (Option Int × List Char) :=
  let ds := digits cs
  if ds.1.isEmpty then none
  else
    let n : Int := digitsValue ds.1
    some (some (if negative then -n else n), ds.2)

/-- An exponent; `none` inside if there is no exponent mark. -/
def exponent? : List Char → Option (Option Int × List Char)
  | 'e' :: rest | 'E' :: rest =>
    match rest with
    | '+' :: rest => exponentDigits? false rest
    | '-' :: rest => exponentDigits? true rest
    | rest => exponentDigits? false rest
  | cs => some (none, cs)

/-- An unsigned number. -/
def unsigned? (negative : Bool) (cs : List Char) : Option (Number × List Char) := do
  let (whole, rest) := digits cs
  if whole.isEmpty then none
  else
    let (frac, rest) ← fraction? rest
    let (exp, rest) ← exponent? rest
    if frac.isEmpty && exp.isNone then
      let n : Int := digitsValue whole
      return (.whole (if negative then -n else n), rest)
    else
      let e : Int := exp.getD 0 - frac.length
      return (.decimal negative (digitsValue (whole ++ frac)) e, rest)

/-- A number at the start of a text. -/
def number? : List Char → Option (Number × List Char)
  | '-' :: rest => unsigned? true rest
  | cs => unsigned? false cs

/-! ## Strings -/

/-- Four hexadecimal digits. -/
def hex4? : List Char → Option (Nat × List Char)
  | a :: b :: c :: d :: rest => do
    let a ← Bytes.hexValue? a
    let b ← Bytes.hexValue? b
    let c ← Bytes.hexValue? c
    let d ← Bytes.hexValue? d
    return (((a * 16 + b) * 16 + c) * 16 + d, rest)
  | _ => none

/-- The character that stands for what cannot be decoded. -/
def replacement : Char := Char.ofNat 0xFFFD

/-- The characters of the sixteen-bit units that escapes spell, and the partner that a leading
surrogate still waits for. -/
def pushUnit (pending : Option Nat) (unit : Nat) : List Char × Option Nat :=
  match pending with
  | none =>
    if 0xD800 ≤ unit ∧ unit < 0xDC00 then ([], some unit)
    else if 0xDC00 ≤ unit ∧ unit < 0xE000 then ([replacement], none)
    else ([Char.ofNat unit], none)
  | some high =>
    if 0xDC00 ≤ unit ∧ unit < 0xE000 then
      ([Char.ofNat (0x10000 + (high - 0xD800) * 0x400 + (unit - 0xDC00))], none)
    else if 0xD800 ≤ unit ∧ unit < 0xDC00 then ([replacement], some unit)
    else ([replacement, Char.ofNat unit], none)

/-- The replacement character for a leading surrogate that never met its partner. -/
def flush (pending : Option Nat) : List Char := if pending.isSome then [replacement] else []

/-- The character that a one-letter escape stands for. -/
def simpleEscape? (c : Char) : Option Char :=
  if c = '"' ∨ c = '\\' ∨ c = '/' then some c
  else if c = 'b' then some '\x08'
  else if c = 'f' then some '\x0c'
  else if c = 'n' then some '\n'
  else if c = 'r' then some '\r'
  else if c = 't' then some '\t'
  else none

/-- The rest of a string after its opening quote. The accumulator is reversed. -/
def stringRest? (acc : List Char) (pending : Option Nat) :
    List Char → Option (String × List Char)
  | [] => none
  | '"' :: rest => some (String.ofList (flush pending ++ acc).reverse, rest)
  | '\\' :: 'u' :: a :: b :: c :: d :: rest =>
    match hex4? [a, b, c, d] with
    | none => none
    | some (unit, _) =>
      let step := pushUnit pending unit
      stringRest? (step.1.reverse ++ acc) step.2 rest
  | '\\' :: e :: rest =>
    match simpleEscape? e with
    | none => none
    | some c => stringRest? (c :: (flush pending ++ acc)) none rest
  | c :: rest =>
    if c.toNat < 0x20 ∨ c = '\\' then none
    else stringRest? (c :: (flush pending ++ acc)) none rest

/-! ## Values -/

/-- Reads a fixed word. -/
def word? (word : List Char) (value : Json) (cs : List Char) : Option (Json × List Char) :=
  if word.isPrefixOf cs then some (value, cs.drop word.length) else none

mutual

/-- A value at the start of a text, blanks before it skipped. -/
def value? : Nat → List Char → Option (Json × List Char)
  | 0, _ => none
  | fuel + 1, cs =>
    match skipBlanks cs with
    | [] => none
    | '"' :: rest => (stringRest? [] none rest).map fun r => (.string r.1, r.2)
    | '[' :: rest =>
      match skipBlanks rest with
      | ']' :: rest => some (.array [], rest)
      | rest => (items? fuel rest).map fun r => (.array r.1, r.2)
    | '\x7b' :: rest =>
      match skipBlanks rest with
      | '\x7d' :: rest => some (.object [], rest)
      | rest => (fields? fuel [] rest).map fun r => (.object r.1, r.2)
    | 't' :: rest => word? "rue".toList (.bool true) rest
    | 'f' :: rest => word? "alse".toList (.bool false) rest
    | 'n' :: rest => word? "ull".toList .null rest
    | cs => (number? cs).map fun r => (.number r.1, r.2)

/-- The items of an array up to its closing bracket; there is at least one. -/
def items? : Nat → List Char → Option (List Json × List Char)
  | 0, _ => none
  | fuel + 1, cs =>
    match value? fuel cs with
    | none => none
    | some (v, rest) =>
      match skipBlanks rest with
      | ',' :: rest => (items? fuel rest).map fun r => (v :: r.1, r.2)
      | ']' :: rest => some ([v], rest)
      | _ => none

/-- The fields of an object up to its closing bracket; there is at least one. -/
def fields? : Nat → List (String × Json) → List Char → Option (List (String × Json) × List Char)
  | 0, _, _ => none
  | fuel + 1, acc, cs =>
    match skipBlanks cs with
    | '"' :: rest =>
      match stringRest? [] none rest with
      | none => none
      | some (key, rest) =>
        match skipBlanks rest with
        | ':' :: rest =>
          match value? fuel rest with
          | none => none
          | some (v, rest) =>
            let acc := insertField key v acc
            match skipBlanks rest with
            | ',' :: rest => fields? fuel acc rest
            | '\x7d' :: rest => some (acc, rest)
            | _ => none
        | _ => none
    | _ => none

end

/-- Reads a whole text as one value. -/
def parse? (text : String) : Option Json :=
  let cs := text.toList
  match value? (2 * cs.length + 2) cs with
  | some (v, rest) => if (skipBlanks rest).isEmpty then some v else none
  | none => none

/-! ## Texts by their characters

A closed text is read by evaluation once its characters are known. Evaluation would get them by
decoding the text's bytes, which is slow; the characters that a literal is made of and those of
appended texts are got from the equations below. -/

theorem toList_eq_of_ofList {text : String} {cs : List Char} (h : String.ofList cs = text) :
    text.toList = cs := by
  rw [← h, String.toList_ofList]

theorem toList_append_eq {s t : String} {cs ds : List Char} (hs : s.toList = cs)
    (ht : t.toList = ds) :
    (s ++ t).toList = cs ++ ds := by
  rw [String.toList_append, hs, ht]

/-- A text that is a value and nothing after it is read as that value. -/
theorem parse?_eq_of_value? {text : String} {cs : List Char} (htext : text.toList = cs) {v : Json}
    (hv : value? (2 * cs.length + 2) cs = some (v, [])) : parse? text = some v := by
  subst htext
  unfold parse?
  simp only [hv]
  rfl

/-- Documents are read here. -/
@[reducible] def Library.standard : Library where
  parse? := Json.parse?
  toInt64? := Number.toInt64?

end ContractCompiler.Json
