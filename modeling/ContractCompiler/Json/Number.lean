/-!
# Numbers of a document

A number is kept as it was written: a whole number, or digits with a decimal exponent. Documents use
numbers only as 64-bit signed integers.

- `Number.toInt64?`: the integer that a number stands for;
- `Number.toText`: its text.

A number written without fraction and exponent is exact. Any other form, and whole numbers that do
not fit a 64-bit word, stand for the nearest number with 53 significant bits, ties going to the even
one.
-/

namespace ContractCompiler.Json

/-- A number as written in a document. -/
inductive Number where
  /-- A whole number written without fraction and exponent. -/
  | whole (value : Int)
  /-- The number `± digits · 10 ^ exponent`. -/
  | decimal (negative : Bool) (digits : Nat) (exponent : Int)
deriving DecidableEq, Repr, Inhabited

namespace Number

/-- The range of 64-bit signed integers. -/
def isInt64 (v : Int) : Bool := -(Nat.pow 2 63) ≤ v && v < Nat.pow 2 63

/-- A quotient of natural numbers rounded to the nearest natural number, ties going to the even
one. -/
def roundDiv (num den : Nat) : Nat :=
  let q := num / den
  let r := num % den
  if 2 * r < den then q
  else if den < 2 * r then q + 1
  else if q % 2 = 0 then q else q + 1

/-- The number of binary digits. -/
def bitLength (n : Nat) : Nat := if n = 0 then 0 else n.log2 + 1

/-- The nearest number `m · 2 ^ e` with a significand `m` of at most 53 bits and an exponent of at
least -1074 to a positive quotient. -/
def nearest (num den : Nat) : Nat × Int :=
  let e : Int := (bitLength num : Int) - (bitLength den : Int) - 53
  -- one more bit than needed or exactly as many: shift once more when there is one too many
  let scaled (e : Int) : Nat × Nat :=
    if e < 0 then (num * Nat.pow 2 (-e).toNat, den) else (num, den * Nat.pow 2 e.toNat)
  let wide := scaled e
  let e := max (-1074) (if bitLength (wide.1 / wide.2) > 53 then e + 1 else e)
  let parts := scaled e
  (roundDiv parts.1 parts.2, e)

/-- The value of `m · 2 ^ e` if it is a whole number. -/
def wholeOfBinary? (m : Nat) (e : Int) : Option Nat :=
  if 0 ≤ e then some (m * Nat.pow 2 e.toNat)
  else
    let scale := Nat.pow 2 (-e).toNat
    if m % scale = 0 then some (m / scale) else none

/-- The number of decimal digits of a number, one for zero. -/
def decimalLength (n : Nat) : Nat := (Nat.toDigits 10 n).length

/-- The quotient of natural numbers that `digits · 10 ^ exponent` is. -/
def quotient (digits : Nat) (exponent : Int) : Nat × Nat :=
  if 0 ≤ exponent then (digits * Nat.pow 10 exponent.toNat, 1)
  else (digits, Nat.pow 10 (-exponent).toNat)

/-- The whole number nearest to `digits · 10 ^ exponent` among the numbers of 53 bits, if that
nearest number is whole and not larger than every 64-bit integer. Exponents far outside of the range
are settled without computing the power. -/
def nearestWhole? (digits : Nat) (exponent : Int) : Option Nat :=
  let magnitude := (decimalLength digits : Int) + exponent
  if digits = 0 ∨ magnitude < -330 then some 0
  else if 30 < magnitude then none
  else
    let parts := quotient digits exponent
    let binary := nearest parts.1 parts.2
    wholeOfBinary? binary.1 binary.2

/-- The signed 64-bit integer that a number stands for, if it stands for one. -/
def toInt64? : Number → Option Int
  | .whole v =>
    if isInt64 v then some v
    else if v < 0 ∧ nearestWhole? v.natAbs 0 = some (Nat.pow 2 63) then some (-(Nat.pow 2 63))
    else none
  | .decimal negative digits exponent =>
    match nearestWhole? digits exponent with
    | none => none
    | some n =>
      let v : Int := if negative then -(n : Int) else n
      if isInt64 v then some v else none

/-! ## Text -/

/-- The digits `d` and the exponent `x` of the number `d · 10 ^ (x - places + 1)` of so many digits
that is nearest to a positive quotient, ties going to the even one. -/
def significant (places num den : Nat) : Nat × Int :=
  let scaled (x : Int) : Nat × Nat :=
    let shift := (places : Int) - 1 - x
    if 0 ≤ shift then (num * Nat.pow 10 shift.toNat, den)
      else (num, den * Nat.pow 10 (-shift).toNat)
  -- the lengths of numerator and denominator give the exponent or one more than it
  let x : Int := (decimalLength num : Int) - (decimalLength den : Int)
  let x := if (scaled x).1 < Nat.pow 10 (places - 1) * (scaled x).2 then x - 1 else x
  let d := roundDiv (scaled x).1 (scaled x).2
  if d = Nat.pow 10 places then (Nat.pow 10 (places - 1), x + 1) else (d, x)

/-- Digits without the zeros at their end. -/
def trimZeros (digits : List Char) : List Char := (digits.reverse.dropWhile (· = '0')).reverse

/-- Digits with a point before the fraction, if there is one. -/
def pointed (whole fraction : List Char) : List Char :=
  let fraction := trimZeros fraction
  if fraction.isEmpty then whole else whole ++ '.' :: fraction

/-- An exponent with its sign and at least two digits. -/
def exponentText (x : Int) : List Char :=
  let digits := Nat.toDigits 10 x.natAbs
  'e' :: (if x < 0 then '-' else '+') :: (if digits.length < 2 then '0' :: digits else digits)

/-- Digits whose first stands for the given power of ten: positional from `10 ^ -4` on as far as the
digits reach, else with an exponent. -/
def digitsText (digits : List Char) (x : Int) : List Char :=
  if x < -4 ∨ (digits.length : Int) ≤ x then
    pointed (digits.take 1) (digits.drop 1) ++ exponentText x
  else if x < 0 then pointed ['0'] (List.replicate (-x - 1).toNat '0' ++ digits)
  else pointed (digits.take (x.toNat + 1)) (digits.drop (x.toNat + 1))

/-- The number of 53 bits that is nearest to `digits · 10 ^ exponent`, written with 17 significant
digits, which is enough to read it back. -/
def binaryText (digits : Nat) (exponent : Int) : List Char :=
  let magnitude := (decimalLength digits : Int) + exponent
  if digits = 0 ∨ magnitude < -330 then ['0']
  else if 310 < magnitude then ['i', 'n', 'f']
  else
    let parts := quotient digits exponent
    let (m, e) := nearest parts.1 parts.2
    if m = 0 then ['0'] else if 1024 < (bitLength m : Int) + e then ['i', 'n', 'f'] else
    let (num, den) := if 0 ≤ e then (m * Nat.pow 2 e.toNat, 1) else (m, Nat.pow 2 (-e).toNat)
    let (d, x) := significant 17 num den
    digitsText (Nat.toDigits 10 d) x

/-- The text of a number. Whole numbers that fit a 64-bit word are written in full. -/
def toText : Number → String
  | .whole v =>
    if isInt64 v ∨ (0 ≤ v ∧ v < Nat.pow 2 64) then toString v
    else String.ofList ((if v < 0 then ['-'] else []) ++ binaryText v.natAbs 0)
  | .decimal negative digits exponent =>
    String.ofList ((if negative then ['-'] else []) ++ binaryText digits exponent)

end Number

end ContractCompiler.Json
