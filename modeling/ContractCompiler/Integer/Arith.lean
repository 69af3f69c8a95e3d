/-!
# Fixed-width integers

A value of an integer type is held in a 64-bit word: a signed value of fewer bits is sign-extended,
an unsigned one zero-extended.

- `IntKind`: signedness and width of a type;
- `IntKind.toInt`: the integer that a word stands for;
- `IntKind.normalize`: the word of a type that agrees with a word in its low bits;
- `IntKind.eval`: wrapped result of an operation, and whether the true result fits;
- `IntKind.evalSaturating`, `IntKind.compare`, `IntKind.cast`.
-/

namespace ContractCompiler

/-- Signedness and width in bits of a type; width zero is not an integer type. -/
structure IntKind where
  signed : Bool := false
  bits : Nat := 0
deriving DecidableEq, Repr, Inhabited

/-- The arithmetic operations. -/
inductive ArithOp where
  | add | sub | mul | div | rem | shl | shr | and | or | xor
deriving DecidableEq, Repr, Inhabited

/-- The outcome of an operation. -/
structure ArithOutcome where
  /-- The result reduced to the width of the type. -/
  value : UInt64 := 0
  /-- The true result does not fit, or a shift amount is not below the width. -/
  overflow : Bool := false
  divByZero : Bool := false
deriving DecidableEq, Repr, Inhabited

/-- The outcome of a conversion. -/
structure CastOutcome where
  value : UInt64 := 0
  /-- The target type has no such value. -/
  overflow : Bool := false
deriving DecidableEq, Repr, Inhabited

/-- A word read as a signed number. -/
def signedValue (w : UInt64) : Int := w.toInt64.toInt

/-- The word of a number, modulo `2 ^ 64`. -/
def wordOfInt (v : Int) : UInt64 := UInt64.ofNat (v % Nat.pow 2 64).toNat

namespace IntKind

/-- A truth value as a number of one bit. -/
def bool : IntKind := { signed := false, bits := 1 }

/-- The number that a word of the type stands for. -/
def toInt (k : IntKind) (w : UInt64) : Int := if k.signed then signedValue w else w.toNat

/-- Keeps the low bits of a word and extends them to the word of the type. -/
def normalize (k : IntKind) (w : UInt64) : UInt64 :=
  if k.bits = 0 ∨ 64 ≤ k.bits then w
  else if k.signed then
    let shift := 64 - UInt64.ofNat k.bits
    ((w <<< shift).toInt64 >>> shift.toInt64).toUInt64
  else w &&& ((1 <<< UInt64.ofNat k.bits) - 1)

/-- The word of the least value. -/
def minWord (k : IntKind) : UInt64 :=
  if k.signed then wordOfInt (-(Nat.pow 2 (min k.bits 64 - 1))) else 0

/-- The word of the greatest value. -/
def maxWord (k : IntKind) : UInt64 :=
  let width := min k.bits 64
  if k.signed then wordOfInt (Nat.pow 2 (width - 1) - 1) else wordOfInt (Nat.pow 2 width - 1)

/-- The outcome of an operation whose true result is known. For an unsigned type of fewer than 64
bits the word of the result has to be normalised already. -/
def ofExact (k : IntKind) (exact : Int) : ArithOutcome :=
  let word := wordOfInt exact
  let value := k.normalize word
  let fits :=
    if k.signed then signedValue value = exact
    else 0 ≤ exact ∧ (if k.bits < 64 then value = word else exact < Nat.pow 2 64)
  { value, overflow := !decide fits }

/-- The amount by which a word is shifted: the low bits of the given amount. -/
def shiftAmount (k : IntKind) (amount : UInt64) : UInt64 :=
  amount &&& UInt64.ofNat ((k.bits + (Nat.pow 2 32 - 1)) % Nat.pow 2 32)

/-- Division with the quotient rounded toward zero. The one quotient that does not fit is the least
value divided by minus one. -/
def evalDiv (k : IntKind) (a b : UInt64) : ArithOutcome :=
  if b = 0 then { divByZero := true }
  else if k.signed then
    let overflow := signedValue b = -1 ∧ a = k.minWord
    { value := k.normalize (wordOfInt ((signedValue a).tdiv (signedValue b)))
      overflow := decide overflow }
  else { value := a / b }

/-- The remainder that goes with `evalDiv`; it has the sign of the dividend and always fits. -/
def evalRem (k : IntKind) (a b : UInt64) : ArithOutcome :=
  if b = 0 then { divByZero := true }
  else if k.signed then
    { value := k.normalize (wordOfInt ((signedValue a).tmod (signedValue b))) }
  else { value := a % b }

/-- Wrapped result of an operation, and whether the true result fits the type. -/
def eval (k : IntKind) (op : ArithOp) (a b : UInt64) : ArithOutcome :=
  match op with
  | .add => k.ofExact (k.toInt a + k.toInt b)
  | .sub => k.ofExact (k.toInt a - k.toInt b)
  | .mul => k.ofExact (k.toInt a * k.toInt b)
  | .div => k.evalDiv a b
  | .rem => k.evalRem a b
  | .shl =>
    { value := k.normalize (a <<< k.shiftAmount b), overflow := decide (k.bits ≤ b.toNat) }
  | .shr =>
    let shift := k.shiftAmount b
    { value :=
        if k.signed then k.normalize (a.toInt64 >>> shift.toInt64).toUInt64 else a >>> shift
      overflow := decide (k.bits ≤ b.toNat) }
  | .and => { value := k.normalize (a &&& b) }
  | .or => { value := k.normalize (a ||| b) }
  | .xor => { value := k.normalize (a ^^^ b) }

/-- The result of an operation, or the nearest value of the type where it does not fit. Shifts
wrap. -/
def evalSaturating (k : IntKind) (op : ArithOp) (a b : UInt64) : UInt64 :=
  let out := k.eval op a b
  if !out.overflow then out.value
  else
    let negA := k.signed && decide (signedValue a < 0)
    let negB := k.signed && decide (signedValue b < 0)
    match op with
    | .add => if negB then k.minWord else k.maxWord
    | .sub => if k.signed && negB then k.maxWord else k.minWord
    | .mul => if negA != negB then k.minWord else k.maxWord
    | .div => k.maxWord
    | _ => out.value

/-- The order of two values. -/
def compare (k : IntKind) (a b : UInt64) : Ordering := Ord.compare (k.toInt a) (k.toInt b)

/-- Conversion to another type, and whether that type has the value. -/
def cast (source target : IntKind) (w : UInt64) : CastOutcome :=
  let value := target.normalize w
  let negative := signedValue w < 0
  let toWord := !target.signed && decide (64 ≤ target.bits)
  if !source.signed && decide (64 ≤ source.bits) && decide negative then
    { value, overflow := !toWord }
  else if toWord then { value, overflow := decide negative }
  else { value, overflow := value != w }

end IntKind

end ContractCompiler
