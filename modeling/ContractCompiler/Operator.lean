import ContractCompiler.Integer.Arith

/-!
# Operators

The operators of the language, their arithmetic modes, and what one operation on words does.

- `BinOp`, `UnOp`, `ArithMode`, `CastMode`;
- `Folded`: a value, or the way an operation fails;
- `foldBinOp`, `foldNeg`, `foldCast`: one operation on constant words.
-/

namespace ContractCompiler

/-- The binary operators. -/
inductive BinOp where
  | add | sub | mul | div | rem | shl | shr | and | or | xor
  | eq | ne | lt | le | gt | ge
deriving DecidableEq, Repr, Inhabited

/-- The unary operators: arithmetic negation, negation of a truth value, bitwise complement. -/
inductive UnOp where
  | neg | not | bitNot
deriving DecidableEq, Repr, Inhabited

/-- What an operation does when its true result does not fit. -/
inductive ArithMode where
  /-- It stops the execution. -/
  | trap
  /-- It drops the high bits. -/
  | wrapping
  /-- It goes to the nearest value that fits. -/
  | saturating
  /-- It yields an error result. -/
  | checked
deriving DecidableEq, Repr, Inhabited

/-- What a conversion does when the target type has no such value. -/
inductive CastMode where
  | trap | wrapping
deriving DecidableEq, Repr, Inhabited

namespace BinOp

/-- Comparisons have a truth value. -/
def isCompare : BinOp → Bool
  | .eq | .ne | .lt | .le | .gt | .ge => true
  | _ => false

/-- Bitwise operations never fail. -/
def isBitwise : BinOp → Bool
  | .and | .or | .xor => true
  | _ => false

/-- The arithmetic operation of an operator that is not a comparison. -/
def arith? : BinOp → Option ArithOp
  | .add => some .add
  | .sub => some .sub
  | .mul => some .mul
  | .div => some .div
  | .rem => some .rem
  | .shl => some .shl
  | .shr => some .shr
  | .and => some .and
  | .or => some .or
  | .xor => some .xor
  | _ => none

/-- Whether a comparison holds of an ordering; false for other operators. -/
def holds : BinOp → Ordering → Bool
  | .eq, o => o.isEq
  | .ne, o => o.isNe
  | .lt, o => o.isLT
  | .le, o => o.isLE
  | .gt, o => o.isGT
  | .ge, o => o.isGE
  | _, _ => false

end BinOp

/-- The word of a truth value. -/
def wordOfBool (b : Bool) : UInt64 := if b then 1 else 0

/-- The result of one operation on words. -/
inductive Folded where
  | value (w : UInt64)
  /-- The execution stops because the result does not fit. -/
  | overflow
  /-- The execution stops because of a division by zero. -/
  | divByZero
  /-- A checked operation yields an error result. -/
  | checkedErr
deriving DecidableEq, Repr, Inhabited

/-- One arithmetic operation on words in a mode. -/
def foldArith (op : ArithOp) (mode : ArithMode) (k : IntKind) (a b : UInt64) : Folded :=
  let out := k.eval op a b
  if out.divByZero then
    match mode with
    | .checked => .checkedErr
    | _ => .divByZero
  else
    match mode with
    | .trap => if out.overflow then .overflow else .value out.value
    | .checked => if out.overflow then .checkedErr else .value out.value
    | .wrapping => .value out.value
    | .saturating => .value (k.evalSaturating op a b)

/-- One binary operation on words of a type. -/
def foldBinOp (op : BinOp) (mode : ArithMode) (k : IntKind) (a b : UInt64) : Folded :=
  match op.arith? with
  | none => .value (wordOfBool (op.holds (k.compare a b)))
  | some aop =>
    if op.isBitwise then .value (k.eval aop a b).value else foldArith aop mode k a b

/-- Arithmetic negation: the value taken from zero. -/
def foldNeg (mode : ArithMode) (k : IntKind) (a : UInt64) : Folded := foldBinOp .sub mode k 0 a

/-- One conversion of a word between types. -/
def foldCast (mode : CastMode) (source target : IntKind) (w : UInt64) : Folded :=
  let out := source.cast target w
  match mode with
  | .trap => if out.overflow then .overflow else .value out.value
  | .wrapping => .value out.value

end ContractCompiler
