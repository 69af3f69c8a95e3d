import ContractCompiler.Codegen.Fragment

/-!
# Code for arithmetic

Operations are made of two parts. The first leaves the wrapped result in one slot and in another
whether the true result fits; the second does what the mode asks for. Operations that cannot fail in
their mode are done directly on the stack.

- `exactArith`: the wrapped result and the overflow flag;
- `finishArith`: the end of an operation in each mode;
- `FunctionContext.binary`, `FunctionContext.unary`, `FunctionContext.cast`.
-/

namespace ContractCompiler.Codegen

open Ssa (ValueId)

/-- The instruction of a comparison. -/
def compareOp (o : BinOp) (signed : Bool) : Vm.Op :=
  match o with
  | .ne => .ne
  | .lt => if signed then .ltS else .ltU
  | .le => if signed then .leS else .leU
  | .gt => if signed then .gtS else .gtU
  | .ge => if signed then .geS else .geU
  | _ => .eq

/-- The instruction of an operation on words. -/
def wordOp (o : BinOp) (signed : Bool) : Vm.Op :=
  match o with
  | .add => .add
  | .sub => .sub
  | .mul => .mul
  | .div => if signed then .divS else .divU
  | .rem => if signed then .remS else .remU
  | .shl => .shl
  | .shr => if signed then .shrS else .shrU
  | .and => .and
  | .or => .or
  | .xor => .xor
  | _ => .nop

/-- The operands of an operation, as the code that pushes them, and the slots it uses. -/
structure ArithInput where
  kind : IntKind
  left : List Item
  right : List Item
  /-- The slot of the wrapped result. -/
  result : Nat
  /-- The slot of the overflow flag. -/
  overflow : Nat

namespace ArithInput

/-- Addition, subtraction or multiplication of fewer than 64 bits: the result is exact as a word,
and does not fit if normalising changes it. Uses a slot. -/
def narrow (x : ArithInput) (o : BinOp) (slot : Nat) : List Item :=
  x.left ++ x.right ++ [op (wordOp o x.kind.signed), tee slot] ++ normalize x.kind
    ++ [tee x.result, get slot, op .ne, set x.overflow]

/-- The flag of a 64-bit addition: the result has another sign than both operands, or is below
one. -/
def addOverflow (x : ArithInput) : List Item :=
  if x.kind.signed then
    x.left ++ [get x.result, op .xor] ++ x.right ++ [get x.result, op .xor, op .and, lit 0, op .ltS]
  else [get x.result] ++ x.left ++ [op .ltU]

/-- The flag of a 64-bit subtraction: the operands differ in sign and the result has not that of the
first, or the first is below the second. -/
def subOverflow (x : ArithInput) : List Item :=
  if x.kind.signed then
    x.left ++ x.right ++ [op .xor] ++ x.left ++ [get x.result, op .xor, op .and, lit 0, op .ltS]
  else x.left ++ x.right ++ [op .ltU]

/-- Sets the flag of a 64-bit multiplication: the first factor is not zero, and dividing the result
by it does not give the second. A first factor of minus one is looked at apart, for that division
could stop the execution. -/
def setMulOverflow (x : ArithInput) : List Item :=
  (if x.kind.signed then
    x.left ++ [litInt (-1), op .eq, jumpIfNot 2] ++ x.right
      ++ [litInt (-Nat.pow 2 63), op .eq, set x.overflow, jump 1, .mark 2]
   else [])
    ++ x.left ++ [op .eqz, jumpIf 0, get x.result] ++ x.left
    ++ [op (if x.kind.signed then .divS else .divU)] ++ x.right
    ++ [op .ne, set x.overflow, jump 1, .mark 0, lit 0, set x.overflow, .mark 1]

/-- Addition, subtraction or multiplication of 64 bits. -/
def wide (x : ArithInput) (o : BinOp) : List Item :=
  x.left ++ x.right ++ [op (wordOp o x.kind.signed), set x.result]
    ++ match o with
      | .add => x.addOverflow ++ [set x.overflow]
      | .sub => x.subOverflow ++ [set x.overflow]
      | _ => x.setMulOverflow

/-- Division or remainder. The quotient of the least value and minus one does not fit. A checked
division by zero only sets the flag; in the other modes it stops the execution. -/
def divide (x : ArithInput) (o : BinOp) (checked : Bool) : List Item :=
  let least := lit x.kind.minWord
  let mayOverflow := o == .div && x.kind.signed
  [lit 0, set x.overflow, lit 0, set x.result]
    ++ (if checked then x.right ++ [op .eqz, jumpIf 1] else [])
    ++ (if mayOverflow then
          x.left ++ [least, op .eq] ++ x.right ++ [litInt (-1), op .eq, op .and, jumpIf 2]
        else [])
    ++ x.left ++ x.right ++ [op (wordOp o x.kind.signed), set x.result, jump 0]
    ++ (if mayOverflow then [.mark 2, least, set x.result, lit 1, set x.overflow, jump 0] else [])
    ++ (if checked then [.mark 1, lit 1, set x.overflow] else [])
    ++ [.mark 0]

/-- The greatest shift amount, as a mask. -/
def shiftMask (k : IntKind) : Item := lit (UInt64.ofNat (k.bits - 1))

/-- A shift. An amount that is not below the width does not fit; the result is that of its low
bits. -/
def shift (x : ArithInput) (o : BinOp) : List Item :=
  x.right ++ [lit (UInt64.ofNat x.kind.bits), op .geU, set x.overflow]
    ++ x.left ++ x.right ++ [shiftMask x.kind, op .and, op (wordOp o x.kind.signed)]
    ++ (if o = .shl then normalize x.kind else []) ++ [set x.result]

/-- Leaves the wrapped result and the overflow flag in their slots. Uses a slot. -/
def exactArith (x : ArithInput) (o : BinOp) (checked : Bool) (slot : Nat) : List Item :=
  match o with
  | .div | .rem => x.divide o checked
  | .shl | .shr => x.shift o
  | _ => if x.kind.bits < 64 then x.narrow o slot else x.wide o

/-- Pushes the value that is nearest to a result that does not fit. -/
def nearest (x : ArithInput) (o : BinOp) : List Item :=
  let lo := x.kind.minWord
  let hi := x.kind.maxWord
  let negative (operand : List Item) : List Item := operand ++ [lit 0, op .ltS]
  match o with
  | .add => if x.kind.signed then negative x.right ++ select 4 lo hi else [lit hi]
  | .sub => if x.kind.signed then negative x.right ++ select 4 hi lo else [lit lo]
  | .mul =>
    if x.kind.signed then negative x.left ++ negative x.right ++ [op .xor] ++ select 4 lo hi
    else [lit hi]
  | _ => [lit hi]

/-- Pushes the result of an operation as its mode asks: giving up if it does not fit, its low bits,
the nearest value, or an error result. Uses two slots. -/
def finishArith (x : ArithInput) (o : BinOp) (mode : ArithMode) (slot : Nat) : List Item :=
  match mode with
  | .trap => [get x.overflow, failIf .overflow, get x.result]
  | .wrapping => [get x.result]
  | .saturating =>
    if o = .shl ∨ o = .shr ∨ o = .rem then [get x.result]
    else
      [get x.overflow, jumpIfNot 3] ++ x.nearest o ++ [set x.result, .mark 3, get x.result]
  | .checked =>
    allocateInto slot 16
      ++ [get slot, get x.overflow, litInt Ssa.arithmeticStatus, op .mul, op .store]
      ++ [get slot, lit 8, op .add, get x.result, op .store, get slot]

/-- How many slots the first part of an operation uses besides those of its results. -/
def exactScratch (x : ArithInput) (o : BinOp) : Nat :=
  match o with
  | .add | .sub | .mul => if x.kind.bits < 64 then 1 else 0
  | _ => 0

end ArithInput

namespace FunctionContext

/-- Pushes the result of an operation that may not fit. -/
def checkedArith (cx : FunctionContext) (o : BinOp) (mode : ArithMode) (k : IntKind)
    (left right : List Item) (result : Option ValueId) : Fragment :=
  let x : ArithInput := { kind := k, left, right, result := cx.temp 0, overflow := cx.temp 1 }
  let used := 2 + x.exactScratch o
  { scratch := if mode = .checked then used + 2 else used
    items := x.exactArith o (mode == .checked) (cx.temp 2) ++ x.finishArith o mode (cx.temp used)
      ++ cx.define result }

/-- The instruction on the stack for an operation that cannot fail in its mode, after which the
result is a word of the type. -/
def directArith (o : BinOp) (k : IntKind) : List Item :=
  (if o = .shl ∨ o = .shr then [ArithInput.shiftMask k, op .and] else [])
    ++ [op (wordOp o k.signed)] ++ (if o = .rem ∨ o = .shr then [] else normalize k)

/-- The code of a binary operation. -/
def binary (cx : FunctionContext) (o : BinOp) (mode : ArithMode) (left right : ValueId)
    (result : Option ValueId) : Fragment :=
  let k := cx.kind left
  let direct (code : List Item) : Fragment :=
    { items := cx.push left ++ cx.push right ++ code ++ cx.define result }
  if k.bits = 0 then { items := [unsupported .operandNotInteger] }
  else if o.isCompare then direct [op (compareOp o k.signed)]
  else if o.isBitwise then direct [op (wordOp o k.signed)]
  else if (Ssa.InstData.binary o mode left right).stackOperand?.isSome then direct (directArith o k)
  else cx.checkedArith o mode k (cx.push left) (cx.push right) result

/-- The code of a unary operation. Arithmetic negation takes the value from zero. -/
def unary (cx : FunctionContext) (o : UnOp) (mode : ArithMode) (src : ValueId)
    (result : Option ValueId) : Fragment :=
  let k := cx.kind src
  match o with
  | .not => { items := cx.push src ++ [lit 1, op .xor] ++ cx.define result }
  | .bitNot => { items := cx.push src ++ [litInt (-1), op .xor] ++ normalize k ++ cx.define result }
  | .neg => cx.checkedArith .sub mode k [lit 0] (cx.push src) result

/-- Gives up if a value has no counterpart in another type. Only the widest unsigned type has values
beyond the signed words, which are told by their sign; otherwise normalising must change nothing. -/
def castCheck (cx : FunctionContext) (source target : IntKind) (src : ValueId) : List Item :=
  let negative := cx.push src ++ [lit 0, op .ltS, failIf .overflow]
  let isWord (k : IntKind) : Bool := !k.signed && decide (64 ≤ k.bits)
  .needs .overflow ::
    if isWord target then (if source.signed then negative else [])
    else
      (if isWord source then negative else [])
        ++ cx.push src ++ normalize target ++ cx.push src ++ [op .ne, failIf .overflow]

/-- The code of a conversion. -/
def cast (cx : FunctionContext) (mode : CastMode) (type : TypeId) (src : ValueId)
    (result : Option ValueId) : Fragment :=
  let source := cx.kind src
  let target := cx.types.intKind type
  if source.bits = 0 ∨ target.bits = 0 then { items := [unsupported .castNotInteger] }
  else
    { items := (if mode = .trap then cx.castCheck source target src else [])
        ++ cx.push src ++ normalize target ++ cx.define result }

end FunctionContext

end ContractCompiler.Codegen
