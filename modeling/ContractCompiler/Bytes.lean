/-!
# Byte strings

Run-time data (state values, keys, event payloads, serialised modules) are plain lists of bytes.

- `utf8`: the bytes of a text;
- `hex`, `ofHex?`: two lower-case hexadecimal digits a byte, and back;
- `littleEndian`, `wordOfBytes`: 64-bit words as eight bytes, lowest byte first, and back.
-/

namespace ContractCompiler

/-- A byte string. -/
abbrev Bytes := List UInt8

namespace Bytes

/-- The UTF-8 encoding of a text. -/
def utf8 (s : String) : Bytes := s.toUTF8.data.toList

/-- The text that a byte string encodes, if it is valid UTF-8. -/
def text? (bs : Bytes) : Option String := String.fromUTF8? ⟨bs.toArray⟩

/-! ## Hexadecimal -/

/-- The lower-case hexadecimal digit of a number below sixteen. -/
def hexDigit (n : Nat) : Char :=
  if n < 10 then Char.ofNat ('0'.toNat + n) else Char.ofNat ('a'.toNat + (n - 10))

/-- The value of a hexadecimal digit of either case. -/
def hexValue? (c : Char) : Option Nat :=
  if '0' ≤ c ∧ c ≤ '9' then some (c.toNat - '0'.toNat)
  else if 'a' ≤ c ∧ c ≤ 'f' then some (c.toNat - 'a'.toNat + 10)
  else if 'A' ≤ c ∧ c ≤ 'F' then some (c.toNat - 'A'.toNat + 10)
  else none

/-- Two lower-case hexadecimal digits for every byte. -/
def hex (bs : Bytes) : String :=
  String.ofList (bs.flatMap fun b => [hexDigit (b.toNat / 16), hexDigit (b.toNat % 16)])

/-- Reads pairs of hexadecimal digits. -/
def ofHexDigits? : List Char → Option Bytes
  | [] => some []
  | [_] => none
  | hi :: lo :: rest => do
    let h ← hexValue? hi
    let l ← hexValue? lo
    let bs ← ofHexDigits? rest
    return UInt8.ofNat (16 * h + l) :: bs

/-- The byte string that a hexadecimal text describes. -/
def ofHex? (s : String) : Option Bytes := ofHexDigits? s.toList

/-! ## Words -/

/-- The eight bytes of a word, lowest byte first. -/
def littleEndian (w : UInt64) : Bytes :=
  (List.range 8).map fun i => (w >>> (8 * UInt64.ofNat i)).toUInt8

/-- The word that at most eight leading bytes spell, lowest byte first; missing bytes are zero. -/
def wordOfBytes (bs : Bytes) : UInt64 :=
  (bs.take 8).foldr (fun b w => (w <<< 8) ||| b.toUInt64) 0

/-! ## Order -/

/-- Byte strings compare byte by byte, and a shorter one comes before its extensions. -/
def lt : Bytes → Bytes → Bool
  | _, [] => false
  | [], _ :: _ => true
  | a :: as, b :: bs => a < b || (a == b && lt as bs)

end Bytes

end ContractCompiler
