import ContractCompiler.Bytes

/-!
# LEB128 numbers

A number as bytes of seven bits each, lowest first; every byte but the last has its high bit set.

- `Leb128.encode`: the shortest spelling;
- `Leb128.decode`: the number at the start of a byte string, and the bytes after it. Spellings with
  more bytes than needed are read as well, as long as the number fits 64 bits.
-/

namespace ContractCompiler.Leb128

/-- The shortest spelling of a number. -/
def encode (n : Nat) : Bytes :=
  if n < 128 then [UInt8.ofNat n] else UInt8.ofNat (n % 128 + 128) :: encode (n / 128)
termination_by n
decreasing_by omega

/-- Why a number cannot be read. -/
inductive Fault where
  | pastEnd
  | tooBig
deriving DecidableEq, Repr, Inhabited

/-- The reason given for a malformed number. -/
def Fault.reason : Fault → String
  | .pastEnd => "malformed uleb128, extends past end"
  | .tooBig => "uleb128 too big for uint64"

/-- Continues a number of which `shift` low bits are known. -/
def decodeFrom (shift value : Nat) : Bytes → Except Fault (Nat × Bytes)
  | [] => .error .pastEnd
  | b :: rest =>
    let value := value + b.toNat % 128 * Nat.pow 2 shift
    if Nat.pow 2 64 ≤ value then .error .tooBig
    else if b.toNat < 128 then .ok (value, rest)
    else decodeFrom (shift + 7) value rest

/-- The number at the start of a byte string, and the bytes after it. -/
def decode (bs : Bytes) : Except Fault (Nat × Bytes) := decodeFrom 0 0 bs

end ContractCompiler.Leb128
