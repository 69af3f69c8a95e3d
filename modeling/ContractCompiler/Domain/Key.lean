import ContractCompiler.Hashing
import ContractCompiler.Integer.Arith

/-!
# State domains

State is divided into namespaces, and each namespace into keys. A domain key names one key of a
namespace, or with the wildcard all of them. Its canonical text is `unit.namespace:key`, and the
hash of that text is what schedulers and hosts compare.

- `DomainKey`: a key with its canonical text, hash and scope;
- `DomainEntry.overlaps`, `AccessSet.conflicts`: when two accesses, or two sets of accesses, may
  meet;
- `KeyTable`: the keys of a compilation, numbered in the order they were first met.
-/

namespace ContractCompiler

/-! ## Key texts -/

/-- The canonical text of a key of a namespace. -/
def canonicalKey (unit ns key : String) : String := unit ++ "." ++ ns ++ ":" ++ key

/-- The canonical text of all keys of a namespace. -/
def canonicalWildcard (unit ns : String) : String := canonicalKey unit ns "*"

/-- The text of an integer key: its decimal value. -/
def renderIntKey (w : UInt64) (signed : Bool) : String :=
  if signed then toString (signedValue w) else toString w.toNat

/-- Bytes that may stand in a key text as they are: visible characters that have no meaning
there. -/
def isPlainKeyByte (b : UInt8) : Bool :=
  0x21 ≤ b && b ≤ 0x7E && b != 58 && b != 42

/-- The text of a byte string key: the bytes themselves if all are plain and the text could not be
mistaken for hexadecimal, else `0x` and the bytes in hexadecimal. -/
def renderBytesKey (bs : Bytes) : String :=
  if !bs.isEmpty && !(bs.take 2 == [48, 120]) && bs.all isPlainKeyByte then
    String.ofList (bs.map fun b => Char.ofNat b.toNat)
  else "0x" ++ Bytes.hex bs

/-! ## Keys -/

/-- A key of a namespace, or all of its keys. -/
structure DomainKey where
  ns : String
  /-- The key; empty for the wildcard. -/
  key : String
  wildcard : Bool
  canonical : String
  /-- The hash of the canonical text. -/
  hash : Bytes
  /-- The hash of the namespace's wildcard. -/
  scope : Bytes
deriving DecidableEq, Repr, Inhabited

/-- What is needed of a key to compare it with others. -/
structure DomainEntry where
  hash : Bytes
  scope : Bytes
  wildcard : Bool
deriving DecidableEq, Repr, Inhabited

/-- One key of a namespace. -/
def DomainKey.exact [Hashing] (unit ns key : String) : DomainKey :=
  let canonical := canonicalKey unit ns key
  { ns, key, wildcard := false, canonical
    hash := Hashing.digestText canonical
    scope := Hashing.digestText (canonicalWildcard unit ns) }

/-- All keys of a namespace. -/
def DomainKey.all [Hashing] (unit ns : String) : DomainKey :=
  let canonical := canonicalWildcard unit ns
  let hash := Hashing.digestText canonical
  { ns, key := "", wildcard := true, canonical, hash, scope := hash }

/-- The comparable part of a key. -/
def DomainKey.entry (k : DomainKey) : DomainEntry where
  hash := k.hash
  scope := k.scope
  wildcard := k.wildcard

/-- Two entries overlap if they are the same, or if one is the wildcard of the other's namespace. -/
def DomainEntry.overlaps (a b : DomainEntry) : Bool :=
  a.hash == b.hash || (a.wildcard && b.scope == a.hash) || (b.wildcard && a.scope == b.hash)

/-! ## Access sets -/

/-- The domains that a function reads and writes. -/
structure AccessSet where
  reads : List DomainEntry := []
  writes : List DomainEntry := []
deriving DecidableEq, Repr, Inhabited

/-- Whether some entry of one list overlaps some entry of the other. -/
def anyOverlap (xs ys : List DomainEntry) : Bool := xs.any fun x => ys.any fun y => x.overlaps y

/-- Two sets conflict if they overlap and at least one of the two accesses is a write. -/
def AccessSet.conflicts (a b : AccessSet) : Bool :=
  anyOverlap a.writes b.writes || anyOverlap a.writes b.reads || anyOverlap a.reads b.writes

/-! ## Numbered keys -/

/-- The keys of a compilation, one for each canonical text, in the order they were first met. -/
structure KeyTable where
  keys : Array DomainKey := #[]
deriving Repr, Inhabited

namespace KeyTable

/-- The number of the key of a canonical text. -/
def find? (t : KeyTable) (canonical : String) : Option Nat :=
  (t.keys.findFinIdx? (·.canonical == canonical)).map (·.val)

/-- The number of a key, given one if its canonical text has none. -/
def intern (t : KeyTable) (k : DomainKey) : Nat × KeyTable :=
  match t.find? k.canonical with
  | some id => (id, t)
  | none => (t.keys.size, { keys := t.keys.push k })

/-- The key of a number. -/
def get? (t : KeyTable) (id : Nat) : Option DomainKey := t.keys[id]?

end KeyTable

end ContractCompiler
