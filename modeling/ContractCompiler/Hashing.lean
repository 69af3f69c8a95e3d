import ContractCompiler.Sha256

/-!
# Hash functions

Everything that hashes takes the hash function as an instance argument, so that statements hold for
any function with 32-byte results. `Hashing.sha256` is the one that programs are run with.
-/

namespace ContractCompiler

/-- A hash function with 32-byte digests. -/
class Hashing where
  /-- The digest of a byte string. -/
  digest : Bytes → Bytes
  /-- Digests have 32 bytes. -/
  length_digest : ∀ bs, (digest bs).length = 32

namespace Hashing

attribute [simp] length_digest

/-- SHA-256. -/
@[reducible] def sha256 : Hashing where
  digest := Sha256.digest
  length_digest := Sha256.length_digest

/-- The digest of a text, taken over its UTF-8 bytes. -/
def digestText [Hashing] (s : String) : Bytes := digest (Bytes.utf8 s)

end Hashing

end ContractCompiler
