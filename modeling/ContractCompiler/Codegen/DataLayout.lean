import ContractCompiler.Codegen.Fragment

/-!
# Constant data

Constant data stands in memory after the word that holds the end of the heap. Every byte string is
laid out once, at a multiple of eight.

- `DataLayout.add?`: a layout with a byte string in it, unless there would be too much data;
- `DataLayout.offset`: the address of a byte string.
-/

namespace ContractCompiler.Codegen

/-- The constant data of a module. -/
structure DataLayout where
  /-- The number of bytes in all segments. -/
  used : Nat := 0
  /-- The address of the next byte string. -/
  next : Nat := 8
  /-- The byte strings with their addresses, in order. -/
  segments : Array Vm.DataSegment := #[]
deriving DecidableEq, Repr, Inhabited

namespace DataLayout

/-- The segment of a byte string. -/
def find? (d : DataLayout) (bytes : Bytes) : Option Vm.DataSegment :=
  d.segments.find? (·.bytes == bytes)

/-- The address of a byte string; zero if it is not laid out. -/
def offset (d : DataLayout) (bytes : Bytes) : UInt64 := ((d.find? bytes).map (·.offset)).getD 0

/-- A layout with a byte string in it; refused if it is not there and would take more bytes than a
limit. -/
def add? (d : DataLayout) (limit : Nat) (bytes : Bytes) : Option DataLayout :=
  if (d.find? bytes).isSome then some d
  else if limit < d.used + bytes.length then none
  else some {
    used := d.used + bytes.length
    next := align8 (d.next + bytes.length)
    segments := d.segments.push { offset := UInt64.ofNat d.next, bytes } }

end DataLayout

end ContractCompiler.Codegen
