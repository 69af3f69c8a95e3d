import ContractCompiler.Vm.Module

/-!
# Linear memory and the operand stack

- `Memory`: a fixed number of bytes, all zero at first; bytes that were never written need not be
  stored;
- `OperandStack`: the words on the stack with their number at hand.
-/

namespace ContractCompiler.Vm

/-- A memory of `size` bytes. Bytes beyond those stored are zero. -/
structure Memory where
  size : Nat
  stored : Array UInt8 := #[]
deriving Repr, Inhabited

namespace Memory

/-- Whether a range of bytes lies in memory. -/
def inBounds (m : Memory) (addr len : Nat) : Bool := addr + len ≤ m.size

/-- The byte at an address. -/
def byte (m : Memory) (addr : Nat) : UInt8 := m.stored.getD addr 0

/-- The bytes of a range. -/
def bytes (m : Memory) (addr len : Nat) : Bytes := (List.range' addr len).map m.byte

/-- The bytes of a range, if it lies in memory. -/
def read? (m : Memory) (addr len : Nat) : Option Bytes :=
  if m.inBounds addr len then some (m.bytes addr len) else none

/-- Stores bytes from an address on. -/
def store (stored : Array UInt8) (addr : Nat) : Bytes → Array UInt8
  | [] => stored
  | b :: bs => store (stored.setIfInBounds addr b) (addr + 1) bs

/-- Makes room for bytes up to an address. -/
def reserve (stored : Array UInt8) (limit : Nat) : Array UInt8 :=
  if stored.size < limit then stored ++ Array.replicate (limit - stored.size) 0 else stored

/-- The memory with bytes put at an address. -/
def set (m : Memory) (addr : Nat) (bs : Bytes) : Memory :=
  let size := m.size
  let stored := m.stored
  { size, stored := store (reserve stored (addr + bs.length)) addr bs }

/-- The memory with bytes put at an address, if the range lies in memory. -/
def write? (m : Memory) (addr : Nat) (bs : Bytes) : Option Memory :=
  if m.inBounds addr bs.length then some (m.set addr bs) else none

end Memory

/-- The words on the stack, the top first, and how many there are. -/
structure OperandStack where
  words : List UInt64 := []
  height : Nat := 0
  height_eq : height = words.length := by rfl
deriving Repr

namespace OperandStack

instance : Inhabited OperandStack := ⟨{}⟩

/-- Puts a word on top. -/
def push (s : OperandStack) (w : UInt64) : OperandStack where
  words := w :: s.words
  height := s.height + 1
  height_eq := by simp [s.height_eq]

/-- Takes a number of words from the top. -/
def drop (s : OperandStack) (n : Nat) : OperandStack where
  words := s.words.drop n
  height := s.height - n
  height_eq := by simp [s.height_eq]

/-- The top words in the order they were pushed. -/
def top (s : OperandStack) (n : Nat) : List UInt64 := (s.words.take n).reverse

/-- Brings the stack to a height: words above it are dropped, missing words are zero. -/
def resize (s : OperandStack) (height : Nat) : OperandStack where
  words := List.replicate (height - s.height) 0 ++ s.words.drop (s.height - height)
  height := height
  height_eq := by simp [s.height_eq]; omega

/-- A stack of the given words, the last of them on top. -/
def ofList (ws : List UInt64) : OperandStack := ws.foldl push {}

end OperandStack

end ContractCompiler.Vm
