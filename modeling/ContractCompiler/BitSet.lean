/-!
# Sets of numbers

Sets of small numbers as bit masks, so that unions and differences of whole sets are single
operations on numbers.

- `BitSet.contains`: membership, in terms of which every operation is described;
- `BitSet.insert`, `BitSet.erase`, `BitSet.union`, `BitSet.inter`, `BitSet.diff`, `BitSet.ofList`;
- `BitSet.settle`: the rounds of an analysis that finds sets for the nodes of a graph.
-/

namespace ContractCompiler

/-- A set of numbers: those whose bit is set in the mask. -/
structure BitSet where
  mask : Nat := 0
deriving DecidableEq, Repr, Inhabited

namespace BitSet

/-- The set without members. -/
def empty : BitSet := {}

/-- Whether a number is a member. -/
def contains (s : BitSet) (i : Nat) : Bool := s.mask.testBit i

/-- The set of one number. -/
def singleton (i : Nat) : BitSet := ⟨1 <<< i⟩

/-- The members of either set. -/
def union (s t : BitSet) : BitSet := ⟨s.mask ||| t.mask⟩

/-- The members of both sets. -/
def inter (s t : BitSet) : BitSet := ⟨s.mask &&& t.mask⟩

/-- The members of the first set that are not in the second. -/
def diff (s t : BitSet) : BitSet := ⟨s.mask ^^^ (s.mask &&& t.mask)⟩

/-- A set with one more number. -/
def insert (s : BitSet) (i : Nat) : BitSet := s.union (singleton i)

/-- A set without a number. -/
def erase (s : BitSet) (i : Nat) : BitSet := s.diff (singleton i)

/-- The set of the numbers of a list. -/
def ofList (xs : List Nat) : BitSet := xs.foldl insert empty

/-- Applies a step to a table of sets until it changes nothing, at most as often as given. -/
def settle (step : Array BitSet → Array BitSet) : Nat → Array BitSet → Array BitSet
  | 0, sets => sets
  | rounds + 1, sets =>
    let next := step sets
    if next = sets then sets else settle step rounds next

@[simp] theorem contains_empty (i : Nat) : empty.contains i = false := Nat.zero_testBit i

@[simp] theorem contains_singleton (i j : Nat) : (singleton i).contains j = decide (i = j) := by
  simp only [singleton, contains, Nat.one_shiftLeft]
  exact Nat.testBit_two_pow

@[simp] theorem contains_union (s t : BitSet) (i : Nat) :
    (s.union t).contains i = (s.contains i || t.contains i) := by
  simp [union, contains]

@[simp] theorem contains_inter (s t : BitSet) (i : Nat) :
    (s.inter t).contains i = (s.contains i && t.contains i) := by
  simp [inter, contains]

@[simp] theorem contains_diff (s t : BitSet) (i : Nat) :
    (s.diff t).contains i = (s.contains i && !t.contains i) := by
  simp only [diff, contains, Nat.testBit_xor, Nat.testBit_and]
  cases s.mask.testBit i <;> cases t.mask.testBit i <;> rfl

@[simp] theorem contains_insert (s : BitSet) (i j : Nat) :
    (s.insert i).contains j = (s.contains j || decide (i = j)) := by
  simp [insert]

theorem contains_foldl_insert (xs : List Nat) (s : BitSet) (i : Nat) :
    (xs.foldl insert s).contains i = true ↔ s.contains i = true ∨ i ∈ xs := by
  induction xs generalizing s with
  | nil => simp
  | cons x xs ih =>
    rw [List.foldl_cons, ih, contains_insert, Bool.or_eq_true, decide_eq_true_iff,
      List.mem_cons, or_assoc, @eq_comm Nat x i]

theorem contains_ofList {xs : List Nat} {i : Nat} : (ofList xs).contains i = true ↔ i ∈ xs := by
  rw [ofList, contains_foldl_insert, contains_empty]
  simp

/-- Sets with the same members are the same. -/
theorem ext_contains {s t : BitSet} (h : ∀ i, s.contains i = t.contains i) : s = t := by
  cases s
  cases t
  exact congrArg BitSet.mk (Nat.eq_of_testBit_eq h)

@[simp] theorem contains_erase (s : BitSet) (i j : Nat) :
    (s.erase i).contains j = (s.contains j && !decide (i = j)) := by
  simp [erase]

end BitSet

end ContractCompiler
