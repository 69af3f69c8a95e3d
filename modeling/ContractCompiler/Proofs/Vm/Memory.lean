import ContractCompiler.Vm.Memory

/-!
# Reading what was written

- `Memory.byte_set`: the bytes of memory after bytes were put at an address;
- `Memory.read?_set_self`, `Memory.read?_set_apart`: reading what was put there, or beside it.
-/

namespace ContractCompiler.Vm.Memory

variable {stored : Array UInt8} {m : Memory} {addr at' len i : Nat} {bs : Bytes}

@[simp] theorem inBounds_set (m : Memory) (addr : Nat) (bs : Bytes) (at' len : Nat) :
    (m.set addr bs).inBounds at' len = m.inBounds at' len :=
  rfl

@[simp] theorem size_set (m : Memory) (addr : Nat) (bs : Bytes) :
    (m.set addr bs).size = m.size := rfl

theorem inBounds_iff (m : Memory) (addr len : Nat) :
    m.inBounds addr len = true ↔ addr + len ≤ m.size :=
  decide_eq_true_iff

/-- The bytes of a stretch are replaced. -/
theorem getD_store (hroom : addr + bs.length ≤ stored.size) :
    (store stored addr bs).getD i 0 = if addr ≤ i ∧ i < addr + bs.length then bs.getD (i - addr) 0
      else stored.getD i 0 := by
  induction bs generalizing stored addr with
  | nil =>
    rw [if_neg (by simp)]
    rfl
  | cons b bs ih =>
    rw [List.length_cons] at hroom ⊢
    have hroom' : addr + 1 + bs.length ≤ (stored.setIfInBounds addr b).size := by
      rw [Array.size_setIfInBounds]
      omega
    rw [store, ih hroom']
    by_cases haddr : i = addr
    · subst haddr
      rw [if_neg (by omega), if_pos (by omega), Nat.sub_self, Array.getD_eq_getD_getElem?,
        Array.getElem?_setIfInBounds_self_of_lt (by omega)]
      rfl
    · by_cases hin : addr + 1 ≤ i ∧ i < addr + 1 + bs.length
      · rw [if_pos hin, if_pos (by omega), show i - addr = i - (addr + 1) + 1 by omega]
        rfl
      · rw [if_neg hin, if_neg (by omega), Array.getD_eq_getD_getElem?, Array.getD_eq_getD_getElem?,
          Array.getElem?_setIfInBounds_ne (Ne.symm haddr)]

theorem le_size_reserve (stored : Array UInt8) (limit : Nat) :
    limit ≤ (reserve stored limit).size := by
  unfold reserve
  split
  · rw [Array.size_append, Array.size_replicate]
    omega
  · omega

/-- Room is made of zeros. -/
theorem getD_reserve (stored : Array UInt8) (limit i : Nat) :
    (reserve stored limit).getD i 0 = stored.getD i 0 := by
  unfold reserve
  split
  · rw [Array.getD_eq_getD_getElem?, Array.getD_eq_getD_getElem?, Array.getElem?_append]
    split
    · rfl
    · rename_i hsize
      rw [Array.getElem?_eq_none (Nat.not_lt.mp hsize), Array.getElem?_replicate]
      split <;> rfl
  · rfl

/-- The bytes of memory after bytes were put at an address. -/
theorem byte_set (m : Memory) (addr : Nat) (bs : Bytes) (i : Nat) :
    (m.set addr bs).byte i = if addr ≤ i ∧ i < addr + bs.length then bs.getD (i - addr) 0
      else m.byte i := by
  show (store (reserve m.stored (addr + bs.length)) addr bs).getD i 0 = _
  rw [getD_store (le_size_reserve _ _), getD_reserve]
  rfl

theorem bytes_set_self (m : Memory) (addr : Nat) (bs : Bytes) :
    (m.set addr bs).bytes addr bs.length = bs := by
  refine List.ext_getElem (by simp [bytes]) fun i hi hi' => ?_
  simp only [bytes, List.getElem_map, List.getElem_range', Nat.one_mul]
  rw [byte_set, if_pos (by omega), Nat.add_sub_cancel_left, List.getD_eq_getElem?_getD,
    List.getElem?_eq_getElem hi', Option.getD_some]

theorem bytes_set_apart (m : Memory) (bs : Bytes)
    (hapart : at' + len ≤ addr ∨ addr + bs.length ≤ at') :
    (m.set addr bs).bytes at' len = m.bytes at' len := by
  refine List.map_congr_left fun i hi => ?_
  have hrange := List.mem_range'_1.mp hi
  rw [byte_set, if_neg (by omega)]

/-- What was put into memory is read there. -/
theorem read?_set_self (hroom : m.inBounds addr bs.length = true) :
    (m.set addr bs).read? addr bs.length = some bs := by
  unfold read?
  rw [bytes_set_self]
  exact if_pos hroom

/-- Nothing else is changed. -/
theorem read?_set_apart (hapart : at' + len ≤ addr ∨ addr + bs.length ≤ at') :
    (m.set addr bs).read? at' len = m.read? at' len := by
  unfold read?
  rw [bytes_set_apart m bs hapart]
  rfl

end ContractCompiler.Vm.Memory
