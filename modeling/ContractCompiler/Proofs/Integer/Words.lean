import ContractCompiler.Integer.Arith
import Mathlib.Data.Int.ModEq
import Mathlib.Tactic.LinearCombination
import Mathlib.Tactic.Positivity
import Mathlib.Tactic.Ring

/-!
# Words and the numbers that they stand for

A word stands for a number of a type if normalising does not change it. The numbers of a type are
those of an interval, each has one word, and normalising takes a word to the one whose number agrees
with it modulo the size of the type.

- `signedValue_eq`, `signedValue_wordOfInt`, `toNat_wordOfInt`: words and numbers;
- `signedValue_sar`, `toNat_shl`: shifts of words;
- `IntKind.HasWidth`: the widths that types have;
- `IntKind.Has`, `IntKind.Normal`: the numbers of a type, and their words;
- `IntKind.wrap`, `IntKind.toInt_normalize`: the number that normalising leads to;
- `IntKind.normal_iff`, `IntKind.toInt_inj`: a word is normal if the type has its number, and
  numbers tell words apart;
- `IntKind.IsWordOf`: the normal word that agrees with a number.
-/

namespace ContractCompiler

/-! ## Words -/

theorem signedValue_eq (w : UInt64) : signedValue w = (w.toNat : Int).bmod (2 ^ 64) := by
  show w.toBitVec.toInt = _
  rw [BitVec.toInt_eq_toNat_bmod]
  rfl

theorem signedValue_cases (w : UInt64) :
    signedValue w = w.toNat ∧ w.toNat < 2 ^ 63 ∨ signedValue w = w.toNat - 2 ^ 64 ∧
    2 ^ 63 ≤ w.toNat := by
  have hlt := w.toNat_lt
  rw [signedValue_eq, Int.bmod_def]
  split <;> omega

theorem signedValue_inj {a b : UInt64} (h : signedValue a = signedValue b) : a = b := by
  refine UInt64.toNat_inj.mp ?_
  have ha := a.toNat_lt
  have hb := b.toNat_lt
  rcases signedValue_cases a with ⟨ha', -⟩ | ⟨ha', -⟩ <;> rcases signedValue_cases b with ⟨hb', -⟩ |
    ⟨hb', -⟩ <;> omega

theorem toNat_wordOfInt (v : Int) : ((wordOfInt v).toNat : Int) = v % 2 ^ 64 := by
  have hsize : ((Nat.pow 2 64 : Nat) : Int) = 2 ^ 64 := rfl
  unfold wordOfInt
  rw [UInt64.toNat_ofNat', hsize]
  omega

theorem signedValue_wordOfInt (v : Int) : signedValue (wordOfInt v) = v.bmod (2 ^ 64) := by
  rw [signedValue_eq, toNat_wordOfInt]
  exact Int.emod_bmod v (2 ^ 64)

/-- The arithmetic shift of a word divides its number by a power of two. -/
theorem signedValue_sar {s : UInt64} (hs : s.toNat < 64) (a : UInt64) :
    signedValue (a.toInt64 >>> s.toInt64).toUInt64 = signedValue a / 2 ^ s.toNat := by
  have hamount : s.toBitVec.toInt = s.toNat := by
    rw [BitVec.toInt_eq_toNat_of_lt]
    · rfl
    · show 2 * s.toNat < 2 ^ 64
      omega
  have hmod : s.toBitVec.smod 64 = s.toBitVec := by
    apply BitVec.eq_of_toInt_eq
    have hsize : BitVec.toInt (64 : BitVec 64) = 64 := by decide
    rw [BitVec.toInt_smod, hamount, hsize, Int.fmod_eq_emod_of_nonneg _ (by decide)]
    omega
  show (a.toInt64 >>> s.toInt64).toBitVec.toInt = _
  rw [Int64.toBitVec_shiftRight]
  show (a.toBitVec.sshiftRight' (s.toBitVec.smod 64)).toInt = _
  rw [hmod, BitVec.sshiftRight', BitVec.toInt_sshiftRight, Int.shiftRight_eq_div_pow]
  push_cast
  rfl

theorem toNat_shl {s : UInt64} (hs : s.toNat < 64) (a : UInt64) :
    (a <<< s).toNat = a.toNat * 2 ^ s.toNat % 2 ^ 64 := by
  rw [UInt64.toNat_shiftLeft, Nat.mod_eq_of_lt hs, Nat.shiftLeft_eq]

theorem toNat_shr {s : UInt64} (hs : s.toNat < 64) (a : UInt64) :
    (a >>> s).toNat = a.toNat / 2 ^ s.toNat := by
  rw [UInt64.toNat_shiftRight, Nat.mod_eq_of_lt hs, Nat.shiftRight_eq_div_pow]

/-- Scaling a number and the size of a range scales what the number is wrapped to. -/
theorem bmod_mul_mul (m s : Nat) (hm : 0 < m) (hs : 0 < s) (v : Int) :
    (v * s).bmod (2 * m * s) = v.bmod (2 * m) * s := by
  have hlow := Int.le_bmod (x := v) (m := 2 * m) (by omega)
  have hhigh := Int.bmod_lt (x := v) (m := 2 * m) (by omega)
  obtain ⟨c, hc⟩ : ((2 * m : Nat) : Int) ∣ v.bmod (2 * m) - v := by
    rw [Int.bmod_eq_self_sub_mul_bdiv]
    exact ⟨-v.bdiv (2 * m), by ring⟩
  generalize v.bmod (2 * m) = q at *
  have hsize : ((2 * m * s : Nat) : Int) = 2 * (m * s) := by push_cast; ring
  have hs' : (0 : Int) ≤ s := by omega
  rw [Int.bmod_eq_iff (by positivity), hsize]
  refine ⟨?_, ?_, c, ?_⟩
  · have := Int.mul_le_mul_of_nonneg_right (show -(m : Int) ≤ q by omega) hs'
    rw [neg_mul] at this
    omega
  · have := Int.mul_le_mul_of_nonneg_right (show q + 1 ≤ (m : Int) by omega) hs'
    rw [add_mul] at this
    omega
  · rw [← hsize]
    push_cast at hc ⊢
    linear_combination (s : Int) * hc

namespace IntKind

/-! ## The numbers of a type -/

/-- The widths of integer types and of truth values. -/
def HasWidth (k : IntKind) : Prop := k.bits ∈ [1, 8, 16, 32, 64]

instance (k : IntKind) : Decidable k.HasWidth := inferInstanceAs (Decidable (k.bits ∈ _))

/-- The least number of a type. -/
def least (k : IntKind) : Int := if k.signed then -2 ^ (k.bits - 1) else 0

/-- The greatest number of a type. -/
def greatest (k : IntKind) : Int := if k.signed then 2 ^ (k.bits - 1) - 1 else 2 ^ k.bits - 1

/-- The type has a number. -/
def Has (k : IntKind) (v : Int) : Prop := k.least ≤ v ∧ v ≤ k.greatest

instance (k : IntKind) (v : Int) : Decidable (k.Has v) := inferInstanceAs (Decidable (_ ∧ _))

/-- The word is one that values of the type are held in. -/
def Normal (k : IntKind) (w : UInt64) : Prop := k.normalize w = w

instance (k : IntKind) (w : UInt64) : Decidable (k.Normal w) := inferInstanceAs (Decidable (_ = _))

/-- The number of the type that agrees with a number modulo the size of the type. -/
def wrap (k : IntKind) (v : Int) : Int := if k.signed then v.bmod (2 ^ k.bits) else v % 2 ^ k.bits

variable {k : IntKind} {w : UInt64} {v v' : Int}

theorem HasWidth.bits_pos (h : k.HasWidth) : 0 < k.bits := by
  unfold HasWidth at h
  simp only [List.mem_cons, List.not_mem_nil, or_false] at h
  omega

theorem HasWidth.bits_le (h : k.HasWidth) : k.bits ≤ 64 := by
  unfold HasWidth at h
  simp only [List.mem_cons, List.not_mem_nil, or_false] at h
  omega

theorem wrap_modEq (k : IntKind) (v : Int) : k.wrap v ≡ v [ZMOD 2 ^ k.bits] := by
  unfold wrap
  split
  · have h : ((2 ^ k.bits : Nat) : Int) = 2 ^ k.bits := by push_cast; rfl
    rw [← h]
    exact Int.bmod_emod
  · exact Int.mod_modEq v _

/-- Numbers that agree are wrapped to the same one. -/
theorem wrap_eq_of_modEq (h : v ≡ v' [ZMOD 2 ^ k.bits]) : k.wrap v = k.wrap v' := by
  unfold wrap
  split
  · rw [← Int.emod_bmod v, ← Int.emod_bmod v']
    have hsize : ((2 ^ k.bits : Nat) : Int) = 2 ^ k.bits := by push_cast; rfl
    rw [hsize, h.eq]
  · exact h

/-- A number is one of the type if wrapping does not change it. -/
theorem has_iff (h : k.HasWidth) : k.Has v ↔ k.wrap v = v := by
  obtain ⟨signed, bits⟩ := k
  unfold HasWidth at h
  unfold Has least greatest wrap
  simp only [List.mem_cons, List.not_mem_nil, or_false] at h
  rcases h with rfl | rfl | rfl | rfl | rfl <;> cases signed <;> simp [Int.bmod_def] <;> omega

theorem toNat_ofNat_bits {n : Nat} (h : n ≤ 64) : (UInt64.ofNat n).toNat = n :=
  UInt64.toNat_ofNat_of_lt' (Nat.lt_of_le_of_lt h (by decide))

/-- Shifting up and back keeps the low bits of a word and repeats the highest of them. -/
theorem signedValue_shift_back {n : Nat} (hpos : 0 < n) (hlt : n < 64) (w : UInt64) :
    signedValue ((w <<< (64 - UInt64.ofNat n)).toInt64 >>> (64 - UInt64.ofNat n).toInt64).toUInt64 =
      (w.toNat : Int).bmod (2 ^ n) := by
  have hbits := toNat_ofNat_bits hlt.le
  have hshift : (64 - UInt64.ofNat n).toNat = 64 - n := by
    rw [UInt64.toNat_sub_of_le _ _ (by rw [UInt64.le_iff_toNat_le, hbits]; exact hlt.le), hbits]
    rfl
  have hsize : 2 * 2 ^ (n - 1) * 2 ^ (64 - n) = 2 ^ 64 := by
    rw [← pow_succ', ← pow_add]
    congr 1
    omega
  have hhalf : 2 * 2 ^ (n - 1) = 2 ^ n := by
    rw [← pow_succ']
    congr 1
    omega
  have hpow : (2 ^ (64 - n) : Int) ≠ 0 := by positivity
  rw [signedValue_sar (by omega), signedValue_eq, toNat_shl (by omega), hshift]
  calc ((w.toNat * 2 ^ (64 - n) % 2 ^ 64 : Nat) : Int).bmod (2 ^ 64) / 2 ^ (64 - n)
    _ = ((w.toNat : Int) * (2 ^ (64 - n) : Nat)).bmod (2 ^ 64) / 2 ^ (64 - n) := by
      rw [Int.natCast_mod, Int.emod_bmod]
      push_cast
      rfl
    _ = (w.toNat : Int).bmod (2 ^ n) * (2 ^ (64 - n) : Nat) / 2 ^ (64 - n) := by
      rw [← hsize, bmod_mul_mul _ _ (by positivity) (by positivity), hhalf]
    _ = (w.toNat : Int).bmod (2 ^ n) := by
      push_cast
      exact Int.mul_ediv_cancel _ hpow

/-- Masking keeps the low bits of a word. -/
theorem toNat_and_mask {n : Nat} (hlt : n < 64) (w : UInt64) :
    (w &&& ((1 <<< UInt64.ofNat n) - 1)).toNat = w.toNat % 2 ^ n := by
  have hbits := toNat_ofNat_bits hlt.le
  have hone : ((1 : UInt64) <<< UInt64.ofNat n).toNat = 2 ^ n := by
    have hpow : 2 ^ n < 2 ^ 64 := Nat.pow_lt_pow_right (by decide) hlt
    rw [toNat_shl (by omega), hbits, UInt64.toNat_one, Nat.one_mul, Nat.mod_eq_of_lt hpow]
  have hmask : (((1 : UInt64) <<< UInt64.ofNat n) - 1).toNat = 2 ^ n - 1 := by
    have hpos : 0 < 2 ^ n := by positivity
    rw [UInt64.toNat_sub_of_le _ _ (by rw [UInt64.le_iff_toNat_le, hone]; exact hpos), hone]
    rfl
  rw [UInt64.toNat_and, hmask, Nat.and_two_pow_sub_one_eq_mod]

/-- Normalising wraps the number that a word stands for. -/
theorem toInt_normalize (h : k.HasWidth) (w : UInt64) :
    k.toInt (k.normalize w) = k.wrap w.toNat := by
  have hpos := h.bits_pos
  have hle := h.bits_le
  have hlt := w.toNat_lt
  obtain ⟨signed, bits⟩ := k
  unfold toInt normalize wrap
  dsimp only at hpos hle ⊢
  rcases hle.lt_or_eq with hnarrow | rfl
  · have hshort : ¬(bits = 0 ∨ 64 ≤ bits) := by omega
    cases signed
    · rw [if_neg Bool.false_ne_true, if_neg hshort, if_neg Bool.false_ne_true,
        if_neg Bool.false_ne_true, toNat_and_mask hnarrow]
      push_cast
      rfl
    · rw [if_pos rfl, if_neg hshort, if_pos rfl, if_pos rfl]
      exact signedValue_shift_back hpos hnarrow w
  · rw [if_pos (show 64 = 0 ∨ 64 ≤ 64 from .inr le_rfl)]
    cases signed
    · rw [if_neg Bool.false_ne_true, if_neg Bool.false_ne_true]
      omega
    · rw [if_pos rfl, if_pos rfl]
      exact signedValue_eq w

/-- Numbers tell words apart. -/
theorem toInt_inj {a b : UInt64} (h : k.toInt a = k.toInt b) : a = b := by
  unfold toInt at h
  split at h
  · exact signedValue_inj h
  · exact UInt64.toNat_inj.mp (Int.ofNat_inj.mp h)

/-- The number of a word agrees with the word. -/
theorem toInt_modEq (k : IntKind) (w : UInt64) : k.toInt w ≡ w.toNat [ZMOD 2 ^ 64] := by
  unfold toInt
  split
  · rw [signedValue_eq]
    exact Int.bmod_emod
  · rfl

/-- What agrees modulo the size of words agrees modulo the size of the type. -/
theorem HasWidth.modEq (h : k.HasWidth) (hv : v ≡ v' [ZMOD 2 ^ 64]) : v ≡ v' [ZMOD 2 ^ k.bits] :=
  hv.of_dvd (pow_dvd_pow 2 h.bits_le)

theorem wrap_toNat (h : k.HasWidth) (w : UInt64) : k.wrap w.toNat = k.wrap (k.toInt w) :=
  wrap_eq_of_modEq (h.modEq (toInt_modEq k w).symm)

/-- A word is normal if the type has its number. -/
theorem normal_iff (h : k.HasWidth) {w : UInt64} : k.Normal w ↔ k.Has (k.toInt w) := by
  rw [has_iff h, ← wrap_toNat h, ← toInt_normalize h]
  exact ⟨congrArg k.toInt, toInt_inj⟩

/-! ## The word of a number -/

/-- The normal word whose number agrees with a number modulo the size of the type. -/
structure IsWordOf (k : IntKind) (w : UInt64) (v : Int) : Prop where
  normal : k.Normal w
  modEq : k.toInt w ≡ v [ZMOD 2 ^ k.bits]

/-- There is one normal word that agrees with a number: that of the number wrapped. -/
theorem isWordOf_iff (h : k.HasWidth) {w : UInt64} : k.IsWordOf w v ↔ k.toInt w = k.wrap v := by
  constructor
  · intro hw
    rw [← wrap_eq_of_modEq hw.modEq]
    exact ((has_iff h).mp ((normal_iff h).mp hw.normal)).symm
  · intro hw
    refine ⟨(normal_iff h).mpr ((has_iff h).mpr ?_), hw ▸ wrap_modEq k v⟩
    rw [hw]
    exact wrap_eq_of_modEq (wrap_modEq k v)

/-- Normalising a word leads to the word of every number that agrees with it. -/
theorem isWordOf_normalize (h : k.HasWidth) {w : UInt64} (hw : (w.toNat : Int) ≡ v [ZMOD 2 ^ 64]) :
    k.IsWordOf (k.normalize w) v := by
  rw [isWordOf_iff h, toInt_normalize h]
  exact wrap_eq_of_modEq (h.modEq hw)

theorem normal_normalize (h : k.HasWidth) (w : UInt64) : k.Normal (k.normalize w) :=
  (isWordOf_normalize h rfl).normal

/-- The word of a number that the type has stands for it. -/
theorem IsWordOf.toInt_eq (hw : k.IsWordOf w v) (h : k.HasWidth) (hv : k.Has v) : k.toInt w = v :=
  ((isWordOf_iff h).mp hw).trans ((has_iff h).mp hv)

/-- A word that stands for a number of the type is the word of it. -/
theorem isWordOf_of_toInt (h : k.HasWidth) (hw : k.toInt w = v) (hv : k.Has v) : k.IsWordOf w v :=
  (isWordOf_iff h).mpr (hw.trans ((has_iff h).mp hv).symm)

end IntKind

end ContractCompiler
