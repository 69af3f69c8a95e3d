import ContractCompiler.Bytes
import Mathlib.Data.Nat.Basic
import Mathlib.Order.Basic

/-!
# Byte strings in order, and words as bytes

- `Bytes.lt_irrefl`, `Bytes.lt_trans`, `Bytes.lt_of_not_lt`: byte strings are linearly ordered;
- `wordOfBytes_littleEndian`: the bytes of a word are read back as the word.
-/

namespace ContractCompiler

/-! ## Order -/

theorem Bytes.lt_irrefl (a : Bytes) : lt a a = false := by
  induction a with
  | nil => rfl
  | cons x xs ih => simp [lt, ih]

theorem Bytes.lt_trans {a b c : Bytes} (h : lt a b = true) (h' : lt b c = true) :
    lt a c = true := by
  induction a generalizing b c with
  | nil =>
    cases c with
    | nil => cases b <;> cases h'
    | cons z zs => rfl
  | cons x xs ih =>
    cases b with
    | nil => cases h
    | cons y ys =>
      cases c with
      | nil => cases h'
      | cons z zs =>
        simp only [lt, Bool.or_eq_true, decide_eq_true_eq, Bool.and_eq_true, beq_iff_eq] at h h' ⊢
        rcases h with h | ⟨rfl, h⟩
        · rcases h' with h' | ⟨rfl, -⟩
          · exact .inl (UInt8.lt_trans h h')
          · exact .inl h
        · rcases h' with h' | ⟨rfl, h'⟩
          · exact .inl h'
          · exact .inr ⟨rfl, ih h h'⟩

/-- Different byte strings are ordered one way or the other. -/
theorem Bytes.lt_of_not_lt {a b : Bytes} (hne : a ≠ b) (h : ¬lt a b = true) : lt b a = true := by
  induction a generalizing b with
  | nil =>
    cases b with
    | nil => exact absurd rfl hne
    | cons y ys => exact absurd rfl h
  | cons x xs ih =>
    cases b with
    | nil => rfl
    | cons y ys =>
      simp only [lt, Bool.or_eq_true, decide_eq_true_eq, Bool.and_eq_true, beq_iff_eq] at h ⊢
      rcases UInt8.lt_or_eq_of_le (UInt8.not_lt.mp fun hlt => h (.inl hlt)) with hlt | rfl
      · exact .inl hlt
      · exact .inr ⟨rfl, ih (fun heq => hne (heq ▸ rfl)) fun hlt => h (.inr ⟨rfl, hlt⟩)⟩

/-! ## Words as bytes -/

/-- A number is its last byte below the others. -/
theorem shiftRight_shiftLeft_or_low (n : Nat) : n >>> 8 <<< 8 ||| n % 256 = n := by
  rw [← Nat.shiftLeft_add_eq_or_of_lt (Nat.mod_lt n (by decide) : n % 256 < 2 ^ 8),
    Nat.shiftLeft_eq, Nat.shiftRight_eq_div_pow]
  omega

/-- The last bytes of a word spell what is left of it without those before them. -/
theorem toNat_foldr_littleEndian (w : UInt64) (n : Nat) : ∀ k, k + n = 8 →
    (((List.range' k n).map fun i => (w >>> (8 * UInt64.ofNat i)).toUInt8).foldr
      (fun (b : UInt8) (x : UInt64) => (x <<< 8) ||| b.toUInt64) 0).toNat =
        w.toNat >>> (8 * k) := by
  induction n with
  | zero =>
    rintro k rfl
    rw [Nat.shiftRight_eq_div_pow, Nat.div_eq_of_lt w.toNat_lt]
    rfl
  | succ n ih =>
    intro k hk
    have hshift : (8 * UInt64.ofNat k).toNat % 64 = 8 * k := by
      have hmul : (8 * UInt64.ofNat k).toNat = 8 * k := by
        rw [UInt64.toNat_mul, UInt64.toNat_ofNat_of_lt' (show k < 2 ^ 64 by omega)]
        exact Nat.mod_eq_of_lt (show 8 * k < 2 ^ 64 by omega)
      omega
    have hle : w.toNat >>> (8 * k) >>> 8 <<< 8 ≤ w.toNat := by
      rw [Nat.shiftLeft_eq, Nat.shiftRight_eq_div_pow _ 8]
      exact (Nat.div_mul_le_self _ _).trans (Nat.shiftRight_le _ _)
    rw [List.range'_succ, List.map_cons, List.foldr_cons, UInt64.toNat_or, UInt64.toNat_shiftLeft,
      UInt8.toNat_toUInt64, UInt64.toNat_toUInt8, UInt64.toNat_shiftRight, hshift,
      ih (k + 1) (by omega), Nat.mul_succ, Nat.shiftRight_add]
    show (w.toNat >>> (8 * k) >>> 8 <<< 8 % 2 ^ 64) ||| w.toNat >>> (8 * k) % 256 =
      w.toNat >>> (8 * k)
    rw [Nat.mod_eq_of_lt (hle.trans_lt w.toNat_lt)]
    exact shiftRight_shiftLeft_or_low _

theorem wordOfBytes_littleEndian (w : UInt64) : Bytes.wordOfBytes (Bytes.littleEndian w) = w := by
  refine UInt64.toNat_inj.mp ?_
  rw [Bytes.wordOfBytes, List.take_of_length_le (by simp [Bytes.littleEndian]), Bytes.littleEndian,
    List.range_eq_range']
  exact toNat_foldr_littleEndian w 8 0 rfl

/-- The bytes of a word determine it. -/
theorem littleEndian_injective : Function.Injective Bytes.littleEndian :=
  Function.LeftInverse.injective wordOfBytes_littleEndian

end ContractCompiler
