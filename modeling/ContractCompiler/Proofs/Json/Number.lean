import ContractCompiler.Json.Reader
import Mathlib.Algebra.Order.Field.Rat
import Mathlib.Data.Nat.Log
import Mathlib.Tactic.FieldSimp
import Mathlib.Tactic.Positivity
import Mathlib.Tactic.Ring

/-!
# Numbers that are integers

A number of a document is held as a 64-bit signed integer if it is written as one, and also if it is
written with a fraction or an exponent as long as 53 significant bits hold the integer that it is.

- `Number.value`: the number that is written;
- `Number.Is`: a number is an integer that is held exactly;
- `Library.Exact`: what is relied on of what reads documents;
- `Number.toInt64?_of_is`, `Library.exact_standard`: numbers that are read here are held like that.
-/

namespace ContractCompiler.Json

namespace Number

/-- The number that is written. -/
def value : Number → ℚ
  | .whole n => n
  | .decimal negative digits exponent => (if negative then -1 else 1) * digits * 10 ^ exponent

/-- A number is an integer in the range of signed words. If it is not written as a whole number, the
bits of the integer after the 53 most significant ones are zero. -/
inductive Is : Number → Int → Prop where
  | whole {n : Int} (hlow : -2 ^ 63 ≤ n) (hhigh : n < 2 ^ 63) : Is (.whole n) n
  | decimal {negative : Bool} {digits n : Nat} {exponent : Int}
      (heq : (digits : ℚ) * 10 ^ exponent = n) (hbits : 2 ^ (bitLength n - 53) ∣ n)
      (hlow : -2 ^ 63 ≤ (if negative then -(n : Int) else n))
      (hhigh : (if negative then -(n : Int) else n) < 2 ^ 63) :
      Is (.decimal negative digits exponent) (if negative then -(n : Int) else n)

theorem isInt64_iff {v : Int} : isInt64 v = true ↔ -2 ^ 63 ≤ v ∧ v < 2 ^ 63 := by
  unfold isInt64
  rw [Bool.and_eq_true, decide_eq_true_iff, decide_eq_true_iff]
  exact Iff.rfl

/-- What numbers stand for is in the range of signed words. -/
theorem bounds_of_toInt64? {num : Number} {n : Int} (h : num.toInt64? = some n) :
    -2 ^ 63 ≤ n ∧ n < 2 ^ 63 := by
  unfold toInt64? at h
  split at h
  · split at h
    · rename_i hrange
      obtain rfl := Option.some.inj h
      exact isInt64_iff.mp hrange
    · split at h
      · obtain rfl := Option.some.inj h
        decide
      · cases h
  · split at h
    · cases h
    · dsimp only at h
      rw [Option.ite_none_right_eq_some] at h
      exact Option.some.inj h.2 ▸ isInt64_iff.mp h.1

/-! ## Binary digits -/

theorem bitLength_eq {n k : Nat} (hlow : 2 ^ k ≤ n) (hhigh : n < 2 ^ (k + 1)) :
    bitLength n = k + 1 := by
  have hne : n ≠ 0 := by have := Nat.two_pow_pos k; omega
  unfold bitLength
  rw [if_neg hne, (Nat.log2_eq_iff hne).mpr ⟨hlow, hhigh⟩]

theorem bitLength_spec {n : Nat} (hn : 0 < n) :
    0 < bitLength n ∧ 2 ^ (bitLength n - 1) ≤ n ∧ n < 2 ^ bitLength n := by
  unfold bitLength
  rw [if_neg hn.ne']
  exact ⟨Nat.succ_pos _, Nat.log2_self_le hn.ne', Nat.lt_log2_self⟩

/-- A product has as many digits as its factors together, or one less. -/
theorem bitLength_mul {a b : Nat} (ha : 0 < a) (hb : 0 < b) :
    bitLength (a * b) + 1 = bitLength a + bitLength b ∨
    bitLength (a * b) = bitLength a + bitLength b := by
  obtain ⟨hposa, hlowa, hhigha⟩ := bitLength_spec ha
  obtain ⟨hposb, hlowb, hhighb⟩ := bitLength_spec hb
  obtain ⟨k, hk⟩ : ∃ k, bitLength a = k + 1 := ⟨bitLength a - 1, by omega⟩
  obtain ⟨l, hl⟩ : ∃ l, bitLength b = l + 1 := ⟨bitLength b - 1, by omega⟩
  rw [hk] at hlowa hhigha
  rw [hl] at hlowb hhighb
  have hlow : 2 ^ (k + l) ≤ a * b := by
    rw [pow_add]
    exact Nat.mul_le_mul hlowa hlowb
  have hhigh : a * b < 2 ^ (k + l + 2) := by
    calc a * b < 2 ^ (k + 1) * 2 ^ (l + 1) := Nat.mul_lt_mul'' hhigha hhighb
      _ = 2 ^ (k + l + 2) := by ring
  by_cases hmid : a * b < 2 ^ (k + l + 1)
  · left
    rw [bitLength_eq hlow hmid, hk, hl]
    omega
  · right
    rw [bitLength_eq (Nat.le_of_not_lt hmid) hhigh, hk, hl]
    omega

theorem bitLength_mul_two_pow {n : Nat} (hn : 0 < n) (k : Nat) :
    bitLength (n * 2 ^ k) = bitLength n + k := by
  obtain ⟨hpos, hlow, hhigh⟩ := bitLength_spec hn
  obtain ⟨l, hl⟩ : ∃ l, bitLength n = l + 1 := ⟨bitLength n - 1, by omega⟩
  rw [hl] at hlow hhigh ⊢
  rw [bitLength_eq (k := l + k)]
  · omega
  · rw [pow_add]
    exact Nat.mul_le_mul_right _ hlow
  · calc n * 2 ^ k < 2 ^ (l + 1) * 2 ^ k := Nat.mul_lt_mul_of_pos_right hhigh (Nat.two_pow_pos k)
      _ = 2 ^ (l + k + 1) := by ring

theorem bitLength_div_two_pow {n k : Nat} (hk : k < bitLength n) :
    bitLength (n / 2 ^ k) = bitLength n - k := by
  have hn : 0 < n := by
    rcases Nat.eq_zero_or_pos n with rfl | hn
    · simp [bitLength] at hk
    · exact hn
  obtain ⟨hpos, hlow, hhigh⟩ := bitLength_spec hn
  obtain ⟨l, hl⟩ : ∃ l, bitLength n = k + l + 1 := ⟨bitLength n - 1 - k, by omega⟩
  rw [hl] at hlow hhigh ⊢
  rw [bitLength_eq (k := l)]
  · omega
  · rw [Nat.le_div_iff_mul_le (Nat.two_pow_pos k), ← pow_add]
    exact (Nat.pow_le_pow_right (by decide) (by omega)).trans hlow
  · rw [Nat.div_lt_iff_lt_mul (Nat.two_pow_pos k), ← pow_add]
    exact hhigh.trans_le (Nat.pow_le_pow_right (by decide) (by omega))

/-! ## Rounding -/

theorem roundDiv_exact {d : Nat} (hd : 0 < d) (q : Nat) : roundDiv (q * d) d = q := by
  unfold roundDiv
  dsimp only
  rw [Nat.mul_mod_left, if_pos (by omega), Nat.mul_div_cancel _ hd]

/-- A quotient over a power of two. -/
def scaled (num den : Nat) (e : Int) : Nat × Nat :=
  if e < 0 then (num * Nat.pow 2 (-e).toNat, den) else (num, den * Nat.pow 2 e.toNat)

theorem nearest_eq (num den : Nat) : nearest num den =
    let e : Int := (bitLength num : Int) - (bitLength den : Int) - 53
    let wide := scaled num den e
    let e := max (-1074) (if bitLength (wide.1 / wide.2) > 53 then e + 1 else e)
    (roundDiv (scaled num den e).1 (scaled num den e).2, e) := rfl

variable {n d : Nat} {e : Int}

theorem scaled_of_neg (he : e < 0) : scaled (n * d) d e = (n * 2 ^ (-e).toNat * d, d) := by
  unfold scaled
  rw [if_pos he, Nat.mul_right_comm]
  rfl

theorem scaled_of_nonneg (he : 0 ≤ e) : scaled (n * d) d e = (n * d, d * 2 ^ e.toNat) := by
  unfold scaled
  rw [if_neg (by omega)]
  rfl

/-- Of an integer over a power of two there are as many digits left as the exponent leaves. -/
theorem bitLength_scaled (hn : 0 < n) (hd : 0 < d) (he : e < bitLength n) :
    (bitLength ((scaled (n * d) d e).1 / (scaled (n * d) d e).2) : Int) = bitLength n - e := by
  by_cases hneg : e < 0
  · rw [scaled_of_neg hneg]
    dsimp only
    rw [Nat.mul_div_cancel _ hd, bitLength_mul_two_pow hn]
    omega
  · rw [scaled_of_nonneg (by omega)]
    dsimp only
    rw [Nat.mul_comm n d, Nat.mul_div_mul_left _ _ hd, bitLength_div_two_pow (by omega)]
    omega

/-- The exponent for an integer leaves it 53 digits. -/
theorem nearest_snd (hn : 0 < n) (hd : 0 < d) :
    (nearest (n * d) d).2 = (bitLength n : Int) - 53 := by
  have hpos := (bitLength_spec hn).1
  have hmul := bitLength_mul hn hd
  rw [nearest_eq]
  dsimp only
  have hdigits := bitLength_scaled (e := (bitLength (n * d) : Int) - bitLength d - 53)
    hn hd (by omega)
  generalize bitLength ((scaled (n * d) d _).1 / (scaled (n * d) d _).2) = digits at hdigits ⊢
  split <;> omega

/-- An integer of 53 significant digits is the number nearest to it. -/
theorem wholeOfBinary?_nearest (hn : 0 < n) (hd : 0 < d) (hbits : 2 ^ (bitLength n - 53) ∣ n) :
    wholeOfBinary? (nearest (n * d) d).1 (nearest (n * d) d).2 = some n := by
  have hsnd := nearest_snd hn hd
  have hfst : (nearest (n * d) d).1 = roundDiv (scaled (n * d) d (nearest (n * d) d).2).1
    (scaled (n * d) d (nearest (n * d) d).2).2 := rfl
  rw [hfst, hsnd]
  unfold wholeOfBinary?
  by_cases hneg : (bitLength n : Int) - 53 < 0
  · rw [scaled_of_neg hneg, roundDiv_exact hd, if_neg (by omega)]
    dsimp only
    have hscale : 0 < Nat.pow 2 (-((bitLength n : Int) - 53)).toNat := Nat.two_pow_pos _
    show (if n * Nat.pow 2 _ % Nat.pow 2 _ = 0 then some (n * Nat.pow 2 _ / Nat.pow 2 _)
      else none) = some n
    rw [Nat.mul_mod_left, if_pos rfl, Nat.mul_div_cancel _ hscale]
  · obtain ⟨k, hk⟩ : ∃ k, bitLength n = k + 53 := ⟨bitLength n - 53, by omega⟩
    obtain ⟨m, hm⟩ := hbits
    rw [hk, Nat.add_sub_cancel] at hm
    have he : ((bitLength n : Nat) : Int) - 53 = k := by omega
    have hround : roundDiv (n * d) (d * 2 ^ k) = m := by
      have hprod : n * d = m * (d * 2 ^ k) := by
        rw [hm]
        ring
      rw [hprod]
      exact roundDiv_exact (Nat.mul_pos hd (Nat.two_pow_pos k)) m
    rw [he, scaled_of_nonneg (Int.natCast_nonneg k), if_pos (Int.natCast_nonneg k),
      Int.toNat_natCast]
    dsimp only
    rw [hround, hm, Nat.mul_comm]
    rfl

/-! ## Decimal forms -/

variable {digits : Nat} {exponent : Int}

/-- A decimal form that is an integer, without fractions. -/
theorem integer_of_decimal (heq : (digits : ℚ) * 10 ^ exponent = n) :
    (∃ e : Nat, exponent = e ∧ n = digits * 10 ^ e) ∨ ∃ k : Nat, 0 < k ∧ exponent = -k ∧
      digits = n * 10 ^ k := by
  rcases le_or_gt 0 exponent with hexp | hexp
  · obtain ⟨e, rfl⟩ := Int.eq_ofNat_of_zero_le hexp
    refine .inl ⟨e, rfl, ?_⟩
    rw [zpow_natCast] at heq
    exact_mod_cast heq.symm
  · obtain ⟨k, hk⟩ := Int.eq_ofNat_of_zero_le (Int.neg_nonneg_of_nonpos hexp.le)
    obtain rfl : exponent = -k := by omega
    refine .inr ⟨k, by omega, rfl, ?_⟩
    rw [zpow_neg, zpow_natCast, mul_inv_eq_iff_eq_mul₀ (by positivity)] at heq
    exact_mod_cast heq

theorem quotient_of_integer (heq : (digits : ℚ) * 10 ^ exponent = n) :
    ∃ d, 0 < d ∧ quotient digits exponent = (n * d, d) := by
  unfold quotient
  rcases integer_of_decimal heq with ⟨e, rfl, rfl⟩ | ⟨k, hk, rfl, rfl⟩
  · refine ⟨1, Nat.one_pos, ?_⟩
    rw [if_pos (Int.natCast_nonneg e), Int.toNat_natCast, Nat.mul_one]
    rfl
  · refine ⟨10 ^ k, Nat.pow_pos (by decide), ?_⟩
    rw [if_neg (by omega), Int.neg_neg, Int.toNat_natCast]
    rfl

/-- The exponents of integers that fit a word are in the range that is computed. -/
theorem magnitude_of_integer (heq : (digits : ℚ) * 10 ^ exponent = n) (hn : 0 < n)
    (hlt : n < 10 ^ 19) :
    0 < (decimalLength digits : Int) + exponent ∧ (decimalLength digits : Int) + exponent ≤ 19 := by
  unfold decimalLength
  have hpos : 0 < (Nat.toDigits 10 digits).length := Nat.length_toDigits_pos
  rcases integer_of_decimal heq with ⟨e, rfl, rfl⟩ | ⟨k, hk, rfl, rfl⟩
  · have hdigits : 0 < digits := Nat.pos_of_mul_pos_right hn
    have he : e < 19 := by
      refine (Nat.pow_lt_pow_iff_right (by decide : 1 < 10)).mp ?_
      exact (Nat.le_mul_of_pos_left _ hdigits).trans_lt hlt
    have hsplit : 10 ^ 19 = 10 ^ (19 - e) * 10 ^ e := by rw [← pow_add, Nat.sub_add_cancel he.le]
    have hfits : digits < 10 ^ (19 - e) := Nat.lt_of_mul_lt_mul_right (hsplit ▸ hlt)
    have hlength := (Nat.length_toDigits_le_iff (by decide : 1 < 10) (by omega)).mpr hfits
    omega
  · have hlow : ¬(Nat.toDigits 10 (n * 10 ^ k)).length ≤ k := by
      rw [Nat.length_toDigits_le_iff (by decide) hk]
      exact Nat.not_lt.mpr (Nat.le_mul_of_pos_left _ hn)
    have hhigh : (Nat.toDigits 10 (n * 10 ^ k)).length ≤ 19 + k := by
      rw [Nat.length_toDigits_le_iff (by decide) (by omega), pow_add]
      exact Nat.mul_lt_mul_of_pos_right hlt (Nat.pow_pos (by decide))
    omega

theorem nearestWhole?_of_integer (heq : (digits : ℚ) * 10 ^ exponent = n) (hlt : n < 10 ^ 19)
    (hbits : 2 ^ (bitLength n - 53) ∣ n) : nearestWhole? digits exponent = some n := by
  unfold nearestWhole?
  dsimp only
  rcases Nat.eq_zero_or_pos n with rfl | hn
  · have hzero : digits = 0 := by
      rcases integer_of_decimal heq with ⟨e, -, h⟩ | ⟨k, -, -, h⟩
      · exact (Nat.mul_eq_zero.mp h.symm).resolve_right (Nat.pow_pos (by decide)).ne'
      · rw [h, Nat.zero_mul]
    rw [if_pos (.inl hzero)]
  · have hdigits : digits ≠ 0 := by
      rintro rfl
      rw [Nat.cast_zero, zero_mul] at heq
      exact hn.ne (by exact_mod_cast heq)
    obtain ⟨hlow, hhigh⟩ := magnitude_of_integer heq hn hlt
    obtain ⟨d, hd, hquotient⟩ := quotient_of_integer heq
    rw [if_neg (not_or.mpr ⟨hdigits, by omega⟩), if_neg (by omega), hquotient]
    exact wholeOfBinary?_nearest hn hd hbits

/-- A number that is an integer, and held exactly, stands for it. -/
theorem toInt64?_of_is {num : Number} {v : Int} (h : num.Is v) : num.toInt64? = some v := by
  unfold toInt64?
  cases h with
  | whole hlow hhigh =>
    dsimp only
    rw [if_pos (isInt64_iff.mpr ⟨hlow, hhigh⟩)]
  | @decimal negative digits n exponent heq hbits hlow hhigh =>
    have hlt : n < 10 ^ 19 := by
      cases negative <;> simp at hlow hhigh <;> omega
    dsimp only
    rw [nearestWhole?_of_integer heq hlt hbits]
    dsimp only
    rw [if_pos (isInt64_iff.mpr ⟨hlow, hhigh⟩)]

/-- The exponent moves the point to the end. -/
example : (Number.decimal true 1250 (-1)).toInt64? = some (-125) := by decide +kernel

end Number

/-- What is relied on of what reads documents: it holds integers of 64 bits exactly if they are
written as such, and otherwise as far as 53 significant bits do. What it takes for an integer is one
of 64 bits. -/
structure Library.Exact [Library] : Prop where
  held : ∀ {num : Number} {n : Int}, num.Is n → Library.toInt64? num = some n
  bounds : ∀ {num : Number} {n : Int}, Library.toInt64? num = some n → -2 ^ 63 ≤ n ∧ n < 2 ^ 63

theorem Library.exact_standard : @Library.Exact .standard :=
  @Library.Exact.mk .standard Number.toInt64?_of_is Number.bounds_of_toInt64?

end ContractCompiler.Json
