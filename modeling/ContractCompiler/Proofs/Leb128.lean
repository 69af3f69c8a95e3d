import ContractCompiler.Leb128
import Mathlib.Tactic.Ring

/-!
# LEB128 numbers are read back

- `decode_encode`: the spelling of a 64-bit number is read back, and the bytes after it are left
  alone;
- `eq_of_decode`: an input that agrees with the spelling of a number as far as both go is read only
  if it holds the whole spelling.
-/

namespace ContractCompiler.Leb128

theorem encode_of_lt {n : Nat} (h : n < 128) : encode n = [UInt8.ofNat n] := by
  rw [encode, if_pos h]

theorem encode_of_le {n : Nat} (h : 128 ≤ n) :
    encode n = UInt8.ofNat (n % 128 + 128) :: encode (n / 128) := by
  rw [encode, if_neg (by omega)]

theorem toNat_last {n : Nat} (h : n < 128) : (UInt8.ofNat n).toNat = n := by
  rw [UInt8.toNat_ofNat']
  exact Nat.mod_eq_of_lt (by omega)

theorem toNat_continued (n : Nat) : (UInt8.ofNat (n % 128 + 128)).toNat = n % 128 + 128 := by
  rw [UInt8.toNat_ofNat']
  exact Nat.mod_eq_of_lt (by omega)

/-- The value of a number whose low seven bits and rest stand at a shift. -/
theorem split_value (n shift value : Nat) :
    value + n % 128 * 2 ^ shift + n / 128 * 2 ^ (shift + 7) = value + n * 2 ^ shift := by
  have hsplit : n = n % 128 + 128 * (n / 128) := (Nat.mod_add_div n 128).symm
  have hpow : 2 ^ (shift + 7) = 2 ^ shift * 128 := by rw [Nat.pow_add]
  calc value + n % 128 * 2 ^ shift + n / 128 * 2 ^ (shift + 7)
      = value + (n % 128 + 128 * (n / 128)) * 2 ^ shift := by rw [hpow]; ring
    _ = value + n * 2 ^ shift := by rw [← hsplit]

theorem decodeFrom_encode (n : Nat) (rest : Bytes) : ∀ {shift value : Nat},
    value + n * 2 ^ shift < 2 ^ 64 →
      decodeFrom shift value (encode n ++ rest) = .ok (value + n * 2 ^ shift, rest) := by
  induction n using Nat.strongRecOn with
  | ind n ih =>
    intro shift value hfits
    by_cases hlast : n < 128
    · rw [encode_of_lt hlast]
      simp only [List.cons_append, List.nil_append, decodeFrom, toNat_last hlast,
        Nat.mod_eq_of_lt hlast, Nat.pow_eq]
      rw [if_neg (by omega), if_pos hlast]
    · have hsplit := split_value n shift value
      have hlow : value + n % 128 * 2 ^ shift < 2 ^ 64 := by omega
      have hmod : (n % 128 + 128) % 128 = n % 128 := by omega
      rw [encode_of_le (by omega)]
      simp only [List.cons_append, decodeFrom, toNat_continued, hmod, Nat.pow_eq]
      rw [if_neg (by omega), if_neg (by omega), ih (n / 128) (by omega) (by omega), hsplit]

theorem decode_encode {n : Nat} (h : n < 2 ^ 64) (rest : Bytes) :
    decode (encode n ++ rest) = .ok (n, rest) := by
  have hread : decodeFrom 0 0 (encode n ++ rest) = .ok (0 + n * 2 ^ 0, rest) :=
    decodeFrom_encode n rest (by omega)
  simpa [decode] using hread

/-- Bytes that agree with a spelling are read to its end or not at all: a continued byte asks for
the next one. -/
theorem eq_of_decodeFrom (n : Nat) : ∀ {shift value v : Nat} {bs t u rest : Bytes},
    bs ++ t = encode n ++ u → decodeFrom shift value bs = .ok (v, rest) →
      v = value + n * 2 ^ shift ∧ bs = encode n ++ rest := by
  induction n using Nat.strongRecOn with
  | ind n ih =>
    intro shift value v bs t u rest hagree hread
    cases bs with
    | nil => simp [decodeFrom] at hread
    | cons b bs =>
      by_cases hlast : n < 128
      · rw [encode_of_lt hlast] at hagree ⊢
        obtain ⟨rfl, -⟩ := List.cons.inj hagree
        simp only [decodeFrom, toNat_last hlast, Nat.mod_eq_of_lt hlast, Nat.pow_eq,
          if_pos hlast] at hread
        split at hread
        · cases hread
        · obtain ⟨rfl, rfl⟩ := Prod.mk.inj (Except.ok.inj hread)
          exact ⟨rfl, rfl⟩
      · rw [encode_of_le (by omega)] at hagree ⊢
        obtain ⟨rfl, htail⟩ := List.cons.inj hagree
        have hmod : (n % 128 + 128) % 128 = n % 128 := by omega
        simp only [decodeFrom, toNat_continued, hmod, Nat.pow_eq] at hread
        split at hread
        · cases hread
        · rw [if_neg (by omega)] at hread
          obtain ⟨rfl, rfl⟩ := ih (n / 128) (by omega) htail hread
          exact ⟨split_value n shift value, rfl⟩

theorem eq_of_decode {n v : Nat} {bs t u rest : Bytes} (hagree : bs ++ t = encode n ++ u)
    (hread : decode bs = .ok (v, rest)) : v = n ∧ bs = encode n ++ rest := by
  have := eq_of_decodeFrom n hagree hread
  simpa using this

end ContractCompiler.Leb128
