import ContractCompiler.Proofs.Integer.Exactness
import ContractCompiler.Vm.Machine

/-!
# Checks for overflow

The machine knows words only: what a type has and does not have is found out from words. Below 64
bits the result is exact as a word, and does not fit if normalising changes it. With 64 bits, signs,
orders and a division back tell.

- `signedValue_neg_xor`, `signedValue_neg_and`: the sign of a word made bit by bit;
- `IntKind.value_eq`: the result of an operation on words is that of the operation on numbers;
- `IntKind.overflow_iff_ne`: the check below 64 bits;
- `IntKind.addOverflow_iff`, `IntKind.subOverflow_iff`, `IntKind.mulOverflow_iff`: the checks of 64
  bits;
- `IntKind.divSigned_eq`, `IntKind.remSigned_eq`: division of words;
- `IntKind.normal_and`, `IntKind.normal_shr`: operations whose results are normal as they are.
-/

namespace ContractCompiler

/-! ## Words -/

theorem toInt64_lt_iff (a b : UInt64) : a.toInt64 < b.toInt64 ↔ signedValue a < signedValue b :=
  Int64.lt_iff_toInt_lt

theorem toInt64_le_iff (a b : UInt64) : a.toInt64 ≤ b.toInt64 ↔ signedValue a ≤ signedValue b :=
  Int64.le_iff_toInt_le

theorem signedValue_neg_iff (w : UInt64) : signedValue w < 0 ↔ w.toBitVec.msb = true := by
  rw [BitVec.msb_eq_toInt]
  exact (decide_eq_true_iff).symm

/-- The sign of an exclusive disjunction. -/
theorem signedValue_neg_xor (a b : UInt64) :
    signedValue (a ^^^ b) < 0 ↔ ¬(signedValue a < 0 ↔ signedValue b < 0) := by
  simp only [signedValue_neg_iff, UInt64.toBitVec_xor, BitVec.msb_xor]
  cases a.toBitVec.msb <;> cases b.toBitVec.msb <;> decide

/-- The sign of a conjunction. -/
theorem signedValue_neg_and (a b : UInt64) :
    signedValue (a &&& b) < 0 ↔ signedValue a < 0 ∧ signedValue b < 0 := by
  simp only [signedValue_neg_iff, UInt64.toBitVec_and, BitVec.msb_and, Bool.and_eq_true]

theorem toNat_add_modEq (a b : UInt64) :
    ((a + b).toNat : Int) ≡ a.toNat + b.toNat [ZMOD 2 ^ 64] := by
  rw [UInt64.toNat_add]
  push_cast
  exact Int.mod_modEq _ _

theorem toNat_sub_modEq (a b : UInt64) :
    ((a - b).toNat : Int) ≡ a.toNat - b.toNat [ZMOD 2 ^ 64] := by
  have hb := b.toNat_lt
  rw [UInt64.toNat_sub]
  unfold Int.ModEq
  omega

theorem toNat_mul_modEq (a b : UInt64) :
    ((a * b).toNat : Int) ≡ a.toNat * b.toNat [ZMOD 2 ^ 64] := by
  rw [UInt64.toNat_mul]
  push_cast
  exact Int.mod_modEq _ _

namespace IntKind

variable {k : IntKind} {a b w : UInt64} {v : Int}

/-! ## Results -/

theorem add_modEq (k : IntKind) (a b : UInt64) :
    ((a + b).toNat : Int) ≡ k.toInt a + k.toInt b [ZMOD 2 ^ 64] :=
  (toNat_add_modEq a b).trans ((toInt_modEq k a).symm.add (toInt_modEq k b).symm)

theorem sub_modEq (k : IntKind) (a b : UInt64) :
    ((a - b).toNat : Int) ≡ k.toInt a - k.toInt b [ZMOD 2 ^ 64] :=
  (toNat_sub_modEq a b).trans ((toInt_modEq k a).symm.sub (toInt_modEq k b).symm)

theorem mul_modEq (k : IntKind) (a b : UInt64) :
    ((a * b).toNat : Int) ≡ k.toInt a * k.toInt b [ZMOD 2 ^ 64] :=
  (toNat_mul_modEq a b).trans ((toInt_modEq k a).symm.mul (toInt_modEq k b).symm)

/-- A number has one normal word. -/
theorem IsWordOf.unique (h : k.HasWidth) {w' : UInt64} (hw : k.IsWordOf w v)
    (hw' : k.IsWordOf w' v) : w = w' :=
  toInt_inj (((isWordOf_iff h).mp hw).trans ((isWordOf_iff h).mp hw').symm)

/-- The result of an operation is what normalising makes of a word that agrees with the number. -/
theorem Computes.value_eq {out : ArithOutcome} (h : k.HasWidth) (hout : k.Computes out v)
    (hw : (w.toNat : Int) ≡ v [ZMOD 2 ^ 64]) : k.normalize w = out.value :=
  (isWordOf_normalize h hw).unique h hout.word

/-! ## Fewer than 64 bits -/

/-- A number that is exact as a word is one of the type if normalising does not change its word. -/
theorem normal_iff_has (h : k.HasWidth) (hbits : k.bits < 64)
    (hw : (w.toNat : Int) ≡ v [ZMOD 2 ^ 64]) (hlow : -2 ^ 63 ≤ v)
    (hhigh : v < if k.signed then 2 ^ 63 else 2 ^ 64) : k.Normal w ↔ k.Has v := by
  have hlt := w.toNat_lt
  have hcases := signedValue_cases w
  have hnarrow := h.narrow hbits
  have hhalf := h.half_pow
  unfold Int.ModEq at hw
  rw [normal_iff h]
  cases hs : k.signed
  · rw [hs, if_neg Bool.false_ne_true] at hhigh
    rw [has_of_unsigned hs, has_of_unsigned hs, toInt_of_unsigned hs]
    omega
  · rw [hs, if_pos rfl] at hhigh
    have hexact : signedValue w = v := by omega
    rw [toInt_of_signed hs, hexact]

/-- What numbers of fewer than 64 bits are at most. -/
theorem toInt_bounds (h : k.HasWidth) (hbits : k.bits < 64) (hw : k.Normal w) :
    if k.signed then -2 ^ 31 ≤ k.toInt w ∧ k.toInt w < 2 ^ 31 else 0 ≤ k.toInt w ∧
    k.toInt w < 2 ^ 32 := by
  have hin := has_toInt h hw
  have hnarrow := h.narrow hbits
  have hhalf := h.half_pow
  cases hs : k.signed
  · rw [if_neg Bool.false_ne_true]
    rw [has_of_unsigned hs] at hin
    omega
  · rw [if_pos rfl]
    rw [has_of_signed hs] at hin
    omega

/-- The outcome of an operation that is exact as a word. -/
theorem overflow_iff_ne (h : k.HasWidth) (hbits : k.bits < 64) {out : ArithOutcome}
    (hout : k.Computes out v) (hw : (w.toNat : Int) ≡ v [ZMOD 2 ^ 64]) (hlow : -2 ^ 63 ≤ v)
    (hhigh : v < if k.signed then 2 ^ 63 else 2 ^ 64) : out.overflow = (k.normalize w != w) := by
  rw [Bool.eq_iff_iff, hout.overflow, ← normal_iff_has h hbits hw hlow hhigh, bne_iff_ne]
  rfl

/-- Sums, differences and products of fewer than 64 bits are exact as words. -/
theorem narrow_bounds (h : k.HasWidth) (hbits : k.bits < 64) (ha : k.Normal a) (hb : k.Normal b) :
    (-2 ^ 63 ≤ k.toInt a + k.toInt b ∧ k.toInt a + k.toInt b < if k.signed then 2 ^ 63
      else 2 ^ 64) ∧
      (-2 ^ 63 ≤ k.toInt a - k.toInt b ∧ k.toInt a - k.toInt b < if k.signed then 2 ^ 63
        else 2 ^ 64) ∧
      (-2 ^ 63 ≤ k.toInt a * k.toInt b ∧ k.toInt a * k.toInt b < if k.signed then 2 ^ 63
        else 2 ^ 64) := by
  have hx := toInt_bounds h hbits ha
  have hy := toInt_bounds h hbits hb
  generalize k.toInt a = x at hx ⊢
  generalize k.toInt b = y at hy ⊢
  cases hs : k.signed
  · rw [hs, if_neg Bool.false_ne_true] at hx hy
    rw [if_neg Bool.false_ne_true]
    have hmul : 0 ≤ x * y := Int.mul_nonneg hx.1 hy.1
    have hmul' : x * y ≤ 2 ^ 32 * y := Int.mul_le_mul_of_nonneg_right hx.2.le hy.1
    omega
  · rw [hs, if_pos rfl] at hx hy
    rw [if_pos rfl]
    have hmul : |x * y| ≤ 2 ^ 31 * 2 ^ 31 := by
      rw [abs_mul]
      exact mul_le_mul (abs_le.mpr ⟨hx.1, hx.2.le⟩) (abs_le.mpr ⟨hy.1, hy.2.le⟩) (abs_nonneg _)
        (by positivity)
    rw [abs_le] at hmul
    omega

/-! ## 64 bits -/

/-- The quotient of a product by its first factor is the second only if the product fits. -/
theorem tdiv_eq_iff {x y r : Int} (hx : x ≠ 0) (hr : r ≡ x * y [ZMOD 2 ^ 64])
    (hsize : |x| ≤ 2 ^ 64) :
    r.tdiv x = y ↔ r = x * y := by
  constructor
  · intro hquot
    -- the remainder is too small for the two to agree without being equal
    have hrem := Int.natAbs_tmod r x
    have hlt := Nat.mod_lt r.natAbs (Int.natAbs_pos.mpr hx)
    have hsplit := Int.tmod_add_mul_tdiv r x
    rw [hquot] at hsplit
    obtain ⟨c, hc⟩ := (Int.modEq_iff_dvd.mp hr)
    have hx' : |x| = x.natAbs := Int.abs_eq_natAbs x
    omega
  · rintro rfl
    exact Int.mul_tdiv_cancel_left y hx

/-- A quotient by another divisor than minus one is a signed word. -/
theorem signedValue_wordOfInt_tdiv (a : UInt64) (hb : signedValue b ≠ 0)
    (hminus : b ≠ wordOfInt (-1)) :
    signedValue (wordOfInt ((signedValue a).tdiv (signedValue b))) =
      (signedValue a).tdiv (signedValue b) := by
  have ha := signedValue_cases a
  have hlt := a.toNat_lt
  have hne : ¬(signedValue b = -1 ∧ signedValue a = -2 ^ 63) := by
    rintro ⟨hone, -⟩
    have hword : signedValue (wordOfInt (-1)) = -1 := by decide
    exact hminus (signedValue_inj (hone.trans hword.symm))
  have hrange := (has_tdiv_iff (s := 2 ^ 63) (by omega) hb).mpr hne
  rw [signedValue_wordOfInt, Int.bmod_def]
  omega

section Wide

variable (h : k.bits = 64)

include h

theorem hasWidth_of_wide : k.HasWidth := by
  unfold HasWidth
  rw [h]
  decide

theorem normal_of_wide (w : UInt64) : k.Normal w := by
  unfold Normal normalize
  rw [if_pos (.inr h.ge)]

theorem has_of_wide :
    k.Has v ↔ if k.signed then -2 ^ 63 ≤ v ∧ v < 2 ^ 63 else 0 ≤ v ∧ v < 2 ^ 64 := by
  cases hs : k.signed
  · rw [has_of_unsigned hs, if_neg Bool.false_ne_true, h]
  · rw [has_of_signed hs, if_pos rfl, h]

/-- A sum does not fit if its sign is that of neither operand, or if it is below the first. -/
theorem addOverflow_iff (a b : UInt64) :
    (k.eval .add a b).overflow =
      if k.signed then decide (signedValue ((a ^^^ (a + b)) &&& (b ^^^ (a + b))) < 0)
      else decide (a + b < a) := by
  have hw := hasWidth_of_wide h
  have hsum := add_modEq k a b
  have hadd := (computes_exact hw (normal_of_wide h a) (normal_of_wide h b)).1
  have ha := a.toNat_lt
  have hb := b.toNat_lt
  have hr := (a + b).toNat_lt
  have hca := signedValue_cases a
  have hcb := signedValue_cases b
  have hcr := signedValue_cases (a + b)
  unfold Int.ModEq at hsum
  rw [Bool.eq_iff_iff, hadd.overflow, has_of_wide h]
  cases hs : k.signed
  · rw [if_neg Bool.false_ne_true, if_neg Bool.false_ne_true, decide_eq_true_iff,
      UInt64.lt_iff_toNat_lt]
    rw [toInt_of_unsigned hs, toInt_of_unsigned hs] at hsum ⊢
    omega
  · rw [if_pos rfl, if_pos rfl, decide_eq_true_iff, signedValue_neg_and, signedValue_neg_xor,
      signedValue_neg_xor]
    rw [toInt_of_signed hs, toInt_of_signed hs] at hsum ⊢
    omega

/-- A difference does not fit if the operands differ in sign and it has not the sign of the first,
or if the first is below the second. -/
theorem subOverflow_iff (a b : UInt64) :
    (k.eval .sub a b).overflow =
      if k.signed then decide (signedValue ((a ^^^ b) &&& (a ^^^ (a - b))) < 0)
        else decide (a < b) := by
  have hw := hasWidth_of_wide h
  have hdiff := sub_modEq k a b
  have hsub := (computes_exact hw (normal_of_wide h a) (normal_of_wide h b)).2.1
  have ha := a.toNat_lt
  have hb := b.toNat_lt
  have hr := (a - b).toNat_lt
  have hca := signedValue_cases a
  have hcb := signedValue_cases b
  have hcr := signedValue_cases (a - b)
  unfold Int.ModEq at hdiff
  rw [Bool.eq_iff_iff, hsub.overflow, has_of_wide h]
  cases hs : k.signed
  · rw [if_neg Bool.false_ne_true, if_neg Bool.false_ne_true, decide_eq_true_iff,
      UInt64.lt_iff_toNat_lt]
    rw [toInt_of_unsigned hs, toInt_of_unsigned hs] at hdiff ⊢
    omega
  · rw [if_pos rfl, if_pos rfl, decide_eq_true_iff, signedValue_neg_and, signedValue_neg_xor,
      signedValue_neg_xor]
    rw [toInt_of_signed hs, toInt_of_signed hs] at hdiff ⊢
    omega

/-- A product does not fit if dividing by the first factor does not give the second; minus one is
looked at apart. -/
theorem mulOverflow_iff (a b : UInt64) :
    (k.eval .mul a b).overflow =
      if k.signed then
        if a = wordOfInt (-1) then decide (b = wordOfInt (-Nat.pow 2 63))
        else if a = 0 then false
        else decide (wordOfInt ((signedValue (a * b)).tdiv (signedValue a)) ≠ b)
      else if a = 0 then false
      else decide (a * b / a ≠ b) := by
  have hw := hasWidth_of_wide h
  have hprod := mul_modEq k a b
  have hmul := (computes_exact hw (normal_of_wide h a) (normal_of_wide h b)).2.2
  have ha := a.toNat_lt
  have hb := b.toNat_lt
  have hr := (a * b).toNat_lt
  have hca := signedValue_cases a
  have hcb := signedValue_cases b
  have hcr := signedValue_cases (a * b)
  have hzero : k.toInt a = 0 ↔ a = 0 := toInt_eq_zero_iff k a
  rw [Bool.eq_iff_iff, hmul.overflow, has_of_wide h]
  cases hs : k.signed
  · rw [toInt_of_unsigned hs, toInt_of_unsigned hs] at *
    rw [if_neg Bool.false_ne_true, if_neg Bool.false_ne_true]
    have hnonneg : (0 : Int) ≤ a.toNat * b.toNat := by positivity
    split
    next hfirst => simp [hfirst]
    next hfirst =>
      have hquot := tdiv_eq_iff (y := b.toNat) (mt hzero.mp hfirst) hprod (by rw [abs_le]; omega)
      rw [← Int.ofNat_tdiv, Int.ofNat_inj, ← UInt64.toNat_div, UInt64.toNat_inj] at hquot
      rw [decide_eq_true_iff, ne_eq, hquot, not_iff_not]
      unfold Int.ModEq at hprod
      omega
  · rw [toInt_of_signed hs, toInt_of_signed hs] at *
    rw [if_pos rfl, if_pos rfl]
    have hminus : signedValue (wordOfInt (-1)) = -1 := by decide
    have hleast : signedValue (wordOfInt (-Nat.pow 2 63)) = -2 ^ 63 := by decide
    split
    next hfirst =>
      rw [hfirst, hminus, decide_eq_true_iff]
      constructor
      · intro hno
        refine signedValue_inj ?_
        omega
      · rintro rfl
        omega
    next hfirst =>
      split
      next hfirst' => simp [hzero.mpr hfirst']
      next hfirst' =>
        have hsigned : signedValue (a * b) ≡ signedValue a * signedValue b [ZMOD 2 ^ 64] := by
          have hword := toInt_modEq k (a * b)
          rw [toInt_of_signed hs] at hword
          exact hword.trans hprod
        -- the quotient is compared as a word; only the least number divided by minus one is no
        -- word, and minus one is out
        have hquot := tdiv_eq_iff (y := signedValue b) (mt hzero.mp hfirst') hsigned
            (by rw [abs_le]; omega)
        have hword : wordOfInt ((signedValue (a * b)).tdiv (signedValue a)) = b ↔
            (signedValue (a * b)).tdiv (signedValue a) = signedValue b := by
          have hsame := signedValue_wordOfInt_tdiv (a * b) (mt hzero.mp hfirst') hfirst
          exact ⟨fun heq => hsame.symm.trans (congrArg signedValue heq),
            fun heq => signedValue_inj (hsame.trans heq)⟩
        rw [decide_eq_true_iff, ne_eq, hword, hquot, not_iff_not]
        unfold Int.ModEq at hsigned
        omega

end Wide

/-! ## Division -/

theorem toInt_wordOfInt (h : k.HasWidth) (hv : k.Has v) : k.toInt (wordOfInt v) = v := by
  have hpow := h.pow_le
  have hhalf := h.half_pow
  cases hs : k.signed
  · rw [has_of_unsigned hs] at hv
    rw [toInt_of_unsigned hs, toNat_wordOfInt, Int.emod_eq_of_lt hv.1 (by omega)]
  · rw [has_of_signed hs] at hv
    rw [toInt_of_signed hs, signedValue_wordOfInt, Int.bmod_def]
    omega

/-- The word of a number of the type is normal as it is. -/
theorem normalize_wordOfInt (h : k.HasWidth) (hv : k.Has v) :
    k.normalize (wordOfInt v) = wordOfInt v := by
  refine (normal_iff h).mpr ?_
  rwa [toInt_wordOfInt h hv]

theorem divSigned_eq (hb : b ≠ 0) (hno : ¬(a = wordOfInt (-2 ^ 63) ∧ b = wordOfInt (-1))) :
    Vm.divSigned a b = .ok (wordOfInt ((signedValue a).tdiv (signedValue b))) := by
  have hleast : wordOfInt (-2 ^ 63) = 0x8000000000000000 := by decide
  have hminus : wordOfInt (-1) = 0xFFFFFFFFFFFFFFFF := by decide
  rw [hleast, hminus] at hno
  unfold Vm.divSigned
  rw [if_neg hb, if_neg hno]
  refine congrArg Except.ok (signedValue_inj ?_)
  rw [signedValue_wordOfInt]
  exact Int64.toInt_div a.toInt64 b.toInt64

theorem remSigned_eq (hb : b ≠ 0) :
    Vm.remSigned a b = .ok (wordOfInt ((signedValue a).tmod (signedValue b))) := by
  unfold Vm.remSigned
  rw [if_neg hb]
  split
  next hminus =>
    have hone : signedValue b = -1 := by rw [hminus]; decide
    rw [hone, Int.tmod_neg, Int.tmod_one]
    rfl
  next =>
    have hmod : signedValue (a.toInt64 % b.toInt64).toUInt64 =
        (signedValue a).tmod (signedValue b) :=
      Int64.toInt_mod a.toInt64 b.toInt64
    refine congrArg Except.ok (signedValue_inj ?_)
    rw [signedValue_wordOfInt, ← hmod, signedValue_eq, Int.bmod_bmod]

/-- The least number of a type by minus one is the only quotient that does not fit. -/
theorem evalDiv_least (hs : k.signed = true) (h : k.HasWidth) :
    k.evalDiv k.minWord (wordOfInt (-1)) = { value := k.minWord, overflow := true } := by
  obtain ⟨signed, bits⟩ := k
  obtain rfl : signed = true := hs
  unfold HasWidth at h
  simp only [List.mem_cons, List.not_mem_nil, or_false] at h
  rcases h with rfl | rfl | rfl | rfl | rfl <;> decide

/-- Every other quotient of normal words is what the machine computes. -/
theorem divSigned_eq_evalDiv (h : k.HasWidth) (hs : k.signed = true) (ha : k.Normal a) (hb : b ≠ 0)
    (hno : ¬(a = k.minWord ∧ b = wordOfInt (-1))) :
    Vm.divSigned a b = .ok (k.evalDiv a b).value ∧ (k.evalDiv a b).overflow = false := by
  have hy : k.toInt b ≠ 0 := fun hzero => hb ((toInt_eq_zero_iff k b).mp hzero)
  have hminus : signedValue b = -1 ↔ b = wordOfInt (-1) := by
    have hone : signedValue (wordOfInt (-1)) = -1 := by decide
    rw [← hone]
    exact ⟨signedValue_inj, congrArg signedValue⟩
  have hfits : (k.evalDiv a b).overflow = false := by
    unfold evalDiv
    rw [if_neg hb, if_pos hs]
    refine decide_eq_false fun hyes => hno ⟨hyes.2, hminus.mp hyes.1⟩
  have hhas : k.Has ((k.toInt a).tdiv (k.toInt b)) := by
    rw [← not_not (a := k.Has _), ← (computes_evalDiv h ha hy).overflow, hfits]
    exact Bool.false_ne_true
  refine ⟨?_, hfits⟩
  rw [divSigned_eq hb]
  · unfold evalDiv
    rw [if_neg hb, if_pos hs, ← toInt_of_signed hs, ← toInt_of_signed hs,
      normalize_wordOfInt h hhas]
  · -- the least word is normal in the widest type only
    rintro ⟨rfl, hb⟩
    have hin := has_toInt h ha
    have hleast : signedValue (wordOfInt (-2 ^ 63)) = -2 ^ 63 := by decide
    have hhalf := h.half_pow
    rw [has_of_signed hs, toInt_of_signed hs, hleast] at hin
    rcases h.bits_le.lt_or_eq with hbits | hbits
    · have hnarrow := h.narrow hbits
      omega
    · refine hno ⟨?_, hb⟩
      unfold minWord
      rw [if_pos hs, hbits]
      rfl

theorem remSigned_eq_evalRem (h : k.HasWidth) (hs : k.signed = true) (ha : k.Normal a)
    (hb' : k.Normal b) (hb : b ≠ 0) :
    Vm.remSigned a b = .ok (k.evalRem a b).value := by
  have hy : k.toInt b ≠ 0 := fun hzero => hb ((toInt_eq_zero_iff k b).mp hzero)
  have hfits : (k.evalRem a b).overflow = false := by
    unfold evalRem
    rw [if_neg hb, if_pos hs]
  have hhas : k.Has ((k.toInt a).tmod (k.toInt b)) := by
    rw [← not_not (a := k.Has _), ← (computes_evalRem h ha hb' hy).overflow, hfits]
    exact Bool.false_ne_true
  rw [remSigned_eq hb]
  unfold evalRem
  rw [if_neg hb, if_pos hs, ← toInt_of_signed hs, ← toInt_of_signed hs, normalize_wordOfInt h hhas]

/-! ## Single bits -/

/-- Operations on single bits lead from normal words to normal words. -/
theorem normal_bitwise (h : k.HasWidth) (ha : k.Normal a) (hb : k.Normal b) :
    k.Normal (a &&& b) ∧ k.Normal (a ||| b) ∧ k.Normal (a ^^^ b) := by
  rcases h.bits_le.lt_or_eq with hbits | hbits
  · cases hs : k.signed
    · rw [normal_iff h, has_of_unsigned hs, toInt_of_unsigned hs] at ha hb
      have hpow : ((2 ^ k.bits : Nat) : Int) = 2 ^ k.bits := by push_cast; rfl
      have hx : a.toNat < 2 ^ k.bits := by omega
      have hy : b.toNat < 2 ^ k.bits := by omega
      have hnormal (w : UInt64) (hw : w.toNat < 2 ^ k.bits) : k.Normal w := by
        rw [normal_iff h, has_of_unsigned hs, toInt_of_unsigned hs]
        omega
      refine ⟨hnormal _ ?_, hnormal _ ?_, hnormal _ ?_⟩
      · rw [UInt64.toNat_and]
        exact Nat.and_lt_two_pow _ hy
      · rw [UInt64.toNat_or]
        exact Nat.or_lt_two_pow hx hy
      · rw [UInt64.toNat_xor]
        exact Nat.xor_lt_two_pow hx hy
    · have hform (w : UInt64) : k.normalize w =
          ((w <<< (64 - UInt64.ofNat k.bits)).toInt64 >>>
            (64 - UInt64.ofNat k.bits).toInt64).toUInt64 := by
        have hpos := h.bits_pos
        unfold normalize
        rw [if_neg (by omega), if_pos hs]
      have ha' := (hform a).symm.trans ha
      have hb' := (hform b).symm.trans hb
      unfold Normal
      refine ⟨?_, ?_, ?_⟩
      · rw [hform, UInt64.shiftLeft_and]
        refine (congrArg Int64.toUInt64 Int64.shiftRight_and).trans ?_
        exact congrArg₂ (· &&& ·) ha' hb'
      · rw [hform, UInt64.shiftLeft_or]
        refine (congrArg Int64.toUInt64 Int64.shiftRight_or).trans ?_
        exact congrArg₂ (· ||| ·) ha' hb'
      · rw [hform, UInt64.shiftLeft_xor]
        refine (congrArg Int64.toUInt64 Int64.shiftRight_xor).trans ?_
        exact congrArg₂ (· ^^^ ·) ha' hb'
  · exact ⟨normal_of_wide hbits _, normal_of_wide hbits _, normal_of_wide hbits _⟩

/-! ## Shifts -/

/-- The mask of the machine is that of the type. -/
theorem shiftAmount_eq_and (h : k.HasWidth) (b : UInt64) :
    k.shiftAmount b = b &&& UInt64.ofNat (k.bits - 1) := by
  have hpos := h.bits_pos
  have hle := h.bits_le
  have hsize : Nat.pow 2 32 = 4294967296 := rfl
  unfold shiftAmount
  rw [hsize, show (k.bits + (4294967296 - 1)) % 4294967296 = k.bits - 1 by omega]

theorem toNat_shiftAmount_lt (h : k.HasWidth) (b : UInt64) : (k.shiftAmount b).toNat < 64 := by
  have hle := h.bits_le
  have hpos := h.bits_pos
  rw [shiftAmount_eq_and h, UInt64.toNat_and, toNat_ofNat_bits (by omega)]
  have := Nat.and_le_right (n := b.toNat) (m := k.bits - 1)
  omega

/-- A shifted word is normal as it is. -/
theorem normal_shr (h : k.HasWidth) (hs : k.signed = true) (ha : k.Normal a) {s : UInt64}
    (hlt : s.toNat < 64) :
    k.normalize (a.toInt64 >>> s.toInt64).toUInt64 = (a.toInt64 >>> s.toInt64).toUInt64 := by
  refine (normal_iff h).mpr ?_
  have hin := has_toInt h ha
  have hpow : (0 : Int) < 2 ^ s.toNat := by positivity
  have hhalf : (0 : Int) ≤ 2 ^ (k.bits - 1) := by positivity
  rw [has_of_signed hs, toInt_of_signed hs] at hin ⊢
  rw [signedValue_sar hlt]
  constructor
  · refine Int.le_ediv_of_mul_le hpow (le_trans ?_ hin.1)
    exact mul_le_of_one_le_right (by omega) hpow
  · refine Int.ediv_lt_of_lt_mul hpow (hin.2.trans_le ?_)
    exact le_mul_of_one_le_right hhalf hpow

end IntKind

end ContractCompiler
