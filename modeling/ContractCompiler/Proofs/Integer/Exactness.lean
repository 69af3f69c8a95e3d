import ContractCompiler.Proofs.Integer.Words

/-!
# Exactness of integer arithmetic

Operations on words do what the operations on the numbers that the words stand for do. The word of a
result agrees with the result modulo the size of the type, and overflow is reported exactly when the
type does not have the result.

- `ArithOp.trueResult?`: what an operation does to numbers;
- `IntKind.Computes`: an outcome that is right about a number;
- `IntKind.computes_ofExact`, `IntKind.computes_evalDiv`, `IntKind.computes_evalRem`: one lemma for
  each way to a result, and `IntKind.computes_eval` for all of them;
- `IntKind.Shifts`, `IntKind.shifts_shl`, `IntKind.shifts_shr`: shifts;
- `IntKind.clamp`, `IntKind.toInt_evalSaturating`: the nearest number;
- `IntKind.Casts`, `IntKind.casts_cast`: conversions;
- `IntKind.arithmetic_exact`: all of it.
-/

namespace ContractCompiler

/-- What an operation does to numbers: quotients are rounded toward zero. Shifts and the operations
on single bits are not operations on numbers. -/
def ArithOp.trueResult? : ArithOp → Int → Int → Option Int
  | .add, x, y => some (x + y)
  | .sub, x, y => some (x - y)
  | .mul, x, y => some (x * y)
  | .div, x, y => if y = 0 then none else some (x.tdiv y)
  | .rem, x, y => if y = 0 then none else some (x.tmod y)
  | _, _, _ => none

namespace IntKind

variable {k target : IntKind} {a b w : UInt64} {v : Int}

/-! ## The range of a type -/

theorem has_of_signed (hs : k.signed = true) :
    k.Has v ↔ -2 ^ (k.bits - 1) ≤ v ∧ v < 2 ^ (k.bits - 1) := by
  unfold Has least greatest
  rw [if_pos hs, if_pos hs]
  omega

theorem has_of_unsigned (hs : k.signed = false) : k.Has v ↔ 0 ≤ v ∧ v < 2 ^ k.bits := by
  unfold Has least greatest
  rw [hs, if_neg Bool.false_ne_true, if_neg Bool.false_ne_true]
  omega

theorem toInt_of_signed (hs : k.signed = true) (w : UInt64) : k.toInt w = signedValue w :=
  if_pos hs

theorem toInt_of_unsigned (hs : k.signed = false) (w : UInt64) : k.toInt w = w.toNat :=
  if_neg (by simp [hs])

/-- A type of fewer bits than a word has no more than half of them. -/
theorem HasWidth.narrow (h : k.HasWidth) (hbits : k.bits < 64) : (2 : Int) ^ k.bits ≤ 2 ^ 32 := by
  have hle : k.bits ≤ 32 := by
    unfold HasWidth at h
    simp only [List.mem_cons, List.not_mem_nil, or_false] at h
    omega
  exact pow_le_pow_right₀ (by decide) hle

theorem HasWidth.half_pow (h : k.HasWidth) : (2 : Int) * 2 ^ (k.bits - 1) = 2 ^ k.bits := by
  rw [← pow_succ', Nat.sub_add_cancel h.bits_pos]

theorem HasWidth.pow_le (h : k.HasWidth) : (2 : Int) ^ k.bits ≤ 2 ^ 64 :=
  pow_le_pow_right₀ (by decide) h.bits_le

theorem HasWidth.cases (h : k.HasWidth) :
    k = ⟨k.signed, 1⟩ ∨ k = ⟨k.signed, 8⟩ ∨ k = ⟨k.signed, 16⟩ ∨ k = ⟨k.signed, 32⟩ ∨
    k = ⟨k.signed, 64⟩ := by
  obtain ⟨signed, bits⟩ := k
  unfold HasWidth at h
  simpa using h

theorem toInt_minWord (h : k.HasWidth) : k.toInt k.minWord = k.least := by
  rcases h.cases with hk | hk | hk | hk | hk <;> rw [hk] <;> cases k.signed <;> rfl

theorem toInt_maxWord (h : k.HasWidth) : k.toInt k.maxWord = k.greatest := by
  rcases h.cases with hk | hk | hk | hk | hk <;> rw [hk] <;> cases k.signed <;> rfl

theorem has_zero (h : k.HasWidth) : k.Has 0 := by
  rcases h.cases with hk | hk | hk | hk | hk <;> rw [hk] <;> cases k.signed <;> decide

theorem has_toInt (h : k.HasWidth) (hw : k.Normal w) : k.Has (k.toInt w) := (normal_iff h).mp hw

theorem toInt_eq_zero_iff (k : IntKind) (w : UInt64) : k.toInt w = 0 ↔ w = 0 := by
  constructor
  · intro hw
    refine toInt_inj (hw.trans ?_)
    unfold toInt
    split <;> rfl
  · rintro rfl
    unfold toInt
    split <;> rfl

/-! ## Outcomes -/

/-- An outcome is right about the exact result of an operation. -/
structure Computes (k : IntKind) (out : ArithOutcome) (v : Int) : Prop where
  word : k.IsWordOf out.value v
  overflow : out.overflow = true ↔ ¬k.Has v
  divByZero : out.divByZero = false

/-- A word made of a number. -/
theorem isWordOf_normalize_wordOfInt (h : k.HasWidth) (v : Int) :
    k.IsWordOf (k.normalize (wordOfInt v)) v := by
  refine isWordOf_normalize h ?_
  rw [toNat_wordOfInt]
  exact Int.mod_modEq v _

/-- A result whose word is narrow has to fit a word without being wrapped. -/
theorem computes_ofExact (h : k.HasWidth) (hv : k.signed = false → k.bits < 64 → v < 2 ^ 64) :
    k.Computes (k.ofExact v) v := by
  have hword := toNat_wordOfInt v
  have hvalue := isWordOf_normalize_wordOfInt h v
  have hwrap := (isWordOf_iff h).mp hvalue
  refine ⟨hvalue, ?_, rfl⟩
  rw [has_iff h, ← hwrap]
  unfold ofExact
  dsimp only
  rw [Bool.not_eq_true', decide_eq_false_iff_not, not_iff_not]
  cases hs : k.signed
  · rw [if_neg Bool.false_ne_true]
    have hrange := has_of_unsigned hs (v := v)
    rw [has_iff h, ← hwrap] at hrange
    split
    next hbits =>
      have hfits := hv hs hbits
      rw [hrange]
      constructor
      · rintro ⟨hnonneg, heq⟩
        rw [← hrange, heq, toInt_of_unsigned hs, hword]
        exact Int.emod_eq_of_lt hnonneg hfits
      · intro hin
        refine ⟨hin.1, toInt_inj (k := k) ?_⟩
        rw [hrange.mpr hin, toInt_of_unsigned hs, hword]
        exact (Int.emod_eq_of_lt hin.1 hfits).symm
    next hbits =>
      have hwide : k.bits = 64 := by
        have := h.bits_le
        omega
      rw [hrange, hwide]
      rfl
  · rw [if_pos rfl, toInt_of_signed hs]

/-- Sums, differences and products. -/
theorem computes_exact (h : k.HasWidth) (ha : k.Normal a) (hb : k.Normal b) :
    k.Computes (k.eval .add a b) (k.toInt a + k.toInt b) ∧
      k.Computes (k.eval .sub a b) (k.toInt a - k.toInt b) ∧
      k.Computes (k.eval .mul a b) (k.toInt a * k.toInt b) := by
  have hrange (hs : k.signed = false) (hbits : k.bits < 64) {w : UInt64} (hw : k.Normal w) :
      0 ≤ k.toInt w ∧ k.toInt w < 2 ^ 32 := by
    have hin := (has_of_unsigned hs).mp (has_toInt h hw)
    have hpow := h.narrow hbits
    omega
  refine ⟨computes_ofExact h fun hs hbits => ?_, computes_ofExact h fun hs hbits => ?_,
    computes_ofExact h fun hs hbits => ?_⟩
  · have := hrange hs hbits ha
    have := hrange hs hbits hb
    omega
  · have := hrange hs hbits ha
    have := hrange hs hbits hb
    omega
  · obtain ⟨-, ha'⟩ := hrange hs hbits ha
    obtain ⟨hb', hb''⟩ := hrange hs hbits hb
    calc k.toInt a * k.toInt b
      _ ≤ 2 ^ 32 * k.toInt b := Int.mul_le_mul_of_nonneg_right ha'.le hb'
      _ < 2 ^ 64 := by omega

/-! ## Quotients and remainders -/

/-- The only quotient without a place in a signed type is that of the least number by minus one. -/
theorem has_tdiv_iff {x y s : Int} (hx : -s ≤ x ∧ x < s) (hy : y ≠ 0) :
    -s ≤ x.tdiv y ∧ x.tdiv y < s ↔ ¬(y = -1 ∧ x = -s) := by
  have hsize := Int.natAbs_tdiv x y
  rcases eq_or_ne y (-1) with rfl | hneg
  · rw [Int.tdiv_neg, Int.tdiv_one]
    omega
  · refine iff_of_true ?_ (by omega)
    rcases lt_or_gt_of_ne hy with hy | hy
    · have hhalf : (x.tdiv y).natAbs ≤ x.natAbs / 2 := by
        rw [hsize]
        exact Nat.div_le_div_left (by omega) (by decide)
      omega
    · rcases le_or_gt 0 x with hx' | hx'
      · have := Int.tdiv_nonneg hx' hy.le
        have : (x.tdiv y).natAbs ≤ x.natAbs := hsize ▸ Nat.div_le_self _ _
        omega
      · have : (x.tdiv y).natAbs ≤ x.natAbs := hsize ▸ Nat.div_le_self _ _
        have := Int.tdiv_nonneg (show 0 ≤ -x by omega) hy.le
        rw [Int.neg_tdiv] at this
        omega

theorem computes_evalDiv (h : k.HasWidth) (ha : k.Normal a) (hy : k.toInt b ≠ 0) :
    k.Computes (k.evalDiv a b) ((k.toInt a).tdiv (k.toInt b)) := by
  have hnonzero : b ≠ 0 := fun hb => hy ((toInt_eq_zero_iff k b).mpr hb)
  have hx := has_toInt h ha
  unfold evalDiv
  rw [if_neg hnonzero]
  cases hs : k.signed
  · rw [if_neg Bool.false_ne_true]
    have hquot : k.toInt (a / b) = (k.toInt a).tdiv (k.toInt b) := by
      rw [toInt_of_unsigned hs, toInt_of_unsigned hs, toInt_of_unsigned hs, UInt64.toNat_div]
      exact Int.ofNat_tdiv _ _
    have hin : k.Has ((k.toInt a).tdiv (k.toInt b)) := by
      rw [← hquot]
      rw [has_of_unsigned hs] at hx ⊢
      rw [toInt_of_unsigned hs, UInt64.toNat_div]
      rw [toInt_of_unsigned hs] at hx
      have hle := Int.ofNat_le.mpr (Nat.div_le_self a.toNat b.toNat)
      exact ⟨Int.natCast_nonneg _, hle.trans_lt hx.2⟩
    exact ⟨isWordOf_of_toInt h hquot hin, by simp [hin], rfl⟩
  · rw [if_pos rfl, ← toInt_of_signed hs a, ← toInt_of_signed hs b]
    refine ⟨isWordOf_normalize_wordOfInt h _, ?_, rfl⟩
    have hleast : a = k.minWord ↔ k.toInt a = -2 ^ (k.bits - 1) := by
      have hmin := toInt_minWord h
      unfold least at hmin
      rw [if_pos hs] at hmin
      rw [← hmin]
      exact ⟨congrArg k.toInt, toInt_inj⟩
    rw [has_of_signed hs] at hx ⊢
    rw [has_tdiv_iff hx hy, not_not, decide_eq_true_iff, hleast]

theorem computes_evalRem (h : k.HasWidth) (ha : k.Normal a) (hb : k.Normal b) (hy : k.toInt b ≠ 0) :
    k.Computes (k.evalRem a b) ((k.toInt a).tmod (k.toInt b)) := by
  have hnonzero : b ≠ 0 := fun hb => hy ((toInt_eq_zero_iff k b).mpr hb)
  have hx := has_toInt h ha
  have hy' := has_toInt h hb
  unfold evalRem
  rw [if_neg hnonzero]
  cases hs : k.signed
  · rw [if_neg Bool.false_ne_true]
    have hrem : k.toInt (a % b) = (k.toInt a).tmod (k.toInt b) := by
      rw [toInt_of_unsigned hs, toInt_of_unsigned hs, toInt_of_unsigned hs, UInt64.toNat_mod]
      exact Int.ofNat_tmod _ _
    have hin : k.Has ((k.toInt a).tmod (k.toInt b)) := by
      rw [← hrem]
      rw [has_of_unsigned hs] at hx ⊢
      rw [toInt_of_unsigned hs, UInt64.toNat_mod]
      rw [toInt_of_unsigned hs] at hx
      have hle := Int.ofNat_le.mpr (Nat.mod_le a.toNat b.toNat)
      exact ⟨Int.natCast_nonneg _, hle.trans_lt hx.2⟩
    exact ⟨isWordOf_of_toInt h hrem hin, by simp [hin], rfl⟩
  · rw [if_pos rfl, ← toInt_of_signed hs a, ← toInt_of_signed hs b]
    refine ⟨isWordOf_normalize_wordOfInt h _, ?_, rfl⟩
    have hin : k.Has ((k.toInt a).tmod (k.toInt b)) := by
      have hsize := Int.natAbs_tmod (k.toInt a) (k.toInt b)
      have hlt := Nat.mod_lt (k.toInt a).natAbs (Int.natAbs_pos.mpr hy)
      rw [has_of_signed hs] at hx hy' ⊢
      omega
    simp [hin]

/-- Every operation on numbers is computed. -/
theorem computes_eval (h : k.HasWidth) (ha : k.Normal a) (hb : k.Normal b) {op : ArithOp}
    (hv : op.trueResult? (k.toInt a) (k.toInt b) = some v) : k.Computes (k.eval op a b) v := by
  obtain ⟨hadd, hsub, hmul⟩ := computes_exact h ha hb
  cases op with
  | add =>
    obtain rfl := Option.some.inj hv
    exact hadd
  | sub =>
    obtain rfl := Option.some.inj hv
    exact hsub
  | mul =>
    obtain rfl := Option.some.inj hv
    exact hmul
  | div =>
    obtain ⟨hy, rfl⟩ : k.toInt b ≠ 0 ∧ (k.toInt a).tdiv (k.toInt b) = v := by
      simpa [ArithOp.trueResult?] using hv
    exact computes_evalDiv h ha hy
  | rem =>
    obtain ⟨hy, rfl⟩ : k.toInt b ≠ 0 ∧ (k.toInt a).tmod (k.toInt b) = v := by
      simpa [ArithOp.trueResult?] using hv
    exact computes_evalRem h ha hb hy
  | shl => cases hv
  | shr => cases hv
  | and => cases hv
  | or => cases hv
  | xor => cases hv

/-! ## Shifts -/

/-- An outcome is right about a shift, whose result counts only if the amount is below the width. -/
structure Shifts (k : IntKind) (out : ArithOutcome) (amount v : Int) : Prop where
  overflow : out.overflow = true ↔ ¬(0 ≤ amount ∧ amount < k.bits)
  word : 0 ≤ amount ∧ amount < k.bits → k.IsWordOf out.value v
  divByZero : out.divByZero = false

theorem HasWidth.eq_pow (h : k.HasWidth) : ∃ n ≤ 6, k.bits = 2 ^ n := by
  rcases h.cases with hk | hk | hk | hk | hk <;> rw [hk]
  · exact ⟨0, by decide, rfl⟩
  · exact ⟨3, by decide, rfl⟩
  · exact ⟨4, by decide, rfl⟩
  · exact ⟨5, by decide, rfl⟩
  · exact ⟨6, by decide, rfl⟩

/-- An amount below the width is not changed by the mask. -/
theorem shiftAmount_eq (h : k.HasWidth) (hlt : b.toNat < k.bits) : k.shiftAmount b = b := by
  obtain ⟨n, hn, hbits⟩ := h.eq_pow
  have hpos := h.bits_pos
  have hle := h.bits_le
  have hsize : Nat.pow 2 32 = 4294967296 := rfl
  have hmask : (k.bits + (Nat.pow 2 32 - 1)) % Nat.pow 2 32 = 2 ^ n - 1 := by
    rw [hsize, ← hbits]
    omega
  refine UInt64.toNat_inj.mp ?_
  unfold shiftAmount
  rw [hmask, UInt64.toNat_and, UInt64.toNat_ofNat_of_lt' (show 2 ^ n - 1 < UInt64.size by
    have : UInt64.size = 18446744073709551616 := rfl
    omega), Nat.and_two_pow_sub_one_eq_mod, Nat.mod_eq_of_lt (hbits ▸ hlt)]

/-- The amount of a shift is below the width as a word if it is as a number. -/
theorem toNat_lt_bits_iff (h : k.HasWidth) (b : UInt64) :
    b.toNat < k.bits ↔ 0 ≤ k.toInt b ∧ k.toInt b < k.bits := by
  have hle := h.bits_le
  cases hs : k.signed
  · rw [toInt_of_unsigned hs]
    omega
  · rw [toInt_of_signed hs]
    have hcases := signedValue_cases b
    have hsize := b.toNat_lt
    omega

/-- Where the amount is below the width, its number is that of the word. -/
theorem toInt_amount (h : k.HasWidth) (hlt : b.toNat < k.bits) : k.toInt b = b.toNat := by
  have hle := h.bits_le
  cases hs : k.signed
  · exact toInt_of_unsigned hs b
  · rw [toInt_of_signed hs]
    have hcases := signedValue_cases b
    omega

theorem shifts_shl (h : k.HasWidth) (a b : UInt64) :
    k.Shifts (k.eval .shl a b) (k.toInt b) (k.toInt a * 2 ^ (k.toInt b).toNat) := by
  refine ⟨?_, fun hin => ?_, rfl⟩
  · rw [← toNat_lt_bits_iff h]
    simp [eval]
  · have hlt := (toNat_lt_bits_iff h b).mpr hin
    have hle := h.bits_le
    show k.IsWordOf (k.normalize (a <<< k.shiftAmount b)) _
    refine isWordOf_normalize h ?_
    rw [shiftAmount_eq h hlt, toNat_shl (by omega), toInt_amount h hlt, Int.toNat_natCast]
    push_cast
    exact (Int.mod_modEq _ _).trans ((toInt_modEq k a).symm.mul_right _)

theorem shifts_shr (h : k.HasWidth) (ha : k.Normal a) (b : UInt64) :
    k.Shifts (k.eval .shr a b) (k.toInt b) (k.toInt a / 2 ^ (k.toInt b).toNat) := by
  refine ⟨?_, fun hin => ?_, rfl⟩
  · rw [← toNat_lt_bits_iff h]
    simp [eval]
  · have hlt := (toNat_lt_bits_iff h b).mpr hin
    have hle := h.bits_le
    show k.IsWordOf (if k.signed then _ else _) _
    rw [shiftAmount_eq h hlt, toInt_amount h hlt, Int.toNat_natCast]
    cases hs : k.signed
    · rw [if_neg Bool.false_ne_true]
      have hshift : k.toInt (a >>> b) = k.toInt a / 2 ^ b.toNat := by
        rw [toInt_of_unsigned hs, toInt_of_unsigned hs, toNat_shr (by omega)]
        push_cast
        rfl
      refine isWordOf_of_toInt h hshift ?_
      have hx := has_toInt h ha
      rw [has_of_unsigned hs] at hx ⊢
      exact ⟨Int.ediv_nonneg hx.1 (by positivity), (Int.ediv_le_self _ hx.1).trans_lt hx.2⟩
    · rw [if_pos rfl]
      refine isWordOf_normalize h ?_
      rw [toInt_of_signed hs, ← signedValue_sar (by omega) a, ← toInt_of_signed hs]
      exact (toInt_modEq k _).symm

/-- Every result is normal. -/
theorem normal_eval (h : k.HasWidth) (ha : k.Normal a) (hb : k.Normal b) (op : ArithOp) :
    k.Normal (k.eval op a b).value := by
  have hzero : k.Normal 0 := (normal_iff h).mpr ((toInt_eq_zero_iff k 0).mpr rfl ▸ has_zero h)
  obtain ⟨hadd, hsub, hmul⟩ := computes_exact h ha hb
  cases op with
  | add => exact hadd.word.normal
  | sub => exact hsub.word.normal
  | mul => exact hmul.word.normal
  | div =>
    by_cases hy : k.toInt b = 0
    · show k.Normal (k.evalDiv a b).value
      unfold evalDiv
      rw [if_pos ((toInt_eq_zero_iff k b).mp hy)]
      exact hzero
    · exact (computes_evalDiv h ha hy).word.normal
  | rem =>
    by_cases hy : k.toInt b = 0
    · show k.Normal (k.evalRem a b).value
      unfold evalRem
      rw [if_pos ((toInt_eq_zero_iff k b).mp hy)]
      exact hzero
    · exact (computes_evalRem h ha hb hy).word.normal
  | shr =>
    show k.Normal (if k.signed then _ else _)
    cases hs : k.signed
    · rw [if_neg Bool.false_ne_true]
      -- the shifted word is no greater than the word, which the type has
      have hx := has_toInt h ha
      rw [normal_iff h]
      rw [has_of_unsigned hs, toInt_of_unsigned hs] at hx ⊢
      refine ⟨Int.natCast_nonneg _, lt_of_le_of_lt (Int.ofNat_le.mpr ?_) hx.2⟩
      rw [UInt64.toNat_shiftRight, Nat.shiftRight_eq_div_pow]
      exact Nat.div_le_self _ _
    · rw [if_pos rfl]
      exact normal_normalize h _
  | shl => exact normal_normalize h _
  | and => exact normal_normalize h _
  | or => exact normal_normalize h _
  | xor => exact normal_normalize h _

/-! ## The nearest number -/

/-- The number of the type that is nearest to a number. -/
def clamp (k : IntKind) (v : Int) : Int := max k.least (min k.greatest v)

theorem clamp_of_has (hv : k.Has v) : k.clamp v = v := by
  unfold clamp
  rw [min_eq_right hv.2, max_eq_right hv.1]

theorem clamp_eq_least (hv : ¬k.Has v) (hle : v ≤ k.greatest) : k.clamp v = k.least := by
  unfold Has at hv
  unfold clamp
  omega

theorem clamp_eq_greatest (h : k.HasWidth) (hv : ¬k.Has v) (hle : k.least ≤ v) :
    k.clamp v = k.greatest := by
  have hzero := has_zero h
  unfold Has at hv hzero
  unfold clamp
  omega

/-- The sign that saturation looks at. -/
theorem isNegative_iff (k : IntKind) (w : UInt64) :
    (k.signed && decide (signedValue w < 0)) = decide (k.toInt w < 0) := by
  cases hs : k.signed
  · rw [toInt_of_unsigned hs]
    simp
  · rw [toInt_of_signed hs]
    rfl

theorem signed_of_neg (hneg : k.toInt w < 0) : k.signed = true := by
  by_contra hs
  rw [toInt_of_unsigned (by simpa using hs)] at hneg
  omega

/-- The quotient that a type does not have is too great. -/
theorem least_le_tdiv (h : k.HasWidth) (ha : k.Normal a) (hb : k.Normal b) (hy : k.toInt b ≠ 0)
    (hv : ¬k.Has ((k.toInt a).tdiv (k.toInt b))) : k.least ≤ (k.toInt a).tdiv (k.toInt b) := by
  have hx := has_toInt h ha
  have hy' := has_toInt h hb
  refine (has_zero h).1.trans ?_
  cases hs : k.signed
  · rw [has_of_unsigned hs] at hx hy'
    exact Int.tdiv_nonneg hx.1 hy'.1
  · rw [has_of_signed hs] at hx hv
    rw [has_tdiv_iff hx hy, not_not] at hv
    have hpow : (0 : Int) ≤ 2 ^ (k.bits - 1) := by positivity
    rw [hv.1, hv.2, Int.tdiv_neg, Int.tdiv_one]
    omega

/-- Saturation leads to the number of the type that is nearest to the exact result. -/
theorem toInt_evalSaturating (h : k.HasWidth) (ha : k.Normal a) (hb : k.Normal b) {op : ArithOp}
    (hv : op.trueResult? (k.toInt a) (k.toInt b) = some v) :
    k.toInt (k.evalSaturating op a b) = k.clamp v := by
  have hcomputes := computes_eval h ha hb hv
  have hx := has_toInt h ha
  have hy := has_toInt h hb
  unfold evalSaturating
  dsimp only
  by_cases hin : k.Has v
  · have hfits : (k.eval op a b).overflow = false := by
      rw [← Bool.not_eq_true, hcomputes.overflow, not_not]
      exact hin
    rw [hfits, Bool.not_false, if_pos rfl, clamp_of_has hin]
    exact hcomputes.word.toInt_eq h hin
  · have hover : (k.eval op a b).overflow = true := hcomputes.overflow.mpr hin
    rw [hover, Bool.not_true, if_neg Bool.false_ne_true, isNegative_iff, isNegative_iff]
    cases op with
    | add =>
      obtain rfl := Option.some.inj hv
      dsimp only
      by_cases hneg : k.toInt b < 0
      · rw [if_pos (decide_eq_true hneg), toInt_minWord h]
        exact (clamp_eq_least hin (by have := hx.2; omega)).symm
      · rw [if_neg (by simpa using hneg), toInt_maxWord h]
        exact (clamp_eq_greatest h hin (by have := hx.1; omega)).symm
    | sub =>
      obtain rfl := Option.some.inj hv
      dsimp only
      by_cases hneg : k.toInt b < 0
      · have hs := signed_of_neg hneg
        rw [if_pos (by simp [hs, hneg]), toInt_maxWord h]
        exact (clamp_eq_greatest h hin (by have := hx.1; omega)).symm
      · rw [if_neg (by simp [hneg]), toInt_minWord h]
        exact (clamp_eq_least hin (by have := hx.2; omega)).symm
    | mul =>
      obtain rfl := Option.some.inj hv
      dsimp only
      by_cases hsign : decide (k.toInt a < 0) = decide (k.toInt b < 0)
      · rw [if_neg (by simp [hsign]), toInt_maxWord h]
        refine (clamp_eq_greatest h hin ((has_zero h).1.trans ?_)).symm
        rcases lt_or_ge (k.toInt a) 0 with hneg | hnonneg
        · have hneg' : k.toInt b < 0 := by simpa [hneg] using hsign
          exact Int.mul_nonneg_of_nonpos_of_nonpos hneg.le hneg'.le
        · have hnonneg' : 0 ≤ k.toInt b := by simpa [hnonneg.not_gt] using hsign
          exact Int.mul_nonneg hnonneg hnonneg'
      · rw [if_pos (by simpa using hsign), toInt_minWord h]
        refine (clamp_eq_least hin (le_trans ?_ (has_zero h).2)).symm
        rcases lt_or_ge (k.toInt a) 0 with hneg | hnonneg
        · have hnonneg : 0 ≤ k.toInt b := by simpa [hneg] using hsign
          exact Int.mul_nonpos_of_nonpos_of_nonneg hneg.le hnonneg
        · have hneg : k.toInt b < 0 := by simpa [hnonneg.not_gt] using hsign
          exact Int.mul_nonpos_of_nonneg_of_nonpos hnonneg hneg.le
    | div =>
      obtain ⟨hne, rfl⟩ : k.toInt b ≠ 0 ∧ (k.toInt a).tdiv (k.toInt b) = v := by
        simpa [ArithOp.trueResult?] using hv
      exact (toInt_maxWord h).trans (clamp_eq_greatest h hin (least_le_tdiv h ha hb hne hin)).symm
    | rem =>
      -- a remainder always fits
      have hnever : (k.eval .rem a b).overflow = false := by
        show (k.evalRem a b).overflow = false
        unfold evalRem
        split
        · rfl
        · split <;> rfl
      exact absurd (hover.symm.trans hnever) (by decide)
    | shl => cases hv
    | shr => cases hv
    | and => cases hv
    | or => cases hv
    | xor => cases hv

theorem normal_minWord (h : k.HasWidth) : k.Normal k.minWord := by
  rw [normal_iff h, toInt_minWord h]
  exact ⟨le_rfl, (has_zero h).1.trans (has_zero h).2⟩

theorem normal_maxWord (h : k.HasWidth) : k.Normal k.maxWord := by
  rw [normal_iff h, toInt_maxWord h]
  exact ⟨(has_zero h).1.trans (has_zero h).2, le_rfl⟩

theorem normal_ite {c : Bool} {w' : UInt64} (hw : k.Normal w) (hw' : k.Normal w') :
    k.Normal (if c then w else w') := by
  cases c
  · exact hw'
  · exact hw

theorem normal_evalSaturating (h : k.HasWidth) (ha : k.Normal a) (hb : k.Normal b) (op : ArithOp) :
    k.Normal (k.evalSaturating op a b) := by
  have hvalue := normal_eval h ha hb op
  have hmin := normal_minWord h
  have hmax := normal_maxWord h
  unfold evalSaturating
  generalize k.eval op a b = out at hvalue
  dsimp only
  split
  · exact hvalue
  · cases op with
    | add => exact normal_ite hmin hmax
    | sub => exact normal_ite hmax hmin
    | mul => exact normal_ite hmin hmax
    | div => exact hmax
    | rem => exact hvalue
    | shl => exact hvalue
    | shr => exact hvalue
    | and => exact hvalue
    | or => exact hvalue
    | xor => exact hvalue

/-! ## Conversions -/

/-- A conversion is right about a number. -/
structure Casts (target : IntKind) (out : CastOutcome) (v : Int) : Prop where
  word : target.IsWordOf out.value v
  overflow : out.overflow = true ↔ ¬target.Has v

/-- A word that stands for the number of an unsigned type beyond the numbers of signed words: only
the unsigned type of the width of a word has it. -/
theorem has_toNat_iff (ht : target.HasWidth) (hhigh : 2 ^ 63 ≤ w.toNat) :
    target.Has w.toNat ↔ target.signed = false ∧ 64 ≤ target.bits := by
  have hlt := w.toNat_lt
  have hpow := ht.pow_le
  have hhalf := ht.half_pow
  cases hs : target.signed
  · rw [has_of_unsigned hs, and_iff_right rfl]
    rcases ht.bits_le.lt_or_eq with hbits | hbits
    · have hnarrow := ht.narrow hbits
      omega
    · rw [hbits]
      omega
  · rw [has_of_signed hs]
    refine iff_of_false ?_ (by simp)
    omega

/-- An unsigned value that no unsigned type of the width of a word is needed for is a signed word
too. -/
theorem signedValue_of_unsigned (h : k.HasWidth) (hw : k.Normal w) (hs : k.signed = false)
    (hsmall : ¬(64 ≤ k.bits ∧ signedValue w < 0)) : signedValue w = w.toNat := by
  have hcases := signedValue_cases w
  have hlt := w.toNat_lt
  by_cases hbits : k.bits < 64
  · have hx := has_toInt h hw
    have hnarrow := h.narrow hbits
    rw [has_of_unsigned hs, toInt_of_unsigned hs] at hx
    omega
  · omega

/-- Away from the widest unsigned types, the target has the number of a word read as its own exactly
if it has the number of the word. -/
theorem has_toInt_iff (h : k.HasWidth) (ht : target.HasWidth) (hw : k.Normal w)
    (hsource : ¬(k.signed = false ∧ 64 ≤ k.bits ∧ signedValue w < 0))
    (htarget : ¬(target.signed = false ∧ 64 ≤ target.bits)) :
    target.Has (target.toInt w) ↔ target.Has (k.toInt w) := by
  have hcases := signedValue_cases w
  have hlt := w.toNat_lt
  cases hs : k.signed <;> cases hts : target.signed
  · rw [toInt_of_unsigned hs, toInt_of_unsigned hts]
  · have hsame := signedValue_of_unsigned h hw hs fun hwide => hsource ⟨hs, hwide⟩
    rw [toInt_of_unsigned hs, toInt_of_signed hts, hsame]
  · have hnarrow := ht.narrow (by by_contra hbits; exact htarget ⟨hts, by omega⟩)
    rw [toInt_of_signed hs, toInt_of_unsigned hts, has_of_unsigned hts, has_of_unsigned hts]
    omega
  · rw [toInt_of_signed hs, toInt_of_signed hts]

theorem casts_cast (h : k.HasWidth) (ht : target.HasWidth) (hw : k.Normal w) :
    target.Casts (k.cast target w) (k.toInt w) := by
  have hcases := signedValue_cases w
  have hlt := w.toNat_lt
  have hvalue : target.IsWordOf (target.normalize w) (k.toInt w) :=
    isWordOf_normalize ht (toInt_modEq k w).symm
  unfold cast
  dsimp only
  split
  next hsource =>
    obtain ⟨⟨hs, hbits⟩, hneg⟩ : (k.signed = false ∧ 64 ≤ k.bits) ∧ signedValue w < 0 := by
      simpa using hsource
    refine ⟨hvalue, ?_⟩
    rw [toInt_of_unsigned hs, has_toNat_iff ht (by omega)]
    cases target.signed <;> simp
  next hsource =>
    have hsource' : ¬(k.signed = false ∧ 64 ≤ k.bits ∧ signedValue w < 0) := by
      simpa [and_assoc] using hsource
    split
    next hword =>
      obtain ⟨hts, hbits⟩ : target.signed = false ∧ 64 ≤ target.bits := by simpa using hword
      refine ⟨hvalue, ?_⟩
      rw [decide_eq_true_iff, has_of_unsigned hts, le_antisymm ht.bits_le hbits]
      cases hs : k.signed
      · have hsame := signedValue_of_unsigned h hw hs fun hwide => hsource' ⟨hs, hwide⟩
        rw [toInt_of_unsigned hs]
        omega
      · rw [toInt_of_signed hs]
        omega
    next hword =>
      have hword' : ¬(target.signed = false ∧ 64 ≤ target.bits) := by simpa using hword
      refine ⟨hvalue, ?_⟩
      rw [← has_toInt_iff h ht hw hsource' hword', ← normal_iff ht]
      simp [Normal]

/-! ## Arithmetic as a whole -/

/-- Operations, shifts, saturation, comparison and conversion on normal words do what they say on
the numbers that the words stand for, and every word that they return is normal. -/
theorem arithmetic_exact (h : k.HasWidth) (ht : target.HasWidth) (ha : k.Normal a)
    (hb : k.Normal b) :
    (∀ op v, op.trueResult? (k.toInt a) (k.toInt b) = some v → k.Computes (k.eval op a b) v) ∧
      k.Shifts (k.eval .shl a b) (k.toInt b) (k.toInt a * 2 ^ (k.toInt b).toNat) ∧
      k.Shifts (k.eval .shr a b) (k.toInt b) (k.toInt a / 2 ^ (k.toInt b).toNat) ∧
      (∀ op v, op.trueResult? (k.toInt a) (k.toInt b) = some v →
        k.toInt (k.evalSaturating op a b) = k.clamp v) ∧
      ((k.compare a b = .lt ↔ k.toInt a < k.toInt b) ∧
        (k.compare a b = .eq ↔ k.toInt a = k.toInt b) ∧
        (k.compare a b = .gt ↔ k.toInt b < k.toInt a)) ∧
      target.Casts (k.cast target a) (k.toInt a) ∧
      (∀ op, k.Normal (k.eval op a b).value ∧ k.Normal (k.evalSaturating op a b)) := by
  refine ⟨fun op v hv => computes_eval h ha hb hv, shifts_shl h a b, shifts_shr h ha b,
    fun op v hv => toInt_evalSaturating h ha hb hv, ?_, casts_cast h ht ha,
    fun op => ⟨normal_eval h ha hb op, normal_evalSaturating h ha hb op⟩⟩
  unfold compare
  exact ⟨compare_lt_iff_lt, compare_eq_iff_eq, compare_gt_iff_gt⟩

/-- The least signed number of eight bits by minus one: the quotient does not fit, saturates, and
the dividend has no unsigned counterpart. -/
theorem arithmetic_exact_least_by_minus_one :
    let k : IntKind := ⟨true, 8⟩
    let a := wordOfInt (-128)
    let b := wordOfInt (-1)
    k.HasWidth ∧ k.Normal a ∧ k.Normal b ∧ k.Computes (k.eval .div a b) 128 ∧ ¬k.Has 128 ∧
      k.toInt (k.evalSaturating .div a b) = 127 ∧
      IntKind.Casts ⟨false, 8⟩ (k.cast ⟨false, 8⟩ a) (-128) := by
  intro k a b
  have hk : k.HasWidth := by decide
  have ha : k.Normal a := by decide
  have hb : k.Normal b := by decide
  obtain ⟨hcomputes, -, -, hsaturates, -, hcasts, -⟩ :=
    arithmetic_exact hk (show IntKind.HasWidth ⟨false, 8⟩ by decide) ha hb
  exact ⟨hk, ha, hb, hcomputes .div 128 (by decide),
    by decide, hsaturates .div 128 (by decide), hcasts⟩

end IntKind

end ContractCompiler
