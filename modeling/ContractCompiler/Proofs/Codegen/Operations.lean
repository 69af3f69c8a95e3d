import ContractCompiler.Proofs.Codegen.Arith
import ContractCompiler.Proofs.Codegen.ArithWalk

/-!
# The code of operations

The code of the operations on words does what the operations do, wherever the operands live: a
constant is pushed anew, a slot is read, and a value on the stack is there already.

- `FunctionContext.Located`: where the word of an operand is;
- `FunctionContext.operation?`: what an instruction that operates on words amounts to;
- `FunctionContext.follows_binary`, `FunctionContext.follows_neg`, `FunctionContext.follows_cast`:
  the code of an instruction without the end that puts the result into its place, and
  `FunctionContext.follows_operation` for all of them.
-/

namespace ContractCompiler.Codegen

open Ssa (ValueId)
open Vm (flagWord)

namespace FunctionContext

variable {cx : FunctionContext} {link : Linkage} {locals : Array UInt64} {memory : Vm.Memory}
  {v left right src : ValueId}
  {a b w p : UInt64} {mode : ArithMode} {o : BinOp}

/-! ## Operands -/

/-- The word of an operand is where the operand lives; that of an operand on the stack is looked for
there. -/
structure Located (cx : FunctionContext) (locals : Array UInt64) (v : ValueId)
    (w : UInt64) : Prop where
  value : v < cx.module.values.size
  const : cx.plan.home v = .const → cx.module.constWord? v = some w
  slot : ∀ n, cx.plan.home v = .slot n → n < cx.plan.numSlots ∧ Holds locals n w
  lives : cx.plan.home v ≠ .none

/-- The words of an operand that are on the stack before it is used. -/
def heldWords (cx : FunctionContext) (v : ValueId) (w : UInt64) : List UInt64 :=
  if cx.plan.home v = .stack then [w] else []

theorem constant_of_constWord? (h : cx.module.constWord? v = some w) : cx.constant v = [lit w] := by
  obtain ⟨inst, hdef, hword⟩ := Option.bind_eq_some_iff.mp h
  unfold constant
  rw [hdef]
  obtain ⟨data, type, result, span⟩ := inst
  cases data <;> cases hword <;> rfl

theorem pushesWord_push (hv : cx.Located locals v w) (hhome : cx.plan.home v ≠ .stack) :
    PushesWord link cx.plan.numSlots locals (cx.push v) w := by
  unfold push
  rw [if_neg (Nat.not_le.mpr hv.value)]
  cases hplace : cx.plan.home v with
  | const =>
    show PushesWord link cx.plan.numSlots locals (cx.constant v) w
    rw [constant_of_constWord? (hv.const hplace)]
    exact pushesWord_lit link _ _ w
  | stack => exact absurd hplace hhome
  | slot n =>
    obtain ⟨hlt, hslot⟩ := hv.slot n hplace
    exact pushesWord_get link hlt hslot
  | none => exact absurd hplace hv.lives

/-- The first operand of an instruction may be on the stack already. -/
theorem walk_first (hv : cx.Located locals v w) {rest : List Item} :
    walk link [] (cx.push v ++ rest) none ⟨cx.heldWords v w, locals, memory⟩ =
      walk link [] rest none ⟨[w], locals, memory⟩ := by
  unfold heldWords
  by_cases hhome : cx.plan.home v = .stack
  · have hpush : cx.push v = [] := by
      unfold push
      rw [if_neg (Nat.not_le.mpr hv.value), hhome]
    rw [hpush, if_pos hhome]
    rfl
  · rw [if_neg hhome]
    exact (pushesWord_push hv hhome).push (.refl _ _) (by simp)

/-- There are slots for the values and as many others as given. -/
structure Room (cx : FunctionContext) (locals : Array UInt64) (scratch : Nat) : Prop where
  fits : cx.plan.numSlots + scratch ≤ locals.size
  small : locals.size ≤ 2 ^ 64

theorem Room.slotIn {n k : Nat} (h : cx.Room locals n) (hk : k < n) :
    SlotIn locals (cx.temp k) := by
  have hfits := h.fits
  have hsmall := h.small
  unfold temp
  exact ⟨by omega, by omega⟩

/-! ## Operations in two parts -/

theorem follows_checkedArith {k : IntKind} {leftCode rightCode : List Item} {aop : ArithOp}
    (hk : k.HasWidth) (hleft : PushesWord link cx.plan.numSlots locals leftCode a)
    (hright : PushesWord link cx.plan.numSlots locals rightCode b) (ha : k.Normal a)
    (hb : k.Normal b) (ho : o.arith? = some aop) (hbitwise : o.isBitwise = false) (mode : ArithMode)
    (result : Option ValueId)
    (hroom : cx.Room locals (cx.checkedArith o mode k leftCode rightCode result).scratch)
    (hheap : mode = .checked → HeapRoom memory p) :
    ∃ code, (cx.checkedArith o mode k leftCode rightCode result).items = code ++ cx.define result ∧
      Follows link cx.plan.numSlots ⟨[], locals, memory⟩ code p (mode == .checked)
        (foldArith aop mode k a b) := by
  let x : ArithInput := { kind := k, left := leftCode, right := rightCode, result := cx.temp 0,
                          overflow := cx.temp 1 }
  have hscratch : (cx.checkedArith o mode k leftCode rightCode result).scratch =
      if mode = .checked then 2 + x.exactScratch o + 2 else 2 + x.exactScratch o := rfl
  have hused :
      2 + x.exactScratch o ≤ (cx.checkedArith o mode k leftCode rightCode result).scratch := by
    rw [hscratch]
    split <;> omega
  have hlt : ∀ {m n}, m < n → cx.temp m ≠ cx.temp n := fun hmn => by
    unfold temp
    omega
  have hspare {n : Nat} (hn : n < (cx.checkedArith o mode k leftCode rightCode result).scratch)
      (hpos : 0 < n) :
      x.Spare cx.plan.numSlots locals (cx.temp n) :=
    ⟨hroom.slotIn hn, Nat.le_add_right _ _, (hlt hpos).symm⟩
  have hx : x.Ready link cx.plan.numSlots locals a b :=
    { width := hk, left := hleft, right := hright, normal_left := ha, normal_right := hb
      result := hroom.slotIn (by omega), overflow := hroom.slotIn (by omega)
      le_result := Nat.le_add_right _ _, le_overflow := Nat.le_add_right _ _, apart :=
      hlt (by decide) }
  refine ⟨_, rfl, ArithInput.follows_arith hx ho hbitwise mode
    (fun hne => hspare (by omega) (by decide)) fun hchecked => ?_⟩
  rw [if_pos hchecked] at hscratch
  have hcell : x.Spare cx.plan.numSlots locals (cx.temp (2 + x.exactScratch o)) :=
    hspare (by omega) (by omega)
  have hnext : x.Spare cx.plan.numSlots locals (cx.temp (2 + x.exactScratch o + 1)) :=
    hspare (by omega) (by omega)
  exact ⟨hheap hchecked, hcell, hnext, (hlt (show 1 < 2 + x.exactScratch o by omega)).symm,
    (hlt (show 1 < 2 + x.exactScratch o + 1 by omega)).symm⟩

/-! ## Operations on the stack -/

/-- An operation that leaves a word, whatever it is that pushes its operands. -/
theorem pops_direct {code : List Item} (hleft : cx.Located locals left a)
    (hright : cx.Located locals right b) (hhome : cx.plan.home right ≠ .stack)
    (hcode : ∀ rest, walk link [] (code ++ rest) none ⟨[b, a], locals, memory⟩ =
      walk link [] rest none ⟨[w], locals, memory⟩) :
    Pops link cx.plan.numSlots ⟨cx.heldWords left a, locals, memory⟩
      (cx.push left ++ cx.push right ++ code) w memory := by
  refine ⟨locals, [], .refl _ _, fun rest => ?_⟩
  rw [List.append_assoc, List.append_assoc, walk_first hleft,
    (pushesWord_push hright hhome).push (.refl _ _) (by simp [depth]), hcode]

/-- The orders of words are those of the numbers that they stand for. -/
theorem toInt_order (k : IntKind) (a b : UInt64) :
    (k.signed = true → (a.toInt64 < b.toInt64 ↔ k.toInt a < k.toInt b) ∧
      (a.toInt64 ≤ b.toInt64 ↔ k.toInt a ≤ k.toInt b)) ∧
      (k.signed = false → (a < b ↔ k.toInt a < k.toInt b) ∧ (a ≤ b ↔ k.toInt a ≤ k.toInt b)) := by
  constructor
  · intro hs
    rw [IntKind.toInt_of_signed hs, IntKind.toInt_of_signed hs]
    exact ⟨toInt64_lt_iff a b, toInt64_le_iff a b⟩
  · intro hs
    rw [IntKind.toInt_of_unsigned hs, IntKind.toInt_of_unsigned hs, Int.ofNat_lt, Int.ofNat_le]
    exact ⟨UInt64.lt_iff_toNat_lt, UInt64.le_iff_toNat_le⟩

theorem holds_compare (k : IntKind) (a b : UInt64) :
    BinOp.holds .eq (k.compare a b) = (a == b) ∧ BinOp.holds .ne (k.compare a b) = (a != b) ∧
      BinOp.holds .lt (k.compare a b) = decide (k.toInt a < k.toInt b) ∧
      BinOp.holds .le (k.compare a b) = decide (k.toInt a ≤ k.toInt b) ∧
      BinOp.holds .gt (k.compare a b) = decide (k.toInt b < k.toInt a) ∧
      BinOp.holds .ge (k.compare a b) = decide (k.toInt b ≤ k.toInt a) := by
  have hinj : a = b ↔ k.toInt a = k.toInt b := ⟨congrArg k.toInt, IntKind.toInt_inj⟩
  rcases lt_trichotomy (k.toInt a) (k.toInt b) with h | h | h
  · have hcompare : k.compare a b = .lt := compare_lt_iff_lt.mpr h
    have hne : a ≠ b := fun heq => h.ne (hinj.mp heq)
    simp [hcompare, BinOp.holds, hne, h, h.le, h.not_gt, h.not_ge]
  · have hcompare : k.compare a b = .eq := compare_eq_iff_eq.mpr h
    have heq : (a == b) = true := beq_iff_eq.mpr (hinj.mpr h)
    have hne : (a != b) = false := by rw [bne, heq, Bool.not_true]
    rw [heq, hne, hcompare, h]
    simp [BinOp.holds]
  · have hcompare : k.compare a b = .gt := compare_gt_iff_gt.mpr h
    have hne : a ≠ b := fun heq => h.ne' (hinj.mp heq)
    simp [hcompare, BinOp.holds, hne, h, h.le, h.not_gt, h.not_ge]

/-- Comparisons of words are those of the numbers that they stand for. -/
theorem compareOp_eq (ho : o.isCompare = true) (k : IntKind) (a b : UInt64) :
    ∃ f, (compareOp o k.signed).binary? = some f ∧
      f a b = .ok (wordOfBool (o.holds (k.compare a b))) := by
  obtain ⟨heq, hne, hlt, hle, hgt, hge⟩ := holds_compare k a b
  cases o with
  | eq => exact ⟨_, rfl, by rw [heq]; rfl⟩
  | ne => exact ⟨_, rfl, by rw [hne]; rfl⟩
  | lt =>
    rw [hlt]
    cases hs : k.signed
    · exact ⟨_, rfl, congrArg (fun c => Except.ok (flagWord c))
        (decide_eq_decide.mpr ((toInt_order k a b).2 hs).1)⟩
    · exact ⟨_, rfl, congrArg (fun c => Except.ok (flagWord c))
        (decide_eq_decide.mpr ((toInt_order k a b).1 hs).1)⟩
  | le =>
    rw [hle]
    cases hs : k.signed
    · exact ⟨_, rfl, congrArg (fun c => Except.ok (flagWord c))
        (decide_eq_decide.mpr ((toInt_order k a b).2 hs).2)⟩
    · exact ⟨_, rfl, congrArg (fun c => Except.ok (flagWord c))
        (decide_eq_decide.mpr ((toInt_order k a b).1 hs).2)⟩
  | gt =>
    rw [hgt]
    cases hs : k.signed
    · exact ⟨_, rfl, congrArg (fun c => Except.ok (flagWord c))
        (decide_eq_decide.mpr ((toInt_order k b a).2 hs).1)⟩
    · exact ⟨_, rfl, congrArg (fun c => Except.ok (flagWord c))
        (decide_eq_decide.mpr ((toInt_order k b a).1 hs).1)⟩
  | ge =>
    rw [hge]
    cases hs : k.signed
    · exact ⟨_, rfl, congrArg (fun c => Except.ok (flagWord c))
        (decide_eq_decide.mpr ((toInt_order k b a).2 hs).2)⟩
    · exact ⟨_, rfl, congrArg (fun c => Except.ok (flagWord c))
        (decide_eq_decide.mpr ((toInt_order k b a).1 hs).2)⟩
  | _ => cases ho

theorem wordOp_bitwise (ho : o.isBitwise = true) {k : IntKind} (hk : k.HasWidth) (ha : k.Normal a)
    (hb : k.Normal b) :
    ∃ f aop, o.arith? = some aop ∧ (wordOp o k.signed).binary? = some f ∧
      f a b = .ok (k.eval aop a b).value := by
  obtain ⟨hand, hor, hxor⟩ := IntKind.normal_bitwise hk ha hb
  cases o with
  | and => exact ⟨_, .and, rfl, rfl, congrArg Except.ok hand.symm⟩
  | or => exact ⟨_, .or, rfl, rfl, congrArg Except.ok hor.symm⟩
  | xor => exact ⟨_, .xor, rfl, rfl, congrArg Except.ok hxor.symm⟩
  | _ => cases ho

section Direct

variable {k : IntKind} {aop : ArithOp} {rest : List Item}

/-- An operation on the stack whose result is normalised. -/
theorem walk_normalized (hk : k.HasWidth) {vo : Vm.Op}
    {f : UInt64 → UInt64 → Except TrapCode UInt64} (hop : vo.binary? = some f) (hf : f a b = .ok w)
    {out : ArithOutcome} {v : Int} (hout : k.Computes out v)
    (hw : (w.toNat : Int) ≡ v [ZMOD 2 ^ 64]) :
    walk link [] (op vo :: (normalize k ++ rest)) none ⟨[b, a], locals, memory⟩ =
      walk link [] rest none ⟨[out.value], locals, memory⟩ := by
  rw [walk_op hop hf (by simp [depth]), walk_normalize k (by simp [depth]), hout.value_eq hk hw]

theorem walk_directArith (hk : k.HasWidth) (ha : k.Normal a) (hb : k.Normal b)
    (ho : o.arith? = some aop) (hbitwise : o.isBitwise = false) (hdiv : o ≠ .div)
    (hzero : o = .rem → b ≠ 0) :
    walk link [] (directArith o k ++ rest) none ⟨[b, a], locals, memory⟩ =
      walk link [] rest none ⟨[(k.eval aop a b).value], locals, memory⟩ := by
  obtain ⟨hadd, hsub, hmul⟩ := IntKind.computes_exact hk ha hb
  have hmask (tail : List Item) :
      walk link [] (ArithInput.shiftMask k :: op .and :: tail) none ⟨[b, a], locals, memory⟩ =
      walk link [] tail none ⟨[k.shiftAmount b, a], locals, memory⟩ := by
    rw [ArithInput.shiftMask, walk_lit _ (by simp [depth]),
      walk_op (o := .and) rfl rfl (by simp [depth]), IntKind.shiftAmount_eq_and hk]
  cases o with
  | add =>
    obtain rfl := Option.some.inj ho
    exact walk_normalized hk (f := fun a b => .ok (a + b)) rfl rfl hadd (IntKind.add_modEq k a b)
  | sub =>
    obtain rfl := Option.some.inj ho
    exact walk_normalized hk (f := fun a b => .ok (a - b)) rfl rfl hsub (IntKind.sub_modEq k a b)
  | mul =>
    obtain rfl := Option.some.inj ho
    exact walk_normalized hk (f := fun a b => .ok (a * b)) rfl rfl hmul (IntKind.mul_modEq k a b)
  | div => exact absurd rfl hdiv
  | rem =>
    obtain rfl := Option.some.inj ho
    obtain ⟨f, hop, hf⟩ : ∃ f, (wordOp .rem k.signed).binary? = some f ∧
        f a b = .ok (k.evalRem a b).value := by
      cases hs : k.signed
      · refine ⟨_, rfl, ?_⟩
        unfold IntKind.evalRem
        rw [if_neg (hzero rfl), if_neg (hzero rfl), hs, if_neg Bool.false_ne_true]
      · exact ⟨_, rfl, IntKind.remSigned_eq_evalRem hk hs ha hb (hzero rfl)⟩
    exact walk_op hop hf (by simp [depth])
  | shl =>
    obtain rfl := Option.some.inj ho
    show walk link [] (ArithInput.shiftMask k :: op .and :: op .shl :: (normalize k ++ rest))
      none _ = _
    rw [hmask, walk_op (o := .shl) rfl rfl (by simp [depth]), walk_normalize k (by simp [depth])]
    rfl
  | shr =>
    obtain rfl := Option.some.inj ho
    obtain ⟨f, hop, hf⟩ := ArithInput.wordOp_shr hk ha b
    show walk link [] (ArithInput.shiftMask k :: op .and :: op (wordOp .shr k.signed) :: rest)
      none _ = _
    rw [hmask, walk_op hop hf (by simp [depth])]
  | and | or | xor => cases hbitwise
  | _ => cases ho

end Direct

/-! ## Instructions -/

/-- Whether a binary operation has a result that may be an error. -/
def yieldsCell (o : BinOp) (mode : ArithMode) : Bool :=
  mode == .checked && !(o.isCompare || o.isBitwise)

/-- A remainder always fits. -/
theorem foldArith_rem (hmode : mode ≠ .checked) (k : IntKind) (a b : UInt64) :
    foldArith .rem mode k a b = if b = 0 then .divByZero else .value (k.eval .rem a b).value := by
  have heval : k.eval .rem a b = k.evalRem a b := rfl
  unfold foldArith IntKind.evalSaturating
  rw [heval]
  unfold IntKind.evalRem
  by_cases hb : b = 0
  · rw [if_pos hb, if_pos hb]
    cases mode <;> first | rfl | exact absurd rfl hmode
  · rw [if_neg hb, if_neg hb]
    cases k.signed <;> cases mode <;> rfl

/-- An operation on the stack does what the operation does in its mode. -/
theorem follows_directArith {aop : ArithOp} (hk : (cx.kind left).HasWidth)
    (hleft : cx.Located locals left a) (hright : cx.Located locals right b)
    (hhome : cx.plan.home right ≠ .stack) (ha : (cx.kind left).Normal a)
    (hb : (cx.kind left).Normal b) (ho : o.arith? = some aop) (hbitwise : o.isBitwise = false)
    (hform : (o = .rem ∧ mode ≠ .checked) ∨ (mode = .wrapping ∧ o ≠ .div)) :
    Follows link cx.plan.numSlots ⟨cx.heldWords left a, locals, memory⟩
      (cx.push left ++ cx.push right ++ directArith o (cx.kind left)) p false
        (foldArith aop mode (cx.kind left) a b) := by
  have hdiv : o ≠ .div := by
    rcases hform with ⟨rfl, -⟩ | ⟨-, hdiv⟩
    · decide
    · exact hdiv
  have hvalue (hzero : o = .rem → b ≠ 0) :
      Pops link cx.plan.numSlots ⟨cx.heldWords left a, locals, memory⟩
      (cx.push left ++ cx.push right ++ directArith o (cx.kind left))
        ((cx.kind left).eval aop a b).value memory :=
    pops_direct hleft hright hhome fun rest => walk_directArith hk ha hb ho hbitwise hdiv hzero
  by_cases hrem : o = .rem
  · subst hrem
    obtain rfl := Option.some.inj ho
    have hmode : mode ≠ .checked := by
      rcases hform with ⟨-, hmode⟩ | ⟨rfl, -⟩
      · exact hmode
      · decide
    rw [foldArith_rem hmode]
    by_cases hb : b = 0
    · rw [if_pos hb]
      intro rest
      obtain ⟨f, hop, hf⟩ : ∃ f, (wordOp .rem (cx.kind left).signed).binary? = some f ∧
          f a b = .error .divByZero := by
        cases (cx.kind left).signed
        · exact ⟨_, rfl, if_pos hb⟩
        · exact ⟨_, rfl, if_pos hb⟩
      rw [List.append_assoc, List.append_assoc, walk_first hleft,
        (pushesWord_push hright hhome).push (.refl _ _) (by simp [depth])]
      show walk link [] (op (wordOp .rem (cx.kind left).signed) :: rest) none _ = _
      rw [walk_binary hop (by simp [depth]), hf]
    · rw [if_neg hb]
      exact hvalue fun _ => hb
  · obtain ⟨rfl, -⟩ := hform.resolve_left fun hyes => hrem hyes.1
    have hfold : foldArith aop .wrapping (cx.kind left) a b =
        .value ((cx.kind left).eval aop a b).value := by
      cases o <;> cases ho <;> first | rfl | exact absurd rfl hrem | exact absurd rfl hdiv
    rw [hfold]
    exact hvalue fun hyes => absurd hyes hrem

/-- The code of a binary operation does what the operation does. -/
theorem follows_binary (hk : (cx.kind left).HasWidth) (hleft : cx.Located locals left a)
    (hright : cx.Located locals right b) (ha : (cx.kind left).Normal a)
    (hb : (cx.kind left).Normal b)
    (htakes : cx.Takes [left, right] (Ssa.InstData.binary o mode left right).stackOperand?)
    (result : Option ValueId) (hroom : cx.Room locals (cx.binary o mode left right result).scratch)
    (hheap : yieldsCell o mode = true → HeapRoom memory p) :
    ∃ code, (cx.binary o mode left right result).items = code ++ cx.define result ∧
      Follows link cx.plan.numSlots ⟨cx.heldWords left a, locals, memory⟩ code p (yieldsCell o mode)
        (foldBinOp o mode (cx.kind left) a b) := by
  have hwidth : (cx.kind left).bits ≠ 0 := hk.bits_pos.ne'
  -- only the first operand can be on the stack
  have hhome : cx.plan.home right ≠ .stack := by
    intro hhome
    obtain ⟨htaken, hcount⟩ := htakes right (by simp) hhome
    have hsame : left = right := by
      rcases stackOperand?_binary o mode left right with hstack | hstack
      · exact Option.some.inj (hstack.symm.trans htaken)
      · cases hstack.symm.trans htaken
    rw [hsame] at hcount
    simp at hcount
  unfold binary at hroom ⊢
  dsimp only at hroom ⊢
  rw [if_neg hwidth] at hroom ⊢
  by_cases hcompare : o.isCompare = true
  · obtain ⟨f, hop, hf⟩ := compareOp_eq hcompare (cx.kind left) a b
    have hfold : foldBinOp o mode (cx.kind left) a b =
        .value (wordOfBool (o.holds ((cx.kind left).compare a b))) := by
      unfold foldBinOp
      cases o <;> first | rfl | cases hcompare
    rw [if_pos hcompare, hfold, yieldsCell, hcompare, Bool.true_or, Bool.not_true, Bool.and_false]
    exact ⟨_, rfl, pops_direct hleft hright hhome fun rest => walk_op hop hf (by simp [depth])⟩
  · rw [if_neg hcompare] at hroom ⊢
    by_cases hbitwise : o.isBitwise = true
    · obtain ⟨f, aop, ho, hop, hf⟩ := wordOp_bitwise hbitwise hk ha hb
      have hfold : foldBinOp o mode (cx.kind left) a b =
          .value ((cx.kind left).eval aop a b).value := by
        unfold foldBinOp
        rw [ho]
        exact if_pos hbitwise
      rw [if_pos hbitwise, hfold, yieldsCell, hbitwise, Bool.or_true, Bool.not_true, Bool.and_false]
      exact ⟨_, rfl, pops_direct hleft hright hhome fun rest => walk_op hop hf (by simp [depth])⟩
    · rw [if_neg hbitwise] at hroom ⊢
      have hcell : yieldsCell o mode = (mode == .checked) := by
        rw [yieldsCell, Bool.eq_false_iff.mpr hcompare, Bool.eq_false_iff.mpr hbitwise]
        exact Bool.and_true _
      obtain ⟨aop, ho⟩ : ∃ aop, o.arith? = some aop := by
        cases o <;> first | exact ⟨_, rfl⟩ | exact absurd rfl hcompare
      have hfold : foldBinOp o mode (cx.kind left) a b = foldArith aop mode (cx.kind left) a b := by
        unfold foldBinOp
        rw [ho]
        exact if_neg hbitwise
      rw [hcell] at hheap ⊢
      rw [hfold]
      by_cases hstack : (Ssa.InstData.binary o mode left right).stackOperand?.isSome = true
      · have hform : (o = .rem ∧ mode ≠ .checked) ∨ (mode = .wrapping ∧ o ≠ .div) := by
          unfold Ssa.InstData.stackOperand? at hstack
          dsimp only at hstack
          rw [Bool.eq_false_iff.mpr hcompare, Bool.eq_false_iff.mpr hbitwise, Bool.or_false,
            if_neg Bool.false_ne_true] at hstack
          split at hstack
          · rename_i hrem
            exact .inl (by simpa using hrem)
          · split at hstack
            · rename_i hwraps
              exact .inr (by simpa using hwraps)
            · cases hstack
        have hmode : (mode == .checked) = false := by
          rcases hform with ⟨-, hmode⟩ | ⟨rfl, -⟩
          · exact beq_eq_false_iff_ne.mpr hmode
          · rfl
        rw [if_pos hstack, hmode]
        exact ⟨_, rfl, follows_directArith hk hleft hright hhome ha hb ho
          (Bool.eq_false_iff.mpr hbitwise) hform⟩
      · rw [if_neg hstack] at hroom ⊢
        have hleft' : cx.plan.home left ≠ .stack := by
          rw [Option.not_isSome_iff_eq_none] at hstack
          rw [hstack] at htakes
          exact htakes.home_of_none (by simp)
        have hheld : cx.heldWords left a = [] := if_neg hleft'
        rw [hheld]
        exact follows_checkedArith hk (pushesWord_push hleft hleft')
          (pushesWord_push hright hhome) ha hb ho
          (Bool.eq_false_iff.mpr hbitwise) mode result hroom fun hmode =>
            hheap (beq_iff_eq.mpr hmode)

theorem follows_not (mode : ArithMode) (hsrc : cx.Located locals src a) (result : Option ValueId) :
    ∃ code, (cx.unary .not mode src result).items = code ++ cx.define result ∧
      Follows link cx.plan.numSlots ⟨cx.heldWords src a, locals, memory⟩ code p false
        (.value (a ^^^ 1)) := by
  refine ⟨_, rfl, locals, [], .refl _ _, fun rest => ?_⟩
  rw [List.append_assoc, walk_first hsrc]
  show walk link [] (lit 1 :: op .xor :: rest) none _ = _
  rw [walk_lit 1 (by simp [depth]), walk_op (o := .xor) rfl rfl (by simp [depth])]

theorem follows_bitNot (mode : ArithMode) (hsrc : cx.Located locals src a)
    (result : Option ValueId) :
    ∃ code, (cx.unary .bitNot mode src result).items = code ++ cx.define result ∧
      Follows link cx.plan.numSlots ⟨cx.heldWords src a, locals, memory⟩ code p false
        (.value ((cx.kind src).normalize (~~~a))) := by
  have hnot : a ^^^ wordOfInt (-1) = ~~~a := by
    have hminus : wordOfInt (-1) = -1 := by decide
    rw [hminus]
    exact UInt64.xor_neg_one
  refine ⟨_, rfl, locals, [], .refl _ _, fun rest => ?_⟩
  rw [List.append_assoc, List.append_assoc, walk_first hsrc, litInt]
  show walk link [] (lit (wordOfInt (-1)) :: op .xor :: (normalize (cx.kind src) ++ rest))
    none _ = _
  rw [walk_lit _ (by simp [depth]), walk_op (o := .xor) rfl rfl (by simp [depth]), hnot,
    walk_normalize _ (by simp [depth])]

/-- Arithmetic negation takes from zero. -/
theorem follows_neg (hk : (cx.kind src).HasWidth) (hsrc : cx.Located locals src a)
    (ha : (cx.kind src).Normal a)
    (htakes : cx.Takes [src] (Ssa.InstData.unary .neg mode src).stackOperand?)
    (result : Option ValueId) (hroom : cx.Room locals (cx.unary .neg mode src result).scratch)
    (hheap : mode = .checked → HeapRoom memory p) :
    ∃ code, (cx.unary .neg mode src result).items = code ++ cx.define result ∧
      Follows link cx.plan.numSlots ⟨cx.heldWords src a, locals, memory⟩ code p (mode == .checked)
        (foldNeg mode (cx.kind src) a) := by
  have hhome : cx.plan.home src ≠ .stack := htakes.home_of_none (by simp)
  have hheld : cx.heldWords src a = [] := if_neg hhome
  have hzero : (cx.kind src).Normal 0 :=
    (IntKind.normal_iff hk).mpr ((IntKind.toInt_eq_zero_iff _ 0).mpr rfl ▸ IntKind.has_zero hk)
  rw [hheld]
  exact follows_checkedArith hk (pushesWord_lit link _ _ 0) (pushesWord_push hsrc hhome)
    hzero ha rfl rfl mode result hroom hheap

/-! ## Conversions -/

/-- A conversion overflows if the target is the widest unsigned type and the value is negative, and
else if the value is beyond the signed words or normalising changes it. -/
theorem overflow_cast {source target : IntKind} (hs : source.HasWidth) (ha : source.Normal a) :
    (source.cast target a).overflow =
      bif !target.signed && decide (64 ≤ target.bits) then source.signed &&
      decide (signedValue a < 0)
      else (!source.signed && decide (64 ≤ source.bits) && decide (signedValue a < 0)) ||
      target.normalize a != a := by
  unfold IntKind.cast
  dsimp only
  by_cases hsource :
    (!source.signed && decide (64 ≤ source.bits) && decide (signedValue a < 0)) = true
  · have hunsigned : source.signed = false := by
      revert hsource
      cases source.signed <;> simp
    rw [if_pos hsource, hsource, hunsigned, Bool.true_or, Bool.false_and]
    cases !target.signed && decide (64 ≤ target.bits) <;> rfl
  · rw [if_neg hsource, Bool.eq_false_iff.mpr hsource, Bool.false_or]
    cases !target.signed && decide (64 ≤ target.bits)
    · rfl
    · show decide (signedValue a < 0) = (source.signed && decide (signedValue a < 0))
      cases hsigned : source.signed
      · -- only the values of the widest unsigned type look negative
        have hsame := IntKind.signedValue_of_unsigned hs ha hsigned fun hwide => hsource
            (by simp [hsigned, hwide])
        rw [Bool.false_and]
        exact decide_eq_false (by omega)
      · exact (Bool.true_and _).symm

/-- The check of a conversion gives up exactly if the target has not the value. -/
theorem walk_castCheck {source target : IntKind} (hs : source.HasWidth)
    (hsrc : PushesWord link cx.plan.numSlots locals (cx.push src) a) (ha : source.Normal a)
    {rest : List Item} :
    walk link [] (cx.castCheck source target src ++ rest) none ⟨[], locals, memory⟩ =
      if (source.cast target a).overflow then some (.goes (.failure .overflow) ⟨[], locals, memory⟩)
      else walk link [] rest none ⟨[], locals, memory⟩ := by
  have hkeeps := Keeps.refl cx.plan.numSlots locals
  have hnegative (tail : List Item) :
      walk link [] (cx.push src ++ lit 0 :: op .ltS :: failIf .overflow :: tail) none
      ⟨[], locals, memory⟩ = if decide (signedValue a < 0) then some
        (.goes (.failure .overflow) ⟨[], locals, memory⟩)
        else walk link [] tail none ⟨[], locals, memory⟩ := by
    rw [hsrc.push hkeeps (by simp), ArithInput.walk_ltS_zero (by simp [depth]),
      walk_failIf _ _ (by simp [depth])]
  have hchanged (tail : List Item) :
      walk link [] (cx.push src ++ (normalize target ++ (cx.push src ++
      op .ne :: failIf .overflow :: tail))) none ⟨[], locals, memory⟩ =
        if target.normalize a != a then some (.goes (.failure .overflow) ⟨[], locals, memory⟩)
        else walk link [] tail none ⟨[], locals, memory⟩ := by
    rw [hsrc.push hkeeps (by simp), walk_normalize _ (by simp [depth]),
      hsrc.push hkeeps (by simp [depth]), walk_op (o := .ne) rfl rfl (by simp [depth]),
      walk_failIf _ _ (by simp [depth])]
  rw [overflow_cast hs ha]
  unfold castCheck
  dsimp only
  rw [List.cons_append, walk_needs]
  by_cases hword : (!target.signed && decide (64 ≤ target.bits)) = true
  · rw [if_pos hword, hword, cond_true]
    by_cases hsigned : source.signed = true
    · rw [if_pos hsigned, hsigned, Bool.true_and]
      simp only [List.append_assoc, List.cons_append, List.nil_append]
      exact hnegative rest
    · rw [if_neg hsigned, Bool.eq_false_iff.mpr hsigned]
      rfl
  · rw [if_neg hword, Bool.eq_false_iff.mpr hword, cond_false]
    by_cases hsource : (!source.signed && decide (64 ≤ source.bits)) = true
    · rw [if_pos hsource, hsource, Bool.true_and]
      simp only [List.append_assoc, List.cons_append, List.nil_append]
      rw [hnegative]
      cases decide (signedValue a < 0)
      · rw [if_neg Bool.false_ne_true, Bool.false_or]
        exact hchanged rest
      · rfl
    · rw [if_neg hsource, Bool.eq_false_iff.mpr hsource, Bool.false_and, Bool.false_or]
      simp only [List.append_assoc, List.cons_append, List.nil_append]
      exact hchanged rest

theorem follows_cast {type : TypeId} {mode : CastMode} (hs : (cx.kind src).HasWidth)
    (ht : (cx.types.intKind type).HasWidth) (hsrc : cx.Located locals src a)
    (ha : (cx.kind src).Normal a)
    (htakes : cx.Takes [src] (Ssa.InstData.cast mode type src).stackOperand?)
    (result : Option ValueId) :
    ∃ code, (cx.cast mode type src result).items = code ++ cx.define result ∧
      Follows link cx.plan.numSlots ⟨cx.heldWords src a, locals, memory⟩ code p false
        (foldCast mode (cx.kind src) (cx.types.intKind type) a) := by
  have hwidth : ¬((cx.kind src).bits = 0 ∨ (cx.types.intKind type).bits = 0) := by
    have hspos := hs.bits_pos
    have htpos := ht.bits_pos
    omega
  have hvalue : ((cx.kind src).cast (cx.types.intKind type) a).value =
      (cx.types.intKind type).normalize a := by
    unfold IntKind.cast
    dsimp only
    split
    · rfl
    · split <;> rfl
  unfold cast
  dsimp only
  rw [if_neg hwidth]
  have hfinish (rest : List Item) :
      walk link [] (normalize (cx.types.intKind type) ++ rest) none ⟨[a], locals, memory⟩ =
      walk link [] rest none ⟨[((cx.kind src).cast (cx.types.intKind type) a).value], locals,
        memory⟩ := by
    rw [walk_normalize _ (by simp [depth]), hvalue]
  cases mode with
  | wrapping =>
    refine ⟨_, rfl, locals, [], .refl _ _, fun rest => ?_⟩
    rw [if_neg (by decide), List.nil_append, List.append_assoc, walk_first hsrc, hfinish]
  | trap =>
    have hhome : cx.plan.home src ≠ .stack := htakes.home_of_none (by simp)
    have hheld : cx.heldWords src a = [] := if_neg hhome
    have hpush : PushesWord link cx.plan.numSlots locals (cx.push src) a :=
      pushesWord_push hsrc hhome
    refine ⟨_, rfl, ?_⟩
    rw [hheld, if_pos rfl]
    have hwalk (rest : List Item) :
          walk link [] (cx.castCheck (cx.kind src) (cx.types.intKind type) src ++ cx.push src
          ++ normalize (cx.types.intKind type) ++ rest) none ⟨[], locals, memory⟩ =
        if ((cx.kind src).cast (cx.types.intKind type) a).overflow then
          some (.goes (.failure .overflow) ⟨[], locals, memory⟩)
        else walk link [] rest none ⟨[((cx.kind src).cast (cx.types.intKind type) a).value], locals,
            memory⟩ := by
      rw [List.append_assoc, List.append_assoc, walk_castCheck hs hpush ha,
        hpush.push (.refl _ _) (by simp), hfinish]
    unfold foldCast
    dsimp only
    cases hover : ((cx.kind src).cast (cx.types.intKind type) a).overflow
    · rw [if_neg Bool.false_ne_true]
      refine ⟨locals, [], .refl _ _, fun rest => ?_⟩
      rw [hwalk, hover, if_neg Bool.false_ne_true]
    · rw [if_pos rfl]
      refine ⟨locals, fun rest => ?_⟩
      rw [hwalk, hover, if_pos rfl]

/-! ## All operations -/

/-- What an instruction that operates on words amounts to, given the words of values: the flag says
whether its result is the address of a cell with a status and a word. -/
def operation? (cx : FunctionContext) (word : ValueId → UInt64) :
    Ssa.InstData → Option (Bool × Folded)
  | .binary o mode left right =>
    some (yieldsCell o mode, foldBinOp o mode (cx.kind left) (word left) (word right))
  | .unary .not _ src => some (false, .value (wordOfBool (word src == 0)))
  | .unary .bitNot _ src => some (false, .value ((cx.kind src).normalize (~~~word src)))
  | .unary .neg mode src => some (mode == .checked, foldNeg mode (cx.kind src) (word src))
  | .cast mode type src =>
    some (false, foldCast mode (cx.kind src) (cx.types.intKind type) (word src))
  | _ => none

/-- The types of operands are integers, of which their words are normal words; the operand of `not`
is a truth value. -/
def NormalOperands (cx : FunctionContext) (word : ValueId → UInt64) : Ssa.InstData → Prop
  | .binary _ _ left right =>
    (cx.kind left).HasWidth ∧ (cx.kind left).Normal (word left) ∧ (cx.kind left).Normal (word right)
  | .unary .not _ src => ∃ c, word src = wordOfBool c
  | .unary _ _ src => (cx.kind src).HasWidth ∧ (cx.kind src).Normal (word src)
  | .cast _ type src =>
    (cx.kind src).HasWidth ∧ (cx.types.intKind type).HasWidth ∧ (cx.kind src).Normal (word src)
  | _ => True

/-- The operand of an instruction that is on the stack before it. -/
def heldOperand (cx : FunctionContext) (word : ValueId → UInt64) (data : Ssa.InstData) :
    List UInt64 :=
  (data.stackOperand?.map fun v => cx.heldWords v (word v)).getD []

/-- An operand that may be on the stack is there if it lives there. -/
theorem heldOperand_eq {word : ValueId → UInt64} {data : Ssa.InstData} (hv : v ∈ data.operands)
    (hstack : data.stackOperand? = some v ∨ data.stackOperand? = none)
    (htakes : cx.Takes data.operands data.stackOperand?) :
    cx.heldOperand word data = cx.heldWords v (word v) := by
  unfold heldOperand
  rcases hstack with hstack | hstack
  · rw [hstack]
    rfl
  · rw [hstack] at htakes ⊢
    exact (if_neg (htakes.home_of_none hv)).symm

/-- The code of an instruction that operates on words does what the operation does, and then puts
the result into its place. -/
theorem follows_operation [Hashing] {i : Ssa.Inst} {word : ValueId → UInt64} {cell : Bool}
    {folded : Folded} (hop : cx.operation? word i.data = some (cell, folded))
    (hlocated : ∀ v ∈ i.data.operands, cx.Located locals v (word v))
    (hnormal : cx.NormalOperands word i.data)
    (htakes : cx.Takes i.data.operands i.data.stackOperand?)
    (hroom : cx.Room locals (cx.inst i).scratch) (hheap : cell = true → HeapRoom memory p) :
    ∃ code, (cx.inst i).items = code ++ cx.define i.result ∧
      Follows link cx.plan.numSlots ⟨cx.heldOperand word i.data, locals, memory⟩ code p cell
        folded := by
  obtain ⟨data, effect, result, span⟩ := i
  dsimp only at hop hlocated hnormal htakes ⊢
  cases data with
  | binary o mode left right =>
    obtain ⟨hk, ha, hb⟩ := hnormal
    cases hop
    rw [heldOperand_eq (v := left) (List.mem_cons_self)
      (stackOperand?_binary o mode left right) htakes]
    exact follows_binary hk (hlocated left (by simp [Ssa.InstData.operands]))
      (hlocated right (by simp [Ssa.InstData.operands])) ha hb htakes result hroom hheap
  | unary o mode src =>
    have hsrc : src ∈ (Ssa.InstData.unary o mode src).operands := List.mem_singleton_self src
    have hstack : (Ssa.InstData.unary o mode src).stackOperand? = some src ∨
        (Ssa.InstData.unary o mode src).stackOperand? = none := by
      cases o
      · exact .inr rfl
      · exact .inl rfl
      · exact .inl rfl
    rw [heldOperand_eq hsrc hstack htakes]
    cases o with
    | not =>
      cases hop
      obtain ⟨c, hc⟩ := hnormal
      have hnot : wordOfBool (word src == 0) = word src ^^^ 1 := by
        rw [hc]
        cases c <;> rfl
      rw [hnot]
      exact follows_not mode (hlocated src hsrc) result
    | bitNot =>
      cases hop
      exact follows_bitNot mode (hlocated src hsrc) result
    | neg =>
      cases hop
      obtain ⟨hk, ha⟩ := hnormal
      exact follows_neg hk (hlocated src hsrc) ha htakes result hroom
        fun hmode => hheap (beq_iff_eq.mpr hmode)
  | cast mode type src =>
    have hsrc : src ∈ (Ssa.InstData.cast mode type src).operands := List.mem_singleton_self src
    have hstack : (Ssa.InstData.cast mode type src).stackOperand? = some src ∨
        (Ssa.InstData.cast mode type src).stackOperand? = none := by
      cases mode
      · exact .inr rfl
      · exact .inl rfl
    obtain ⟨hs, ht, ha⟩ := hnormal
    cases hop
    rw [heldOperand_eq hsrc hstack htakes]
    exact follows_cast hs ht (hlocated src hsrc) ha htakes result
  | _ => cases hop

end FunctionContext

end ContractCompiler.Codegen
