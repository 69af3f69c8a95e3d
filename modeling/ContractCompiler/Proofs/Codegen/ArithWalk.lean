import ContractCompiler.Proofs.Codegen.Walking

/-!
# Walking through arithmetic

The first part of an operation leaves in its slots the wrapped result and whether the true result
fits; the second does with them what the mode asks for. Both agree with what is computed for
constants.

- `ArithInput.Ready`: operands that push normal words, and slots for the result and the flag;
- `ArithInput.Leaves`: code that leaves a result and a flag;
- `ArithInput.leaves_narrow`, `ArithInput.leaves_wide`, `ArithInput.leaves_divide`,
  `ArithInput.leaves_shift`: one lemma for each form of the first part, and
  `ArithInput.leaves_exactArith` for all of them;
- `ArithInput.walk_finishArith`: the second part.
-/

namespace ContractCompiler.Codegen

open Vm (flagWord)

/-! ## What code may do -/

/-- The memory after a checked operation: a new cell holds a status and a word. -/
def checkedCell (memory : Vm.Memory) (p status w : UInt64) : Vm.Memory :=
  ((memory.set 0 (Bytes.littleEndian (p + 16))).set p.toNat (Bytes.littleEndian status)).set
    (p + 8).toNat (Bytes.littleEndian w)

/-- There is room for a cell at the end of the heap. -/
structure HeapRoom (memory : Vm.Memory) (p : UInt64) : Prop where
  heapEnd : heapEnd? memory = some p
  room : p.toNat + 16 ≤ memory.size
  small : p.toNat + 16 ≤ 2 ^ 64

theorem HeapRoom.toNat_add {memory : Vm.Memory} {p : UInt64} (h : HeapRoom memory p) :
    (p + 8).toNat = p.toNat + 8 := by
  have hsmall := h.small
  rw [UInt64.toNat_add]
  exact Nat.mod_eq_of_lt (by show p.toNat + 8 < 2 ^ 64; omega)

/-- Code that leaves a word on the stack, and the slots of values as they are. -/
def Pops (link : Linkage) (n : Nat) (before : Work) (items : List Item) (w : UInt64)
    (memory : Vm.Memory) : Prop :=
  ∃ locals seen, Keeps n before.locals locals ∧
    ∀ rest, walk link [] (items ++ rest) none before =
      walk link seen rest none ⟨[w], locals, memory⟩

/-- Code that does what an operation on words does: it leaves the result, or a cell of memory with a
status and the result, or does not come to its end. -/
def Follows (link : Linkage) (n : Nat) (before : Work) (items : List Item) (p : UInt64)
    (cell : Bool) : Folded → Prop
  | .value w =>
    if cell then Pops link n before items p (checkedCell before.memory p 0 w)
    else Pops link n before items w before.memory
  | .checkedErr => cell = true ∧
      ∃ v, Pops link n before items p (checkedCell before.memory p
        (wordOfInt Ssa.arithmeticStatus) v)
  | .overflow => ∃ locals, ∀ rest, walk link [] (items ++ rest) none before =
      some (.goes (.failure .overflow) ⟨[], locals, before.memory⟩)
  | .divByZero => ∀ rest, walk link [] (items ++ rest) none before = some (.trap .divByZero)

namespace ArithInput

/-! ## Operands and results -/

/-- The operands push normal words, and there are slots for the result and the flag. -/
structure Ready (x : ArithInput) (link : Linkage) (n : Nat) (locals : Array UInt64)
    (a b : UInt64) : Prop where
  width : x.kind.HasWidth
  left : PushesWord link n locals x.left a
  right : PushesWord link n locals x.right b
  normal_left : x.kind.Normal a
  normal_right : x.kind.Normal b
  result : SlotIn locals x.result
  overflow : SlotIn locals x.overflow
  le_result : n ≤ x.result
  le_overflow : n ≤ x.overflow
  apart : x.result ≠ x.overflow

/-- The result and the flag are in their slots, and the slots of values are as they were. -/
structure Left (x : ArithInput) (n : Nat) (before : Array UInt64) (value : UInt64) (flag : Bool)
    (locals : Array UInt64) : Prop where
  keeps : Keeps n before locals
  result : Holds locals x.result value
  overflow : Holds locals x.overflow (flagWord flag)

/-- Code that leaves a result and a flag, with marks below 3. -/
def Leaves (x : ArithInput) (link : Linkage) (n : Nat) (locals : Array UInt64) (memory : Vm.Memory)
    (items : List Item) (value : UInt64) (flag : Bool) : Prop :=
  ∃ locals' seen, x.Left n locals value flag locals' ∧ (∀ k ∈ seen, k < 3) ∧
    ∀ rest, walk link [] (items ++ rest) none ⟨[], locals, memory⟩ =
      walk link seen rest none ⟨[], locals', memory⟩

variable {x : ArithInput} {link : Linkage} {n slot : Nat} {locals : Array UInt64}
  {memory : Vm.Memory}
  {a b raw : UInt64} {o : BinOp} {out : ArithOutcome} {v : Int}

/-! ## Sums, differences and products -/

/-- Fewer than 64 bits: what the word operation gives is compared with what normalising makes of
it. -/
theorem leaves_narrow (hx : x.Ready link n locals a b) (hbits : x.kind.bits < 64)
    (hslot : SlotIn locals slot) (hle : n ≤ slot) (hresult : slot ≠ x.result)
    {f : UInt64 → UInt64 → Except TrapCode UInt64} (hop : (wordOp o x.kind.signed).binary? = some f)
    (hf : f a b = .ok raw) (hout : x.kind.Computes out v)
    (hraw : (raw.toNat : Int) ≡ v [ZMOD 2 ^ 64]) (hlow : -2 ^ 63 ≤ v)
    (hhigh : v < if x.kind.signed then 2 ^ 63 else 2 ^ 64) :
    x.Leaves link n locals memory (x.narrow o slot) out.value out.overflow := by
  have hvalue := hout.value_eq hx.width hraw
  have hflag := IntKind.overflow_iff_ne hx.width hbits hout hraw hlow hhigh
  have hkeeps := Keeps.refl n locals
  refine ⟨((locals.setIfInBounds slot raw).setIfInBounds x.result out.value).setIfInBounds
    x.overflow (flagWord out.overflow), [], ?_, by simp, fun rest => ?_⟩
  · refine ⟨((hkeeps.set hle).set hx.le_result).set hx.le_overflow, ?_, hx.overflow.set.set.holds⟩
    exact (hx.result.set.holds).set hx.apart
  · have hholds : Holds ((locals.setIfInBounds slot raw).setIfInBounds x.result out.value)
      slot raw :=
      hslot.holds.set hresult
    simp only [narrow, List.append_assoc, List.cons_append, List.nil_append]
    rw [hx.left.push hkeeps (by simp), hx.right.push hkeeps (by simp [depth]),
      walk_op hop hf (by simp [depth]), walk_tee hslot (by simp [depth]),
      walk_normalize _ (by simp [depth]), hvalue, walk_tee hx.result.set (by simp [depth]),
      walk_get hholds (by simp [depth]), walk_op (o := .ne) rfl rfl (by simp [depth]),
      walk_set hx.overflow.set.set (by simp [depth]), ← hvalue, ← hflag,
      hvalue]

theorem flagWord_ltS_zero (w : UInt64) :
    flagWord (decide (w.toInt64 < (0 : UInt64).toInt64)) = flagWord (decide (signedValue w < 0)) :=
  congrArg flagWord (decide_eq_decide.mpr (toInt64_lt_iff w 0))

/-- The part of the check of a product that divides. -/
def mulCheck (x : ArithInput) (o : Vm.Op) : List Item :=
  x.left ++ [op .eqz, jumpIf 0, get x.result] ++ x.left ++ [op o] ++ x.right
    ++ [op .ne, set x.overflow, jump 1, .mark 0, lit 0, set x.overflow, .mark 1]

section Wide

variable {locals' : Array UInt64} {seen : List Nat} {rest : List Item}
  (hx : x.Ready link n locals a b)
  (hbits : x.kind.bits = 64) (hkeeps : Keeps n locals locals')

include hx hbits hkeeps

theorem walk_addOverflow (hresult : Holds locals' x.result (a + b)) :
    walk link seen (x.addOverflow ++ rest) none ⟨[], locals', memory⟩ =
      walk link seen rest none ⟨[flagWord (x.kind.eval .add a b).overflow], locals', memory⟩ := by
  rw [IntKind.addOverflow_iff hbits]
  unfold addOverflow
  cases hs : x.kind.signed
  · rw [if_neg Bool.false_ne_true, if_neg Bool.false_ne_true]
    simp only [List.append_assoc, List.cons_append, List.nil_append]
    rw [walk_get hresult (by simp), hx.left.push hkeeps (by simp [depth]),
      walk_op (o := .ltU) rfl rfl (by simp [depth])]
  · rw [if_pos rfl, if_pos rfl]
    simp only [List.append_assoc, List.cons_append, List.nil_append]
    rw [hx.left.push hkeeps (by simp), walk_get hresult (by simp [depth]),
      walk_op (o := .xor) rfl rfl (by simp [depth]), hx.right.push hkeeps (by simp [depth]),
      walk_get hresult (by simp [depth]), walk_op (o := .xor) rfl rfl (by simp [depth]),
      walk_op (o := .and) rfl rfl (by simp [depth]), walk_lit 0 (by simp [depth]),
      walk_op (o := .ltS) rfl rfl (by simp [depth]), flagWord_ltS_zero]

theorem walk_subOverflow (hresult : Holds locals' x.result (a - b)) :
    walk link seen (x.subOverflow ++ rest) none ⟨[], locals', memory⟩ =
      walk link seen rest none ⟨[flagWord (x.kind.eval .sub a b).overflow], locals', memory⟩ := by
  rw [IntKind.subOverflow_iff hbits]
  unfold subOverflow
  cases hs : x.kind.signed
  · rw [if_neg Bool.false_ne_true, if_neg Bool.false_ne_true]
    simp only [List.append_assoc, List.cons_append, List.nil_append]
    rw [hx.left.push hkeeps (by simp), hx.right.push hkeeps (by simp [depth]),
      walk_op (o := .ltU) rfl rfl (by simp [depth])]
  · rw [if_pos rfl, if_pos rfl]
    simp only [List.append_assoc, List.cons_append, List.nil_append]
    rw [hx.left.push hkeeps (by simp), hx.right.push hkeeps (by simp [depth]),
      walk_op (o := .xor) rfl rfl (by simp [depth]), hx.left.push hkeeps (by simp [depth]),
      walk_get hresult (by simp [depth]), walk_op (o := .xor) rfl rfl (by simp [depth]),
      walk_op (o := .and) rfl rfl (by simp [depth]), walk_lit 0 (by simp [depth]),
      walk_op (o := .ltS) rfl rfl (by simp [depth]), flagWord_ltS_zero]

omit hbits in
/-- Dividing back tells whether a product fits, and a first factor of zero is told apart. -/
theorem walk_mulCheck (hresult : Holds locals' x.result raw) (hoverflow : SlotIn locals' x.overflow)
    {q : UInt64} {o : Vm.Op} (hquot : a ≠ 0 → ∃ f, o.binary? = some f ∧ f raw a = .ok q)
    (h0 : 0 ∉ seen) (h1 : 1 ∉ seen) :
    walk link seen (x.mulCheck o ++ rest) none ⟨[], locals', memory⟩ =
      walk link (1 :: 0 :: seen) rest none
        ⟨[], locals'.setIfInBounds x.overflow (flagWord (a != 0 && q != b)), memory⟩ := by
  simp only [mulCheck, List.append_assoc, List.cons_append, List.nil_append]
  rw [hx.left.push hkeeps (by simp), walk_eqz (by simp [depth]), walk_jumpIf h0 _ (by simp [depth])]
  by_cases ha : a = 0
  · have hskip : marks (get x.result :: (x.left ++
      op o :: (x.right ++ [op .ne, set x.overflow, jump 1]))) = [] := by
      simp [hx.left.marks, hx.right.marks, get, op, set, jump, Item.mark?]
    have hsplit (tail : List Item) :
        get x.result :: (x.left ++ op o :: (x.right ++ op .ne :: set x.overflow ::
          jump 1 :: tail)) =
          (get x.result :: (x.left ++ op o :: (x.right ++ [op .ne, set x.overflow, jump 1]))) ++
            tail := by
      simp
    rw [if_pos (by simp [ha]), hsplit, walk_skip hskip, walk_mark_self, walk_lit 0 (by simp),
      walk_set hoverflow (by simp [depth]), walk_mark]
    simp [ha, flagWord]
  · obtain ⟨f, hop, hf⟩ := hquot ha
    have hsplit (tail : List Item) :
      lit 0 :: set x.overflow :: tail = [lit 0, set x.overflow] ++ tail := rfl
    rw [if_neg (by simpa using ha), walk_get hresult (by simp),
      hx.left.push hkeeps (by simp [depth]), walk_op hop hf (by simp [depth]),
      hx.right.push hkeeps (by simp [depth]), walk_op (o := .ne) rfl rfl (by simp [depth]),
      walk_set hoverflow (by simp [depth]), walk_jump h1 (by simp), walk_mark_other (by decide),
      hsplit, walk_skip rfl, walk_mark_self]
    rw [bne_iff_ne.mpr ha, Bool.true_and]

omit hbits hkeeps in
theorem walk_skip_mulCheck (o : Vm.Op) {s : Work} :
    walk link seen (x.mulCheck o ++ rest) (some 1) s = walk link (1 :: 0 :: seen) rest none s := by
  have hskip : marks (x.left ++ [op .eqz, jumpIf 0, get x.result] ++ x.left ++ [op o] ++ x.right
      ++ [op .ne, set x.overflow, jump 1]) = [] := by
    simp [hx.left.marks, hx.right.marks, get, op, set, jump, jumpIf, Item.mark?]
  have hsplit : x.mulCheck o ++ rest = (x.left ++ [op .eqz, jumpIf 0, get x.result] ++ x.left ++
      [op o] ++ x.right
      ++ [op .ne, set x.overflow, jump 1]) ++ .mark 0 ::
      ([lit 0, set x.overflow] ++ .mark 1 :: rest) := by
    simp [mulCheck]
  rw [hsplit, walk_skip hskip, walk_mark_other (by decide), walk_skip rfl, walk_mark_self]

/-- The check of a product. -/
theorem walk_setMulOverflow (memory : Vm.Memory) (hresult : Holds locals' x.result (a * b))
    (hoverflow : SlotIn locals' x.overflow) :
    ∃ seen, (∀ k ∈ seen, k < 3) ∧ ∀ rest, walk link [] (x.setMulOverflow ++ rest) none
      ⟨[], locals', memory⟩ = walk link seen rest none
        ⟨[], locals'.setIfInBounds x.overflow (flagWord (x.kind.eval .mul a b).overflow),
          memory⟩ := by
  rw [IntKind.mulOverflow_iff hbits]
  cases hs : x.kind.signed
  · refine ⟨[1, 0], by simp, fun rest => ?_⟩
    have hcode : x.setMulOverflow = x.mulCheck .divU := by simp [setMulOverflow, mulCheck, hs]
    have hflag : (if a = 0 then false else decide (a * b / a ≠ b)) =
        (a != 0 && a * b / a != b) := by
      by_cases ha : a = 0 <;> simp [ha, bne, Bool.beq_eq_decide_eq]
    rw [hcode, if_neg Bool.false_ne_true, hflag]
    exact walk_mulCheck hx hkeeps hresult hoverflow (fun ha => ⟨_, rfl, if_neg ha⟩)
      (by simp) (by simp)
  · refine ⟨[1, 0, 2], by simp, fun rest => ?_⟩
    have hcode (rest : List Item) :
        x.setMulOverflow ++ rest = x.left ++ litInt (-1) :: op .eq :: jumpIfNot 2 ::
        ((x.right ++ [litInt (-Nat.pow 2 63), op .eq, set x.overflow, jump 1]) ++ .mark 2 ::
          (x.mulCheck .divS ++ rest)) := by
      simp [setMulOverflow, mulCheck, hs]
    rw [hcode, if_pos rfl, hx.left.push hkeeps (by simp), litInt, walk_lit _ (by simp [depth]),
      walk_op (o := .eq) rfl rfl (by simp [depth]), walk_jumpIfNot (by simp) _ (by simp [depth])]
    by_cases ha : a = wordOfInt (-1)
    · have hsplit (tail : List Item) :
          x.right ++ [litInt (-Nat.pow 2 63), op .eq, set x.overflow, jump 1] ++ tail =
          x.right ++ litInt (-Nat.pow 2 63) :: op .eq :: set x.overflow :: jump 1 :: tail := by simp
      have hflag : decide (b = wordOfInt (-Nat.pow 2 63)) = (b == wordOfInt (-Nat.pow 2 63)) := by
        rw [Bool.beq_eq_decide_eq]
      rw [if_pos (by simp [ha]), if_pos ha, hsplit, hx.right.push hkeeps (by simp), litInt,
        walk_lit _ (by simp [depth]), walk_op (o := .eq) rfl rfl (by simp [depth]),
        walk_set hoverflow (by simp [depth]), walk_jump (by simp) (by simp),
        walk_mark_other (by decide), walk_skip_mulCheck hx, hflag]
    · have hskip : marks (x.right ++ [litInt (-Nat.pow 2 63), op .eq, set x.overflow, jump 1]) =
        [] := by
        simp [hx.right.marks, litInt, lit, op, set, jump, Item.mark?]
      have hflag : (if a = 0 then false else decide
          (wordOfInt ((signedValue (a * b)).tdiv (signedValue a)) ≠ b)) =
          (a != 0 && wordOfInt ((signedValue (a * b)).tdiv (signedValue a)) != b) := by
        by_cases hzero : a = 0 <;> simp [hzero, bne, Bool.beq_eq_decide_eq]
      -- the quotient fits, for the divisor is not minus one
      have hquot : a ≠ 0 → ∃ f, Vm.Op.divS.binary? = some f ∧
          f (a * b) a = .ok (wordOfInt ((signedValue (a * b)).tdiv (signedValue a))) :=
        fun hzero => ⟨_, rfl, IntKind.divSigned_eq hzero fun hyes => ha hyes.2⟩
      rw [if_neg (by simpa using ha), if_neg ha, walk_skip hskip, walk_mark_self,
        walk_mulCheck hx hkeeps hresult hoverflow hquot (by simp) (by simp), hflag]

end Wide

/-- The word operation of 64 bits, before its check. -/
theorem walk_wordOp (hx : x.Ready link n locals a b) (raw : UInt64)
    {f : UInt64 → UInt64 → Except TrapCode UInt64} (hop : (wordOp o x.kind.signed).binary? = some f)
    (hf : f a b = .ok raw) (tail : List Item) :
    walk link [] (x.left ++ x.right ++ [op (wordOp o x.kind.signed), set x.result] ++ tail) none
      ⟨[], locals, memory⟩ =
      walk link [] tail none ⟨[], locals.setIfInBounds x.result raw, memory⟩ := by
  simp only [List.append_assoc, List.cons_append, List.nil_append]
  rw [hx.left.push (.refl n locals) (by simp), hx.right.push (.refl n locals) (by simp [depth]),
    walk_op hop hf (by simp [depth]), walk_set hx.result (by simp [depth])]

/-- A result and a flag that were put into their slots one after the other. -/
theorem Ready.left_set (hx : x.Ready link n locals a b) (value : UInt64) (flag : Bool) :
    x.Left n locals value flag ((locals.setIfInBounds x.result value).setIfInBounds x.overflow
      (flagWord flag)) where
  keeps := ((Keeps.refl n locals).set hx.le_result).set hx.le_overflow
  result := hx.result.holds.set hx.apart
  overflow := hx.overflow.set.holds

/-- With 64 bits the word operation gives the wrapped result. -/
theorem value_of_wide (hbits : x.kind.bits = 64) (hout : x.kind.Computes out v)
    (hraw : (raw.toNat : Int) ≡ v [ZMOD 2 ^ 64]) : out.value = raw :=
  (hout.value_eq (IntKind.hasWidth_of_wide hbits) hraw).symm.trans
    (IntKind.normal_of_wide hbits raw)

theorem leaves_wide_add (hx : x.Ready link n locals a b) (hbits : x.kind.bits = 64) :
    x.Leaves link n locals memory (x.wide .add) (x.kind.eval .add a b).value
      (x.kind.eval .add a b).overflow := by
  have hout := (IntKind.computes_exact hx.width hx.normal_left hx.normal_right).1
  have hvalue := value_of_wide hbits hout (IntKind.add_modEq x.kind a b)
  have hkeeps := (Keeps.refl n locals).set (w := a + b) hx.le_result
  refine ⟨_, [], hx.left_set _ (x.kind.eval .add a b).overflow, by simp, fun rest => ?_⟩
  rw [hvalue, wide, List.append_assoc, walk_wordOp hx (a + b) rfl rfl, List.append_assoc,
    walk_addOverflow hx hbits hkeeps hx.result.holds]
  exact walk_set hx.overflow.set (by simp [depth])

theorem leaves_wide_sub (hx : x.Ready link n locals a b) (hbits : x.kind.bits = 64) :
    x.Leaves link n locals memory (x.wide .sub) (x.kind.eval .sub a b).value
      (x.kind.eval .sub a b).overflow := by
  have hout := (IntKind.computes_exact hx.width hx.normal_left hx.normal_right).2.1
  have hvalue := value_of_wide hbits hout (IntKind.sub_modEq x.kind a b)
  have hkeeps := (Keeps.refl n locals).set (w := a - b) hx.le_result
  refine ⟨_, [], hx.left_set _ (x.kind.eval .sub a b).overflow, by simp, fun rest => ?_⟩
  rw [hvalue, wide, List.append_assoc, walk_wordOp hx (a - b) rfl rfl, List.append_assoc,
    walk_subOverflow hx hbits hkeeps hx.result.holds]
  exact walk_set hx.overflow.set (by simp [depth])

theorem leaves_wide_mul (hx : x.Ready link n locals a b) (hbits : x.kind.bits = 64) :
    x.Leaves link n locals memory (x.wide .mul) (x.kind.eval .mul a b).value
      (x.kind.eval .mul a b).overflow := by
  have hout := (IntKind.computes_exact hx.width hx.normal_left hx.normal_right).2.2
  have hvalue := value_of_wide hbits hout (IntKind.mul_modEq x.kind a b)
  have hkeeps := (Keeps.refl n locals).set (w := a * b) hx.le_result
  obtain ⟨seen, hseen, hcheck⟩ :=
    walk_setMulOverflow hx hbits hkeeps memory hx.result.holds hx.overflow.set
  refine ⟨_, seen, hx.left_set _ (x.kind.eval .mul a b).overflow, hseen, fun rest => ?_⟩
  rw [hvalue, wide, List.append_assoc, walk_wordOp hx (a * b) rfl rfl]
  · exact hcheck rest
  · exact nofun
  · exact nofun

/-! ## Quotients and remainders -/

/-- The part of a division that looks for a divisor of zero. -/
def zeroCheck (x : ArithInput) (checked : Bool) : List Item :=
  if checked then x.right ++ [op .eqz, jumpIf 1] else []

/-- Whether the quotient of two operands may not fit. -/
def mayOverflow (x : ArithInput) (o : BinOp) : Bool := o == .div && x.kind.signed

/-- The part of a division that looks for the quotient that does not fit. -/
def leastCheck (x : ArithInput) (o : BinOp) : List Item :=
  if x.mayOverflow o then x.left ++ [lit x.kind.minWord, op .eq] ++ x.right ++
    [litInt (-1), op .eq, op .and, jumpIf 2]
  else []

/-- The part of a division that divides. -/
def quotient (x : ArithInput) (o : BinOp) : List Item :=
  x.left ++ x.right ++ [op (wordOp o x.kind.signed), set x.result, jump 0]

/-- The ends of a division. -/
def divideEnds (x : ArithInput) (mayOverflow checked : Bool) : List Item :=
  (if mayOverflow then [.mark 2, lit x.kind.minWord, set x.result, lit 1, set x.overflow, jump 0]
    else []) ++ (if checked then [.mark 1, lit 1, set x.overflow] else []) ++ [.mark 0]

theorem divide_append (x : ArithInput) (o : BinOp) (checked : Bool) (rest : List Item) :
    x.divide o checked ++ rest = lit 0 :: set x.overflow :: lit 0 :: set x.result ::
      (x.zeroCheck checked ++ (x.leastCheck o ++
        (x.quotient o ++ (x.divideEnds (x.mayOverflow o) checked ++ rest)))) := by
  simp only [divide, zeroCheck, mayOverflow, leastCheck, quotient, divideEnds, List.append_assoc,
    List.cons_append, List.nil_append]
  rfl

section Divide

variable {locals' : Array UInt64} {rest : List Item} {s : Work}

theorem walk_divideEnds_done (x : ArithInput) (link : Linkage) (mayOverflow checked : Bool) :
    ∃ seen, (∀ k ∈ seen, k < 3) ∧
      ∀ rest s, walk link [] (x.divideEnds mayOverflow checked ++ rest) (some 0) s =
        walk link seen rest none s := by
  cases mayOverflow <;> cases checked
  · exact ⟨[0], by simp, fun rest s => rfl⟩
  · exact ⟨[0, 1], by simp, fun rest s => rfl⟩
  · exact ⟨[0, 2], by simp, fun rest s => rfl⟩
  · exact ⟨[0, 1, 2], by simp, fun rest s => rfl⟩

/-- A checked division by zero sets the flag. -/
theorem walk_divideEnds_zero (x : ArithInput) (link : Linkage) (memory : Vm.Memory)
    (hslot : SlotIn locals' x.overflow) (mayOverflow : Bool) :
    ∃ seen, (∀ k ∈ seen, k < 3) ∧
      ∀ rest, walk link [] (x.divideEnds mayOverflow true ++ rest) (some 1) ⟨[], locals', memory⟩ =
        walk link seen rest none ⟨[], locals'.setIfInBounds x.overflow 1, memory⟩ := by
  have hset (seen : List Nat) (rest : List Item) :
      walk link seen (lit 1 :: set x.overflow :: .mark 0 :: rest) none ⟨[], locals', memory⟩ =
        walk link (0 :: seen) rest none ⟨[], locals'.setIfInBounds x.overflow 1, memory⟩ := by
    rw [walk_lit 1 (by simp), walk_set hslot (by simp [depth]), walk_mark]
  cases mayOverflow
  · exact ⟨[0, 1], by simp, fun rest => hset [1] rest⟩
  · exact ⟨[0, 1, 2], by simp, fun rest => hset [1, 2] rest⟩

/-- The quotient that does not fit is the least value. -/
theorem walk_divideEnds_least (x : ArithInput) (link : Linkage) (memory : Vm.Memory)
    (hresult : SlotIn locals' x.result) (hoverflow : SlotIn locals' x.overflow) (checked : Bool) :
    ∃ seen, (∀ k ∈ seen, k < 3) ∧
      ∀ rest, walk link [] (x.divideEnds true checked ++ rest) (some 2) ⟨[], locals', memory⟩ =
        walk link seen rest none
          ⟨[], (locals'.setIfInBounds x.result x.kind.minWord).setIfInBounds x.overflow 1,
            memory⟩ := by
  have hset (tail : List Item) :
      walk link [2] (lit x.kind.minWord :: set x.result :: lit 1 :: set x.overflow ::
        jump 0 :: tail) none ⟨[], locals', memory⟩ =
        walk link [2] tail (some 0)
          ⟨[], (locals'.setIfInBounds x.result x.kind.minWord).setIfInBounds x.overflow 1,
            memory⟩ := by
    rw [walk_lit _ (by simp), walk_set hresult (by simp [depth]), walk_lit 1 (by simp),
      walk_set hoverflow.set (by simp [depth]), walk_jump (by simp) (by simp)]
  cases checked
  · exact ⟨[0, 2], by simp, fun rest => hset (.mark 0 :: rest)⟩
  · exact ⟨[0, 1, 2], by simp, fun rest =>
      hset (.mark 1 :: lit 1 :: set x.overflow :: .mark 0 :: rest)⟩

theorem flagWord_and (c d : Bool) : flagWord c &&& flagWord d = flagWord (c && d) := by
  cases c <;> cases d <;> rfl

variable (hx : x.Ready link n locals a b) (hkeeps : Keeps n locals locals')

include hx hkeeps

theorem walk_zeroCheck (checked : Bool) :
    walk link [] (x.zeroCheck checked ++ rest) none ⟨[], locals', memory⟩ =
      walk link [] rest (if checked && b == 0 then some 1 else none) ⟨[], locals', memory⟩ := by
  cases checked
  · rfl
  · rw [zeroCheck, if_pos rfl, List.append_assoc, hx.right.push hkeeps (by simp), List.cons_append,
      walk_eqz (by simp [depth]), List.singleton_append, walk_jumpIf (by simp) _ (by simp [depth]),
      Bool.true_and]

theorem walk_leastCheck (o : BinOp) :
    walk link [] (x.leastCheck o ++ rest) none ⟨[], locals', memory⟩ =
      walk link [] rest (if x.mayOverflow o &&
        (a == x.kind.minWord && b == wordOfInt (-1)) then some 2 else none)
        ⟨[], locals', memory⟩ := by
  unfold leastCheck
  cases hmay : x.mayOverflow o
  · rfl
  · rw [if_pos rfl]
    simp only [litInt, List.append_assoc, List.cons_append, List.nil_append]
    rw [hx.left.push hkeeps (by simp), walk_lit _ (by simp [depth]),
      walk_op (o := .eq) rfl rfl (by simp [depth]), hx.right.push hkeeps (by simp [depth]),
      walk_lit _ (by simp [depth]), walk_op (o := .eq) rfl rfl (by simp [depth]),
      walk_op (o := .and) rfl rfl (by simp [depth]), flagWord_and,
      walk_jumpIf (by simp) _ (by simp [depth]), Bool.true_and]

/-- A quotient is put into its slot, unless the machine stops. -/
theorem walk_quotient {f : UInt64 → UInt64 → Except TrapCode UInt64}
    (hop : (wordOp o x.kind.signed).binary? = some f) (hresult : SlotIn locals' x.result) :
    walk link [] (x.quotient o ++ rest) none ⟨[], locals', memory⟩ =
      match f a b with
      | .ok w => walk link [] rest (some 0) ⟨[], locals'.setIfInBounds x.result w, memory⟩
      | .error code => some (.trap code) := by
  simp only [quotient, List.append_assoc, List.cons_append, List.nil_append]
  rw [hx.left.push hkeeps (by simp), hx.right.push hkeeps (by simp [depth]),
    walk_binary hop (by simp [depth])]
  cases f a b with
  | error code => rfl
  | ok w =>
    dsimp only
    rw [walk_set hresult (by simp [depth]), walk_jump (by simp) (by simp)]

omit hkeeps in
theorem marks_quotient : marks (x.quotient o) = [] := by
  simp [quotient, hx.left.marks, hx.right.marks, op, set, jump, Item.mark?]

omit hkeeps in
theorem marks_leastCheck (o : BinOp) : marks (x.leastCheck o) = [] := by
  unfold leastCheck
  split
  · simp [hx.left.marks, hx.right.marks, lit, litInt, op, jumpIf, Item.mark?]
  · rfl

end Divide

/-- The slots before a division. -/
def cleared (x : ArithInput) (locals : Array UInt64) : Array UInt64 :=
  (locals.setIfInBounds x.overflow 0).setIfInBounds x.result 0

theorem Ready.keeps_cleared (hx : x.Ready link n locals a b) : Keeps n locals (x.cleared locals) :=
  ((Keeps.refl n locals).set hx.le_overflow).set hx.le_result

theorem Ready.slotIn_cleared (hx : x.Ready link n locals a b) :
    SlotIn (x.cleared locals) x.result ∧ SlotIn (x.cleared locals) x.overflow :=
  ⟨hx.result.set.set, hx.overflow.set.set⟩

/-- A division starts with its slots cleared and a look at the divisor. -/
theorem walk_divide (hx : x.Ready link n locals a b) (checked : Bool) (rest : List Item) :
    walk link [] (x.divide o checked ++ rest) none ⟨[], locals, memory⟩ =
      walk link [] (x.leastCheck o ++ (x.quotient o ++
        (x.divideEnds (x.mayOverflow o) checked ++ rest)))
          (if checked && b == 0 then some 1 else none) ⟨[], x.cleared locals, memory⟩ := by
  rw [divide_append, walk_lit 0 (by simp), walk_set hx.overflow (by simp [depth]),
    walk_lit 0 (by simp), walk_set hx.result.set (by simp [depth])]
  exact walk_zeroCheck hx hx.keeps_cleared checked

/-- A checked division by zero. -/
theorem leaves_divide_zero (hx : x.Ready link n locals a 0) :
    x.Leaves link n locals memory (x.divide o true) 0 true := by
  obtain ⟨seen, hseen, hends⟩ := walk_divideEnds_zero x link memory
    hx.slotIn_cleared.2 (x.mayOverflow o)
  refine ⟨_, seen, ⟨hx.keeps_cleared.set hx.le_overflow, ?_, hx.overflow.set.set.holds⟩, hseen,
    fun rest => ?_⟩
  · exact hx.result.set.holds.set hx.apart
  · have hzero : (true && (0 : UInt64) == 0) = true := rfl
    rw [walk_divide hx, hzero, if_pos rfl, walk_skip (marks_leastCheck hx o),
      walk_skip (marks_quotient hx)]
    exact hends rest

/-- Another division by zero stops the machine. -/
theorem walk_divide_zero (hx : x.Ready link n locals a 0)
    {f : UInt64 → UInt64 → Except TrapCode UInt64} (hop : (wordOp o x.kind.signed).binary? = some f)
    (hf : f a 0 = .error .divByZero) (rest : List Item) :
    walk link [] (x.divide o false ++ rest) none ⟨[], locals, memory⟩ =
      some (.trap .divByZero) := by
  have hminus : ((0 : UInt64) == wordOfInt (-1)) = false := by decide
  rw [walk_divide hx, Bool.false_and, if_neg Bool.false_ne_true,
    walk_leastCheck hx hx.keeps_cleared, hminus, Bool.and_false, Bool.and_false,
    if_neg Bool.false_ne_true, walk_quotient hx hx.keeps_cleared hop hx.slotIn_cleared.1, hf]

/-- The quotient that does not fit. -/
theorem leaves_divide_least (hx : x.Ready link n locals x.kind.minWord (wordOfInt (-1)))
    (hmay : x.mayOverflow o = true) (checked : Bool) :
    x.Leaves link n locals memory (x.divide o checked) x.kind.minWord true := by
  obtain ⟨seen, hseen, hends⟩ := walk_divideEnds_least x link memory
    hx.slotIn_cleared.1 hx.slotIn_cleared.2 checked
  have hzero : (wordOfInt (-1) == 0) = false := by decide
  refine ⟨((x.cleared locals).setIfInBounds x.result x.kind.minWord).setIfInBounds
    x.overflow 1, seen,
    ⟨(hx.keeps_cleared.set hx.le_result).set hx.le_overflow, ?_, hx.slotIn_cleared.2.set.holds⟩,
    hseen, fun rest => ?_⟩
  · exact hx.slotIn_cleared.1.holds.set hx.apart
  · rw [walk_divide hx, hzero, Bool.and_false, if_neg Bool.false_ne_true,
      walk_leastCheck hx hx.keeps_cleared, hmay, if_pos (by simp), walk_skip (marks_quotient hx)]
    exact hends rest

/-- All other quotients and remainders are those of the machine. -/
theorem leaves_divide_fits (hx : x.Ready link n locals a b) (hb : b ≠ 0)
    (hfits : ¬(x.mayOverflow o = true ∧ a = x.kind.minWord ∧ b = wordOfInt (-1)))
    {f : UInt64 → UInt64 → Except TrapCode UInt64} (hop : (wordOp o x.kind.signed).binary? = some f)
    {w : UInt64} (hf : f a b = .ok w) (checked : Bool) :
    x.Leaves link n locals memory (x.divide o checked) w false := by
  obtain ⟨seen, hseen, hends⟩ := walk_divideEnds_done x link (x.mayOverflow o) checked
  refine ⟨(x.cleared locals).setIfInBounds x.result w, seen,
    ⟨hx.keeps_cleared.set hx.le_result, hx.slotIn_cleared.1.holds, ?_⟩,
    hseen, fun rest => ?_⟩
  · exact (hx.overflow.holds.set hx.apart.symm).set hx.apart.symm
  · rw [walk_divide hx, if_neg (by simp [hb]), walk_leastCheck hx hx.keeps_cleared,
      if_neg (by simpa using hfits), walk_quotient hx hx.keeps_cleared hop hx.slotIn_cleared.1, hf]
    exact hends rest _

/-- A division leaves the outcome. Where the divisor is zero it has to be checked. -/
theorem leaves_div (hx : x.Ready link n locals a b) (checked : Bool)
    (hzero : b = 0 → checked = true) :
    x.Leaves link n locals memory (x.divide .div checked) (x.kind.evalDiv a b).value
      ((x.kind.evalDiv a b).overflow || (x.kind.evalDiv a b).divByZero) := by
  by_cases hb : b = 0
  · obtain rfl := hzero hb
    subst hb
    exact leaves_divide_zero hx
  · have hmay : x.mayOverflow .div = x.kind.signed := rfl
    have hnonzero : (x.kind.evalDiv a b).divByZero = false := by
      unfold IntKind.evalDiv
      rw [if_neg hb]
      split <;> rfl
    rw [hnonzero, Bool.or_false]
    cases hs : x.kind.signed
    · have heval : x.kind.evalDiv a b = { value := a / b } := by
        unfold IntKind.evalDiv
        rw [if_neg hb, hs, if_neg Bool.false_ne_true]
      rw [heval]
      refine leaves_divide_fits hx hb ?_ (f := fun a b => if b = 0 then .error .divByZero
        else .ok (a / b)) ?_ (if_neg hb) checked
      · rw [hmay, hs]
        exact fun hyes => Bool.false_ne_true hyes.1
      · rw [hs]
        rfl
    · by_cases hleast : a = x.kind.minWord ∧ b = wordOfInt (-1)
      · obtain ⟨rfl, rfl⟩ := hleast
        rw [IntKind.evalDiv_least hs hx.width]
        exact leaves_divide_least hx (hmay.trans hs) checked
      · obtain ⟨hf, hfits⟩ := IntKind.divSigned_eq_evalDiv hx.width hs hx.normal_left hb hleast
        rw [hfits]
        refine leaves_divide_fits hx hb (fun hyes => hleast hyes.2) (f := Vm.divSigned)
          ?_ hf checked
        rw [hs]
        rfl

/-- A remainder always fits. -/
theorem leaves_rem (hx : x.Ready link n locals a b) (checked : Bool)
    (hzero : b = 0 → checked = true) :
    x.Leaves link n locals memory (x.divide .rem checked) (x.kind.evalRem a b).value
      ((x.kind.evalRem a b).overflow || (x.kind.evalRem a b).divByZero) := by
  by_cases hb : b = 0
  · obtain rfl := hzero hb
    subst hb
    exact leaves_divide_zero hx
  · have hmay : ¬(x.mayOverflow .rem = true ∧ a = x.kind.minWord ∧ b = wordOfInt (-1)) :=
      fun hyes => Bool.false_ne_true hyes.1
    have hflag : ((x.kind.evalRem a b).overflow || (x.kind.evalRem a b).divByZero) = false := by
      unfold IntKind.evalRem
      rw [if_neg hb]
      split <;> rfl
    rw [hflag]
    cases hs : x.kind.signed
    · have heval : x.kind.evalRem a b = { value := a % b } := by
        unfold IntKind.evalRem
        rw [if_neg hb, hs, if_neg Bool.false_ne_true]
      rw [heval]
      refine leaves_divide_fits hx hb hmay (f := fun a b => if b = 0 then .error .divByZero
        else .ok (a % b)) ?_ (if_neg hb) checked
      rw [hs]
      rfl
    · have hf := IntKind.remSigned_eq_evalRem hx.width hs hx.normal_left hx.normal_right hb
      refine leaves_divide_fits hx hb hmay (f := Vm.remSigned) ?_ hf checked
      rw [hs]
      rfl

/-! ## Shifts -/

/-- The flag of a shift compares the amount with the width. -/
theorem flagWord_geU_bits (h : x.kind.HasWidth) (b : UInt64) :
    flagWord (decide (UInt64.ofNat x.kind.bits ≤ b)) =
      flagWord (decide (x.kind.bits ≤ b.toNat)) := by
  refine congrArg flagWord (decide_eq_decide.mpr ?_)
  rw [UInt64.le_iff_toNat_le, IntKind.toNat_ofNat_bits h.bits_le]

theorem leaves_shift (hx : x.Ready link n locals a b) {f : UInt64 → UInt64 → Except TrapCode UInt64}
    (hop : (wordOp o x.kind.signed).binary? = some f) {w value : UInt64}
    (hf : f a (x.kind.shiftAmount b) = .ok w)
    (hvalue : value = if o = .shl then x.kind.normalize w else w) :
    x.Leaves link n locals memory (x.shift o) value (decide (x.kind.bits ≤ b.toNat)) := by
  rw [IntKind.shiftAmount_eq_and hx.width] at hf
  have hkeeps := Keeps.refl n locals
  have hflag := hkeeps.set (w := flagWord (decide (x.kind.bits ≤ b.toNat))) hx.le_overflow
  refine ⟨(locals.setIfInBounds x.overflow
    (flagWord (decide (x.kind.bits ≤ b.toNat)))).setIfInBounds x.result value, [],
    ⟨hflag.set hx.le_result, hx.result.set.holds, hx.overflow.holds.set hx.apart.symm⟩,
    by simp, fun rest => ?_⟩
  simp only [shift, shiftMask, List.append_assoc, List.cons_append, List.nil_append]
  rw [hx.right.push hkeeps (by simp), walk_lit _ (by simp [depth]),
    walk_op (o := .geU) rfl rfl (by simp [depth]), flagWord_geU_bits hx.width,
    walk_set hx.overflow (by simp [depth]), hx.left.push hflag (by simp),
    hx.right.push hflag (by simp [depth]), walk_lit _ (by simp [depth]),
    walk_op (o := .and) rfl rfl (by simp [depth]), walk_op hop hf (by simp [depth])]
  by_cases ho : o = .shl
  · rw [if_pos ho] at hvalue ⊢
    rw [walk_normalize _ (by simp [depth]), ← hvalue, walk_set hx.result.set (by simp [depth])]
  · rw [if_neg ho] at hvalue ⊢
    rw [← hvalue, List.nil_append, walk_set hx.result.set (by simp [depth])]

theorem leaves_shl (hx : x.Ready link n locals a b) :
    x.Leaves link n locals memory (x.shift .shl) (x.kind.eval .shl a b).value
      (x.kind.eval .shl a b).overflow :=
  leaves_shift hx (f := fun a b => .ok (a <<< b)) rfl rfl rfl

/-- Shifting down keeps words normal. -/
theorem wordOp_shr {k : IntKind} (hk : k.HasWidth) (ha : k.Normal a) (b : UInt64) :
    ∃ f, (wordOp .shr k.signed).binary? = some f ∧
      f a (k.shiftAmount b) = .ok (k.eval .shr a b).value := by
  have hamount := IntKind.toNat_shiftAmount_lt hk b
  cases hs : k.signed
  · refine ⟨_, rfl, congrArg Except.ok ?_⟩
    show a >>> k.shiftAmount b = if k.signed then _ else _
    rw [hs, if_neg Bool.false_ne_true]
  · -- the machine looks at the low bits of the amount only, which has no others
    have hmask : k.shiftAmount b &&& 63 = k.shiftAmount b := by
      refine UInt64.toNat_inj.mp ?_
      rw [UInt64.toNat_and]
      exact (Nat.and_two_pow_sub_one_eq_mod _ 6).trans (Nat.mod_eq_of_lt hamount)
    refine ⟨_, rfl, congrArg Except.ok ?_⟩
    show (a.toInt64 >>> (k.shiftAmount b &&& 63).toInt64).toUInt64 = if k.signed then _ else _
    rw [hs, if_pos rfl, hmask, IntKind.normal_shr hk hs ha hamount]

theorem leaves_shr (hx : x.Ready link n locals a b) :
    x.Leaves link n locals memory (x.shift .shr) (x.kind.eval .shr a b).value
      (x.kind.eval .shr a b).overflow := by
  obtain ⟨f, hop, hf⟩ := wordOp_shr hx.width hx.normal_left b
  exact leaves_shift hx hop hf (if_neg nofun).symm

/-! ## The first part as a whole -/

/-- A slot that the first part may use for itself. -/
structure Spare (x : ArithInput) (n : Nat) (locals : Array UInt64) (slot : Nat) : Prop where
  slotIn : SlotIn locals slot
  le : n ≤ slot
  apart : slot ≠ x.result

/-- The first part leaves the outcome of the operation. Where the divisor is zero the flag is set if
the operation is checked. -/
theorem leaves_exactArith (memory : Vm.Memory) (hx : x.Ready link n locals a b) {aop : ArithOp}
    (ho : o.arith? = some aop) (hbitwise : o.isBitwise = false)
    (hslot : x.exactScratch o ≠ 0 → x.Spare n locals slot) (checked : Bool)
    (hzero : (x.kind.eval aop a b).divByZero = true → checked = true) :
    x.Leaves link n locals memory (x.exactArith o checked slot) (x.kind.eval aop a b).value
      ((x.kind.eval aop a b).overflow || (x.kind.eval aop a b).divByZero) := by
  obtain ⟨hadd, hsub, hmul⟩ := IntKind.computes_exact hx.width hx.normal_left hx.normal_right
  have hwide (hbits : ¬x.kind.bits < 64) : x.kind.bits = 64 :=
    le_antisymm hx.width.bits_le (Nat.not_lt.mp hbits)
  have hdivByZero (hb : b = 0) : (x.kind.evalDiv a b).divByZero = true ∧
      (x.kind.evalRem a b).divByZero = true := by
    unfold IntKind.evalDiv IntKind.evalRem
    rw [if_pos hb, if_pos hb]
    exact ⟨rfl, rfl⟩
  -- fewer than 64 bits: the exact result fits the word; 64 bits: each operation has its own test
  cases o with
  | add =>
    obtain rfl := Option.some.inj ho
    rw [hadd.divByZero, Bool.or_false]
    by_cases hbits : x.kind.bits < 64
    · obtain ⟨⟨hlow, hhigh⟩, -, -⟩ := IntKind.narrow_bounds hx.width hbits hx.normal_left
        hx.normal_right
      have hspare := hslot (by simp [exactScratch, hbits])
      rw [exactArith, if_pos hbits]
      · exact leaves_narrow hx hbits hspare.slotIn hspare.le hspare.apart
          (f := fun a b => .ok (a + b)) rfl rfl hadd (IntKind.add_modEq x.kind a b) hlow hhigh
      all_goals exact nofun
    · rw [exactArith, if_neg hbits]
      · exact leaves_wide_add hx (hwide hbits)
      all_goals exact nofun
  | sub =>
    obtain rfl := Option.some.inj ho
    rw [hsub.divByZero, Bool.or_false]
    by_cases hbits : x.kind.bits < 64
    · obtain ⟨-, ⟨hlow, hhigh⟩, -⟩ := IntKind.narrow_bounds hx.width hbits hx.normal_left
        hx.normal_right
      have hspare := hslot (by simp [exactScratch, hbits])
      rw [exactArith, if_pos hbits]
      · exact leaves_narrow hx hbits hspare.slotIn hspare.le hspare.apart
          (f := fun a b => .ok (a - b)) rfl rfl hsub (IntKind.sub_modEq x.kind a b) hlow hhigh
      all_goals exact nofun
    · rw [exactArith, if_neg hbits]
      · exact leaves_wide_sub hx (hwide hbits)
      all_goals exact nofun
  | mul =>
    obtain rfl := Option.some.inj ho
    rw [hmul.divByZero, Bool.or_false]
    by_cases hbits : x.kind.bits < 64
    · obtain ⟨-, -, hlow, hhigh⟩ := IntKind.narrow_bounds hx.width hbits hx.normal_left
        hx.normal_right
      have hspare := hslot (by simp [exactScratch, hbits])
      rw [exactArith, if_pos hbits]
      · exact leaves_narrow hx hbits hspare.slotIn hspare.le hspare.apart
          (f := fun a b => .ok (a * b)) rfl rfl hmul (IntKind.mul_modEq x.kind a b) hlow hhigh
      all_goals exact nofun
    · rw [exactArith, if_neg hbits]
      · exact leaves_wide_mul hx (hwide hbits)
      all_goals exact nofun
  | div =>
    obtain rfl := Option.some.inj ho
    exact leaves_div hx checked fun hb => hzero (hdivByZero hb).1
  | rem =>
    obtain rfl := Option.some.inj ho
    exact leaves_rem hx checked fun hb => hzero (hdivByZero hb).2
  | shl =>
    obtain rfl := Option.some.inj ho
    rw [show (x.kind.eval .shl a b).divByZero = false from rfl, Bool.or_false]
    exact leaves_shl hx
  | shr =>
    obtain rfl := Option.some.inj ho
    rw [show (x.kind.eval .shr a b).divByZero = false from rfl, Bool.or_false]
    exact leaves_shr hx
  | and | or | xor => cases hbitwise
  | _ => cases ho

/-- The machine stops at a division by zero that is not checked. -/
theorem walk_exactArith_zero (hx : x.Ready link n locals a b) {aop : ArithOp}
    (ho : o.arith? = some aop) (hzero : (x.kind.eval aop a b).divByZero = true) (rest : List Item) :
    walk link [] (x.exactArith o false slot ++ rest) none ⟨[], locals, memory⟩ =
      some (.trap .divByZero) := by
  have hdivisor (hdiv : aop = .div ∨ aop = .rem) : b = 0 := by
    by_contra hb
    rcases hdiv with rfl | rfl
    · change (x.kind.evalDiv a b).divByZero = true at hzero
      unfold IntKind.evalDiv at hzero
      rw [if_neg hb] at hzero
      split at hzero <;> cases hzero
    · change (x.kind.evalRem a b).divByZero = true at hzero
      unfold IntKind.evalRem at hzero
      rw [if_neg hb] at hzero
      split at hzero <;> cases hzero
  cases o with
  | div =>
    obtain rfl := Option.some.inj ho
    obtain rfl := hdivisor (.inl rfl)
    cases hs : x.kind.signed
    · refine walk_divide_zero hx (f := fun a b => if b = 0 then .error .divByZero else .ok (a / b))
        ?_ rfl rest
      rw [hs]
      rfl
    · refine walk_divide_zero hx (f := Vm.divSigned) ?_ rfl rest
      rw [hs]
      rfl
  | rem =>
    obtain rfl := Option.some.inj ho
    obtain rfl := hdivisor (.inr rfl)
    cases hs : x.kind.signed
    · refine walk_divide_zero hx (f := fun a b => if b = 0 then .error .divByZero else .ok (a % b))
        ?_ rfl rest
      rw [hs]
      rfl
    · refine walk_divide_zero hx (f := Vm.remSigned) ?_ rfl rest
      rw [hs]
      rfl
  | add | sub | mul | shl | shr | and | or | xor =>
    obtain rfl := Option.some.inj ho
    cases hzero
  | _ => cases ho

/-! ## The second part -/

section Finish

variable {locals' : Array UInt64} {seen : List Nat} {rest : List Item} {value : UInt64}
  {flag : Bool}

theorem not_mem_of_lt {k : Nat} (hseen : ∀ k ∈ seen, k < 3) (hk : 3 ≤ k) : k ∉ seen :=
  fun hmem => absurd (hseen k hmem) (by omega)

theorem walk_ltS_zero {ws : List UInt64} {w : UInt64} (hws : ws.length + 2 ≤ depth) :
    walk link seen (lit 0 :: op .ltS :: rest) none ⟨w :: ws, locals', memory⟩ =
      walk link seen rest none ⟨flagWord (decide (signedValue w < 0)) :: ws, locals', memory⟩ := by
  rw [walk_lit 0 (show (w :: ws).length ≤ depth from by simp; omega),
    walk_op (o := .ltS) rfl rfl hws, flagWord_ltS_zero]

theorem flagWord_xor (c d : Bool) : flagWord c ^^^ flagWord d = flagWord (c != d) := by
  cases c <;> cases d <;> rfl

/-- The nearest value is pushed. -/
theorem walk_nearest (memory : Vm.Memory) (hx : x.Ready link n locals a b)
    (hkeeps : Keeps n locals locals') (hseen : ∀ k ∈ seen, k < 3) {aop : ArithOp}
    (ho : o.arith? = some aop) (hover : (x.kind.eval aop a b).overflow = true)
    (hform : aop = .add ∨ aop = .sub ∨ aop = .mul ∨ aop = .div) :
    ∃ seen', (∀ k ∈ seen', k ≠ 3) ∧ ∀ rest, walk link seen (x.nearest o ++ rest) none
      ⟨[], locals', memory⟩ =
      walk link seen' rest none ⟨[x.kind.evalSaturating aop a b], locals', memory⟩ := by
  have h4 := not_mem_of_lt hseen (show 3 ≤ 4 by decide)
  have h5 := not_mem_of_lt hseen (show 3 ≤ 4 + 1 by decide)
  have hseen' : ∀ k ∈ seen, k ≠ 3 := fun k hk => (hseen k hk).ne
  have hchosen : ∀ k ∈ (4 + 1) :: 4 :: seen, k ≠ 3 := by
    simp only [List.forall_mem_cons]
    exact ⟨by decide, by decide, hseen'⟩
  unfold IntKind.evalSaturating nearest
  dsimp only
  rw [hover, Bool.not_true, if_neg Bool.false_ne_true]
  rcases hform with rfl | rfl | rfl | rfl
  · obtain rfl : o = .add := by cases o <;> first | rfl | cases ho
    cases hs : x.kind.signed
    · exact ⟨seen, hseen', fun rest => walk_lit _ (by simp)⟩
    · refine ⟨_, hchosen, fun rest => ?_⟩
      dsimp only
      rw [if_pos rfl]
      simp only [List.append_assoc, List.cons_append, List.nil_append, Bool.true_and]
      rw [hx.right.push hkeeps (by simp), walk_ltS_zero (by simp [depth]),
        walk_select h4 h5 _ (by simp [depth])]
  · obtain rfl : o = .sub := by cases o <;> first | rfl | cases ho
    cases hs : x.kind.signed
    · exact ⟨seen, hseen', fun rest => walk_lit _ (by simp)⟩
    · refine ⟨_, hchosen, fun rest => ?_⟩
      dsimp only
      rw [if_pos rfl]
      simp only [List.append_assoc, List.cons_append, List.nil_append, Bool.true_and]
      rw [hx.right.push hkeeps (by simp), walk_ltS_zero (by simp [depth]),
        walk_select h4 h5 _ (by simp [depth])]
  · obtain rfl : o = .mul := by cases o <;> first | rfl | cases ho
    cases hs : x.kind.signed
    · exact ⟨seen, hseen', fun rest => walk_lit _ (by simp)⟩
    · refine ⟨_, hchosen, fun rest => ?_⟩
      dsimp only
      rw [if_pos rfl]
      simp only [List.append_assoc, List.cons_append, List.nil_append, Bool.true_and]
      rw [hx.left.push hkeeps (by simp), walk_ltS_zero (by simp [depth]),
        hx.right.push hkeeps (by simp [depth]), walk_ltS_zero (by simp [depth]),
        walk_op (o := .xor) rfl rfl (by simp [depth]), flagWord_xor,
        walk_select h4 h5 _ (by simp [depth])]
  · obtain rfl : o = .div := by cases o <;> first | rfl | cases ho
    exact ⟨seen, hseen', fun rest => walk_lit _ (by simp)⟩

/-- The end of a checked operation. -/
theorem walk_checked {p : UInt64} (hleft : x.Left n locals value flag locals')
    (hheap : HeapRoom memory p) (hslot : x.Spare n locals slot)
    (hnext : x.Spare n locals (slot + 1)) (hoverflow : slot ≠ x.overflow)
    (hoverflow' : slot + 1 ≠ x.overflow) : ∃ locals'', Keeps n locals locals'' ∧ ∀ rest,
      walk link seen (x.finishArith o .checked slot ++ rest) none ⟨[], locals', memory⟩ =
        walk link seen rest none
          ⟨[p], locals'', checkedCell memory p (flagWord flag * wordOfInt Ssa.arithmeticStatus)
            value⟩ := by
  have hkeeps : Keeps n locals ((locals'.setIfInBounds (slot + 1) p).setIfInBounds slot p) :=
    (hleft.keeps.set hnext.le).set hslot.le
  refine ⟨_, hkeeps, fun rest => ?_⟩
  have hslot' := hleft.keeps.slotIn hslot.slotIn
  have hnext' := hleft.keeps.slotIn hnext.slotIn
  have hp : Holds ((locals'.setIfInBounds (slot + 1) p).setIfInBounds slot p) slot p :=
    hslot'.set.holds
  have hresult : Holds ((locals'.setIfInBounds (slot + 1) p).setIfInBounds slot p) x.result value :=
    (hleft.result.set hnext.apart.symm).set hslot.apart.symm
  have hflag : Holds ((locals'.setIfInBounds (slot + 1) p).setIfInBounds slot p) x.overflow
      (flagWord flag) :=
    (hleft.overflow.set hoverflow'.symm).set hoverflow.symm
  have hroom := hheap.room
  have hstatus : memory.inBounds p.toNat 8 = true := (memory.inBounds_iff _ _).mpr (by omega)
  have hword : memory.inBounds (p + 8).toNat 8 = true := by
    rw [hheap.toNat_add, Vm.Memory.inBounds_iff]
    omega
  have hsize : UInt64.ofNat (align8 (if 16 = 0 then 8 else 16)) = 16 := by decide
  simp only [finishArith, List.append_assoc, List.cons_append, List.nil_append]
  rw [walk_allocateInto hslot' hnext' hheap.heapEnd, hsize, walk_get hp (by simp),
    walk_get hflag (by simp [depth]), litInt, walk_lit _ (by simp [depth]),
    walk_op (o := .mul) rfl rfl (by simp [depth]),
    walk_store (by simpa using hstatus) (by simp [depth]), walk_get hp (by simp),
    walk_lit _ (by simp [depth]), walk_op (o := .add) rfl rfl (by simp [depth]),
    walk_get hresult (by simp [depth]), walk_store (by simpa using hword) (by simp [depth]),
    walk_get hp (by simp), checkedCell]

/-- Where the result may not fit, saturating takes the nearest value. -/
theorem walk_saturating (memory : Vm.Memory) (slot : Nat) (hx : x.Ready link n locals a b)
    {aop : ArithOp} (ho : o.arith? = some aop) (hbitwise : o.isBitwise = false)
    (hleft : x.Left n locals (x.kind.eval aop a b).value (x.kind.eval aop a b).overflow locals')
    (hseen : ∀ k ∈ seen, k < 3) : ∃ locals'' seen', Keeps n locals locals'' ∧ ∀ rest,
      walk link seen (x.finishArith o .saturating slot ++ rest) none ⟨[], locals', memory⟩ =
        walk link seen' rest none ⟨[x.kind.evalSaturating aop a b], locals'', memory⟩ := by
  have h3 := not_mem_of_lt hseen (show 3 ≤ 3 by decide)
  by_cases hwraps : o = .shl ∨ o = .shr ∨ o = .rem
  · -- these have no nearest value
    have hvalue : x.kind.evalSaturating aop a b = (x.kind.eval aop a b).value := by
      unfold IntKind.evalSaturating
      rcases hwraps with rfl | rfl | rfl <;> obtain rfl :=
        Option.some.inj ho <;> dsimp only <;> split <;> rfl
    refine ⟨locals', seen, hleft.keeps, fun rest => ?_⟩
    rw [finishArith, if_pos hwraps, hvalue]
    exact walk_get hleft.result (by simp)
  · have hform : aop = .add ∨ aop = .sub ∨ aop = .mul ∨ aop = .div := by
      cases o <;> cases ho <;> simp_all [BinOp.isBitwise]
    have hresult := hleft.keeps.slotIn hx.result
    cases hover : (x.kind.eval aop a b).overflow
    · -- the result that was left fits
      have hvalue : x.kind.evalSaturating aop a b = (x.kind.eval aop a b).value := by
        unfold IntKind.evalSaturating
        dsimp only
        rw [hover, Bool.not_false, if_pos rfl]
      have hskip : 3 ∉ marks (x.nearest o ++ [set x.result]) := by
        have hset : marks [set x.result] = [] := rfl
        rw [marks_append, hset, List.append_nil]
        unfold nearest
        split <;> dsimp only <;> (try split) <;>
          simp [select, hx.left.marks, hx.right.marks, lit, op, jump, jumpIfNot, Item.mark?]
      refine ⟨locals', 3 :: ((marks (x.nearest o ++ [set x.result])).reverse ++ seen), hleft.keeps,
        fun rest => ?_⟩
      have hcode : x.finishArith o .saturating slot ++ rest =
          get x.overflow :: jumpIfNot 3 :: ((x.nearest o ++ [set x.result]) ++
            .mark 3 :: get x.result :: rest) := by
        rw [finishArith, if_neg hwraps]
        simp
      rw [hcode, walk_get hleft.overflow (by simp), hover, walk_jumpIfNot h3 _ (by simp [depth]),
        if_neg Bool.false_ne_true, walk_skip_past hskip, walk_mark_self,
        walk_get hleft.result (by simp), hvalue]
    · obtain ⟨seen', hseen', hnearest⟩ := walk_nearest memory hx hleft.keeps hseen ho hover hform
      refine ⟨locals'.setIfInBounds x.result (x.kind.evalSaturating aop a b), 3 :: seen',
        hleft.keeps.set hx.le_result, fun rest => ?_⟩
      rw [finishArith, if_neg hwraps]
      simp only [List.append_assoc, List.cons_append, List.nil_append]
      rw [walk_get hleft.overflow (by simp), hover, walk_jumpIfNot h3 _ (by simp [depth]),
        if_pos rfl, hnearest, walk_set hresult (by simp [depth]), walk_mark,
        walk_get hresult.holds (by simp)]

end Finish

/-- The two parts of an operation do what the operation does in its mode. -/
theorem follows_arith (hx : x.Ready link n locals a b) {aop : ArithOp} (ho : o.arith? = some aop)
    (hbitwise : o.isBitwise = false) (mode : ArithMode) {slot slot' : Nat} {p : UInt64}
    (hslot : x.exactScratch o ≠ 0 → x.Spare n locals slot)
    (hcell : mode = .checked → HeapRoom memory p ∧ x.Spare n locals slot' ∧
      x.Spare n locals (slot' + 1) ∧
      slot' ≠ x.overflow ∧ slot' + 1 ≠ x.overflow) :
    Follows link n ⟨[], locals, memory⟩ (x.exactArith o (mode == .checked) slot ++
      x.finishArith o mode slot') p (mode == .checked) (foldArith aop mode x.kind a b) := by
  by_cases hmode : mode = .checked
  · -- the cell gets the flag times the status of a failure
    subst hmode
    obtain ⟨hheap, hspare, hnext, hne, hne'⟩ := hcell rfl
    obtain ⟨locals', seen, hleft, -, hwalk⟩ :=
      leaves_exactArith memory hx ho hbitwise hslot true fun _ => rfl
    obtain ⟨locals'', hkeeps, hfinish⟩ := walk_checked hleft hheap hspare hnext hne hne'
    have hpops : Pops link n ⟨[], locals, memory⟩
        (x.exactArith o true slot ++ x.finishArith o .checked slot') p
        (checkedCell memory p (flagWord ((x.kind.eval aop a b).overflow ||
          (x.kind.eval aop a b).divByZero) *
          wordOfInt Ssa.arithmeticStatus) (x.kind.eval aop a b).value) := by
      refine ⟨locals'', seen, hkeeps, fun rest => ?_⟩
      rw [List.append_assoc, hwalk, hfinish]
    have hone : flagWord true * wordOfInt Ssa.arithmeticStatus = wordOfInt Ssa.arithmeticStatus :=
      UInt64.one_mul _
    have hnone : flagWord false * wordOfInt Ssa.arithmeticStatus = 0 := UInt64.zero_mul
    unfold foldArith
    dsimp only
    cases hzero : (x.kind.eval aop a b).divByZero
    · rw [hzero, Bool.or_false] at hpops
      cases hover : (x.kind.eval aop a b).overflow
      · rw [hover, hnone] at hpops
        exact hpops
      · rw [hover, hone] at hpops
        exact ⟨rfl, _, hpops⟩
    · rw [hzero, Bool.or_true, hone] at hpops
      exact ⟨rfl, _, hpops⟩
  have hnonzero (hzero : (x.kind.eval aop a b).divByZero = false) :
      ∃ locals' seen, x.Left n locals (x.kind.eval aop a b).value
        (x.kind.eval aop a b).overflow locals' ∧
        (∀ k ∈ seen, k < 3) ∧ ∀ rest, walk link []
          (x.exactArith o (mode == .checked) slot ++ x.finishArith o mode slot' ++ rest) none
            ⟨[], locals, memory⟩ =
          walk link seen (x.finishArith o mode slot' ++ rest) none ⟨[], locals', memory⟩ := by
    obtain ⟨locals', seen, hleft, hseen, hwalk⟩ := leaves_exactArith memory hx ho hbitwise hslot
      (mode == .checked) (fun htrue => absurd (hzero.symm.trans htrue) (by decide))
    rw [hzero, Bool.or_false] at hleft
    exact ⟨locals', seen, hleft, hseen, fun rest => by rw [List.append_assoc, hwalk]⟩
  have hstops (hzero : (x.kind.eval aop a b).divByZero = true) (rest : List Item) :
      walk link [] (x.exactArith o false slot ++ x.finishArith o mode slot' ++ rest) none
        ⟨[], locals, memory⟩ = some (.trap .divByZero) := by
    rw [List.append_assoc]
    exact walk_exactArith_zero hx ho hzero _
  unfold foldArith
  dsimp only
  cases hzero : (x.kind.eval aop a b).divByZero
  · cases mode with
    | trap =>
      obtain ⟨locals', seen, hleft, -, hwalk⟩ := hnonzero hzero
      have hfinish (rest : List Item) :
          walk link seen (x.finishArith o .trap slot' ++ rest) none ⟨[], locals', memory⟩ =
          if (x.kind.eval aop a b).overflow then some
            (.goes (.failure .overflow) ⟨[], locals', memory⟩)
          else walk link seen rest none ⟨[(x.kind.eval aop a b).value], locals', memory⟩ := by
        simp only [finishArith, List.cons_append, List.nil_append]
        rw [walk_get hleft.overflow (by simp), walk_failIf _ _ (by simp [depth]),
          walk_get hleft.result (by simp)]
      cases hover : (x.kind.eval aop a b).overflow
      · refine ⟨locals', seen, hleft.keeps, fun rest => ?_⟩
        rw [hwalk, hfinish, hover, if_neg Bool.false_ne_true]
      · refine ⟨locals', fun rest => ?_⟩
        rw [hwalk, hfinish, hover, if_pos rfl]
    | wrapping =>
      obtain ⟨locals', seen, hleft, -, hwalk⟩ := hnonzero hzero
      refine ⟨locals', seen, hleft.keeps, fun rest => ?_⟩
      rw [hwalk]
      exact walk_get hleft.result (by simp)
    | saturating =>
      obtain ⟨locals', seen, hleft, hseen, hwalk⟩ := hnonzero hzero
      obtain ⟨locals'', seen', hkeeps, hfinish⟩ :=
        walk_saturating memory slot' hx ho hbitwise hleft hseen
      exact ⟨locals'', seen', hkeeps, fun rest => (hwalk rest).trans (hfinish rest)⟩
    | checked => exact absurd rfl hmode
  · cases mode with
    | trap => exact hstops hzero
    | wrapping => exact hstops hzero
    | saturating => exact hstops hzero
    | checked => exact absurd rfl hmode

end ArithInput

end ContractCompiler.Codegen
