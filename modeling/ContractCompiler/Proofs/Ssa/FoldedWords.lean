import ContractCompiler.Proofs.Ssa.Execution
import ContractCompiler.Proofs.Ssa.PassTyping

/-!
# Words of folded instructions

An instruction that is folded becomes a constant. In a typed module the word of the constant is what
the operation makes of the words of its operands, and so it is what an evaluation yields.

- `word_of_foldedBinary`, `word_of_foldedUnary`: the word of the constant;
- `evalBinary_of_word?`, `evalUnary_of_unaryWord`: an evaluation yields it.
-/

namespace ContractCompiler.Ssa

variable {m : Module} {types : TypePool}

theorem Folded.word?_eq_some {r : Folded} {w : UInt64} :
    Folded.word? r = some w ↔ r = .value w := by
  cases r <;> simp [Folded.word?]

/-! ## Truth values -/

theorem wordOfBool_ne_zero (b : Bool) : wordOfBool (wordOfBool b != 0) = wordOfBool b := by
  cases b <;> rfl

theorem wordOfBool_eq_zero (b : Bool) : wordOfBool (wordOfBool b == 0) = wordOfBool b ^^^ 1 := by
  cases b <;> rfl

/-- What a comparison yields is a truth value. -/
theorem wordOfBool_of_compare {op : BinOp} (hop : op.isCompare = true) {mode : ArithMode}
    {k : IntKind} {a b w : UInt64} (h : Folded.word? (foldBinOp op mode k a b) = some w) :
    wordOfBool (w != 0) = w := by
  have hword : w = wordOfBool (op.holds (k.compare a b)) := by
    unfold foldBinOp at h
    cases op with
    | eq | ne | lt | le | gt | ge => exact (Option.some.inj h).symm
    | _ => cases hop
  rw [hword]
  exact wordOfBool_ne_zero _

/-! ## Constants of types -/

theorem valueType_of_constWord? (htyped : m.Typed types) (hfits : m.values.size ≤ invalidId)
    {v : ValueId} {t : TypeId} (hv : (m.typeContext types).Operand v t) {w : UInt64}
    (hw : m.constWord? v = some w) : m.valueType v = t := by
  obtain ⟨inst, hdef, -⟩ := Option.bind_eq_some_iff.mp hw
  obtain ⟨t', -, ht'⟩ := htyped.definition hdef
  rcases hv with rfl | hv
  · have hnone : (m.typeContext types).valueType invalidId = none := valueType_invalidId hfits
    cases hnone.symm.trans ht'
  · exact valueType_eq hv

/-- A truth value is a constant only as one of the two. -/
theorem exists_wordOfBool (htyped : m.Typed types) {v : ValueId}
    (ht : types.isBool (m.valueType v) = true) {w : UInt64} (hw : m.constWord? v = some w) :
    ∃ c, w = wordOfBool c := by
  obtain ⟨inst, hdef, hconst⟩ := Option.bind_eq_some_iff.mp hw
  obtain ⟨t, htype, hv⟩ := htyped.definition hdef
  obtain rfl := valueType_eq hv
  unfold InstData.constWord? at hconst
  split at hconst
  · rename_i heq
    rw [heq] at htype
    cases htype with
    | constInt hint => cases ht.symm.trans (TypePool.isBool_of_isInteger hint)
  · exact ⟨_, (Option.some.inj hconst).symm⟩
  · cases hconst

/-! ## Folded operations -/

/-- The constant of a binary operation is the word of the operation, as one of its type. -/
theorem word_of_foldedBinary {op : BinOp} {mode : ArithMode} {left right : ValueId} {t : TypeId}
    (htype : InstType (m.typeContext types) (.binary op mode left right) t)
    (hmode : mode ≠ .checked) {k : IntKind} {a b w : UInt64}
    (h : Folded.word? (foldBinOp op mode k a b) = some w) :
    (constData (types.isBool t) w).constWord? = some w := by
  unfold constData
  cases htype with
  | compare hop _ _ _ _ ht =>
    rw [show types.isBool t = true from ht, if_pos rfl]
    exact congrArg some (wordOfBool_of_compare hop h)
  | arith _ _ _ ha _ ht =>
    unfold TypeContext.OfMode at ht
    rw [if_neg hmode] at ht
    obtain rfl := ht
    have hbool : types.isBool _ = false := TypePool.isBool_of_isInteger ha
    rw [hbool, if_neg Bool.false_ne_true]
    rfl

/-- The constant of a unary operation is the word of the operation on the constant operand. Only a
truth value is negated by comparing it with zero. -/
theorem word_of_foldedUnary (htyped : m.Typed types) (hfits : m.values.size ≤ invalidId) {op : UnOp}
    {mode : ArithMode} {src : ValueId} {t : TypeId}
    (htype : InstType (m.typeContext types) (.unary op mode src) t) {a : UInt64}
    (ha : m.constWord? src = some a) {data : InstData}
    (hfold : foldedUnary? op mode (types.intKind t) a = some data) :
    ∃ w, data.constWord? = some w ∧ (op = .neg → mode ≠ .checked) ∧
      KeySearch.unaryWord op mode (types.intKind (m.valueType src)) a = some w := by
  cases htype with
  | not hsrc ht =>
    obtain rfl := valueType_of_constWord? htyped hfits hsrc ha
    obtain ⟨c, rfl⟩ := exists_wordOfBool htyped ht ha
    obtain rfl := Option.some.inj hfold
    exact ⟨_, rfl, nofun, congrArg some (wordOfBool_eq_zero c).symm⟩
  | bitNot hsrc ht =>
    obtain rfl := valueType_of_constWord? htyped hfits hsrc ha
    obtain rfl := Option.some.inj hfold
    exact ⟨_, rfl, nofun, rfl⟩
  | neg hsrc hint ht =>
    obtain rfl := valueType_of_constWord? htyped hfits hsrc ha
    dsimp only [foldedUnary?] at hfold
    split at hfold
    · cases hfold
    · rename_i hmode
      unfold TypeContext.OfMode at ht
      rw [if_neg hmode] at ht
      obtain rfl := ht
      obtain ⟨w, hw, rfl⟩ := Option.map_eq_some_iff.mp hfold
      refine ⟨w, rfl, fun _ => hmode, ?_⟩
      unfold KeySearch.unaryWord
      rw [Folded.word?_eq_some.mp hw]

/-! ## Evaluation -/

/-- A constant yields its word. -/
theorem yields_of_constWord? [Hashing] {c : EvalContext} {inst : Inst} {w : UInt64}
    (hw : inst.data.constWord? = some w) (env : Env) (s : Store) :
    Eval.Yields (c.evalInst inst env) s (.word w) s := by
  unfold EvalContext.evalInst
  cases hdata : inst.data with
  | constInt | constBool =>
    rw [hdata] at hw
    cases hw
    exact Eval.yields_pure.mpr ⟨rfl, rfl⟩
  | _ =>
    rw [hdata] at hw
    cases hw

theorem toWord_of_constWord? [Hashing] {c : EvalContext} {inst : Inst} {env : Env}
    {s s' : Store} {x : Val} {w : UInt64} (hyields : Eval.Yields (c.evalInst inst env) s x s')
    (hw : inst.data.constWord? = some w) : x.toWord = w := by
  obtain ⟨rfl, -⟩ := hyields.unique (yields_of_constWord? hw env s)
  rfl

theorem ofFolded_of_word? {r : Folded} {w : UInt64} (h : Folded.word? r = some w) :
    ofFolded r = pure (.word w) := by
  rw [Folded.word?_eq_some.mp h]
  rfl

theorem ofArith_of_word? {mode : ArithMode} (hmode : mode ≠ .checked) {r : Folded} {w : UInt64}
    (h : Folded.word? r = some w) : ofArith mode r = pure (.word w) := by
  rw [Folded.word?_eq_some.mp h]
  cases mode with
  | checked => exact absurd rfl hmode
  | _ => rfl

theorem evalBinary_of_word? {op : BinOp} {mode : ArithMode} (hmode : mode ≠ .checked) {k : IntKind}
    {a b w : UInt64} (h : Folded.word? (foldBinOp op mode k a b) = some w) :
    evalBinary op mode k a b = pure (.word w) := by
  unfold evalBinary
  dsimp only
  split
  · exact ofFolded_of_word? h
  · exact ofArith_of_word? hmode h

theorem evalUnary_of_unaryWord {op : UnOp} {mode : ArithMode} (hmode : op = .neg → mode ≠ .checked)
    {k : IntKind} {a w : UInt64} (h : KeySearch.unaryWord op mode k a = some w) :
    evalUnary op mode k a = pure (.word w) := by
  cases op with
  | not | bitNot =>
    obtain rfl := Option.some.inj h
    rfl
  | neg =>
    refine ofArith_of_word? (hmode rfl) ?_
    unfold KeySearch.unaryWord at h
    dsimp only at h
    split at h
    · rename_i hfold
      rw [hfold]
      exact h
    · cases h

end ContractCompiler.Ssa
