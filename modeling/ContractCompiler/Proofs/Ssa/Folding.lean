import ContractCompiler.Proofs.Ssa.FoldedWords
import ContractCompiler.Proofs.Ssa.Origins
import ContractCompiler.Proofs.Ssa.PassSteps

/-!
# Folded instructions would have yielded their constants

An instruction is replaced by a constant only if every evaluation of it would have succeeded with
this constant. Folding goes in rounds, so its own results are the constants of later rounds, and the
operands are replaced in between; what is compared with the evaluation of the module that folding
started from is the module at any time.

There is one exception. The status of an error result may be zero, which makes it a success when it
is asked for, but not when it is folded. What is said here holds up to the first such result.

- `yields_of_foldsTo`: a single instruction;
- `Refines`: whatever a value is bound to, another one is bound to at some time;
- `FoldedFrom`: what folding has made of a module;
- `keptByFolding_foldedFrom`: every change keeps it so;
- `constFold_exact`: the instructions that are constants after folding;
- `constFold_exact_of_namesErrors`: no exception, if every error is named by a constant other than
  zero;
- `constFold_inexact`: the exception.
-/

namespace ContractCompiler.Ssa

section

variable [Hashing] {ctx : EvalContext} {m m' : Module} {limits : EvalLimits} {Q : Config → Prop}

/-! ## A single instruction -/

/-- What the definition of an operand says in one module is true of what an operand is bound to in
an evaluation of another one. -/
structure Agrees (m m' : Module) (v v' : ValueId) (x : Val) : Prop where
  type : m'.valueType v' = m.valueType v
  word : ∀ a, m'.constWord? v' = some a → x.toWord = a
  status : ∀ ok value, m'.dataOf? v' = some (.makeResult ok value) →
    ∃ status, x.fields[0]? = some status ∧ (status.toWord == 0) = ok

/-- An instruction yields the constant that it is folded into, if its operands are bound to what
folding takes them for. -/
theorem yields_of_foldsTo (htyped : m'.Typed ctx.types) (hfits : m'.values.size ≤ invalidId)
    {σ : ValueId → ValueId} {d : InstData} {t : TypeId}
    (htype : InstType (m'.typeContext ctx.types) (d.mapOperands σ) t) {data : InstData}
    (hfolds : FoldsTo ctx.types m' t (d.mapOperands σ) data) {w : UInt64}
    (hw : data.constWord? = some w) {inst : Inst} (hdata : inst.data = d) {env : Env}
    (hagrees : ∀ v ∈ d.operands, ∃ x, env[v]? = some x ∧ Agrees ctx.module m' v (σ v) x)
    (s : Store) : Eval.Yields (ctx.evalInst inst env) s (.word w) s := by
  unfold EvalContext.evalInst
  rw [hdata]
  cases d with
  | binary op mode left right =>
    cases hfolds with
    | binary hmode ha hb hfold =>
      obtain ⟨x, hx, hleft⟩ := hagrees left List.mem_cons_self
      obtain ⟨y, hy, hright⟩ := hagrees right (List.mem_cons_of_mem _ List.mem_cons_self)
      obtain rfl := Option.some.inj (hw.symm.trans (word_of_foldedBinary htype hmode hfold))
      -- the kind that is folded with is that of the replaced operand, which has the type of the
      -- original one
      rw [hleft.type] at hfold
      simp only [Eval.yields_bind, yields_word]
      refine ⟨_, s, ⟨x, hx, hleft.word _ ha, rfl⟩, _, s, ⟨y, hy, hright.word _ hb, rfl⟩, ?_⟩
      show Eval.Yields (evalBinary op mode (ctx.types.intKind (ctx.module.valueType left)) _ _)
        s _ s
      rw [evalBinary_of_word? hmode hfold]
      exact Eval.yields_pure.mpr ⟨rfl, rfl⟩
  | unary op mode src =>
    cases hfolds with
    | unary ha hfold =>
      obtain ⟨x, hx, hsrc⟩ := hagrees src List.mem_cons_self
      obtain ⟨w', hw', hmode, hword⟩ := word_of_foldedUnary htyped hfits htype ha hfold
      obtain rfl := Option.some.inj (hw.symm.trans hw')
      rw [hsrc.type] at hword
      simp only [Eval.yields_bind, yields_word]
      refine ⟨_, s, ⟨x, hx, hsrc.word _ ha, rfl⟩, ?_⟩
      show Eval.Yields (evalUnary op mode (ctx.types.intKind (ctx.module.valueType src)) _) s _ s
      rw [evalUnary_of_unaryWord hmode hword]
      exact Eval.yields_pure.mpr ⟨rfl, rfl⟩
  | cast mode target src =>
    cases hfolds with
    | cast ha hfold =>
      obtain ⟨x, hx, hsrc⟩ := hagrees src List.mem_cons_self
      obtain rfl := Option.some.inj hw
      rw [hsrc.type] at hfold
      simp only [Eval.yields_bind, yields_word]
      refine ⟨_, s, ⟨x, hx, hsrc.word _ ha, rfl⟩, ?_⟩
      show Eval.Yields (ofFolded (foldCast mode (ctx.types.intKind (ctx.module.valueType src)) _ _))
        s _ s
      rw [ofFolded_of_word? hfold]
      exact Eval.yields_pure.mpr ⟨rfl, rfl⟩
  | resultIsOk src =>
    cases hfolds with
    | @resultIsOk _ made ok value hdef hmade =>
      obtain ⟨x, hx, hsrc⟩ := hagrees src List.mem_cons_self
      have hdata' : m'.dataOf? (σ src) = some (.makeResult ok value) := by
        unfold Module.dataOf?
        rw [hdef, Option.map_some, hmade]
      obtain ⟨status, hstatus, hok⟩ := hsrc.status ok value hdata'
      obtain rfl := Option.some.inj hw
      simp only [Eval.yields_bind, yields_value, yields_fieldOf]
      refine ⟨x, s, ⟨hx, rfl⟩, status, s, ⟨hstatus, rfl⟩, ?_⟩
      rw [hok]
      exact Eval.yields_pure.mpr ⟨rfl, rfl⟩
  | _ => cases hfolds

/-! ## Error results -/

/-- The next instruction makes an error result whose status is zero. -/
def Config.MakesZeroError (m : Module) (c : Config) : Prop :=
  ∃ i inst value x, c.frame.rest.head? = some i ∧ m.insts[i]? = some inst ∧
    inst.data = .makeResult false value ∧ c.frame.env[value.getD invalidId]? = some x ∧ x.toWord = 0

/-- A result that is made has the status of a success if it is made as one, unless it is an error
with this status. -/
theorem status_of_makeResult {c : Config} (hmeets : ¬c.MakesZeroError m) {i : InstId}
    (hnext : c.frame.rest.head? = some i) {inst : Inst}
    (hinst : m.insts[i]? = some inst) {ok : Bool} {value : Option ValueId}
    (hdata : inst.data = .makeResult ok value) {s s' : Store} {x : Val}
    (hyields : Eval.Yields (ctx.evalInst inst c.frame.env) s x s') :
    ∃ status, x.fields[0]? = some status ∧ (status.toWord == 0) = ok := by
  unfold EvalContext.evalInst at hyields
  rw [hdata] at hyields
  match ok, value with
  | true, none =>
    obtain ⟨rfl, -⟩ := Eval.yields_pure.mp hyields
    exact ⟨_, rfl, rfl⟩
  | true, some v =>
    simp only [Eval.yields_bind, yields_value, Eval.yields_pure] at hyields
    obtain ⟨y, _, -, rfl, -⟩ := hyields
    exact ⟨_, rfl, rfl⟩
  | false, value =>
    simp only [Eval.yields_bind, yields_word, Eval.yields_pure] at hyields
    obtain ⟨code, _, ⟨y, hy, hcode, -⟩, rfl, -⟩ := hyields
    refine ⟨.word code, rfl, beq_eq_false_iff_ne.mpr ?_⟩
    rintro rfl
    exact hmeets ⟨i, inst, value, y, hnext, hinst, hdata, hy, hcode⟩

/-! ## The module at any time -/

section

variable (ctx : EvalContext) (limits : EvalLimits) (Q : Config → Prop)

/-- Whatever a value is bound to at some time, another one of its type is bound to at some time. -/
def Refines (v v' : ValueId) : Prop :=
  ∀ x, Takes ctx limits Q v x → Takes ctx limits Q v' x ∧
    ctx.module.valueType v' = ctx.module.valueType v

/-- Whenever it is the turn of an instruction, it yields a word and changes nothing. -/
def AlwaysYields (i : InstId) (inst : Inst) (w : UInt64) : Prop :=
  ∀ c, Visited ctx limits Q c → c.frame.rest.head? = some i →
    Eval.Yields (ctx.evalInst inst c.frame.env) c.store (.word w) c.store

/-- What has become of an instruction: its operands were replaced, or it has become a constant. -/
inductive InstFolded (i : InstId) (inst : Inst) : InstData → Prop where
  | kept {σ : ValueId → ValueId} (hσ : ∀ v ∈ inst.data.operands, Refines ctx limits Q v (σ v)) :
      InstFolded i inst (inst.data.mapOperands σ)
  | const {data : InstData} {w : UInt64} (hw : data.constWord? = some w)
      (hcall : inst.data.callee? = none) (hyields : AlwaysYields ctx limits Q i inst w) :
        InstFolded i inst data

/-- What folding has made of a module. -/
structure FoldedFrom (m' : Module) : Prop where
  values : m'.values = ctx.module.values
  insts : ∀ i inst', m'.insts[i]? = some inst' → ∃ inst, ctx.module.insts[i]? = some inst ∧
    inst'.result = inst.result ∧ InstFolded ctx limits Q i inst inst'.data

end

theorem Refines.refl (v : ValueId) : Refines ctx limits Q v v := fun _ hv => ⟨hv, rfl⟩

theorem Refines.trans {u v w : ValueId} (h : Refines ctx limits Q u v)
    (h' : Refines ctx limits Q v w) :
    Refines ctx limits Q u w := by
  intro x hu
  obtain ⟨hv, htype⟩ := h x hu
  obtain ⟨hw, htype'⟩ := h' x hv
  exact ⟨hw, htype'.trans htype⟩

theorem foldedFrom_refl : FoldedFrom ctx limits Q ctx.module := by
  refine ⟨rfl, fun i inst hinst => ⟨inst, hinst, rfl, ?_⟩⟩
  have hkept : InstFolded ctx limits Q i inst (inst.data.mapOperands id) := .kept fun v _ => .refl v
  rwa [mapOperands_id] at hkept

namespace FoldedFrom

variable {requireReachable : Bool} (h : FoldedFrom ctx limits Q m')
  (hverify : ctx.module.verify requireReachable = [])

include h

theorem valueType_eq (v : ValueId) : m'.valueType v = ctx.module.valueType v := by
  unfold Module.valueType
  rw [h.values]

include hverify

/-- What a value is bound to that the module still defines by an instruction, other than a call, was
the outcome of what this instruction has come from. -/
theorem exists_computed {v : ValueId} {x : Val}
    (hv : Takes ctx limits Q v x) {data : InstData} (hdata : m'.dataOf? v = some data)
    (hcall : data.callee? = none) : ∃ i inst, ctx.module.insts[i]? = some inst ∧
      InstFolded ctx limits Q i inst data ∧ Computed ctx limits Q i inst x := by
  obtain ⟨i, inst', hsite, hinst', rfl⟩ := Module.dataOf?_eq_some.mp hdata
  obtain ⟨inst, hinst, -, hfolded⟩ := h.insts i inst' hinst'
  have hsite' : ctx.module.siteOf? v = some (.inst i) := by
    unfold Module.siteOf? at hsite ⊢
    rwa [h.values] at hsite
  have hcall' : inst.data.callee? = none := by
    revert hcall hfolded
    generalize inst'.data = data
    intro hcall hfolded
    cases hfolded with
    | kept => rwa [InstData.callee?_mapOperands] at hcall
    | const _ hcall' => exact hcall'
  exact ⟨i, inst, hinst, hfolded, hv.computed hverify hsite' hinst hcall'⟩

/-- What is a constant now has always had its word. -/
theorem toWord_eq {v : ValueId} {x : Val} (hv : Takes ctx limits Q v x) {a : UInt64}
    (ha : m'.constWord? v = some a) : x.toWord = a := by
  obtain ⟨inst', hdef, hconst⟩ := Option.bind_eq_some_iff.mp ha
  have hdata : m'.dataOf? v = some inst'.data := by
    unfold Module.dataOf?
    rw [hdef, Option.map_some]
  generalize inst'.data = data at hconst hdata
  have hcall : data.callee? = none := by
    cases data with
    | call => cases hconst
    | _ => rfl
  obtain ⟨i, inst, -, hfolded, c, _, hvisited, -, hnext, hyields⟩ :=
    h.exists_computed hverify hv hdata hcall
  cases hfolded with
  | kept =>
    -- it was a constant from the start
    rw [InstData.constWord?_mapOperands] at hconst
    exact toWord_of_constWord? hyields hconst
  | const hw _ halways =>
    -- it has become one: the outcome is the only one that the instruction has at this time
    obtain rfl := Option.some.inj (hw.symm.trans hconst)
    obtain ⟨rfl, -⟩ := hyields.unique (halways c hvisited hnext)
    rfl

/-- What defines a value now, if it is neither a call nor a constant, is what has defined it, with
operands that were replaced. -/
theorem exists_kept {v : ValueId} {x : Val} (hv : Takes ctx limits Q v x) {data : InstData}
    (hdata : m'.dataOf? v = some data)
    (hcall : data.callee? = none) (hconst : data.constWord? = none) :
    ∃ i inst σ, ctx.module.insts[i]? = some inst ∧ inst.data.mapOperands σ = data ∧
      (∀ u ∈ inst.data.operands, Refines ctx limits Q u (σ u)) ∧
      Computed ctx limits Q i inst x := by
  obtain ⟨i, inst, hinst, hfolded, hcomputed⟩ := h.exists_computed hverify hv hdata hcall
  cases hfolded with
  | @kept σ hσ => exact ⟨i, inst, σ, hinst, rfl, hσ, hcomputed⟩
  | const hw => cases hw.symm.trans hconst

/-- What is a success now has always had the status of one. -/
theorem status_eq (hQ : ∀ c, Q c → ¬c.MakesZeroError ctx.module) {v : ValueId} {x : Val}
    (hv : Takes ctx limits Q v x) {ok : Bool} {value : Option ValueId}
    (hdata : m'.dataOf? v = some (.makeResult ok value)) :
    ∃ status, x.fields[0]? = some status ∧ (status.toWord == 0) = ok := by
  obtain ⟨i, inst, σ, hinst, hmap, -, c, _, -, hmeets, hnext, hyields⟩ :=
    h.exists_kept hverify hv hdata rfl rfl
  cases hsource : inst.data with
  | makeResult =>
    rw [hsource] at hmap
    cases hmap
    exact status_of_makeResult (hQ c hmeets) hnext hinst hsource hyields
  | _ =>
    rw [hsource] at hmap
    cases hmap

/-- A field was taken out of what the struct was bound to then. -/
theorem takes_base {v base : ValueId} {index : Nat} {x : Val} (hv : Takes ctx limits Q v x)
    (hdata : m'.dataOf? v = some (.extract base index)) :
    ∃ y, Takes ctx limits Q base y ∧ y.fields[index]? = some x := by
  obtain ⟨i, inst, σ, -, hmap, hσ, c, _, hvisited, -, -, hyields⟩ :=
    h.exists_kept hverify hv hdata rfl rfl
  cases hsource : inst.data with
  | extract base' index' =>
    rw [hsource] at hmap hσ
    cases hmap
    unfold EvalContext.evalInst at hyields
    rw [hsource] at hyields
    simp only [Eval.yields_bind, yields_value, yields_fieldOf] at hyields
    obtain ⟨y, _, ⟨hy, -⟩, hx, -⟩ := hyields
    exact ⟨y, (hσ base' List.mem_cons_self y ⟨c, hvisited, hy⟩).1, hx⟩
  | _ =>
    rw [hsource] at hmap
    cases hmap

/-- A struct was made of what its fields were bound to then. -/
theorem takes_field {v w : ValueId} {fields : List ValueId} {index : Nat} {x y : Val}
    (hv : Takes ctx limits Q v y) (hdata : m'.dataOf? v = some (.makeStruct fields))
    (hw : fields[index]? = some w) (hx : y.fields[index]? = some x) : Takes ctx limits Q w x := by
  obtain ⟨i, inst, σ, -, hmap, hσ, c, _, hvisited, -, -, hyields⟩ :=
    h.exists_kept hverify hv hdata rfl rfl
  cases hsource : inst.data with
  | makeStruct fields' =>
    rw [hsource] at hmap hσ
    cases hmap
    unfold EvalContext.evalInst at hyields
    rw [hsource] at hyields
    simp only [Eval.yields_bind, yields_valueList, Eval.yields_pure] at hyields
    obtain ⟨ys, _, ⟨hys, -⟩, rfl, -⟩ := hyields
    rw [List.getElem?_map] at hw
    obtain ⟨u, hu, rfl⟩ := Option.map_eq_some_iff.mp hw
    obtain ⟨z, hz, hbound⟩ := getElem?_of_forall₂ hys hu
    obtain rfl := Option.some.inj (hx.symm.trans hz)
    exact (hσ u (List.mem_of_getElem? hu) x ⟨c, hvisited, hbound⟩).1
  | _ =>
    rw [hsource] at hmap
    cases hmap

/-- The value that was put into a struct has been bound to whatever a field taken out of the struct
was. -/
theorem refines_of_forwards (htyped : m'.Typed ctx.types) (hfits : m'.values.size ≤ invalidId)
    {v w : ValueId} (hforward : m'.Forwards v w) : Refines ctx limits Q v w := by
  intro x hv
  have hforward' := hforward
  obtain ⟨base, index, fields, hextract, hmade, hfield⟩ := hforward'
  obtain ⟨y, hbase, hx⟩ := h.takes_base hverify hv hextract
  have hw : Takes ctx limits Q w x := h.takes_field hverify hbase hmade hfield hx
  -- an operand may be out of range, but not one that has been bound
  have hlt : w < m'.values.size := by
    rw [h.values]
    exact hw.lt_size hverify
  refine ⟨hw, ?_⟩
  rw [← h.valueType_eq, ← h.valueType_eq]
  exact hforward.valueType_eq htyped hfits hlt

/-- So has the value that another one is replaced by, over any number of replacements. -/
theorem refines_followFor (htyped : m'.Typed ctx.types) (hfits : m'.values.size ≤ invalidId)
    {s : Substitution} (hs : s.Forwards m') (n : Nat) (v : ValueId) :
    Refines ctx limits Q v (s.followFor n v) := by
  induction n generalizing v with
  | zero => exact .refl v
  | succ n ih =>
    unfold Substitution.followFor
    split
    · exact .refl v
    · rename_i w hw
      split
      · exact .refl v
      · exact (h.refines_of_forwards hverify htyped hfits (hs v w hw)).trans (ih w)

end FoldedFrom

/-! ## Changes -/

/-- An instruction that is folded has always yielded its constant. -/
theorem FoldedFrom.setData {requireReachable : Bool}
    (hverify : ctx.module.verify requireReachable = [])
    (hQ : ∀ c, Q c → ¬c.MakesZeroError ctx.module) (h : FoldedFrom ctx limits Q m')
    (htyped : m'.Typed ctx.types) (hfits : m'.values.size ≤ invalidId) {i : InstId} {inst' : Inst}
    {data : InstData} (hinst' : m'.insts[i]? = some inst')
    (hfold : foldedData? ctx.types m' inst' = some data) :
    FoldedFrom ctx limits Q (m'.setData i inst' data) := by
  refine ⟨h.values, fun j inst'' hinst'' => ?_⟩
  rw [getElem?_insts_setData hinst'] at hinst''
  split at hinst''
  · rename_i heq
    subst heq
    obtain rfl := Option.some.inj hinst''
    obtain ⟨inst, hinst, hresult, hfolded⟩ := h.insts i inst' hinst'
    obtain ⟨t, htype, hr, -⟩ := htyped.inst i inst' hinst'
    obtain ⟨r, hr', hfolds⟩ := foldsTo_of_foldedData? hfold
    obtain ⟨w, hw⟩ := constWord?_of_foldedData? hfold
    rw [Ssa.valueType_eq (hr r hr').typeIn] at hfolds
    refine ⟨inst, hinst, hresult, ?_⟩
    generalize inst'.data = source at htype hfolds hfolded
    cases hfolded with
    | @kept σ hσ =>
      refine .const hw ?_ fun c hvisited hnext => ?_
      · -- a call is not folded
        rw [← InstData.callee?_mapOperands σ]
        generalize inst.data.mapOperands σ = source at hfolds
        cases hfolds <;> rfl
      · refine yields_of_foldsTo htyped hfits htype hfolds hw rfl (fun v hv => ?_) c.store
        obtain ⟨x, hx, htakes⟩ := hvisited.operands hverify hnext hinst hv
        obtain ⟨htakes', htype'⟩ := hσ v hv x htakes
        exact ⟨x, hx, (h.valueType_eq _).trans htype', fun a => h.toWord_eq hverify htakes',
          fun ok value => h.status_eq hverify hQ htakes'⟩
    | const hconst =>
      -- a constant is not folded again
      cases hfolds <;> cases hconst
  · exact h.insts j inst'' hinst''

/-- Values are replaced by values that have been bound to the same. -/
theorem FoldedFrom.substitute {requireReachable : Bool}
    (hverify : ctx.module.verify requireReachable = []) (h : FoldedFrom ctx limits Q m')
    (htyped : m'.Typed ctx.types) (hfits : m'.values.size ≤ invalidId) {s : Substitution}
    (hs : s.Forwards m') : FoldedFrom ctx limits Q (m'.substitute s) := by
  rw [substitute_eq]
  refine ⟨h.values, fun i inst'' hinst'' => ?_⟩
  rw [Module.getElem?_insts_mapOperands] at hinst''
  obtain ⟨inst', hinst', rfl⟩ := Option.map_eq_some_iff.mp hinst''
  obtain ⟨inst, hinst, hresult, hfolded⟩ := h.insts i inst' hinst'
  refine ⟨inst, hinst, hresult, ?_⟩
  dsimp only
  generalize inst'.data = data at hfolded
  cases hfolded with
  | kept hσ =>
    rw [InstData.mapOperands_mapOperands]
    exact .kept fun v hv => (hσ v hv).trans (h.refines_followFor hverify htyped hfits hs _ _)
  | const hw hcall hyields =>
    refine .const ?_ hcall hyields
    rw [InstData.constWord?_mapOperands]
    exact hw

theorem keptByFolding_foldedFrom {requireReachable : Bool}
    (hverify : ctx.module.verify requireReachable = [])
    (hQ : ∀ c, Q c → ¬c.MakesZeroError ctx.module) :
    KeptByFolding ctx.types (FoldedFrom ctx limits Q) where
  fold htyped hfits h hinst hfold := h.setData hverify hQ htyped hfits hinst hfold
  forward htyped hfits h hs := h.substitute hverify htyped hfits hs
  count h := ⟨h.values, h.insts⟩

/-! ## Folding -/

/-- Where folding leaves a constant, every evaluation yields it: in a typed module in which the
verifier finds nothing wrong, an instruction that is a constant after folding succeeds with this
constant and changes nothing, whenever it is its turn in a call that has made no error result of
status zero before. -/
theorem constFold_exact {requireReachable : Bool}
    (hverify : ctx.module.verify requireReachable = []) (htyped : ctx.module.Typed ctx.types)
    (hfits : ctx.module.values.size ≤ invalidId) {i : InstId} {inst inst' : Inst}
    (hinst : ctx.module.insts[i]? = some inst)
    (hinst' : (ctx.module.constFold ctx.types).1.insts[i]? = some inst') {w : UInt64}
    (hw : inst'.data.constWord? = some w) {c : Config}
    (hvisited : Visited ctx limits (fun c => ¬c.MakesZeroError ctx.module) c)
    (hnext : c.frame.rest.head? = some i) :
    Eval.Yields (ctx.evalInst inst c.frame.env) c.store (.word w) c.store := by
  have hkept :
      KeptByFolding ctx.types (FoldedFrom ctx limits fun c => ¬c.MakesZeroError ctx.module) :=
    keptByFolding_foldedFrom hverify fun _ hc => hc
  obtain ⟨source, hsource, -, hfolded⟩ := (hkept.constFold htyped hfits foldedFrom_refl).insts i
    inst' hinst'
  obtain rfl := Option.some.inj (hinst.symm.trans hsource)
  generalize inst'.data = data at hw hfolded
  cases hfolded with
  | kept =>
    -- it was a constant before
    rw [InstData.constWord?_mapOperands] at hw
    exact yields_of_constWord? hw _ _
  | const hw' _ hyields =>
    obtain rfl := Option.some.inj (hw'.symm.trans hw)
    exact hyields c hvisited hnext

/-- Every error result is made with a constant other than zero as its status. -/
def Module.NamesErrors (m : Module) : Prop :=
  ∀ (i : InstId) inst value, m.insts[i]? = some inst → inst.data = .makeResult false value →
    ∃ v w, value = some v ∧ m.constWord? v = some w ∧ w ≠ 0

theorem Visited.not_makesZeroError {requireReachable : Bool} {c : Config}
    (hvisited : Visited ctx limits Q c) (hverify : ctx.module.verify requireReachable = [])
    (herrors : ctx.module.NamesErrors) : ¬c.MakesZeroError ctx.module := by
  rintro ⟨i, inst, value, x, -, hinst, hdata, hx, hzero⟩
  obtain ⟨v, w, rfl, hw, hne⟩ := herrors i inst value hinst hdata
  have htakes : Takes ctx limits Q v x := ⟨c, hvisited, hx⟩
  exact hne ((foldedFrom_refl.toWord_eq hverify htakes hw).symm.trans hzero)

/-- If all errors are named by constants other than zero, there is no exception. -/
theorem constFold_exact_of_namesErrors {requireReachable : Bool}
    (hverify : ctx.module.verify requireReachable = []) (htyped : ctx.module.Typed ctx.types)
    (hfits : ctx.module.values.size ≤ invalidId) (herrors : ctx.module.NamesErrors) {i : InstId}
    {inst inst' : Inst} (hinst : ctx.module.insts[i]? = some inst)
    (hinst' : (ctx.module.constFold ctx.types).1.insts[i]? = some inst') {w : UInt64}
    (hw : inst'.data.constWord? = some w) {id : FuncId} {args : List UInt64} {ledger : Ledger}
    {f : Function} {start c : Config}
    (hstart : ctx.module.startEval id args ledger limits = .ok (f, start))
    (hruns : Runs ctx limits start c) (hnext : c.frame.rest.head? = some i) :
    Eval.Yields (ctx.evalInst inst c.frame.env) c.store (.word w) c.store :=
  constFold_exact hverify htyped hfits hinst hinst' hw
    (visited_of_runs hstart hruns fun _ _ hvisited => hvisited.not_makesZeroError hverify herrors)
      hnext

end

/-! ## The exception -/

/-- The types of a program with results that have numbers as payload. -/
def numberResults : TypeId × TypePool := ({} : TypePool).result Builtin.u64.id

/-- A function that returns whether an error of status zero is no success. -/
def zeroErrorModule : Module where
  functions := #[{ name := "f", ret := Builtin.bool.id, blocks := [0], entry := some 0 }]
  blocks := #[{ insts := [0, 1, 2, 3], term := some (.ret (some 3)) }]
  insts := #[{ data := .constInt 0, result := some 0 },
             { data := .makeResult false (some 0), result := some 1 },
             { data := .resultIsOk 1, result := some 2 },
             { data := .unary .not .wrapping 2, result := some 3 }]
  values := #[{ type := Builtin.i32.id, site := .inst 0 },
              { type := numberResults.1, site := .inst 1 },
              { type := Builtin.bool.id, site := .inst 2 },
              { type := Builtin.bool.id, site := .inst 3 }]

theorem typed_zeroErrorModule : zeroErrorModule.Typed numberResults.2 := by
  have hint : numberResults.2.isInteger Builtin.i32.id = true := by decide +kernel
  have hbool : numberResults.2.isBool Builtin.bool.id = true := by decide +kernel
  have helem : numberResults.2.resultElem? numberResults.1 = some Builtin.u64.id := by
    decide +kernel
  have htype : ∀ (i : InstId) inst, zeroErrorModule.insts[i]? = some inst →
      inst.result = some i ∧ ∃ value, zeroErrorModule.values[i]? = some value ∧
        value.site = .inst i ∧
        InstType (zeroErrorModule.typeContext numberResults.2) inst.data value.type := by
    intro i inst hinst
    match i, hinst with
    | 0, rfl => exact ⟨rfl, _, rfl, rfl, .constInt hint⟩
    | 1, rfl => exact ⟨rfl, _, rfl, rfl, .err helem (by rintro v ⟨⟩; exact .inr rfl)⟩
    | 2, rfl => exact ⟨rfl, _, rfl, rfl, .resultIsOk (.inr rfl) helem hbool⟩
    | 3, rfl => exact ⟨rfl, _, rfl, rfl, .not (.inr rfl) hbool⟩
  refine ⟨⟨fun i inst hinst => ?_, fun v value i hv hsite => ?_, fun v value i hv _ => ?_⟩, ?_, ?_⟩
  · obtain ⟨hresult, value, hvalue, hsite, hd⟩ := htype i inst hinst
    refine ⟨value.type, hd, fun r hr => ?_, fun hnone => ?_⟩
    · obtain rfl := Option.some.inj (hresult.symm.trans hr)
      exact ⟨value, hvalue, hsite, rfl⟩
    · cases hresult.symm.trans hnone
  · match v, hv with
    | 0, rfl | 1, rfl | 2, rfl | 3, rfl =>
      cases hsite
      exact ⟨_, rfl, rfl⟩
  · match v, hv with
    | 0, rfl | 1, rfl | 2, rfl | 3, rfl => decide +kernel
  · intro f hf e he
    obtain rfl : f = zeroErrorModule.functions[0] := by simpa [zeroErrorModule] using hf
    obtain rfl := Option.some.inj he
    exact .nil
  · intro f hf b hb v hv
    obtain rfl : f = zeroErrorModule.functions[0] := by simpa [zeroErrorModule] using hf
    obtain rfl : b = 0 := by simpa [zeroErrorModule, eq_comm] using hb
    cases hv
    exact .inr rfl

/-- An error of status zero is a success when it is asked for, so the negation yields `0`. After
folding the negation is the constant `1`. -/
theorem constFold_inexact [Hashing] (ledger : Ledger) (unit : String) :
    zeroErrorModule.verify = [] ∧ zeroErrorModule.Typed numberResults.2 ∧
      ((zeroErrorModule.constFold numberResults.2).1.insts[3]?).map (·.data) =
        some (.constBool true) ∧
      ∃ f start c inst, zeroErrorModule.startEval 0 [] ledger {} = .ok (f, start) ∧
        configAfter ⟨zeroErrorModule, numberResults.2, unit⟩ {} 3 start = some c ∧
        c.frame.rest.head? = some 3 ∧ zeroErrorModule.insts[3]? = some inst ∧
        Eval.Yields (EvalContext.evalInst ⟨zeroErrorModule, numberResults.2, unit⟩ inst c.frame.env)
          c.store (.word 0) c.store := by
  refine ⟨List.isEmpty_iff.mp (by decide +kernel), typed_zeroErrorModule, by decide +kernel, ?_⟩
  let ctx : EvalContext := ⟨zeroErrorModule, numberResults.2, unit⟩
  let s : Store := { ledger }
  let env₁ : Env := ({} : Env).insert 0 (.word 0)
  let env₂ : Env := env₁.insert 1 (.tuple [.word 0, .none])
  let env₃ : Env := env₂.insert 2 (.word 1)
  have hcode : Eval.Yields (ctx.evalInst zeroErrorModule.insts[0] {}) s (.word 0) s :=
    yields_of_constWord? rfl _ _
  have herror : Eval.Yields (ctx.evalInst zeroErrorModule.insts[1] env₁) s
      (.tuple [.word 0, .none]) s := by
    have hbound : env₁[0]? = some (.word 0) := Std.HashMap.getElem?_insert_self
    exact Eval.yields_bind.mpr
      ⟨0, s, yields_word.mpr ⟨_, hbound, rfl, rfl⟩, Eval.yields_pure.mpr ⟨rfl, rfl⟩⟩
  have hok : Eval.Yields (ctx.evalInst zeroErrorModule.insts[2] env₂) s (.word 1) s := by
    have hbound : env₂[1]? = some (.tuple [.word 0, .none]) := Std.HashMap.getElem?_insert_self
    have hstatus : Eval.Yields (fieldOf .escaped (.tuple [.word 0, .none]) 0) s (.word 0) s :=
      yields_fieldOf.mpr ⟨rfl, rfl⟩
    exact Eval.yields_bind.mpr ⟨_, s, yields_value.mpr ⟨hbound, rfl⟩,
      Eval.yields_bind.mpr ⟨_, s, hstatus, Eval.yields_pure.mpr ⟨rfl, rfl⟩⟩⟩
  have hnot : Eval.Yields (ctx.evalInst zeroErrorModule.insts[3] env₃) s (.word 0) s := by
    have hbound : env₃[2]? = some (.word 1) := Std.HashMap.getElem?_insert_self
    exact Eval.yields_bind.mpr
      ⟨1, s, yields_word.mpr ⟨_, hbound, rfl, rfl⟩, Eval.yields_pure.mpr ⟨rfl, rfl⟩⟩
  refine ⟨_, _, ⟨⟨0, [3], env₃⟩, [], 1, 3, s⟩, _,
    startEval_eq_ok.mpr ⟨rfl, rfl, rfl, by decide, 0, rfl, rfl⟩, ?_, rfl, rfl, hnot⟩
  refine (configAfter_succ (step_of_yields (by decide) rfl rfl hcode)).trans ?_
  refine (configAfter_succ (step_of_yields (by decide) rfl rfl herror)).trans ?_
  exact configAfter_succ (step_of_yields (by decide) rfl rfl hok)

end ContractCompiler.Ssa
