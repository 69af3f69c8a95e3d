import ContractCompiler.Proofs.Ssa.Dependence

/-!
# Passes as steps

What the optimiser does to a module is a sequence of four kinds of steps: something is left out, an
instruction becomes a constant, values are replaced by those that they were taken from, or the calls
of a block are inlined.

- `Module.Forwards`: a value is a field taken out of a struct that another value was put into;
- `shrinks_fold`, `shrinks_forward`: folding and forwarding only leave out;
- `PassStep`: one step;
- `FoldRound.Visit`: what folding does to one instruction;
- `KeptByFolding.constFold`: what every single change keeps is kept by folding;
- `passSteps_constFold`: folding takes such steps.
-/

namespace ContractCompiler.Ssa

open Relation

variable {m m' : Module} {types : TypePool}

/-! ## Renamed operands -/

theorem Terminator.mapOperands_id (t : Terminator) : t.mapOperands id = t := by
  cases t <;> simp [Terminator.mapOperands]

theorem InstData.callee?_mapOperands (σ : ValueId → ValueId) (d : InstData) :
    (d.mapOperands σ).callee? = d.callee? := by
  cases d <;> rfl

theorem InstData.constWord?_mapOperands (σ : ValueId → ValueId) (d : InstData) :
    (d.mapOperands σ).constWord? = d.constWord? := by
  cases d <;> rfl

theorem InstData.mapOperands_mapOperands (σ τ : ValueId → ValueId) (d : InstData) :
    (d.mapOperands σ).mapOperands τ = d.mapOperands (τ ∘ σ) := by
  cases d <;> simp [InstData.mapOperands]

theorem argsTo_mapOperands (σ : ValueId → ValueId) (t : Terminator) (b : BlockId) :
    (t.mapOperands σ).argsTo b = (t.argsTo b).map (·.map σ) := by
  cases t with
  | jump target args =>
    simp only [Terminator.mapOperands, Terminator.argsTo]
    split <;> rfl
  | branch cond tb targs eb eargs =>
    simp only [Terminator.mapOperands, Terminator.argsTo, List.map_append]
    congr 1 <;> split <;> rfl
  | _ => rfl

namespace Module

theorem mapOperands_id (m : Module) : m.mapOperands id = m := by
  have hinsts : (m.insts.map fun i => { i with data := i.data.mapOperands id }) = m.insts := by
    simp [Ssa.mapOperands_id]
  have hblocks : (m.blocks.map fun b => { b with term := b.term.map (·.mapOperands id) }) =
      m.blocks := by
    simp [Terminator.mapOperands_id]
  unfold mapOperands
  rw [hinsts, hblocks]

theorem siteOf?_mapOperands (m : Module) (σ : ValueId → ValueId) (v : ValueId) :
    (m.mapOperands σ).siteOf? v = m.siteOf? v := rfl

theorem getElem?_insts_mapOperands (m : Module) (σ : ValueId → ValueId) (i : InstId) :
    (m.mapOperands σ).insts[i]? =
      (m.insts[i]?).map fun inst => { inst with data := inst.data.mapOperands σ } :=
  Array.getElem?_map

theorem dataOf?_mapOperands (m : Module) (σ : ValueId → ValueId) (v : ValueId) :
    (m.mapOperands σ).dataOf? v = (m.dataOf? v).map (·.mapOperands σ) := by
  refine Option.ext fun data => ?_
  rw [dataOf?_eq_some, Option.map_eq_some_iff]
  simp only [dataOf?_eq_some, siteOf?_mapOperands, getElem?_insts_mapOperands,
    Option.map_eq_some_iff]
  constructor
  · rintro ⟨i, _, hsite, ⟨inst, hinst, rfl⟩, rfl⟩
    exact ⟨inst.data, ⟨i, inst, hsite, hinst, rfl⟩, rfl⟩
  · rintro ⟨_, ⟨i, inst, hsite, hinst, rfl⟩, rfl⟩
    exact ⟨i, _, hsite, ⟨inst, hinst, rfl⟩, rfl⟩

theorem exists_of_uses_mapOperands {σ : ValueId → ValueId} {v w : ValueId}
    (h : (m.mapOperands σ).Uses v w) : ∃ u, m.Uses v u ∧ σ u = w := by
  obtain ⟨data', hdata', hw⟩ := h
  rw [dataOf?_mapOperands] at hdata'
  obtain ⟨data, hdata, rfl⟩ := Option.map_eq_some_iff.mp hdata'
  rw [InstData.operands_mapOperands] at hw
  obtain ⟨u, hu, rfl⟩ := List.mem_map.mp hw
  exact ⟨u, ⟨data, hdata, hu⟩, rfl⟩

theorem exists_of_mem_usesOfBlock_mapOperands {σ : ValueId → ValueId} {b : BlockId} {w : ValueId}
    (h : w ∈ (m.mapOperands σ).usesOfBlock b) : ∃ u ∈ m.usesOfBlock b, σ u = w := by
  rw [mem_usesOfBlock, block_mapOperands] at h
  rcases h with ⟨i, hi, inst', hinst', hw⟩ | ⟨term', hterm', hw⟩
  · rw [getElem?_insts_mapOperands] at hinst'
    obtain ⟨inst, hinst, rfl⟩ := Option.map_eq_some_iff.mp hinst'
    rw [InstData.operands_mapOperands] at hw
    obtain ⟨u, hu, rfl⟩ := List.mem_map.mp hw
    exact ⟨u, mem_usesOfBlock.mpr (.inl ⟨i, hi, inst, hinst, hu⟩), rfl⟩
  · obtain ⟨term, hterm, rfl⟩ := Option.map_eq_some_iff.mp hterm'
    rw [Terminator.operands_mapOperands] at hw
    obtain ⟨u, hu, rfl⟩ := List.mem_map.mp hw
    exact ⟨u, mem_usesOfBlock.mpr (.inr ⟨term, hterm, hu⟩), rfl⟩

end Module

theorem Substitution.follow_of_isEmpty {s : Substitution} (h : s.isEmpty = true) :
    s.follow = id := by
  funext v
  have hnone : s[v]? = none := Std.HashMap.getElem?_of_isEmpty h
  unfold follow maxChain followFor
  rw [hnone]
  rfl

/-- Replacing values renames operands, also where there is nothing to replace. -/
theorem substitute_eq (m : Module) (s : Substitution) :
    m.substitute s = m.mapOperands s.follow := by
  unfold Module.substitute
  split
  · rename_i hempty
    rw [Substitution.follow_of_isEmpty hempty, Module.mapOperands_id]
  · rfl

/-! ## Forwarding -/

/-- The definition of a result is the instruction that it is the result of. -/
theorem Module.Typed.dataOf?_result (h : m.Typed types) {i : InstId} {inst : Inst}
    (hinst : m.insts[i]? = some inst) {r : ValueId} (hr : inst.result = some r) :
    m.dataOf? r = some inst.data := by
  obtain ⟨t, -, hresult, -⟩ := h.inst i inst hinst
  obtain ⟨value, hvalue, hsite, -⟩ := hresult r hr
  exact Module.dataOf?_eq_some.mpr ⟨i, inst, Module.siteOf?_of_value hvalue hsite, hinst, rfl⟩

/-- A value is a field taken out of a struct that another value was put into. -/
def Module.Forwards (m : Module) (v w : ValueId) : Prop :=
  ∃ base index fields, m.dataOf? v = some (.extract base index) ∧
    m.dataOf? base = some (.makeStruct fields) ∧ fields[index]? = some w

theorem Module.Forwards.depends {v w : ValueId} (h : m.Forwards v w) : m.Depends v w := by
  obtain ⟨base, index, fields, hv, hbase, hw⟩ := h
  have hextract : m.Uses v base := ⟨_, hv, List.mem_singleton.mpr rfl⟩
  have hfield : m.Uses base w := ⟨_, hbase, List.mem_of_getElem? hw⟩
  exact hextract.depends.trans hfield.depends

/-- A field has the type of the value that was put into it. -/
theorem Module.Forwards.valueType_eq (htyped : m.Typed types) (hfits : m.values.size ≤ invalidId)
    {v w : ValueId} (h : m.Forwards v w) (hlt : w < m.values.size) :
    m.valueType w = m.valueType v := by
  obtain ⟨base, index, fields, hv, hbase, hw⟩ := h
  obtain ⟨inst, hdef, hdata⟩ := Module.definition?_of_dataOf? hv
  obtain ⟨made, hmade, hfields⟩ := Module.definition?_of_dataOf? hbase
  obtain ⟨t, htype, hvt⟩ := htyped.definition hdef
  have hforward : forwarded? m inst.data = some w := by
    obtain ⟨data, effect, result, span⟩ := made
    cases hfields
    unfold forwarded?
    rw [hdata]
    dsimp only
    rw [hmade]
    exact hw
  rcases operand_forwarded htyped hfits hforward htype with rfl | hwt
  · exact absurd hfits (Nat.not_le_of_lt hlt)
  · exact (Ssa.valueType_eq hwt).trans (Ssa.valueType_eq hvt).symm

theorem forwards_of_forwarded? {v w : ValueId} {data : InstData} (hdata : m.dataOf? v = some data)
    (h : forwarded? m data = some w) : m.Forwards v w := by
  unfold forwarded? at h
  split at h
  · rename_i base index
    split at h
    · rename_i fields effect result span hdef
      refine ⟨base, index, fields, hdata, ?_, h⟩
      unfold Module.dataOf?
      rw [hdef]
      rfl
    · cases h
  · cases h

/-- Replacements of values by those that they were taken from. -/
def Substitution.Forwards (m : Module) (s : Substitution) : Prop :=
  ∀ v w, s[v]? = some w → m.Forwards v w

theorem Substitution.Forwards.depends {s : Substitution} (hs : s.Forwards m) (n : Nat)
    (v : ValueId) :
    m.Depends v (s.followFor n v) := by
  induction n generalizing v with
  | zero => exact .refl m v
  | succ n ih =>
    unfold Substitution.followFor
    split
    · exact .refl m v
    · rename_i w hw
      split
      · exact .refl m v
      · exact (hs v w hw).depends.trans (ih w)

/-- Forwarding only leaves out. -/
theorem shrinks_forward {s : Substitution} (hs : s.Forwards m) : m.Shrinks (m.substitute s) := by
  rw [substitute_eq]
  refine ⟨.of_eq rfl, Array.size_map, rfl, Array.size_map, fun b => ?_, fun b => ?_, fun b => ?_,
    fun b v hv => ?_, fun v w huses => ?_⟩
  · rw [block_mapOperands]
  · rw [block_mapOperands]
    exact List.Subset.refl _
  · rw [Module.successors_mapOperands]
    exact List.Subset.refl _
  · obtain ⟨u, hu, rfl⟩ := Module.exists_of_mem_usesOfBlock_mapOperands hv
    exact ⟨u, hu, hs.depends _ u⟩
  · obtain ⟨u, hu, rfl⟩ := Module.exists_of_uses_mapOperands huses
    exact hu.depends.trans (hs.depends _ u)

/-! ## Folding -/

/-- The data of an instruction replaced. -/
def Module.setData (m : Module) (i : InstId) (inst : Inst) (data : InstData) : Module :=
  FoldRound.count { m with insts := m.insts.setIfInBounds i { inst with data, effect := .pure } }

theorem constWord?_constData (isBool : Bool) (w : UInt64) :
    (constData isBool w).constWord? = some (if isBool then wordOfBool (w != 0) else w) := by
  cases isBool <;> rfl

/-- What an instruction is folded into is a constant. -/
theorem constWord?_of_foldedData? {inst : Inst} {data : InstData}
    (h : foldedData? types m inst = some data) :
    ∃ w, data.constWord? = some w := by
  obtain ⟨r, -, hfolds⟩ := foldsTo_of_foldedData? h
  generalize inst.data = source at hfolds
  cases hfolds with
  | binary => exact ⟨_, constWord?_constData _ _⟩
  | @unary op mode src a data ha hdata =>
    cases op with
    | not | bitNot =>
      obtain rfl := Option.some.inj hdata
      exact ⟨_, rfl⟩
    | neg =>
      dsimp only [foldedUnary?] at hdata
      split at hdata
      · cases hdata
      · obtain ⟨w, -, rfl⟩ := Option.map_eq_some_iff.mp hdata
        exact ⟨w, rfl⟩
  | cast => exact ⟨_, rfl⟩
  | resultIsOk => exact ⟨_, rfl⟩

theorem InstData.operands_of_constWord? {data : InstData} {w : UInt64}
    (h : data.constWord? = some w) :
    data.operands = [] := by
  cases data with
  | constInt | constBool => rfl
  | _ => cases h

/-- What an instruction is folded into has no operands. -/
theorem operands_of_foldedData? {inst : Inst} {data : InstData}
    (h : foldedData? types m inst = some data) :
    data.operands = [] := by
  obtain ⟨w, hw⟩ := constWord?_of_foldedData? h
  exact InstData.operands_of_constWord? hw

section Fold

variable {i : InstId} {inst : Inst} {data : InstData} (hinst : m.insts[i]? = some inst)

include hinst

theorem getElem?_insts_setData (j : InstId) : (m.setData i inst data).insts[j]? =
    if i = j then some { inst with data, effect := .pure } else m.insts[j]? := by
  show (m.insts.setIfInBounds i _)[j]? = _
  rw [Array.getElem?_setIfInBounds]
  split
  · rename_i heq
    subst heq
    rw [if_pos (Array.getElem?_eq_some_iff.mp hinst).1]
  · rfl

/-- The definition of a value is as before, or is the instruction whose data was replaced. -/
theorem dataOf?_setData (v : ValueId) : (m.setData i inst data).dataOf? v = m.dataOf? v ∨
    m.siteOf? v = some (.inst i) ∧ m.dataOf? v = some inst.data ∧
      (m.setData i inst data).dataOf? v = some data := by
  by_cases hsite : m.siteOf? v = some (.inst i)
  · refine .inr ⟨hsite, Module.dataOf?_eq_some.mpr ⟨i, inst, hsite, hinst, rfl⟩, ?_⟩
    have hnew : (m.setData i inst data).insts[i]? = some { inst with data, effect := .pure } := by
      rw [getElem?_insts_setData hinst, if_pos rfl]
    exact Module.dataOf?_eq_some.mpr ⟨i, _, hsite, hnew, rfl⟩
  · refine .inl (Option.ext fun data' => ?_)
    have hother : ∀ j, m.siteOf? v = some (.inst j) →
        (m.setData i inst data).insts[j]? = m.insts[j]? := by
      intro j hj
      rw [getElem?_insts_setData hinst, if_neg]
      rintro rfl
      exact hsite hj
    rw [Module.dataOf?_eq_some, Module.dataOf?_eq_some]
    constructor
    · rintro ⟨j, inst', hj, hinst', rfl⟩
      exact ⟨j, inst', hj, (hother j hj).symm.trans hinst', rfl⟩
    · rintro ⟨j, inst', hj, hinst', rfl⟩
      exact ⟨j, inst', hj, (hother j hj).trans hinst', rfl⟩

/-- Folding only leaves out. -/
theorem shrinks_fold (hfold : foldedData? types m inst = some data) :
    m.Shrinks (m.setData i inst data) := by
  refine ⟨.of_eq rfl, rfl, rfl, Array.size_setIfInBounds, fun _ => rfl, fun _ => List.Subset.refl _,
    fun _ => List.Subset.refl _, fun b v hv => ⟨v, ?_, .refl m v⟩, fun v w ⟨data', hdata, hw⟩ => ?_⟩
  · rw [Module.mem_usesOfBlock] at hv ⊢
    refine hv.imp_left ?_
    rintro ⟨j, hj, inst', hinst', hv⟩
    rw [getElem?_insts_setData hinst] at hinst'
    split at hinst'
    · obtain rfl := Option.some.inj hinst'
      rw [show InstData.operands _ = [] from operands_of_foldedData? hfold] at hv
      cases hv
    · exact ⟨j, hj, inst', hinst', hv⟩
  · rcases dataOf?_setData hinst v with heq | ⟨-, -, heq⟩
    · exact Module.Uses.depends ⟨data', heq.symm.trans hdata, hw⟩
    · obtain rfl := Option.some.inj (heq.symm.trans hdata)
      rw [operands_of_foldedData? hfold] at hw
      cases hw

/-- Folding keeps what values were taken from. -/
theorem Module.Forwards.setData (hfold : foldedData? types m inst = some data) {v w : ValueId}
    (h : m.Forwards v w) : (m.setData i inst data).Forwards v w := by
  have hkept : ∀ v data', m.dataOf? v = some data' →
      foldedData? types m { inst with data := data' } = none →
      (m.setData i inst data).dataOf? v = some data' := by
    intro v data' hdata hnone
    rcases dataOf?_setData hinst v with heq | ⟨-, hinst', -⟩
    · exact heq.trans hdata
    · obtain rfl := Option.some.inj (hinst'.symm.trans hdata)
      cases hnone.symm.trans hfold
  obtain ⟨base, index, fields, hv, hbase, hw⟩ := h
  refine ⟨base, index, fields, hkept v _ hv ?_, hkept base _ hbase ?_, hw⟩
  · unfold foldedData?
    cases inst.result <;> rfl
  · unfold foldedData?
    cases inst.result <;> rfl

end Fold

/-! ## Steps -/

/-- A step of the optimiser. -/
inductive PassStep (types : TypePool) : Module → Module → Prop where
  | prune {m m' : Module} (h : m.Prunes m') : PassStep types m m'
  | fold {m : Module} {i : InstId} {inst : Inst} {data : InstData} (htyped : m.Typed types)
      (hfits : m.values.size ≤ invalidId) (hinst : m.insts[i]? = some inst)
      (hfold : foldedData? types m inst = some data) : PassStep types m (m.setData i inst data)
  | forward {m : Module} {s : Substitution} (htyped : m.Typed types)
      (hfits : m.values.size ≤ invalidId) (hs : s.Forwards m) : PassStep types m (m.substitute s)
  | inline {m : Module} {maxInsts : Nat} {caller : FuncId} {f : Function} {b : BlockId}
      (htyped : m.Typed types) (hf : m.functions[caller]? = some f) (hlive : f.excluded = false)
      (hb : b ∈ f.blocks) : PassStep types m (inlineBlock maxInsts caller m b).1

/-- A sequence of steps. -/
abbrev PassSteps (types : TypePool) : Module → Module → Prop := ReflTransGen (PassStep types)

theorem prunes_count (m : Module) : m.Prunes (FoldRound.count m) :=
  ⟨.of_eq rfl, rfl, rfl, rfl, rfl, fun _ => .refl _⟩

/-- A property of modules that folding keeps: it outlasts what is done to a single instruction, and
the replacement of values by those that they were taken from. -/
structure KeptByFolding (types : TypePool) (P : Module → Prop) : Prop where
  fold : ∀ {m : Module} {i : InstId} {inst : Inst} {data : InstData}, m.Typed types →
    m.values.size ≤ invalidId → P m → m.insts[i]? = some inst →
    foldedData? types m inst = some data →
      P (m.setData i inst data)
  forward : ∀ {m : Module} {s : Substitution}, m.Typed types → m.values.size ≤ invalidId → P m →
    s.Forwards m → P (m.substitute s)
  count : ∀ {m : Module}, P m → P (FoldRound.count m)

namespace FoldRound

variable {r : FoldRound} {P : Module → Prop}

/-- What folding an instruction makes of a round. -/
inductive Visit (types : TypePool) (r : FoldRound) (i : InstId) : FoldRound → Prop where
  /-- The instruction does not amount to a constant, and there is no new value to forward. -/
  | skip (hnone : ∀ inst, r.module.insts[i]? = some inst → foldedData? types r.module inst = none) :
      Visit types r i r
  | fold {inst : Inst} {data : InstData} (hinst : r.module.insts[i]? = some inst)
      (hfold : foldedData? types r.module inst = some data) :
      Visit types r i { r with module := r.module.setData i inst data, changed := true }
  | forward {inst : Inst} {v w : ValueId} (hinst : r.module.insts[i]? = some inst)
      (hresult : inst.result = some v) (hforward : forwarded? r.module inst.data = some w)
      (hnew : r.done.getD v false = false) :
      Visit types r i { module := count r.module, done := r.done.setIfInBounds v true
                        replaced := r.replaced.insert v w, changed := true }

theorem visit_foldInst (types : TypePool) (r : FoldRound) (i : InstId) :
    r.Visit types i (r.foldInst types i) := by
  unfold foldInst
  split
  · rename_i hinst
    exact .skip fun inst h => absurd (hinst.symm.trans h) nofun
  · rename_i inst hinst
    split
    · rename_i data hfold
      exact .fold hinst hfold
    · rename_i hnone
      have hskip : ∀ inst', r.module.insts[i]? = some inst' →
          foldedData? types r.module inst' = none := by
        intro inst' hinst'
        obtain rfl := Option.some.inj (hinst.symm.trans hinst')
        exact hnone
      split
      · rename_i v w hresult hforward
        split
        · exact .skip hskip
        · rename_i hnew
          exact .forward hinst hresult hforward (Bool.eq_false_of_not_eq_true hnew)
      · exact .skip hskip

/-- A round whose module has a property, and that replaces values by those that they were taken
from. -/
structure Keeps (types : TypePool) (P : Module → Prop) (r : FoldRound) : Prop where
  typed : r.Typed types
  holds : P r.module
  forwards : r.replaced.Forwards r.module

theorem Keeps.foldInst (hP : KeptByFolding types P) (h : r.Keeps types P)
    (hfits : r.module.values.size ≤ invalidId) (i : InstId) :
    (r.foldInst types i).Keeps types P := by
  have htyped := h.typed.foldInst hfits i
  have hvisit := visit_foldInst types r i
  revert htyped hvisit
  generalize r.foldInst types i = r'
  intro htyped hvisit
  cases hvisit with
  | skip => exact h
  | fold hinst hfold =>
    exact ⟨htyped, hP.fold h.typed.module hfits h.holds hinst hfold,
      fun v w hw => (h.forwards v w hw).setData hinst hfold⟩
  | @forward inst v w hinst hresult hforward =>
    refine ⟨htyped, hP.count h.holds, fun v' w' hget => ?_⟩
    rw [Std.HashMap.getElem?_insert] at hget
    split at hget
    · rename_i heq
      obtain rfl := beq_iff_eq.mp heq
      obtain rfl := Option.some.inj hget
      exact forwards_of_forwarded? (h.typed.module.dataOf?_result hinst hresult) hforward
    · exact h.forwards v' w' hget

theorem Keeps.foldBlocks (hP : KeptByFolding types P) (blocks : List BlockId) (h : r.Keeps types P)
    (hfits : r.module.values.size ≤ invalidId) : (r.foldBlocks types blocks).Keeps types P := by
  refine (foldBlocks_keeps (P := fun r => r.Keeps types P ∧
    r.module.values.size ≤ invalidId) ?_ blocks ⟨h, hfits⟩).1
  intro r i ⟨h, hfits⟩
  exact ⟨h.foldInst hP hfits i, by rwa [values_foldInst]⟩

end FoldRound

namespace KeptByFolding

variable {P : Module → Prop}

theorem foldOnce (hP : KeptByFolding types P) (htyped : m.Typed types)
    (hfits : m.values.size ≤ invalidId) (hm : P m) (done : Array Bool) :
    P (foldOnce types m done).module := by
  have hnone : ∀ v w : ValueId, (({} : Substitution)[v]?) = some w → m.Forwards v w := by
    intro v w hget
    rw [Std.HashMap.getElem?_empty] at hget
    cases hget
  have hstart : FoldRound.Keeps types P { module := m, done } :=
    ⟨⟨htyped, Substitution.typed_empty _⟩, hm, hnone⟩
  have hround := hstart.foldBlocks hP
      ((m.functions.toList.filter (!·.excluded)).flatMap (·.blocks)) hfits
  refine hP.forward hround.typed.module ?_ hround.holds hround.forwards
  rwa [FoldRound.values_foldBlocks]

/-- What folding keeps holds of the folded module if it held before. -/
theorem constFold (hP : KeptByFolding types P) (htyped : m.Typed types)
    (hfits : m.values.size ≤ invalidId) (hm : P m) : P (m.constFold types).1 := by
  refine (foldRounds_keeps (P := fun m => m.Typed types ∧ m.values.size ≤ invalidId ∧ P m) ?_ _
    ⟨htyped, hfits, hm⟩ _ false).2.2
  intro m done ⟨htyped, hfits, hm⟩
  exact ⟨typed_foldOnce htyped hfits done,
    by rwa [values_foldOnce], hP.foldOnce htyped hfits hm done⟩

end KeptByFolding

/-- What steps have come to, further steps come to. -/
theorem keptByFolding_passSteps (types : TypePool) (m₀ : Module) :
    KeptByFolding types (PassSteps types m₀) where
  fold htyped hfits hsteps hinst hfold := hsteps.tail (.fold htyped hfits hinst hfold)
  forward htyped hfits hsteps hs := hsteps.tail (.forward htyped hfits hs)
  count {m} hsteps := hsteps.tail (.prune (prunes_count m))

theorem passSteps_constFold (h : m.Typed types) (hfits : m.values.size ≤ invalidId) :
    PassSteps types m (m.constFold types).1 :=
  (keptByFolding_passSteps types m).constFold h hfits .refl

end ContractCompiler.Ssa
