import ContractCompiler.Domain.KeyResolution
import ContractCompiler.Proofs.Ssa.Dominance
import ContractCompiler.Ssa.Verify
import Mathlib.Tactic.ByContra

/-!
# Functions without faults

What it means for a function that the verifier finds nothing wrong with it, in terms of its blocks,
instructions and values.

- `Function.Verified`: what holds of such a function;
- `Module.verified_of_verify`: the functions of a module without faults are such functions, unless
  they are left out.
-/

namespace ContractCompiler.Ssa

/-- What holds of a function in which the verifier finds nothing wrong. -/
structure Function.Verified (m : Module) (f : Function) : Prop where
  entry : ∃ entry ∈ f.blocks, f.entry = some entry
  blocks_lt : ∀ b ∈ f.blocks, b < m.blocks.size
  /-- Nothing leads to the entry. -/
  entry_preds : ∀ entry, f.entry = some entry → (m.cfg f).predecessors.getD entry [] = []
  /-- The instructions of the blocks are there. -/
  insts : ∀ b ∈ f.blocks, ∀ i ∈ (m.block b).insts, ∃ inst, m.insts[i]? = some inst
  /-- Results know where they are defined. -/
  result_site : ∀ b ∈ f.blocks, ∀ i ∈ (m.block b).insts, ∀ (inst : Inst) (r : ValueId),
    m.insts[i]? = some inst → inst.result = some r → ∃ value, m.values[r]? = some value ∧
      value.site = .inst i
  /-- Parameters know where they are defined. -/
  param_site : ∀ b ∈ f.blocks, ∀ (k : Nat) (p : ValueId), (m.block b).params[k]? = some p →
    ∃ value, m.values[p]? = some value ∧ value.site = .param b k
  /-- No value is defined twice. -/
  defined_once : (f.blocks.flatMap fun b =>
    (m.block b).params ++ (m.blockInsts (m.block b)).filterMap (·.2.result)).Nodup
  /-- Edges lead to blocks of the function. -/
  edge_target : ∀ b ∈ f.blocks, ∀ term target args, (m.block b).term = some term →
    args ∈ term.argsTo target → target ∈ f.blocks
  /-- Edges pass values of the types of the parameters. -/
  edge_type : ∀ b ∈ f.blocks, ∀ term target args, (m.block b).term = some term →
    args ∈ term.argsTo target → ∀ (k : Nat) (a p : ValueId), args[k]? = some a →
      (m.block target).params[k]? = some p → m.valueType a = m.valueType p
  /-- The entry has a parameter for each that the function declares. -/
  entry_params : ∀ entry, f.entry = some entry → (m.block entry).params.length = f.paramTypes.length
  /-- Edges pass a value for each parameter. -/
  edge_args : ∀ b ∈ f.blocks, ∀ term target args, (m.block b).term = some term →
    args ∈ term.argsTo target → args.length = (m.block target).params.length
  /-- Calls pass a value for each parameter that the callee declares. -/
  call_args : ∀ b ∈ f.blocks, ∀ i ∈ (m.block b).insts, ∀ (inst : Inst) callee args,
    m.insts[i]? = some inst → inst.data = .call callee args →
      ∃ g, m.functions[callee]? = some g ∧ args.length = g.paramTypes.length
  /-- In a block that can be reached, the operands of an instruction are available. -/
  inst_uses : ∀ b ∈ f.blocks, (m.cfg f).dominance.isReached b = true →
      ∀ (k : Nat) (i : InstId) (inst : Inst),
    (m.block b).insts[k]? = some i → m.insts[i]? = some inst → ∀ v ∈ inst.data.operands,
      isAvailable (m.cfg f).dominance (m.definitions f).2 b k v = true
  /-- In a block that can be reached, the operands of the ending are available. -/
  term_uses : ∀ b ∈ f.blocks, (m.cfg f).dominance.isReached b = true → ∀ term : Terminator,
    (m.block b).term = some term → ∀ v ∈ term.operands,
      isAvailable (m.cfg f).dominance (m.definitions f).2 b (m.block b).insts.length v = true

variable {m : Module}

/-! ## Definitions -/

theorem enterDefinitions_eq_nil {name : String} {ds : List (Except Fault Definition)} :
    ∀ {table : DefinitionTable}, (enterDefinitions m name ds table).1 = [] →
      ∀ e ∈ ds, ∃ d value, e = .ok d ∧ m.values[d.value]? = some value ∧ value.site = d.site := by
  induction ds with
  | nil => simp
  | cons e ds ih =>
    intro table h
    cases e with
    | error fault => simp [enterDefinitions] at h
    | ok d =>
      rw [enterDefinitions] at h
      cases hvalue : m.values[d.value]? with
      | none => simp [hvalue] at h
      | some value =>
        simp only [hvalue] at h
        split at h
        · simp at h
        · simp only [List.append_eq_nil_iff] at h
          intro e he
          rcases List.mem_cons.mp he with rfl | he
          · refine ⟨d, value, rfl, hvalue, ?_⟩
            by_contra hsite
            rw [if_neg hsite] at h
            cases h.1
          · exact ih h.2 e he

/-- The values of definitions, in order. -/
def definedValues (ds : List (Except Fault Definition)) : List ValueId :=
  ds.filterMap fun e => e.toOption.map (·.value)

/-- Without faults in definitions, no value is defined twice, nor is one that was defined before. -/
theorem nodup_of_enterDefinitions {name : String} {ds : List (Except Fault Definition)} :
    ∀ {table : DefinitionTable}, (enterDefinitions m name ds table).1 = [] →
      table.size = m.values.size →
      (definedValues ds).Nodup ∧ ∀ v ∈ definedValues ds, table.getD v none = none := by
  induction ds with
  | nil => simp [definedValues]
  | cons e ds ih =>
    intro table h hsize
    cases e with
    | error fault => simp [enterDefinitions] at h
    | ok d =>
      rw [enterDefinitions] at h
      cases hvalue : m.values[d.value]? with
      | none => simp [hvalue] at h
      | some value =>
        simp only [hvalue] at h
        split at h
        · simp at h
        · rename_i hnew
          obtain ⟨hlt, -⟩ := Array.getElem?_eq_some_iff.mp hvalue
          obtain ⟨hnodup, hfree⟩ := ih (List.append_eq_nil_iff.mp h).2 (by simpa using hsize)
          -- A value that is defined later is not the one that was entered here.
          have hother : ∀ v ∈ definedValues ds, v ≠ d.value ∧ table.getD v none = none := by
            intro v hv
            have hentry := hfree v hv
            simp only [Array.getD_eq_getD_getElem?, Array.getElem?_setIfInBounds, hsize, hlt,
              if_true] at hentry
            split at hentry
            · cases hentry
            · rename_i hne
              exact ⟨fun heq => hne heq.symm, by rw [Array.getD_eq_getD_getElem?, hentry]⟩
          show (d.value :: definedValues ds).Nodup ∧ ∀ v ∈ d.value :: definedValues ds, _
          refine ⟨List.nodup_cons.mpr ⟨fun hmem => (hother _ hmem).1 rfl, hnodup⟩, fun v hv => ?_⟩
          rcases List.mem_cons.mp hv with rfl | hv
          · simpa using hnew
          · exact (hother v hv).2

theorem filterMap_zipIdx {α β : Type} {g : α × Nat → Option β} {g' : α → Option β}
    (h : ∀ x k, g (x, k) = g' x) (xs : List α) (n : Nat) :
    (xs.zipIdx n).filterMap g = xs.filterMap g' := by
  have hg : g = g' ∘ Prod.fst := funext fun x => h x.1 x.2
  rw [hg, ← List.filterMap_map, List.zipIdx_map_fst]

theorem definedValues_blockDefinitions (b : BlockId) :
    definedValues (blockDefinitions m b) =
      (m.block b).params ++ (m.blockInsts (m.block b)).filterMap (·.2.result) := by
  unfold definedValues blockDefinitions Module.blockInsts
  rw [List.filterMap_append, List.filterMap_map, List.filterMap_filterMap, List.filterMap_filterMap]
  congr 1
  · exact (filterMap_zipIdx (fun _ _ => rfl) _ 0).trans List.filterMap_some
  · refine filterMap_zipIdx (fun i k => ?_) _ 0
    dsimp only
    cases m.insts[i]? with
    | none => rfl
    | some inst => cases hr : inst.result <;> simp [hr, Except.toOption]

/-- Without faults in the definitions of a function, every definition is of a value that knows of
it. -/
theorem blockDefinitions_ok {f : Function} (h : (m.definitions f).1 = []) {b : BlockId}
    (hb : b ∈ f.blocks) {e : Except Fault Definition} (he : e ∈ blockDefinitions m b) :
    ∃ d value, e = .ok d ∧ m.values[d.value]? = some value ∧ value.site = d.site :=
  enterDefinitions_eq_nil h e (List.mem_flatMap.mpr ⟨b, hb, he⟩)

theorem inst_mem_blockDefinitions {b : BlockId} {i : InstId} (hi : i ∈ (m.block b).insts) :
    ∃ k, ∀ e, (match m.insts[i]? with
      | none => some (.error (.noInst b i))
      | some inst => inst.result.map fun r =>
          Except.ok { value := r, block := b, position := some k, site := .inst i }) = some e →
      e ∈ blockDefinitions m b := by
  obtain ⟨k, hk, rfl⟩ := List.mem_iff_getElem.mp hi
  refine ⟨k, fun e he => ?_⟩
  unfold blockDefinitions
  refine List.mem_append_right _ (List.mem_filterMap.mpr ⟨((m.block b).insts[k], k), ?_, he⟩)
  rw [List.mem_zipIdx_iff_getElem?]
  exact List.getElem?_eq_getElem hk

theorem param_mem_blockDefinitions {b : BlockId} {k : Nat} {p : ValueId}
    (hp : (m.block b).params[k]? = some p) :
    .ok { value := p, block := b, position := none, site := .param b k } ∈
    blockDefinitions m b := by
  unfold blockDefinitions
  refine List.mem_append_left _ (List.mem_map.mpr ⟨(p, k), ?_, rfl⟩)
  rw [List.mem_zipIdx_iff_getElem?]
  exact hp

/-- What a block lists as its definitions: its parameters, and the results of its instructions. -/
theorem mem_blockDefinitions {b : BlockId} {e : Except Fault Definition}
    (he : e ∈ blockDefinitions m b) :
    (∃ i p, (m.block b).params[i]? = some p ∧
      e = .ok { value := p, block := b, position := none, site := .param b i }) ∨
    ∃ k i, (m.block b).insts[k]? = some i ∧ ∀ inst, m.insts[i]? = some inst →
      ∃ r, inst.result = some r ∧
      e = .ok { value := r, block := b, position := some k, site := .inst i } := by
  unfold blockDefinitions at he
  rcases List.mem_append.mp he with he | he
  · obtain ⟨⟨p, i⟩, hp, rfl⟩ := List.mem_map.mp he
    exact .inl ⟨i, p, List.mem_zipIdx_iff_getElem?.mp hp, rfl⟩
  · obtain ⟨⟨i, k⟩, hi, he⟩ := List.mem_filterMap.mp he
    refine .inr ⟨k, i, List.mem_zipIdx_iff_getElem?.mp hi, fun inst hinst => ?_⟩
    simp only [hinst] at he
    obtain ⟨r, hr, rfl⟩ := Option.map_eq_some_iff.mp he
    exact ⟨r, hr, rfl⟩

/-! ## Edges -/

theorem mem_successors_of_argsTo {term : Terminator} {target : BlockId} {args : List ValueId}
    (h : args ∈ term.argsTo target) : target ∈ term.successors := by
  cases term with
  | jump t targs =>
    simp only [Terminator.argsTo] at h
    split at h
    · rename_i heq
      simp [Terminator.successors, heq]
    · cases h
  | branch cond t targs e eargs =>
    rcases List.mem_append.mp h with h | h
    · split at h
      · rename_i heq
        simp [Terminator.successors, heq]
      · cases h
    · split at h
      · rename_i heq
        simp [Terminator.successors, heq]
      · cases h
  | _ => cases h

theorem exists_argsTo_of_mem_successors {t : Terminator} {b : BlockId} (h : b ∈ t.successors) :
    ∃ args, args ∈ t.argsTo b := by
  cases t with
  | jump target args =>
    obtain rfl := List.mem_singleton.mp h
    exact ⟨args, by simp [Terminator.argsTo]⟩
  | branch cond tb targs eb eargs =>
    rcases List.mem_cons.mp h with rfl | h
    · exact ⟨targs, by simp [Terminator.argsTo]⟩
    · obtain rfl := List.mem_singleton.mp h
      exact ⟨eargs, by simp [Terminator.argsTo]⟩
  | _ => cases h

/-- An edge to a block passes values. -/
theorem exists_argsTo_of_successor {p block : BlockId} (h : block ∈ (m.block p).successors) :
    ∃ term, (m.block p).term = some term ∧ ∃ args, args ∈ term.argsTo block := by
  unfold Block.successors at h
  cases hterm : (m.block p).term with
  | none =>
    rw [hterm] at h
    cases h
  | some term =>
    rw [hterm] at h
    exact ⟨term, rfl, exists_argsTo_of_mem_successors h⟩

/-- What holds of an edge in which nothing is wrong. -/
structure EdgeVerified (m : Module) (f : Function) (target : BlockId)
    (args : List ValueId) : Prop where
  target_mem : target ∈ f.blocks
  args_length : args.length = (m.block target).params.length
  args_lt : ∀ a ∈ args, a < m.values.size
  type_eq : ∀ (k : Nat) (a p : ValueId), args[k]? = some a → (m.block target).params[k]? = some p →
    p < m.values.size → m.valueType a = m.valueType p

theorem lt_of_valueFaults {place : Mention} {owner : Nat} {v : ValueId}
    (h : valueFaults m place owner v = []) : v < m.values.size := by
  unfold valueFaults Module.hasValue at h
  split at h
  · rename_i hlt
    exact of_decide_eq_true hlt
  · cases h

theorem edgeVerified_of_edgeFaults {f : Function} {b target : BlockId} {edge : EdgeKind}
    {args : List ValueId} (h : edgeFaults m f b edge target args = []) :
    EdgeVerified m f target args := by
  unfold edgeFaults at h
  split at h
  · cases h
  · rename_i block hblock
    have hget : m.block target = block := by
      unfold Module.block
      rw [Array.getD_eq_getD_getElem?, hblock]
      rfl
    split at h
    · cases h
    · rename_i howned
      simp only [List.append_eq_nil_iff, List.flatMap_eq_nil_iff] at h
      obtain ⟨hvalues, htypes⟩ := h
      have hargs : ∀ a ∈ args, a < m.values.size := fun a ha => lt_of_valueFaults (hvalues a ha)
      split at htypes
      · cases htypes
      · rename_i hlength
        refine ⟨by simpa using howned, by rw [hget]; exact not_not.mp hlength, hargs,
          fun k a p ha hp hlt => ?_⟩
        rw [hget] at hp
        rw [List.filterMap_eq_nil_iff] at htypes
        have hpair : ((a, p), k) ∈ (args.zip block.params).zipIdx := by
          rw [List.mem_zipIdx_iff_getElem?, List.getElem?_zip_eq_some]
          exact ⟨ha, hp⟩
        have hnone := htypes _ hpair
        by_contra hne
        have halt := hargs a (List.mem_of_getElem? ha)
        simp [Module.hasValue, halt, hlt, hne] at hnone

theorem edgeVerified_of_terminatorFaults {f : Function} {b target : BlockId} {term : Terminator}
    {args : List ValueId} (h : terminatorFaults m f b term = [])
    (hargs : args ∈ term.argsTo target) :
    EdgeVerified m f target args := by
  cases term with
  | jump t targs =>
    simp only [Terminator.argsTo] at hargs
    split at hargs
    · rename_i heq
      obtain rfl := List.mem_singleton.mp hargs
      exact heq ▸ edgeVerified_of_edgeFaults h
    · cases hargs
  | branch cond t targs e eargs =>
    simp only [terminatorFaults, List.append_eq_nil_iff] at h
    rcases List.mem_append.mp hargs with hthen | helse
    · split at hthen
      · rename_i heq
        obtain rfl := List.mem_singleton.mp hthen
        exact heq ▸ edgeVerified_of_edgeFaults h.1.2
      · cases hthen
    · split at helse
      · rename_i heq
        obtain rfl := List.mem_singleton.mp helse
        exact heq ▸ edgeVerified_of_edgeFaults h.2
      · cases helse
  | _ => cases hargs

/-! ## Operands -/

theorem lt_of_terminatorFaults {f : Function} {b : BlockId} {term : Terminator}
    (h : terminatorFaults m f b term = []) : ∀ v ∈ term.operands, v < m.values.size := by
  intro v hv
  cases term with
  | jump target args => exact (edgeVerified_of_edgeFaults h).args_lt v hv
  | branch cond t targs e eargs =>
    simp only [terminatorFaults, List.append_eq_nil_iff] at h
    rcases List.mem_cons.mp hv with rfl | hv
    · exact lt_of_valueFaults h.1.1
    · rcases List.mem_append.mp hv with hv | hv
      · exact (edgeVerified_of_edgeFaults h.1.2).args_lt v hv
      · exact (edgeVerified_of_edgeFaults h.2).args_lt v hv
  | ret value =>
    obtain rfl := Option.mem_toList.mp hv
    simp only [terminatorFaults] at h
    split at h
    · cases h
    · rename_i hhas
      simpa [Module.hasValue] using hhas
  | _ => cases hv

theorem instOk_of_blockFaults {f : Function} {b : BlockId} (h : blockFaults m f b = []) {i : InstId}
    (hi : i ∈ (m.block b).insts) {inst : Inst} (hinst : m.insts[i]? = some inst) :
    instFaults m i inst.data = [] := by
  unfold blockFaults at h
  dsimp only at h
  split at h
  · cases h
  · simp only [List.append_eq_nil_iff, List.flatMap_eq_nil_iff] at h
    refine h.2 (i, inst) (List.mem_filterMap.mpr ⟨i, hi, ?_⟩)
    rw [hinst]
    rfl

/-- A call without faults is of a function that there is, with a value for each of its
parameters. -/
theorem callee_of_instFaults {i : InstId} {callee : FuncId} {args : List ValueId}
    (h : instFaults m i (.call callee args) = []) :
    ∃ g, m.functions[callee]? = some g ∧ args.length = g.paramTypes.length := by
  have hcall : callFaults m i callee args = [] := (List.append_eq_nil_iff.mp h).2
  unfold callFaults at hcall
  split at hcall
  · cases hcall
  · rename_i g hg
    split at hcall
    · cases hcall
    · rename_i hlength
      exact ⟨g, hg, not_not.mp hlength⟩

section Uses

variable {d : Dominance} {table : DefinitionTable} {b : BlockId} (h : useFaults m d table b = [])

include h

theorem inst_available_of_useFaults {k : Nat} {i : InstId} {inst : Inst}
    (hi : (m.block b).insts[k]? = some i) (hinst : m.insts[i]? = some inst) {v : ValueId}
    (hv : v ∈ inst.data.operands) (hlt : v < m.values.size) : isAvailable d table b k v = true := by
  have hinsts := List.flatMap_eq_nil_iff.mp (List.append_eq_nil_iff.mp h).1 (i, k)
    (List.mem_zipIdx_iff_getElem?.mpr hi)
  simp only [hinst, List.map_eq_nil_iff, List.filter_eq_nil_iff] at hinsts
  simpa [Module.hasValue, hlt] using hinsts v hv

theorem term_available_of_useFaults {term : Terminator} (hterm : (m.block b).term = some term)
    {v : ValueId} (hv : v ∈ term.operands) (hlt : v < m.values.size) :
    isAvailable d table b (m.block b).insts.length v = true := by
  have hends := (List.append_eq_nil_iff.mp h).2
  simp only [hterm, List.map_eq_nil_iff, List.filter_eq_nil_iff] at hends
  simpa [Module.hasValue, hlt] using hends v hv

end Uses

/-! ## Functions -/

theorem length_of_entryParamFaults {f : Function} {entry : BlockId} {params : List ValueId}
    (h : entryParamFaults m f entry params = []) : params.length = f.paramTypes.length := by
  unfold entryParamFaults at h
  split at h
  · cases h
  · rename_i hlength
    exact not_not.mp hlength

theorem useFaults_of_dominanceFaults {f : Function} {table : DefinitionTable}
    {requireReachable : Bool} (h : dominanceFaults m f table requireReachable = []) {b : BlockId}
    (hb : b ∈ f.blocks) (hreached : (m.cfg f).dominance.isReached b = true) :
    useFaults m (m.cfg f).dominance table b = [] :=
  List.flatMap_eq_nil_iff.mp h (b, true) (mem_reachedBlocks.mpr ⟨hb, hreached⟩)

theorem verified_of_bodyFaults {f : Function} {requireReachable : Bool}
    (h : bodyFaults m f requireReachable = []) : f.Verified m := by
  unfold bodyFaults at h
  split at h
  · cases h
  · rename_i entry hentry
    obtain ⟨hentry, -⟩ := Option.filter_eq_some_iff.mp hentry
    split at h
    · cases h
    · rename_i howned
      have howned : entry ∈ f.blocks := by simpa using howned
      split at h
      · cases h
      · rename_i hfind
        simp only [List.append_eq_nil_iff, List.flatMap_eq_nil_iff] at h
        obtain ⟨⟨⟨⟨hparams, hpreds⟩, hdefs⟩, hblocks⟩, huses⟩ := h
        have hparam : ∀ b ∈ f.blocks, ∀ (k : Nat) (p : ValueId), (m.block b).params[k]? = some p →
            ∃ value, m.values[p]? = some value ∧ value.site = .param b k := by
          intro b hb k p hp
          obtain ⟨d, value, heq, hvalue, hsite⟩ :=
            blockDefinitions_ok hdefs hb (param_mem_blockDefinitions hp)
          cases heq
          exact ⟨value, hvalue, hsite⟩
        have hterms : ∀ b ∈ f.blocks, ∀ term, (m.block b).term = some term →
            terminatorFaults m f b term = [] := by
          intro b hb term hterm
          have hfaults := hblocks b hb
          unfold blockFaults at hfaults
          simp only [hterm, List.append_eq_nil_iff] at hfaults
          exact hfaults.1
        have hedge : ∀ b ∈ f.blocks, ∀ term target args, (m.block b).term = some term →
            args ∈ term.argsTo target → EdgeVerified m f target args :=
          fun b hb term target args hterm hargs =>
            edgeVerified_of_terminatorFaults (hterms b hb term hterm) hargs
        -- each property is what one of the checks looks for
        refine ⟨⟨entry, howned, hentry⟩, fun b hb => ?_, fun e he => ?_, fun b hb i hi => ?_,
          fun b hb i hi inst r hinst hr => ?_, hparam, ?_,
          fun b hb term target args hterm hargs =>
            (hedge b hb term target args hterm hargs).target_mem,
          fun b hb term target args hterm hargs k a p ha hp => ?_,
          fun e he => ?_,
          fun b hb term target args hterm hargs =>
            (hedge b hb term target args hterm hargs).args_length,
          fun b hb i hi inst callee args hinst hdata => ?_,
          fun b hb hreached k i inst hi hinst v hv => ?_,
          fun b hb hreached term hterm v hv => ?_⟩
        · have := List.find?_eq_none.mp hfind b hb
          simpa using this
        · obtain rfl : entry = e := Option.some.inj (hentry.symm.trans he)
          unfold entryPredecessorFaults at hpreds
          dsimp only at hpreds
          split at hpreds
          · rename_i hcount
            exact List.eq_nil_of_length_eq_zero hcount
          · cases hpreds
        · obtain ⟨k, hmem⟩ := inst_mem_blockDefinitions hi
          cases hinst : m.insts[i]? with
          | none =>
            rw [hinst] at hmem
            obtain ⟨d, value, heq, -⟩ := blockDefinitions_ok hdefs hb (hmem _ rfl)
            cases heq
          | some inst => exact ⟨inst, rfl⟩
        · obtain ⟨k, hmem⟩ := inst_mem_blockDefinitions hi
          simp only [hinst, hr, Option.map_some] at hmem
          obtain ⟨d, value, heq, hvalue, hsite⟩ := blockDefinitions_ok hdefs hb (hmem _ rfl)
          cases heq
          exact ⟨value, hvalue, hsite⟩
        · have hnodup := (nodup_of_enterDefinitions hdefs (by simp)).1
          rw [definedValues, List.filterMap_flatMap] at hnodup
          simp only [← definedValues_blockDefinitions]
          exact hnodup
        · have hverified := hedge b hb term target args hterm hargs
          obtain ⟨value, hvalue, -⟩ := hparam target hverified.target_mem k p hp
          obtain ⟨hlt, -⟩ := Array.getElem?_eq_some_iff.mp hvalue
          exact hverified.type_eq k a p ha hp hlt
        · obtain rfl : entry = e := Option.some.inj (hentry.symm.trans he)
          exact length_of_entryParamFaults hparams
        · have hfaults := instOk_of_blockFaults (hblocks b hb) hi hinst
          exact callee_of_instFaults (hdata ▸ hfaults)
        · have hfaults := instOk_of_blockFaults (hblocks b hb) (List.mem_of_getElem? hi) hinst
          have hlt := lt_of_valueFaults
            (List.flatMap_eq_nil_iff.mp (List.append_eq_nil_iff.mp hfaults).1 v hv)
          exact inst_available_of_useFaults (useFaults_of_dominanceFaults huses hb hreached)
            hi hinst hv hlt
        · have hlt := lt_of_terminatorFaults (hterms b hb term hterm) v hv
          exact term_available_of_useFaults (useFaults_of_dominanceFaults huses hb hreached)
            hterm hv hlt

/-- The functions of a module without faults have none, unless they are left out. -/
theorem Module.verified_of_verify {requireReachable : Bool} (h : m.verify requireReachable = [])
    {id : FuncId} {f : Function} (hf : m.functions[id]? = some f) (hincl : f.excluded = false) :
    f.Verified m := by
  unfold Module.verify at h
  simp only [List.append_eq_nil_iff, List.flatMap_eq_nil_iff] at h
  have hlt : id < m.functions.size := by
    obtain ⟨hlt, -⟩ := Array.getElem?_eq_some_iff.mp hf
    exact hlt
  have hfaults := h.2 id (List.mem_range.mpr hlt)
  unfold Module.verifyFunction at hfaults
  simp only [hf, hincl] at hfaults
  exact verified_of_bodyFaults hfaults

end ContractCompiler.Ssa
