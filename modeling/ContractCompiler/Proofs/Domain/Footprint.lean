import ContractCompiler.Proofs.Bytes
import ContractCompiler.Proofs.Domain.Parallel

/-!
# What an evaluation depends on

An evaluation depends on the slots of the state that it accesses, and changes only those that it
writes. Started on another ledger that agrees with the first one there, it has the same result and
writes the same.

- `OrderedSlots`: the order in which a host keeps the state;
- `Footprint`, `Ssa.Module.footprint`: the slots that an evaluation accesses, and those that it
  writes;
- `Ledger.Within`: a ledger in which only written slots have changed;
- `Store.Agree`: the stores of two evaluations with one footprint;
- `evalFunction_agree`: such evaluations.
-/

namespace ContractCompiler

open Ssa

/-! ## Slots of the state -/

theorem lookup_insertSlot_self (slot value : Bytes) (state : List (Bytes × Bytes)) :
    (insertSlot slot value state).lookup slot = some value := by
  induction state with
  | nil => exact List.lookup_cons_self
  | cons entry rest ih =>
    obtain ⟨s, v⟩ := entry
    unfold insertSlot
    split
    · exact List.lookup_cons_self
    · rename_i hne
      split
      · exact List.lookup_cons_self
      · rw [List.lookup_cons, Bool.eq_false_iff.mpr hne]
        exact ih

theorem lookup_insertSlot_of_ne {slot slot' : Bytes} (hne : slot' ≠ slot) (value : Bytes)
    (state : List (Bytes × Bytes)) :
    (insertSlot slot value state).lookup slot' = state.lookup slot' := by
  have hbeq : (slot' == slot) = false := beq_eq_false_iff_ne.mpr hne
  induction state with
  | nil => simp only [insertSlot, List.lookup_cons, hbeq]
  | cons entry rest ih =>
    obtain ⟨s, v⟩ := entry
    unfold insertSlot
    split
    · rename_i heq
      obtain rfl := eq_of_beq heq
      simp only [List.lookup_cons, hbeq]
    · split
      · simp only [List.lookup_cons, hbeq]
      · simp only [List.lookup_cons, ih]

/-! ### Their order -/

/-- The slots of a state are in increasing order. -/
def OrderedSlots (state : List (Bytes × Bytes)) : Prop :=
  state.Pairwise fun p q => Bytes.lt p.1 q.1 = true

theorem mem_insertSlot {slot value : Bytes} {state : List (Bytes × Bytes)} {p : Bytes × Bytes}
    (h : p ∈ insertSlot slot value state) : p.1 = slot ∨ p ∈ state := by
  induction state with
  | nil =>
    obtain rfl := List.mem_singleton.mp h
    exact .inl rfl
  | cons entry rest ih =>
    obtain ⟨s, v⟩ := entry
    unfold insertSlot at h
    split at h
    · rcases List.mem_cons.mp h with rfl | h
      · exact .inl rfl
      · exact .inr (List.mem_cons_of_mem _ h)
    · split at h
      · rcases List.mem_cons.mp h with rfl | h
        · exact .inl rfl
        · exact .inr h
      · rcases List.mem_cons.mp h with rfl | h
        · exact .inr List.mem_cons_self
        · exact (ih h).imp_right (List.mem_cons_of_mem _)

theorem OrderedSlots.insertSlot {state : List (Bytes × Bytes)} (h : OrderedSlots state)
    (slot value : Bytes) :
    OrderedSlots (insertSlot slot value state) := by
  induction state with
  | nil => exact List.pairwise_singleton _ _
  | cons entry rest ih =>
    obtain ⟨s, v⟩ := entry
    obtain ⟨hfirst, hrest⟩ := List.pairwise_cons.mp h
    unfold ContractCompiler.insertSlot
    split
    · rename_i heq
      obtain rfl := eq_of_beq heq
      exact List.pairwise_cons.mpr ⟨hfirst, hrest⟩
    · rename_i hne
      split
      · rename_i hlt
        refine List.pairwise_cons.mpr ⟨fun p hp => ?_, h⟩
        rcases List.mem_cons.mp hp with rfl | hp
        · exact hlt
        · exact Bytes.lt_trans hlt (hfirst p hp)
      · rename_i hnot
        refine List.pairwise_cons.mpr ⟨fun p hp => ?_, ih hrest⟩
        rcases mem_insertSlot hp with heq | hp
        · rw [heq]
          exact Bytes.lt_of_not_lt (fun heq => hne (beq_iff_eq.mpr heq)) hnot
        · exact hfirst p hp

theorem OrderedSlots.lookup_eq_none {s v : Bytes} {rest : List (Bytes × Bytes)}
    (h : OrderedSlots ((s, v) :: rest)) :
    rest.lookup s = none := by
  refine List.lookup_eq_none_iff.mpr fun p hp => ?_
  have hlt := (List.pairwise_cons.mp h).1 p hp
  simp only [bne_iff_ne]
  rintro rfl
  rw [Bytes.lt_irrefl] at hlt
  cases hlt

/-- A slot that is found stands after the first one, or is the first one. -/
theorem OrderedSlots.lt_of_lookup {s v slot value : Bytes} {rest : List (Bytes × Bytes)}
    (h : OrderedSlots ((s, v) :: rest)) (hslot : ((s, v) :: rest).lookup slot = some value)
    (hne : slot ≠ s) :
    Bytes.lt s slot = true := by
  rw [List.lookup_cons, beq_eq_false_iff_ne.mpr hne] at hslot
  obtain ⟨l₁, l₂, rfl, -⟩ := List.lookup_eq_some_iff.mp hslot
  exact (List.pairwise_cons.mp h).1 (slot, value) (List.mem_append_right _ List.mem_cons_self)

/-- States in order are the same if they have the same value for every slot. -/
theorem OrderedSlots.ext {state state' : List (Bytes × Bytes)} (h : OrderedSlots state)
    (h' : OrderedSlots state') (hsame : ∀ slot, state.lookup slot = state'.lookup slot) :
    state = state' := by
  induction state generalizing state' with
  | nil =>
    cases state' with
    | nil => rfl
    | cons entry rest =>
      have := hsame entry.1
      rw [List.lookup_cons_self] at this
      cases this
  | cons entry rest ih =>
    obtain ⟨s, v⟩ := entry
    cases state' with
    | nil =>
      have := hsame s
      rw [List.lookup_cons_self] at this
      cases this
    | cons entry' rest' =>
      obtain ⟨s', v'⟩ := entry'
      have hs : s = s' := by
        by_contra hne
        have hlt := h'.lt_of_lookup ((hsame s).symm.trans List.lookup_cons_self) hne
        have hlt' := h.lt_of_lookup ((hsame s').trans List.lookup_cons_self) (Ne.symm hne)
        have := Bytes.lt_trans hlt hlt'
        rw [Bytes.lt_irrefl] at this
        cases this
      subst hs
      have hv : v = v' := by
        have := hsame s
        rw [List.lookup_cons_self, List.lookup_cons_self] at this
        exact Option.some.inj this
      subst hv
      congr 1
      refine ih (List.pairwise_cons.mp h).2 (List.pairwise_cons.mp h').2 fun slot => ?_
      by_cases hslot : slot = s
      · rw [hslot, h.lookup_eq_none, h'.lookup_eq_none]
      · have := hsame slot
        rwa [List.lookup_cons, List.lookup_cons, beq_eq_false_iff_ne.mpr hslot] at this

/-! ## Footprints -/

/-- The slots of the state that an evaluation accesses, and those among them that it writes. -/
structure Footprint where
  accessed : Bytes → Prop
  written : Bytes → Prop
  accessed_of_written : ∀ slot, written slot → accessed slot

/-- The slot that an access is to, by the value of its key. -/
def Ssa.EvalContext.slotOf [Hashing] (c : EvalContext) (a : StateAccess) (x : Val) : Bytes :=
  Ledger.slot (scopeOf c.unit a.ns) (c.buffer a.key x)

/-- What the evaluation of a function accesses, in its own code or in that of the functions it
calls. -/
def Ssa.Module.footprint [Hashing] (m : Module) (types : TypePool) (unit : String) (f : FuncId)
    (args : List UInt64) (ledger : Ledger) (limits : EvalLimits) : Footprint where
  accessed slot := ∃ steps a x, m.accessAfter? types unit f args ledger limits steps = some (a, x) ∧
    EvalContext.slotOf ⟨m, types, unit⟩ a x = slot
  written slot := ∃ steps a x, m.accessAfter? types unit f args ledger limits steps = some (a, x) ∧
    EvalContext.slotOf ⟨m, types, unit⟩ a x = slot ∧ a.isWrite = true
  accessed_of_written := fun _ ⟨steps, a, x, haccess, hslot, _⟩ => ⟨steps, a, x, haccess, hslot⟩

/-- A ledger that became of another one by writes to some slots; writes are not limited. -/
structure Ledger.Within (written : Bytes → Prop) (h start : Ledger) : Prop where
  unlimited : h.allowed = none
  context_eq : h.context = start.context
  kept : ∀ slot, ¬written slot → h.state.lookup slot = start.state.lookup slot
  ordered : OrderedSlots start.state → OrderedSlots h.state

namespace Ledger

variable {written : Bytes → Prop} {start h : Ledger}

theorem context_write (h : Ledger) (scope key value : Bytes) :
    (h.write scope key value).context = h.context := by
  funext query
  cases query <;> rfl

theorem context_emit (h : Ledger) (topic payload : Bytes) :
    (h.emit topic payload).context = h.context := by
  funext query
  cases query <;> rfl

theorem Within.refl (hstart : start.allowed = none) : start.Within written start :=
  ⟨hstart, rfl, fun _ _ => rfl, id⟩

theorem Within.write (hwithin : h.Within written start) {scope key : Bytes}
    (hslot : written (slot scope key)) (value : Bytes) :
    (h.write scope key value).Within written start := by
  refine ⟨hwithin.unlimited, (context_write _ _ _ _).trans hwithin.context_eq,
    fun slot' hslot' => ?_,
    fun hordered => (hwithin.ordered hordered).insertSlot _ _⟩
  have hne : slot' ≠ slot scope key := fun heq => hslot' (heq ▸ hslot)
  exact (lookup_insertSlot_of_ne hne value h.state).trans (hwithin.kept slot' hslot')

theorem Within.emit (hwithin : h.Within written start) (topic payload : Bytes) :
    (h.emit topic payload).Within written start :=
  ⟨hwithin.unlimited, (context_emit _ _ _).trans hwithin.context_eq, hwithin.kept, hwithin.ordered⟩

theorem Within.allowsWrite (hwithin : h.Within written start) (descriptor : Bytes) :
    h.allowsWrite descriptor = true := by
  unfold Ledger.allowsWrite
  rw [hwithin.unlimited]

end Ledger

end ContractCompiler

namespace ContractCompiler.Ssa

variable {fp : Footprint} {start start' : Ledger} {s s' : Store}

/-- The stores of two evaluations with one footprint, from two ledgers that agree on what is
accessed. -/
structure Store.Agree (fp : Footprint) (start start' : Ledger) (s s' : Store) : Prop where
  cells_eq : s'.cells = s.cells
  hostStatus_eq : s'.hostStatus = s.hostStatus
  context_eq : s'.ledger.context = s.ledger.context
  within : s.ledger.Within fp.written start
  within' : s'.ledger.Within fp.written start'
  same : ∀ slot, fp.accessed slot → s'.ledger.state.lookup slot = s.ledger.state.lookup slot

/-- Both evaluations write a slot of the footprint. -/
theorem Store.Agree.write (h : s.Agree fp start start' s') {scope key : Bytes}
    (hslot : fp.written (Ledger.slot scope key)) (value : Bytes) :
    Store.Agree fp start start' { s with ledger := s.ledger.write scope key value }
      { s' with ledger := s'.ledger.write scope key value } := by
  refine ⟨h.cells_eq, h.hostStatus_eq, ?_, h.within.write hslot value, h.within'.write hslot value,
    fun slot haccessed => ?_⟩
  · exact (Ledger.context_write _ _ _ _).trans
      (h.context_eq.trans (Ledger.context_write _ _ _ _).symm)
  · by_cases heq : slot = Ledger.slot scope key
    · subst heq
      exact (lookup_insertSlot_self _ _ _).trans (lookup_insertSlot_self _ _ _).symm
    · exact (lookup_insertSlot_of_ne heq value _).trans
        ((h.same slot haccessed).trans (lookup_insertSlot_of_ne heq value _).symm)

theorem tracking_agree (fp : Footprint) (start start' : Ledger) :
    Store.Tracking (Store.Agree fp start start') where
  cells_eq h := h.cells_eq
  hostStatus_eq h := h.hostStatus_eq
  context_eq h := h.context_eq
  setCells h _ := ⟨rfl, h.hostStatus_eq, h.context_eq, h.within, h.within', h.same⟩
  notFound h := ⟨h.cells_eq, rfl, h.context_eq, h.within, h.within', h.same⟩
  emit h topic payload := by
    refine ⟨h.cells_eq, h.hostStatus_eq, ?_, h.within.emit topic payload,
      h.within'.emit topic payload, h.same⟩
    exact (Ledger.context_emit _ _ _).trans (h.context_eq.trans (Ledger.context_emit _ _ _).symm)

section Calls

variable [Hashing] {m : Module} {types : TypePool} {unit : String} {f : FuncId} {args : List UInt64}
  {limits : EvalLimits}

/-- The accesses of a footprint are admitted. -/
theorem admits_agree {c : EvalContext} {a : StateAccess} {x : Val}
    (haccessed : fp.accessed (c.slotOf a x))
    (hwritten : a.isWrite = true → fp.written (c.slotOf a x)) :
    Store.Admits (Store.Agree fp start start') c a x where
  read h := h.same _ haccessed
  write hwrite _ _ h value := h.write (hwritten hwrite) value

/-- Started on ledgers without limits that agree on what one of the two evaluations accesses, a call
has the same result, and the two evaluations leave stores that agree. -/
theorem evalFunction_agree (hstart : start.allowed = none) (hstart' : start'.allowed = none)
    (hcontext : start'.context = start.context)
    (hsame : ∀ slot, (m.footprint types unit f args start limits).accessed slot →
      start'.state.lookup slot = start.state.lookup slot) :
    ∃ (r : RunResult) (s s' : Store), s.Agree (m.footprint types unit f args start limits)
      start start' s' ∧
      m.evalFunction types f args start unit limits = (r, s.ledger) ∧
      m.evalFunction types f args start' unit limits = (r, s'.ledger) := by
  have hstores : Store.Agree (m.footprint types unit f args start limits)
      start start' { ledger := start } { ledger := start' } :=
    ⟨rfl, rfl, hcontext, .refl hstart, .refl hstart', hsame⟩
  obtain ⟨r, s, s', hagree, -, hcall, hcall'⟩ :=
    evalFunction_parallel (tracking_agree _ _ _) hstores
    (fun _ _ _ _ _ _ _ _ _ h => ⟨h.within.allowsWrite _, h.within'.allowsWrite _⟩)
    fun steps a x haccess =>
      admits_agree ⟨steps, a, x, haccess, rfl⟩ fun hwrite => ⟨steps, a, x, haccess, rfl, hwrite⟩
  exact ⟨r, s, s', hagree, hcall, hcall'⟩

end Calls

end ContractCompiler.Ssa
