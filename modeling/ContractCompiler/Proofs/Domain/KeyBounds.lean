import ContractCompiler.Proofs.Domain.KeyResolution
import ContractCompiler.Proofs.Ssa.Dependence
import Mathlib.Data.List.Perm.Subperm

/-!
# Which constants a search stays within

A search for the constants that a value may be goes through the definitions of values. Whether it
succeeds, and what it finds, can be said without the search: by sets of constants that bound it at
every value that it passes.

- `Lookup`, `KeySearch.lookup?`: what a search looks up at an instruction;
- `KeySearch.Within`: some steps back from a value, no constants are met but given ones;
- `within_of_resolveWithin`: a search that succeeds is bounded by what it finds;
- `resolve_of_within`: where the constants are bounded and few, the search succeeds, and finds no
  others.

The order in which constants are found, and the values that a search came from, do not appear in the
bounds. That a search never has to turn back to a value that it came from is shown by counting
steps: the fewest steps in which a value is bounded go down along the search.
-/

namespace ContractCompiler.Ssa

/-! ## Lookups -/

/-- What a search looks up at an instruction. -/
inductive Lookup where
  | constant (k : KeyConst)
  /-- What an operation makes of a word. -/
  | mapped (src : ValueId) (f : UInt64 → Option UInt64)
  /-- What an operation makes of two words. -/
  | paired (left right : ValueId) (f : UInt64 → UInt64 → Option UInt64)
  /-- Another value, which is the same. -/
  | same (w : ValueId)

/-- The values that a search goes on with. -/
def Lookup.operands : Lookup → List ValueId
  | .constant _ => []
  | .mapped src _ => [src]
  | .paired left right _ => [left, right]
  | .same w => [w]

/-- A search that goes on with what was looked up. -/
def Lookup.run (maxKeys : Nat) (search : KeySearch.Search) (found : KeyConsts) :
    Lookup → Option KeyConsts
  | .constant k => some (found.add k)
  | .mapped src f => (search src []).bind fun srcs => KeyConsts.addMapped f srcs found
  | .paired left right f => (search left []).bind fun lefts => (search right []).bind fun rights =>
      if maxKeys < lefts.length * rights.length then none
        else KeyConsts.addProduct f rights lefts found
  | .same w => search w found

/-- The constants met through a lookup are among some, if those met further back are bounded. -/
def Lookup.Within (maxKeys : Nat) (B : ValueId → KeyConsts → Prop) (T : KeyConsts) : Lookup → Prop
  | .constant k => k ∈ T
  | .mapped src f => ∃ S, B src S ∧ S.length ≤ maxKeys ∧
      ∀ k ∈ S, ∃ w u, k = .word w ∧ f w = some u ∧ KeyConst.word u ∈ T
  | .paired left right f => ∃ S S', B left S ∧ B right S' ∧ S.length ≤ maxKeys ∧
      S'.length ≤ maxKeys ∧
      S.length * S'.length ≤ maxKeys ∧
      ∀ k ∈ S, ∀ k' ∈ S', ∃ a b u, k = .word a ∧ k' = .word b ∧ f a b = some u ∧ KeyConst.word u ∈ T
  | .same w => B w T

namespace KeySearch

/-- What a search looks up at an instruction, if it can go on there. -/
def lookup? (s : KeySearch) : InstData → Option Lookup
  | .constInt bits => some (.constant (.word bits))
  | .constBool value => some (.constant (.word (wordOfBool value)))
  | .constBytes bytes => some (.constant (.bytes bytes))
  | .cast mode type src => (s.kind? src).bind fun k =>
      ((some (s.types.intKind type)).filter (·.bits ≠ 0)).map
        fun target => .mapped src (castWord mode k target)
  | .unary op mode src => (s.kind? src).map fun k => .mapped src (unaryWord op mode k)
  | .binary op mode left right =>
    if mode = .checked then none
    else (s.kind? left).map fun k => .paired left right (binaryWord op mode k)
  | .extract base index => (s.module.fieldWithin index maxKeyDepth base).map .same
  | .resultValue src => (s.module.okPayload? src).map .same
  | _ => none

/-- What a search looks up at the definition of a value. -/
def lookupAt? (s : KeySearch) (v : ValueId) : Option Lookup := (s.module.dataOf? v).bind s.lookup?

/-- An edge from a predecessor to a block, with the arguments that it passes. -/
def Edge (s : KeySearch) (block : BlockId) (args : List ValueId) : Prop :=
  ∃ preds, s.preds[block]? = some preds ∧ ∃ p ∈ preds, ∃ term, (s.module.block p).term = some term ∧
    args ∈ term.argsTo block

/-- A number of steps back from a value, no constants are met but some. Parameters of the first
block of a function are not bounded by anything. -/
def Within (s : KeySearch) : Nat → ValueId → KeyConsts → Prop
  | 0, _, _ => False
  | n + 1, v, T =>
    (∃ l, s.lookupAt? v = some l ∧ l.Within s.maxKeys (s.Within n) T) ∨
    ∃ block index, s.module.siteOf? v = some (.param block index) ∧ ¬s.module.IsEntry block ∧
      ∀ args, s.Edge block args → ∃ a, args[index]? = some a ∧ (a = v ∨ s.Within n a T)

variable {s : KeySearch}

/-- What is found at an instruction is what is found by going on with what was looked up. -/
theorem ofInst_eq (search : Search) (data : InstData) (found : KeyConsts) :
    s.ofInst search data found = (s.lookup? data).bind (Lookup.run s.maxKeys search found) := by
  cases data with
  | cast mode type src =>
    dsimp only [ofInst, lookup?]
    generalize (some (s.types.intKind type)).filter (·.bits ≠ 0) = target
    cases hsearch : search src [] <;> cases s.kind? src <;> cases target <;>
      simp [Lookup.run, hsearch]
  | unary op mode src =>
    dsimp only [ofInst, lookup?]
    cases hsearch : search src [] <;> cases s.kind? src <;> simp [Lookup.run, hsearch]
  | binary op mode left right =>
    dsimp only [ofInst, lookup?]
    by_cases hmode : mode = .checked
    · rw [if_pos hmode, if_pos hmode]
      rfl
    · rw [if_neg hmode, if_neg hmode]
      cases hl : search left [] <;> cases hr : search right [] <;> cases s.kind? left <;>
        simp [Lookup.run, hl, hr]
  | extract base index =>
    dsimp only [ofInst, lookup?]
    cases s.module.fieldWithin index maxKeyDepth base <;> rfl
  | resultValue src =>
    dsimp only [ofInst, lookup?]
    cases s.module.okPayload? src <;> rfl
  | _ => rfl

end KeySearch

/-! ## Bounds -/

namespace Lookup

variable {maxKeys : Nat} {B B₀ B' : ValueId → KeyConsts → Prop} {T T' : KeyConsts} {l : Lookup}

theorem Within.imp (h : l.Within maxKeys B T) (hB : ∀ w ∈ l.operands, ∀ S, B w S → B' w S) :
    l.Within maxKeys B' T := by
  cases l with
  | constant k => exact h
  | mapped src f =>
    obtain ⟨S, hS, hrest⟩ := h
    exact ⟨S, hB src (by simp [operands]) S hS, hrest⟩
  | paired left right f =>
    obtain ⟨S, S', hS, hS', hrest⟩ := h
    exact ⟨S, S', hB left (by simp [operands]) S hS, hB right (by simp [operands]) S' hS', hrest⟩
  | same w => exact hB w (by simp [operands]) T h

/-- More constants bound more. -/
theorem Within.mono (h : l.Within maxKeys B T) (hsub : T ⊆ T') (hB : ∀ w, B w T → B w T') :
    l.Within maxKeys B T' := by
  cases l with
  | constant k => exact hsub h
  | mapped src f =>
    obtain ⟨S, hS, hfew, hwords⟩ := h
    refine ⟨S, hS, hfew, fun k hk => ?_⟩
    obtain ⟨w, u, heq, hu, hmem⟩ := hwords k hk
    exact ⟨w, u, heq, hu, hsub hmem⟩
  | paired left right f =>
    obtain ⟨S, S', hS, hS', hfew, hfew', hpairs, hwords⟩ := h
    refine ⟨S, S', hS, hS', hfew, hfew', hpairs, fun k hk k' hk' => ?_⟩
    obtain ⟨a, b, u, heq, heq', hu, hmem⟩ := hwords k hk k' hk'
    exact ⟨a, b, u, heq, heq', hu, hsub hmem⟩
  | same w => exact hB w h

/-- A bound with one set and one in few steps make a bound with the one set in few steps. -/
theorem Within.lower (h₀ : l.Within maxKeys B₀ T') (h : l.Within maxKeys B T)
    (hB : ∀ w S₀ S, B₀ w S₀ → B w S → B₀ w S) : l.Within maxKeys B₀ T := by
  cases l with
  | constant k => exact h
  | mapped src f =>
    obtain ⟨S₀, hS₀, -⟩ := h₀
    obtain ⟨S, hS, hrest⟩ := h
    exact ⟨S, hB src S₀ S hS₀ hS, hrest⟩
  | paired left right f =>
    obtain ⟨S₀, S₀', hS₀, hS₀', -⟩ := h₀
    obtain ⟨S, S', hS, hS', hrest⟩ := h
    exact ⟨S, S', hB left S₀ S hS₀ hS, hB right S₀' S' hS₀' hS', hrest⟩
  | same w => exact hB w T' T h₀ h

end Lookup

namespace KeySearch

variable {s : KeySearch} {n n' : Nat} {v : ValueId} {T T' : KeyConsts}

theorem siteOf?_of_lookupAt? {l : Lookup} (h : s.lookupAt? v = some l) :
    ∃ i, s.module.siteOf? v = some (.inst i) := by
  obtain ⟨data, hdata, -⟩ := Option.bind_eq_some_iff.mp h
  obtain ⟨i, inst, hsite, -⟩ := Module.dataOf?_eq_some.mp hdata
  exact ⟨i, hsite⟩

/-- A value whose search is bounded is there. -/
theorem Within.exists_value (h : s.Within n v T) : ∃ value, s.module.values[v]? = some value := by
  have hsite : ∃ site, s.module.siteOf? v = some site := by
    cases n with
    | zero => exact h.elim
    | succ n =>
      rcases h with ⟨l, hl, -⟩ | ⟨block, index, hsite, -⟩
      · obtain ⟨i, hi⟩ := siteOf?_of_lookupAt? hl
        exact ⟨_, hi⟩
      · exact ⟨_, hsite⟩
  obtain ⟨site, hsite⟩ := hsite
  obtain ⟨value, hvalue, -⟩ := Option.map_eq_some_iff.mp hsite
  exact ⟨value, hvalue⟩

theorem Within.mono (h : s.Within n v T) (hsub : T ⊆ T') : s.Within n v T' := by
  induction n generalizing v with
  | zero => exact h
  | succ n ih =>
    rcases h with ⟨l, hl, h⟩ | ⟨block, index, hsite, hinner, hedges⟩
    · exact .inl ⟨l, hl, h.mono hsub fun w hw => ih hw⟩
    · refine .inr ⟨block, index, hsite, hinner, fun args hargs => ?_⟩
      obtain ⟨a, ha, hself⟩ := hedges args hargs
      exact ⟨a, ha, hself.imp_right fun hw => ih hw⟩

/-- What is bounded in some steps is bounded in one more. -/
theorem Within.succ (h : s.Within n v T) : s.Within (n + 1) v T := by
  induction n generalizing v T with
  | zero => exact h.elim
  | succ n ih =>
    rcases h with ⟨l, hl, h⟩ | ⟨block, index, hsite, hinner, hedges⟩
    · exact .inl ⟨l, hl, h.imp fun w _ S hw => ih hw⟩
    · refine .inr ⟨block, index, hsite, hinner, fun args hargs => ?_⟩
      obtain ⟨a, ha, hself⟩ := hedges args hargs
      exact ⟨a, ha, hself.imp_right fun hw => ih hw⟩

/-- What is bounded in few steps, and by a set, is bounded by the set in few steps. -/
theorem Within.lower (h₀ : s.Within n v T') (h : s.Within n' v T) : s.Within n v T := by
  induction n generalizing n' v T T' with
  | zero => exact h₀.elim
  | succ n ih =>
    cases n' with
    | zero => exact h.elim
    | succ n' =>
      rcases h₀ with ⟨l₀, hl₀, h₀⟩ | ⟨block₀, index₀, hsite₀, hinner, hedges₀⟩
      · rcases h with ⟨l, hl, h⟩ | ⟨block, index, hsite, -⟩
        · obtain rfl := Option.some.inj (hl₀.symm.trans hl)
          exact .inl ⟨l₀, hl₀, h₀.lower h fun w S₀ S hw₀ hw => ih hw₀ hw⟩
        · obtain ⟨i, hi⟩ := siteOf?_of_lookupAt? hl₀
          cases hi.symm.trans hsite
      · rcases h with ⟨l, hl, -⟩ | ⟨block, index, hsite, -, hedges⟩
        · obtain ⟨i, hi⟩ := siteOf?_of_lookupAt? hl
          cases hi.symm.trans hsite₀
        · cases hsite₀.symm.trans hsite
          refine .inr ⟨block₀, index₀, hsite₀, hinner, fun args hargs => ?_⟩
          obtain ⟨a₀, ha₀, hself₀⟩ := hedges₀ args hargs
          obtain ⟨a, ha, hself⟩ := hedges args hargs
          obtain rfl := Option.some.inj (ha₀.symm.trans ha)
          refine ⟨a₀, ha₀, ?_⟩
          rcases hself₀ with heq | hw₀
          · exact .inl heq
          · exact hself.imp_right fun hw => ih hw₀ hw

/-! ## Searches that succeed -/

/-- A search that succeeds found at most as many constants as are told apart. -/
theorem length_le_of_resolveWithin {path : List ValueId} {found out : KeyConsts}
    (h : s.resolveWithin n path v found = some out) : out.length ≤ s.maxKeys := by
  cases n with
  | zero => cases h
  | succ n =>
    have hcap : ∀ {o : Option KeyConsts},
        (o.bind fun found => if s.maxKeys < found.length then none else some found) = some out →
          out.length ≤ s.maxKeys := by
      intro o ho
      obtain ⟨found', -, hcap⟩ := Option.bind_eq_some_iff.mp ho
      split at hcap
      · cases hcap
      · rename_i hle
        cases hcap
        exact Nat.le_of_not_lt hle
    simp only [resolveWithin, Option.bind_eq_bind, Option.bind_eq_some_iff] at h
    obtain ⟨value, -, h⟩ := h
    split at h
    · cases h
    · split at h <;> exact hcap h

/-- What a lookup that succeeds finds bounds what is met through it. -/
theorem within_of_run {search : Search} {B : ValueId → KeyConsts → Prop}
    (hsearch : ∀ w found out, search w found = some out → B w out ∧ out.length ≤ s.maxKeys)
    {l : Lookup} {found out : KeyConsts} (h : l.run s.maxKeys search found = some out) :
    l.Within s.maxKeys B out := by
  cases l with
  | constant k =>
    cases h
    exact KeyConsts.mem_add.mpr (.inr rfl)
  | mapped src f =>
    obtain ⟨srcs, hsrcs, hmap⟩ := Option.bind_eq_some_iff.mp h
    obtain ⟨hbound, hfew⟩ := hsearch _ _ _ hsrcs
    refine ⟨srcs, hbound, hfew, fun k hk => ?_⟩
    obtain ⟨w, u, heq, hu, hmem⟩ := (KeyConsts.addMapped_spec hmap).2 k hk
    exact ⟨w, u, heq, hu, hmem⟩
  | paired left right f =>
    obtain ⟨lefts, hlefts, h⟩ := Option.bind_eq_some_iff.mp h
    obtain ⟨rights, hrights, h⟩ := Option.bind_eq_some_iff.mp h
    split at h
    · cases h
    · rename_i hpairs
      obtain ⟨hleft, hfew⟩ := hsearch _ _ _ hlefts
      obtain ⟨hright, hfew'⟩ := hsearch _ _ _ hrights
      refine ⟨lefts, rights, hleft, hright, hfew, hfew', Nat.le_of_not_lt hpairs,
        fun k hk k' hk' => ?_⟩
      obtain ⟨a, b, u, heq, heq', hu, hmem⟩ := (KeyConsts.addProduct_spec h).2 k hk k' hk'
      exact ⟨a, b, u, heq, heq', hu, hmem⟩
  | same w => exact (hsearch _ _ _ h).1

/-- An edge that is searched has an argument for the parameter. -/
theorem exists_arg_of_ofEdges {search : Search} {self : ValueId} {index : Nat} {args : List ValueId}
    {edges : List (List ValueId)} (hmem : args ∈ edges) {found out : KeyConsts}
    (h : ofEdges search self index edges found = some out) : ∃ a, args[index]? = some a := by
  induction edges generalizing found with
  | nil => cases hmem
  | cons args' rest ih =>
    obtain ⟨a, found', ha, -, hrest⟩ := ofEdges_cons h
    rcases List.mem_cons.mp hmem with rfl | hmem
    · exact ⟨a, ha⟩
    · exact ih hmem hrest

theorem exists_arg_of_ofPredecessors {search : Search} {block p : BlockId} {self : ValueId}
    {index : Nat} {term : Terminator} (hterm : (s.module.block p).term = some term)
    {args : List ValueId} (hargs : args ∈ term.argsTo block) {preds : List BlockId} (hp : p ∈ preds)
    {found out : KeyConsts} (h : s.ofPredecessors search block self index preds found = some out) :
    ∃ a, args[index]? = some a := by
  induction preds generalizing found with
  | nil => cases hp
  | cons q rest ih =>
    simp only [ofPredecessors, Option.bind_eq_bind, Option.bind_eq_some_iff] at h
    obtain ⟨term', hterm', found', hfound', hrest⟩ := h
    split at hrest
    · cases hrest
    · rcases List.mem_cons.mp hp with rfl | hp
      · obtain rfl := Option.some.inj (hterm.symm.trans hterm')
        exact exists_arg_of_ofEdges hargs hfound'
      · exact ih hp hrest

/-- A search that succeeds is bounded by what it finds, if nothing leads to the first blocks of
functions. -/
theorem within_of_resolveWithin
    (hinner : ∀ block preds, s.preds[block]? = some preds → preds ≠ [] → ¬s.module.IsEntry block)
    {path : List ValueId} {found out : KeyConsts} (h : s.resolveWithin n path v found = some out) :
    s.Within n v out := by
  induction n generalizing v path found out with
  | zero => cases h
  | succ n ih =>
    obtain ⟨n', value, hn, hvalue, hstep⟩ := resolveWithin_eq_some h
    obtain rfl := Nat.succ.inj hn
    have hsearch : ∀ w found' out', s.resolveWithin n (v :: path) w found' = some out' →
        s.Within n w out' ∧ out'.length ≤ s.maxKeys :=
      fun w found' out' hw => ⟨ih hw, length_le_of_resolveWithin hw⟩
    have hsite : s.module.siteOf? v = some value.site := Module.siteOf?_of_value hvalue rfl
    cases hdef : value.site with
    | none =>
      rw [hdef] at hstep
      exact hstep.elim
    | inst i =>
      rw [hdef] at hstep hsite
      obtain ⟨inst, hinst, hfound⟩ := hstep
      rw [ofInst_eq] at hfound
      obtain ⟨l, hl, hrun⟩ := Option.bind_eq_some_iff.mp hfound
      refine .inl ⟨l, ?_, within_of_run hsearch hrun⟩
      have hdata : s.module.dataOf? v = some inst.data :=
        Module.dataOf?_eq_some.mpr ⟨i, inst, hsite, hinst, rfl⟩
      unfold lookupAt?
      rw [hdata]
      exact hl
    | param block index =>
      rw [hdef] at hstep hsite
      obtain ⟨preds, hpreds, hne, hfound⟩ := ofParam_eq_some hstep
      refine .inr ⟨block, index, hsite, hinner block preds hpreds hne, ?_⟩
      rintro args ⟨preds', hpreds', p, hp, term, hterm, hargs⟩
      obtain rfl := Option.some.inj (hpreds.symm.trans hpreds')
      have hp : p ∈ preds.eraseDups := List.mem_eraseDups.mpr hp
      obtain ⟨a, ha⟩ := exists_arg_of_ofPredecessors hterm hargs hp hfound
      refine ⟨a, ha, ?_⟩
      by_cases hself : a = v
      · exact .inl hself
      · obtain ⟨found', out', hout', hsub⟩ :=
          ofPredecessors_mem (keeps_resolveWithin n (v :: path)) hterm hargs ha hself hp hfound
        exact .inr ((ih hout').mono hsub)

end KeySearch

/-! ## Searches that have to succeed -/

namespace KeyConsts

variable {found T : KeyConsts}

/-- Constants found so far that stay within a set. -/
def FitsIn (found T : KeyConsts) : Prop := found.Nodup ∧ found ⊆ T

theorem fitsIn_nil (T : KeyConsts) : FitsIn [] T := ⟨List.nodup_nil, List.nil_subset T⟩

theorem FitsIn.length_le (h : found.FitsIn T) : found.length ≤ T.length :=
  (List.subperm_of_subset h.1 h.2).length_le

theorem FitsIn.add (h : found.FitsIn T) {k : KeyConst} (hk : k ∈ T) : (found.add k).FitsIn T := by
  unfold KeyConsts.add
  split
  · exact h
  · rename_i hnew
    refine ⟨List.nodup_append.mpr ⟨h.1, List.nodup_singleton k, fun a ha b hb => ?_⟩,
      fun a ha => ?_⟩
    · rintro rfl
      exact hnew (List.mem_singleton.mp hb ▸ ha)
    · rcases List.mem_append.mp ha with ha | ha
      · exact h.2 ha
      · exact List.mem_singleton.mp ha ▸ hk

theorem exists_addMapped {f : UInt64 → Option UInt64} {srcs : KeyConsts}
    (h : ∀ k ∈ srcs, ∃ w u, k = .word w ∧ f w = some u ∧ KeyConst.word u ∈ T)
    (hfound : found.FitsIn T) :
    ∃ out, addMapped f srcs found = some out ∧ out.FitsIn T := by
  induction srcs generalizing found with
  | nil => exact ⟨found, rfl, hfound⟩
  | cons src srcs ih =>
    obtain ⟨w, u, rfl, hu, hmem⟩ := h src List.mem_cons_self
    rw [addMapped, hu]
    exact ih (fun k hk => h k (List.mem_cons_of_mem _ hk)) (hfound.add hmem)

theorem exists_addProduct {f : UInt64 → UInt64 → Option UInt64} {lefts rights : KeyConsts}
    (h : ∀ k ∈ lefts, ∀ k' ∈ rights, ∃ a b u, k = .word a ∧ k' = .word b ∧ f a b = some u ∧
      KeyConst.word u ∈ T) (hfound : found.FitsIn T) :
    ∃ out, addProduct f rights lefts found = some out ∧ out.FitsIn T := by
  induction lefts generalizing found with
  | nil => exact ⟨found, rfl, hfound⟩
  | cons left lefts ih =>
    have hrest := fun k hk => h k (List.mem_cons_of_mem left hk)
    cases left with
    | word a =>
      have hrow : ∀ k' ∈ rights, ∃ b u, k' = .word b ∧ f a b = some u ∧ KeyConst.word u ∈ T := by
        intro k' hk'
        obtain ⟨a', b, u, heq, hk', hu, hmem⟩ := h _ List.mem_cons_self k' hk'
        cases heq
        exact ⟨b, u, hk', hu, hmem⟩
      obtain ⟨out, hout, hfits⟩ := exists_addMapped hrow hfound
      rw [addProduct, hout]
      exact ih hrest hfits
    | bytes b =>
      -- an operation on no pair of constants does not look at them
      cases rights with
      | nil => exact ih hrest hfound
      | cons k' rights =>
        obtain ⟨a, _, _, heq, -⟩ := h _ List.mem_cons_self k' List.mem_cons_self
        cases heq

end KeyConsts

namespace KeySearch

variable {s : KeySearch} {n : Nat} {v : ValueId} {T : KeyConsts} {search : Search}

/-- A search that finds something succeeds only with something. -/
theorem ne_nil_of_resolveWithin {path : List ValueId} {found out : KeyConsts}
    (h : s.resolveWithin n path v found = some out) : out ≠ [] := by
  induction n generalizing v path found out with
  | zero => cases h
  | succ n ih =>
    obtain ⟨n', value, hn, -, hstep⟩ := resolveWithin_eq_some h
    obtain rfl := Nat.succ.inj hn
    split at hstep
    · exact hstep.elim
    · obtain ⟨inst, -, hfound⟩ := hstep
      rw [ofInst_eq] at hfound
      obtain ⟨l, -, hrun⟩ := Option.bind_eq_some_iff.mp hfound
      cases l with
      | constant k =>
        cases hrun
        exact List.ne_nil_of_mem (KeyConsts.mem_add.mpr (.inr rfl))
      | mapped src f =>
        obtain ⟨srcs, hsrcs, hmap⟩ := Option.bind_eq_some_iff.mp hrun
        obtain ⟨k, hk⟩ := List.exists_mem_of_ne_nil _ (ih hsrcs)
        obtain ⟨_, _, -, -, hmem⟩ := (KeyConsts.addMapped_spec hmap).2 k hk
        exact List.ne_nil_of_mem hmem
      | paired left right f =>
        obtain ⟨lefts, hlefts, hrun⟩ := Option.bind_eq_some_iff.mp hrun
        obtain ⟨rights, hrights, hrun⟩ := Option.bind_eq_some_iff.mp hrun
        split at hrun
        · cases hrun
        · obtain ⟨k, hk⟩ := List.exists_mem_of_ne_nil _ (ih hlefts)
          obtain ⟨k', hk'⟩ := List.exists_mem_of_ne_nil _ (ih hrights)
          obtain ⟨_, _, _, -, -, -, hmem⟩ := (KeyConsts.addProduct_spec hrun).2 k hk k' hk'
          exact List.ne_nil_of_mem hmem
      | same w => exact ih hrun
    · unfold ofParam at hstep
      simp only [Option.bind_eq_bind, Option.bind_eq_some_iff] at hstep
      obtain ⟨preds, -, hstep⟩ := hstep
      split at hstep
      · cases hstep
      · obtain ⟨found', -, hstep⟩ := Option.bind_eq_some_iff.mp hstep
        split at hstep
        · cases hstep
        · rename_i hne
          cases hstep
          exact fun heq => hne (List.isEmpty_iff.mpr heq)

/-- A search for a value that succeeds on top of any constants of a set, and stays within the
set. -/
def Answers (search : Search) (w : ValueId) (T : KeyConsts) : Prop :=
  ∀ found : KeyConsts, found.FitsIn T → ∃ out, search w found = some out ∧ out.FitsIn T

/-- Where the constants met further back are bounded, going on with what was looked up succeeds. -/
theorem exists_run {B : ValueId → KeyConsts → Prop} {l : Lookup} (h : l.Within s.maxKeys B T)
    (hT : T.length ≤ s.maxKeys)
    (hsearch : ∀ w ∈ l.operands, ∀ S, B w S → S.length ≤ s.maxKeys → Answers search w S)
    {found : KeyConsts} (hfound : found.FitsIn T) :
    ∃ out, l.run s.maxKeys search found = some out ∧ out.FitsIn T := by
  cases l with
  | constant k => exact ⟨_, rfl, hfound.add h⟩
  | mapped src f =>
    obtain ⟨S, hS, hfew, hwords⟩ := h
    obtain ⟨srcs, hsrcs, hfits⟩ :=
      hsearch src (by simp [Lookup.operands]) S hS hfew [] (KeyConsts.fitsIn_nil S)
    obtain ⟨out, hout, hresult⟩ := KeyConsts.exists_addMapped
      (fun k hk => hwords k (hfits.2 hk)) hfound
    refine ⟨out, ?_, hresult⟩
    show (search src []).bind _ = _
    rw [hsrcs]
    exact hout
  | paired left right f =>
    obtain ⟨S, S', hS, hS', hfew, hfew', hpairs, hwords⟩ := h
    obtain ⟨lefts, hlefts, hfits⟩ :=
      hsearch left (by simp [Lookup.operands]) S hS hfew [] (KeyConsts.fitsIn_nil S)
    obtain ⟨rights, hrights, hfits'⟩ :=
      hsearch right (by simp [Lookup.operands]) S' hS' hfew' [] (KeyConsts.fitsIn_nil S')
    obtain ⟨out, hout, hresult⟩ := KeyConsts.exists_addProduct
      (fun k hk k' hk' => hwords k (hfits.2 hk) k' (hfits'.2 hk')) hfound
    refine ⟨out, ?_, hresult⟩
    have hle : lefts.length * rights.length ≤ s.maxKeys :=
      (Nat.mul_le_mul hfits.length_le hfits'.length_le).trans hpairs
    show (search left []).bind _ = _
    rw [hlefts, Option.bind_some, hrights, Option.bind_some, if_neg (Nat.not_lt.mpr hle)]
    exact hout
  | same w => exact hsearch w (by simp [Lookup.operands]) T h hT found hfound

theorem exists_ofEdges {self : ValueId} {index : Nat} {edges : List (List ValueId)}
    (h : ∀ args ∈ edges, ∃ a, args[index]? = some a ∧ (a = self ∨ Answers search a T))
    {found : KeyConsts} (hfound : found.FitsIn T) :
    ∃ out, ofEdges search self index edges found = some out ∧ out.FitsIn T := by
  induction edges generalizing found with
  | nil => exact ⟨found, rfl, hfound⟩
  | cons args rest ih =>
    obtain ⟨a, ha, hself⟩ := h args List.mem_cons_self
    have hrest := fun args' hargs' => h args' (List.mem_cons_of_mem args hargs')
    simp only [ofEdges, ha, Option.bind_eq_bind, Option.bind_some]
    by_cases heq : a = self
    · rw [if_pos heq]
      exact ih hrest hfound
    · obtain ⟨found', hfound', hfits⟩ := hself.resolve_left heq found hfound
      rw [if_neg heq, hfound']
      exact ih hrest hfits

theorem exists_ofPredecessors {block : BlockId} {self : ValueId} {index : Nat}
    {preds : List BlockId}
    (h : ∀ p ∈ preds, ∃ term, (s.module.block p).term = some term ∧ ∀ args ∈ term.argsTo block,
      ∃ a, args[index]? = some a ∧ (a = self ∨ Answers search a T)) (hT : T.length ≤ s.maxKeys)
    {found : KeyConsts} (hfound : found.FitsIn T) :
    ∃ out, s.ofPredecessors search block self index preds found = some out ∧ out.FitsIn T := by
  induction preds generalizing found with
  | nil => exact ⟨found, rfl, hfound⟩
  | cons p rest ih =>
    obtain ⟨term, hterm, hargs⟩ := h p List.mem_cons_self
    obtain ⟨found', hfound', hfits⟩ := exists_ofEdges hargs hfound
    simp only [ofPredecessors, hterm, hfound', Option.bind_eq_bind, Option.bind_some]
    rw [if_neg (Nat.not_lt.mpr (hfits.length_le.trans hT))]
    exact ih (fun p' hp' => h p' (List.mem_cons_of_mem p hp')) hfits

/-- Values at which searches do not run dry: at every parameter among them, some edge does not pass
the parameter itself. -/
structure Fed (s : KeySearch) (P : ValueId → Prop) : Prop where
  operand : ∀ v l, P v → s.lookupAt? v = some l → ∀ w ∈ l.operands, P w
  preds : ∀ v block index, P v → s.module.siteOf? v = some (.param block index) →
    ¬s.module.IsEntry block → ∃ preds, s.preds[block]? = some preds ∧
      ∀ p ∈ preds, ∃ term, (s.module.block p).term = some term
  arg : ∀ v block index, P v → s.module.siteOf? v = some (.param block index) →
    ¬s.module.IsEntry block → ∀ args a, s.Edge block args → args[index]? = some a → P a
  other : ∀ v block index, P v → s.module.siteOf? v = some (.param block index) →
    ¬s.module.IsEntry block → ∃ args, s.Edge block args ∧ v ∉ args

/-- A step of a search at an instruction. -/
theorem resolveWithin_of_lookupAt? {path : List ValueId} {l : Lookup} (hl : s.lookupAt? v = some l)
    (hpath : v ∉ path) {found out : KeyConsts}
    (hrun : l.run s.maxKeys (s.resolveWithin n (v :: path)) found = some out)
    (hle : out.length ≤ s.maxKeys) :
    s.resolveWithin (n + 1) path v found = some out := by
  obtain ⟨data, hdata, hlookup⟩ := Option.bind_eq_some_iff.mp hl
  obtain ⟨i, inst, hsite, hinst, rfl⟩ := Module.dataOf?_eq_some.mp hdata
  obtain ⟨value, hvalue, hdef⟩ := Option.map_eq_some_iff.mp hsite
  have hfound : s.ofInst (s.resolveWithin n (v :: path)) inst.data found = some out := by
    rw [ofInst_eq, hlookup, Option.bind_some, hrun]
  simp only [resolveWithin, hvalue, hdef, hinst, Option.bind_eq_bind, Option.bind_some,
    if_neg hpath, hfound]
  exact if_neg (Nat.not_lt.mpr hle)

/-- A step of a search at a parameter. -/
theorem resolveWithin_of_param {path : List ValueId} {block : BlockId} {index : Nat}
    (hsite : s.module.siteOf? v = some (.param block index)) (hpath : v ∉ path)
    {preds : List BlockId} (hpreds : s.preds[block]? = some preds) (hne : preds ≠ [])
    {found out : KeyConsts} (hrun : s.ofPredecessors (s.resolveWithin n (v :: path))
      block v index preds.eraseDups found = some out)
    (hout : out ≠ []) (hle : out.length ≤ s.maxKeys) :
    s.resolveWithin (n + 1) path v found = some out := by
  obtain ⟨value, hvalue, hdef⟩ := Option.map_eq_some_iff.mp hsite
  have hfound : s.ofParam (s.resolveWithin n (v :: path)) block v index found = some out := by
    simp only [ofParam, hpreds, hrun, Option.bind_eq_bind, Option.bind_some]
    rw [if_neg fun h => hne (List.isEmpty_iff.mp h), if_neg fun h => hout (List.isEmpty_iff.mp h)]
  simp only [resolveWithin, hvalue, hdef, hfound, Option.bind_eq_bind, Option.bind_some,
    if_neg hpath]
  exact if_neg (Nat.not_lt.mpr hle)

/-- Where the constants are bounded and few, a search succeeds, as long as the values that it came
from are not bounded in as few steps. -/
theorem answers_of_within {P : ValueId → Prop} (hfed : s.Fed P) {d : Nat} {path : List ValueId}
    (hd : n ≤ d) (hv : P v) (h : s.Within n v T) (hT : T.length ≤ s.maxKeys)
    (hpath : ∀ u ∈ path, ∀ S : KeyConsts, S.length ≤ s.maxKeys → ¬s.Within n u S) :
    Answers (s.resolveWithin d path) v T := by
  induction n generalizing v T d path with
  | zero => exact h.elim
  | succ n ih =>
    by_cases hlow : ∃ S : KeyConsts, S.length ≤ s.maxKeys ∧ s.Within n v S
    · obtain ⟨S, -, hS⟩ := hlow
      exact ih (Nat.le_of_succ_le hd) hv (hS.lower h) hT
        fun u hu S' hfew hw => hpath u hu S' hfew hw.succ
    · obtain ⟨d, rfl⟩ : ∃ d', d = d' + 1 := Nat.exists_eq_succ_of_ne_zero (Nat.ne_zero_of_lt hd)
      have hmem : v ∉ path := fun hmem => hpath v hmem T hT h
      have hsearch : ∀ w, P w → ∀ S, s.Within n w S → S.length ≤ s.maxKeys →
          Answers (s.resolveWithin d (v :: path)) w S := by
        intro w hw S hS hfew
        refine ih (Nat.le_of_succ_le_succ hd) hw hS hfew fun u hu S' hfew' hu' => ?_
        rcases List.mem_cons.mp hu with rfl | hu
        · exact hlow ⟨S', hfew', hu'⟩
        · exact hpath u hu S' hfew' hu'.succ
      intro found hfound
      rcases h with ⟨l, hl, h⟩ | ⟨block, index, hsite, hinner, hedges⟩
      · obtain ⟨out, hrun, hfits⟩ :=
          exists_run h hT (fun w hw => hsearch w (hfed.operand v l hv hl w hw)) hfound
        exact ⟨out, resolveWithin_of_lookupAt? hl hmem hrun (hfits.length_le.trans hT), hfits⟩
      · obtain ⟨preds, hpreds, hterms⟩ := hfed.preds v block index hv hsite hinner
        have hargs : ∀ p ∈ preds.eraseDups, ∃ term, (s.module.block p).term = some term ∧
            ∀ args ∈ term.argsTo block, ∃ a, args[index]? = some a ∧
              (a = v ∨ Answers (s.resolveWithin d (v :: path)) a T) := by
          intro p hp
          obtain ⟨term, hterm⟩ := hterms p (List.mem_eraseDups.mp hp)
          refine ⟨term, hterm, fun args hargs => ?_⟩
          have hedge : s.Edge block args := ⟨preds, hpreds, p, List.mem_eraseDups.mp hp, term,
            hterm, hargs⟩
          obtain ⟨a, ha, hself⟩ := hedges args hedge
          exact ⟨a, ha, hself.imp_right fun hw =>
            hsearch a (hfed.arg v block index hv hsite hinner args a hedge ha) T hw hT⟩
        obtain ⟨out, hout, hfits⟩ := exists_ofPredecessors hargs hT hfound
        -- the edge that passes another value makes the search find something
        obtain ⟨args, hedge, hother⟩ := hfed.other v block index hv hsite hinner
        obtain ⟨a, ha, -⟩ := hedges args hedge
        obtain ⟨preds', hpreds', p, hp, term, hterm, hmemArgs⟩ := hedge
        obtain rfl := Option.some.inj (hpreds.symm.trans hpreds')
        have hne : a ≠ v := fun heq => hother (heq ▸ List.mem_of_getElem? ha)
        obtain ⟨found', out', hout', hsub⟩ := ofPredecessors_mem
          (keeps_resolveWithin d (v :: path)) hterm hmemArgs ha hne (List.mem_eraseDups.mpr hp) hout
        obtain ⟨k, hk⟩ := List.exists_mem_of_ne_nil _ (ne_nil_of_resolveWithin hout')
        exact ⟨out, resolveWithin_of_param hsite hmem hpreds (List.ne_nil_of_mem hp) hout
          (List.ne_nil_of_mem (hsub k hk)) (hfits.length_le.trans hT), hfits⟩

/-- Where the constants that a value may be are bounded and few, they are resolved, to some of the
bound. -/
theorem resolve_of_within {P : ValueId → Prop} (hfed : s.Fed P)
    (hn : n ≤ maxKeyDepth + 1) (hv : P v) (h : s.Within n v T) (hT : T.length ≤ s.maxKeys) :
    ∃ consts, s.resolve v = some consts ∧ consts ⊆ T := by
  have hstart : ∀ u ∈ ([] : List ValueId), ∀ S : KeyConsts, S.length ≤ s.maxKeys →
      ¬s.Within n u S :=
    fun u hu => absurd hu List.not_mem_nil
  obtain ⟨out, hout, hfits⟩ := answers_of_within hfed hn hv h hT hstart [] (KeyConsts.fitsIn_nil T)
  refine ⟨out, ?_, hfits.2⟩
  unfold resolve
  rw [hout, Option.filter_some, if_pos]
  simpa using ne_nil_of_resolveWithin hout

end KeySearch

end ContractCompiler.Ssa
