import ContractCompiler.Hir.Reader.Module
import ContractCompiler.Proofs.Hir.Typing

/-!
# What a step of reading ensures

Reading goes on after a fault, so a step is described by what it keeps in any case and by what holds
of what it yields, if it yields anything.

- `ReadState.Sound`: the names in sight are bound, and the types are sound; without a fault, no
  binding has type unit;
- `ReadState.Advances`: a later state, in which everything known before is known;
- `Read.Ensures`: a step leads to a later state and what it yields has a property;
- `Ensures.bind`, `Ensures.attempt` and their like: the rules for steps made of others.
-/

namespace ContractCompiler.Hir

namespace ReadState

/-- A state in which the types are sound and the names in sight are bound. -/
structure Sound (s : ReadState) : Prop where
  types : s.types.Sound
  scope : ∀ name sym, (name, sym) ∈ s.scope → sym < s.symbols.size
  /-- A binding of type unit is a fault. -/
  symbols : s.faults = #[] → ∀ symbol ∈ s.symbols, symbol.type ≠ Builtin.unit.id

/-- A later state: everything that was known still is. -/
structure Advances (s s' : ReadState) : Prop where
  sound : s'.Sound
  types : s.types.Extends s'.types
  symbols : ∀ (i : SymbolId) symbol, s.symbols[i]? = some symbol → s'.symbols[i]? = some symbol
  /-- Faults are not forgotten. -/
  faults : s'.faults = #[] → s.faults = #[]

variable {s s' s'' : ReadState}

theorem Sound.refl (h : s.Sound) : s.Advances s := ⟨h, .refl _, fun _ _ hi => hi, fun hf => hf⟩

theorem Advances.trans (h : s.Advances s') (h' : s'.Advances s'') : s.Advances s'' :=
  ⟨h'.sound, h.types.trans h'.types, fun i symbol hi => h'.symbols i symbol (h.symbols i symbol hi),
    fun hf => h.faults (h'.faults hf)⟩

/-- What a state knows, given the signatures of functions. -/
def context (s : ReadState) (sig : FuncId → Option Signature) : TypeContext :=
  ⟨s.types, s.symbols, sig⟩

theorem Advances.context (h : s.Advances s') (sig : FuncId → Option Signature) :
    (s.context sig).Extends (s'.context sig) := ⟨h.types, h.symbols, rfl⟩

end ReadState

namespace Read

variable {α β : Type} {s : ReadState}

/-- A step leads to a later state, and what it yields has a property there. -/
def Ensures (r : Read α) (s : ReadState) (Q : α → ReadState → Prop) : Prop :=
  s.Advances (r.run s).2 ∧ ∀ a, (r.run s).1 = some a → Q a (r.run s).2

/-! ## Rules -/

/-- A step after another one is taken only if the first one yields something. -/
theorem run_bind (r : Read α) (k : α → Read β) (s : ReadState) : (r >>= k).run s =
    (match (r.run s).1 with | some a => (k a).run | none => pure none) (r.run s).2 := rfl

theorem run_types (s : ReadState) : (Read.types).run s = (some s.types, s) := rfl

theorem Ensures.imp {r : Read α} {Q Q' : α → ReadState → Prop} (h : r.Ensures s Q)
    (hQ : ∀ a s', s.Advances s' → Q a s' → Q' a s') : r.Ensures s Q' :=
  ⟨h.1, fun a ha => hQ a _ h.1 (h.2 a ha)⟩

theorem Ensures.bind {r : Read α} {k : α → Read β} {Q : α → ReadState → Prop}
    {Q' : β → ReadState → Prop} (h : r.Ensures s Q)
    (hk : ∀ a s', s.Advances s' → Q a s' → (k a).Ensures s' Q') : (r >>= k).Ensures s Q' := by
  obtain ⟨hadv, hQ⟩ := h
  unfold Ensures
  rw [run_bind]
  cases hr : r.run s with
  | mk a? s' =>
    rw [hr] at hadv hQ
    cases a? with
    | none => exact ⟨hadv, nofun⟩
    | some a =>
      obtain ⟨hadv', hQ'⟩ := hk a s' hadv (hQ a rfl)
      exact ⟨hadv.trans hadv', hQ'⟩

theorem ensures_pure (h : s.Sound) {Q : α → ReadState → Prop} {a : α} (hQ : Q a s) :
    (pure a : Read α).Ensures s Q :=
  ⟨h.refl, fun _ ha => Option.some.inj ha ▸ hQ⟩

theorem ensures_failure (h : s.Sound) {Q : α → ReadState → Prop} : (failure : Read α).Ensures s Q :=
  ⟨h.refl, nofun⟩

/-- A step that may fail without an end to what it is part of. -/
theorem Ensures.attempt {r : Read α} {Q : α → ReadState → Prop} (h : r.Ensures s Q) :
    (attempt r).Ensures s fun a? s' => ∀ a, a? = some a → Q a s' := by
  refine ⟨h.1, fun a? ha? a ha => ?_⟩
  have heq : (r.run s).1 = a? := Option.some.inj ha?
  exact h.2 a (heq.trans ha)

/-! ## Faults -/

theorem ensures_report (h : s.Sound) (cause : Cause) (span : Span) (args : List String) :
    (report cause span args).Ensures s fun _ s' => s'.faults ≠ #[] := by
  have hfaults : s.faults.push { cause, span, args } ≠ #[] := Array.push_ne_empty
  refine ⟨⟨⟨h.types, h.scope, fun hf => absurd hf hfaults⟩, .refl _, fun _ _ hi => hi,
    fun hf => absurd hf hfaults⟩, fun _ _ => hfaults⟩

theorem ensures_malformed (h : s.Sound) (span : Span) (what : Malformation) :
    (malformed span what).Ensures s fun _ s' => s'.faults ≠ #[] :=
  ensures_report h _ _ _

theorem ensures_failWith (h : s.Sound) {Q : α → ReadState → Prop} {cause : Cause} {span : Span}
    {args : List String} : (failWith cause span args : Read α).Ensures s Q :=
  (ensures_report h cause span args).bind fun _ _ hadv _ => ensures_failure hadv.sound

theorem ensures_failMalformed (h : s.Sound) {Q : α → ReadState → Prop} {span : Span}
    {what : Malformation} : (failMalformed span what : Read α).Ensures s Q :=
  (ensures_malformed h span what).bind fun _ _ hadv _ => ensures_failure hadv.sound

/-! ## Types -/

theorem ensures_types (h : s.Sound) : types.Ensures s fun pool s' => pool = s'.types := by
  refine ⟨h.refl, fun pool hpool => ?_⟩
  exact (Option.some.inj hpool).symm

/-- What follows sees the types that there are. -/
theorem ensures_types_bind {k : TypePool → Read α} {Q : α → ReadState → Prop}
    (h : (k s.types).Ensures s Q) :
    (types >>= k).Ensures s Q := h

/-- A type that is read is the one that the text names. -/
theorem ensures_parseType_of (h : s.Sound) (text : String) (span : Span)
    {Q : TypeId → ReadState → Prop}
    (hQ : ∀ t pool, s.types.parse? text = some (t, pool) → Q t { s with types := pool }) :
    (parseType text span).Ensures s Q := by
  unfold parseType
  refine ensures_types_bind ?_
  split
  · rename_i t pool hparse
    have hadv : s.Advances { s with types := pool } :=
      ⟨⟨h.types.parse hparse, h.scope, h.symbols⟩, TypePool.extends_parse hparse, fun _ _ hi => hi,
        fun hf => hf⟩
    exact ⟨hadv, fun a ha => Option.some.inj ha ▸ hQ t pool hparse⟩
  · exact ensures_failWith h

theorem ensures_parseType (h : s.Sound) (text : String) (span : Span) :
    (parseType text span).Ensures s fun _ _ => True :=
  ensures_parseType_of h text span fun _ _ _ => trivial

theorem ensures_mismatch (h : s.Sound) {Q : α → ReadState → Prop} {span : Span}
    {want got : TypeId} :
    (mismatch span want got : Read α).Ensures s Q :=
  (ensures_types h).bind fun _ _ hadv _ => ensures_failWith hadv.sound

theorem ensures_expectType (h : s.Sound) (e : Expr) (want : TypeId) (span : Span) :
    (expectType e want span).Ensures s fun _ _ => e.type = want := by
  unfold expectType
  split
  · rename_i heq
    exact ensures_pure h heq
  · exact ensures_mismatch h

/-- Numbers the result type of a payload type. -/
theorem ensures_resultType (h : s.Sound) (e : TypeId) :
    (withTypes fun pool => pool.result e).Ensures s
      fun t s' => s'.types.resultElem? t = some e := by
  refine ⟨⟨⟨h.types.result e, h.scope, h.symbols⟩, TypePool.extends_result _ e, fun _ _ hi => hi,
    fun hf => hf⟩, fun t ht => ?_⟩
  have heq : (s.types.result e).1 = t := Option.some.inj ht
  exact heq ▸ TypePool.resultElem?_result s.types e

/-! ## Bindings -/

theorem ensures_complete (h : s.Sound) (span : Span) (type : TypeId) (make : ExprInfo → Expr) :
    (complete span type make).Ensures s fun e _ => ∃ i : ExprInfo, i.type = type ∧ e = make i := by
  refine ⟨⟨⟨h.types, h.scope, h.symbols⟩, .refl _, fun _ _ hi => hi, fun hf => hf⟩, fun e he => ?_⟩
  exact ⟨_, rfl, (Option.some.inj he).symm⟩

theorem mem_of_lookup {name : String} {b : β} {entries : List (String × β)}
    (h : entries.lookup name = some b) : (name, b) ∈ entries := by
  induction entries with
  | nil => cases h
  | cons entry rest ih =>
    obtain ⟨name', b'⟩ := entry
    rw [List.lookup_cons] at h
    split at h
    · rename_i heq
      rw [eq_of_beq heq, ← Option.some.inj h]
      exact List.mem_cons_self
    · exact List.mem_cons_of_mem _ (ih h)

theorem ensures_lookup (h : s.Sound) (name : String) (span : Span) :
    (lookup name span).Ensures s fun sym s' => sym < s'.symbols.size := by
  unfold lookup
  have hget : Ensures (get : Read ReadState) s fun s₀ s' => s₀ = s' :=
    ⟨h.refl, fun _ h₀ => (Option.some.inj h₀).symm⟩
  refine hget.bind ?_
  rintro _ s' hadv rfl
  split
  · rename_i sym hsym
    exact ensures_pure hadv.sound (hadv.sound.scope name sym (mem_of_lookup hsym))
  · exact ensures_failWith hadv.sound

theorem ensures_symbol (h : s.Sound) {sym : SymbolId} (hlt : sym < s.symbols.size) :
    (symbol sym).Ensures s fun symbol s' => s'.symbols[sym]? = some symbol := by
  refine ⟨h.refl, fun symbol hsymbol => ?_⟩
  have heq : s.symbols.getD sym default = symbol := Option.some.inj hsymbol
  show s.symbols[sym]? = some symbol
  rw [← heq, Array.getD_eq_getD_getElem?, Array.getElem?_eq_getElem hlt, Option.getD_some]

theorem ensures_declare (h : s.Sound) (symbol : Symbol)
    (hunit : s.faults = #[] → symbol.type ≠ Builtin.unit.id) :
    (declare symbol).Ensures s fun sym s' => s'.symbols[sym]? = some symbol := by
  refine ⟨⟨⟨h.types, fun name sym hmem => ?_, fun hf symbol' hmem => ?_⟩, .refl _,
    fun i symbol' hi => ?_, fun hf => hf⟩, fun sym hsym => ?_⟩
  · show sym < (s.symbols.push symbol).size
    rw [Array.size_push]
    rcases List.mem_cons.mp hmem with heq | hmem
    · rw [(Prod.mk.inj heq).2]
      exact Nat.lt_succ_self _
    · exact Nat.lt_succ_of_lt (h.scope name sym hmem)
  · rcases Array.mem_push.mp hmem with hmem | rfl
    · exact h.symbols hf symbol' hmem
    · exact hunit hf
  · show (s.symbols.push symbol)[i]? = some symbol'
    obtain ⟨hlt, -⟩ := Array.getElem?_eq_some_iff.mp hi
    rw [Array.getElem?_push_lt hlt, ← Array.getElem?_eq_getElem hlt, hi]
  · have heq : s.symbols.size = sym := Option.some.inj hsym
    show (s.symbols.push symbol)[sym]? = some symbol
    rw [← heq]
    exact Array.getElem?_push_size

/-- A step whose bindings are out of sight afterwards. -/
theorem Ensures.inScope (hs : s.Sound) {r : Read α} {Q : α → ReadState → Prop} (h : r.Ensures s Q)
    (hQ : ∀ a s' scope, Q a s' → Q a { s' with scope }) : (inScope r).Ensures s Q := by
  refine ⟨⟨⟨h.1.sound.types, fun name sym hmem => ?_, h.1.sound.symbols⟩, h.1.types, h.1.symbols,
    h.1.faults⟩, fun a ha => ?_⟩
  · have hlt := hs.scope name sym hmem
    have := h.1.symbols sym _ (Array.getElem?_eq_getElem hlt)
    exact (Array.getElem?_eq_some_iff.mp this).1
  · exact hQ a _ _ (h.2 a ha)

end Read

end ContractCompiler.Hir
