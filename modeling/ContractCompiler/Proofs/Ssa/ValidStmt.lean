import ContractCompiler.Proofs.Ssa.ValidExpr

/-!
# The code of statements is valid

Where paths meet, a binding keeps its value or gets a parameter if it is read later. So the bindings
that a statement reads have values wherever it can be reached, and its code is a part of the
function in which everything is in order.

- `Adds`: the code of a statement, which goes on in a block or ends;
- `LowersStmtTo`: the code of a statement is valid;
- `leads_lowerBlock`: the code of a block of statements;
- `lowersStmtTo_ite`, `lowersStmtTo_loop`: where paths meet;
- `lowersStmtTo_of_typed`: the code of every typed statement is valid.
-/

namespace ContractCompiler.Ssa

open Hir (Expr Stmt SymbolId PassMode)
open Build Code

variable {K : BodyContext} {Γ : Hir.TypeContext} {A A₁ A₂ : Avail} {b b₁ b₂ : Builder}
  {k k₁ k₂ : BlockId}

/-! ## The code of statements -/

/-- Code was added at a block. It goes on in the block that is open, if one is. Bindings that are
read later keep having values. -/
structure Adds (K : BodyContext) (A : Avail) (b : Builder) (k : BlockId) (A' : Avail)
    (b' : Builder) :
    Prop where
  part : Part K A b k A' b'.code b'.current.toList
  size : b'.env.size = b.env.size
  loops : b'.loops = b.loops
  pending : b'.pending = b.pending
  ready : ∀ k', b'.current = some k' → b'.Ready K A' k'
  here : ∀ k', b'.current = some k' → ∀ v, b.code.Known A k v → b'.code.Known A' k' v
  lives : ∀ k', b'.current = some k' → ∀ sym, b.isLive sym = true →
      (b.env.getD sym none).isSome = true →
    (b'.env.getD sym none).isSome = true

theorem Goes.adds (h : Goes K A b k A₁ b₁ k₁) : Adds K A b k A₁ b₁ := by
  have hcurrent {k' : BlockId} (hk' : b₁.current = some k') : k₁ = k' :=
    Option.some.inj (h.ready.current.symm.trans hk')
  refine ⟨?_, h.keeps.size, h.loops, h.pending, fun k' hk' => ?_, fun k' hk' => ?_,
    fun _ _ sym _ => h.keeps.isSome sym⟩
  · rw [h.ready.current]
    exact h.part
  · exact hcurrent hk' ▸ h.ready
  · exact hcurrent hk' ▸ h.here

theorem Adds.isLive (h : Adds K A b k A₁ b₁) (sym : SymbolId) : b₁.isLive sym = b.isLive sym := by
  unfold Builder.isLive
  rw [h.loops, h.pending]

theorem Adds.trans (h : Adds K A b k A₁ b₁) (hcurrent : b₁.current = some k₁)
    (h' : Adds K A₁ b₁ k₁ A₂ b₂) : Adds K A b k A₂ b₂ := by
  refine ⟨?_, h'.size.trans h.size, h'.loops.trans h.loops, h'.pending.trans h.pending, h'.ready,
    fun k₂ hk₂ v hv => h'.here k₂ hk₂ v (h.here k₁ hcurrent v hv), fun k₂ hk₂ sym hlive hsym => ?_⟩
  · have hpart := h.part
    rw [hcurrent] at hpart
    simpa using hpart.nest_head List.not_mem_nil h'.part h.loops
  · exact h'.lives k₂ hk₂ sym ((h.isLive sym).trans hlive) (h.lives k₁ hcurrent sym hlive hsym)

theorem Goes.then (h : Goes K A b k A₁ b₁ k₁) (h' : Adds K A₁ b₁ k₁ A₂ b₂) : Adds K A b k A₂ b₂ :=
  h.adds.trans h.ready.current h'

/-- Ending the block that is open. -/
theorem Builder.Ready.ended (h : b.Ready K A k) {t : Terminator} (ht : b.code.EndValid K A k t)
    (hleaves : ∀ e ∈ t.edges, b.Leaves e.1) : Adds K A b k A (b.ended t) := by
  refine ⟨?_, rfl, rfl, rfl, nofun, nofun, nofun⟩
  rw [Builder.code_ended h.current]
  exact (Part.refl h).close List.mem_cons_self ht hleaves (Part.mem_iff_of_not_mem List.not_mem_nil)

/-! ## Statements that follow -/

/-- A state with other statements that follow. -/
def Builder.withPending (b : Builder) (pending : List (List Stmt)) : Builder := { b with pending }

theorem Builder.Ready.withPending (h : b.Ready K A k) (pending : List (List Stmt)) :
    (b.withPending pending).Ready K A k :=
  ⟨h.valid, h.current, h.owned, h.unended, h.holds, h.size, h.loops⟩

theorem Part.withPending {pending : List (List Stmt)} {c : Code} {todo : List BlockId}
    (h : Part K A (b.withPending pending) k A₁ c todo) : Part K A b k A₁ c todo :=
  ⟨h.base.withPending b.pending, h.valid, h.grows, h.born, h.frame, h.start, h.unended,
    h.closed, h.edges⟩

/-- What is read after a block is read after each of its statements. -/
theorem Builder.isLive_withPending {sym : SymbolId} (rest : List Stmt) (h : b.isLive sym = true) :
    (b.withPending (rest :: b.pending)).isLive sym = true := by
  unfold Builder.isLive at h ⊢
  rw [Bool.or_eq_true] at h ⊢
  refine h.imp_right fun h => ?_
  show (rest :: b.pending).any _ = true
  rw [List.any_cons, h, Bool.or_true]

theorem Builder.isLive_of_reads {sym : SymbolId} {rest : List Stmt} (h : sym ∈ readsOfStmts rest) :
    (b.withPending (rest :: b.pending)).isLive sym = true := by
  unfold Builder.isLive
  rw [Bool.or_eq_true]
  refine .inr ?_
  show (rest :: b.pending).any _ = true
  rw [List.any_cons, List.contains_iff_mem.mpr h, Bool.true_or]

theorem Adds.withPending {rest : List Stmt}
    (h : Adds K A (b.withPending (rest :: b.pending)) k A₁ b₁) :
    Adds K A b k A₁ (b₁.withPending b.pending) :=
  ⟨h.part.withPending, h.size, h.loops, rfl, fun k' hk' => (h.ready k' hk').withPending _, h.here,
    fun k' hk' sym hlive => h.lives k' hk' sym (Builder.isLive_withPending rest hlive)⟩

/-- The bindings in sight have values if they are read, and the references have cells. -/
structure Builder.Serves (K : BodyContext) (b : Builder) (scope reads : List SymbolId) : Prop where
  values : ∀ sym ∈ scope, sym ∈ reads → (b.env.getD sym none).isSome = true
  refs : ∀ sym ∈ scope, isReference K.symbols sym = true → (K.start.getD sym none).isSome = true

/-- The code of a statement is valid, wherever the bindings that it reads have values. -/
def LowersStmtTo (K : BodyContext) (Γ : Hir.TypeContext) (inLoop : Bool) (s : Stmt) : Prop :=
  ∀ A b k scope, Builder.Ready K A b k → Γ.types.Extends b.types → s.Scoped scope →
    b.Serves K scope (readsOfStmt s) → (inLoop = true → b.loops ≠ []) →
    (K.disjoint → ∀ call ∈ s.calls, SeparateCall K.functions call) →
    (lowerStmt K.functions K.symbols s).Leads b fun _ b' => ∃ A', Adds K A b k A' b' ∧
      (s.ends = true → b'.current = none) ∧
        ∀ sym ∈ s.binds, isReference K.symbols sym = false ∧
          ∀ k', b'.current = some k' → (b'.env.getD sym none).isSome = true

/-- Nothing is added where no block is open. -/
theorem leads_lowerStmts_closed (ss : List Stmt) (h : b.current = none) :
    (lowerStmts K.functions K.symbols ss).Leads b fun _ b' => b' = b := by
  cases ss with
  | nil =>
    unfold lowerStmts
    exact leads_pure rfl
  | cons s ss =>
    unfold lowerStmts
    have hopen : isOpen.Leads b fun r b' => r = false ∧ b' = b := by
      refine ⟨?_, rfl⟩
      show b.current.isSome = false
      rw [h]
      rfl
    refine hopen.bind fun r b' hr => ?_
    obtain ⟨rfl, rfl⟩ := hr
    exact leads_pure rfl

theorem leads_lowerStmts {inLoop : Bool} (ss : List Stmt)
    (hss : ∀ s ∈ ss, LowersStmtTo K Γ inLoop s) {A : Avail} {b : Builder} {k : BlockId}
    {scope : List SymbolId} (rest : List Stmt) (h : b.Ready K A k) (hext : Γ.types.Extends b.types)
    (hscoped : Hir.blockScoped scope ss) (hserves : b.Serves K scope (readsOfStmts ss))
    (hloop : inLoop = true → b.loops ≠ [])
    (hsep : K.disjoint → ∀ call ∈ Hir.callsOfBlock ss, SeparateCall K.functions call) :
    (lowerStmts K.functions K.symbols ss).Leads (b.withPending (rest :: b.pending)) fun _ b' =>
      ∃ A', Adds K A b k A' (b'.withPending b'.pending.tail) ∧
        (Hir.blockEnds ss = true → b'.current = none) := by
  induction ss generalizing A b k scope rest with
  | nil =>
    unfold lowerStmts
    exact leads_pure ⟨A, (Goes.refl h).adds, nofun⟩
  | cons s ss ih =>
    unfold Hir.blockScoped at hscoped
    unfold readsOfStmts at hserves
    unfold Hir.callsOfBlock at hsep
    unfold lowerStmts
    have hopen : isOpen.Leads (b.withPending (rest :: b.pending)) fun r b' =>
        r = true ∧ b' = b.withPending (rest :: b.pending) := by
      refine ⟨?_, rfl⟩
      show b.current.isSome = true
      rw [h.current]
      rfl
    refine hopen.bind fun r b' hr => ?_
    obtain ⟨rfl, rfl⟩ := hr
    rw [if_pos rfl]
    have hset : (setPending ss).Leads (b.withPending (rest :: b.pending)) fun _ b' =>
        b' = b.withPending (ss :: b.pending) := rfl
    refine hset.bind fun _ b₁ hb₁ => ?_
    subst hb₁
    have hserves₁ : (b.withPending (ss :: b.pending)).Serves K scope (readsOfStmt s) :=
      ⟨fun sym hsym hread => hserves.values sym hsym (List.mem_append_left _ hread), hserves.refs⟩
    refine (hss s List.mem_cons_self A (b.withPending (ss :: b.pending)) k scope (h.withPending _)
      hext hscoped.1 hserves₁ hloop
      fun hd call hcall => hsep hd call (List.mem_append_left _ hcall)).bind fun _ b₂ hb₂ => ?_
    obtain ⟨A₂, hadds, hends, hbinds⟩ := hb₂
    have hpending : b₂.pending = ss :: b.pending := hadds.pending
    -- statements behind one that ends are not built
    cases hcurrent : b₂.current with
    | none =>
      refine (leads_lowerStmts_closed ss hcurrent).imp fun _ b₃ hb₃ => ?_
      subst hb₃
      refine ⟨A₂, ?_, fun _ => hcurrent⟩
      rw [hpending]
      exact hadds.withPending
    | some k₂ =>
      have hopen : s.ends = false := by
        refine Bool.eq_false_iff.mpr fun hs => ?_
        rw [hends hs] at hcurrent
        cases hcurrent
      rw [hopen, if_neg Bool.false_ne_true] at hsep
      have hstate : b₂ = (b₂.withPending b.pending).withPending
          (ss :: (b₂.withPending b.pending).pending) := by
        unfold Builder.withPending
        rw [← hpending]
      -- what the statement binds has a value for the rest, and what had one and is read there keeps
      -- one
      have hserves₂ : (b₂.withPending b.pending).Serves K (s.binds ++ scope) (readsOfStmts ss) := by
        refine ⟨fun sym hsym hread => ?_, fun sym hsym href => ?_⟩
        · rcases List.mem_append.mp hsym with hsym | hsym
          · exact (hbinds sym hsym).2 k₂ hcurrent
          · exact hadds.lives k₂ hcurrent sym (Builder.isLive_of_reads hread)
              (hserves.values sym hsym (List.mem_append_right _ hread))
        · rcases List.mem_append.mp hsym with hsym | hsym
          · exact absurd ((hbinds sym hsym).1.symm.trans href) Bool.false_ne_true
          · exact hserves.refs sym hsym href
      have hloop₂ (hin : inLoop = true) : (b₂.withPending b.pending).loops ≠ [] := by
        show b₂.loops ≠ []
        rw [hadds.loops]
        exact hloop hin
      rw [hstate]
      refine (ih (fun s hs => hss s (List.mem_cons_of_mem _ hs)) ss
        ((hadds.ready k₂ hcurrent).withPending b.pending)
          (hext.trans hadds.part.grows.types) hscoped.2
        hserves₂ hloop₂ fun hd call hcall => hsep hd call (List.mem_append_right _ hcall)).imp
          fun _ b₃ hb₃ => ?_
      obtain ⟨A₃, hadds₃, hends₃⟩ := hb₃
      refine ⟨A₃, hadds.withPending.trans hcurrent hadds₃, fun hs => hends₃ ?_⟩
      unfold Hir.blockEnds at hs
      rwa [hopen, Bool.false_or] at hs

theorem leads_lowerBlock {inLoop : Bool} {ss : List Stmt}
    (hss : ∀ s ∈ ss, LowersStmtTo K Γ inLoop s) {scope : List SymbolId} (h : b.Ready K A k)
    (hext : Γ.types.Extends b.types) (hscoped : Hir.blockScoped scope ss)
    (hserves : b.Serves K scope (readsOfStmts ss)) (hloop : inLoop = true → b.loops ≠ [])
    (hsep : K.disjoint → ∀ call ∈ Hir.callsOfBlock ss, SeparateCall K.functions call) :
    (lowerBlock K.functions K.symbols ss).Leads b fun _ b' => ∃ A', Adds K A b k A' b' ∧
      (Hir.blockEnds ss = true → b'.current = none) := by
  unfold lowerBlock
  have hpush : Leads (modify fun b => { b with pending := [] :: b.pending }) b fun _ b' =>
      b' = b.withPending ([] :: b.pending) := rfl
  refine hpush.bind fun _ b₁ hb₁ => ?_
  subst hb₁
  refine (leads_lowerStmts ss hss [] h hext hscoped hserves hloop hsep).bind fun _ b₂ hb₂ => ?_
  exact hb₂

/-! ## Simple statements -/

theorem Builder.Serves.has {scope reads : List SymbolId} (h : b.Serves K scope reads) {e : Expr}
    (hscoped : e.Scoped scope) (hsub : ∀ sym ∈ readsOfExpr e, sym ∈ reads) :
    b.Has (readsOfExpr e) := by
  intro sym hsym
  obtain ⟨use, huse, rfl⟩ := List.mem_map.mp hsym
  exact h.values _ (hscoped use huse) (hsub _ hsym)

theorem lowersStmtTo_expr {inLoop : Bool} {span : Span} {e : Expr} (he : LowersTo K Γ e) :
    LowersStmtTo K Γ inLoop (.expr span e) := by
  intro A b k scope h hext hscoped hserves _ hsep
  unfold lowerStmt
  refine (he A b k h hext (hserves.has hscoped fun _ hsym => hsym) hsep).bind fun r b₁ hr => ?_
  obtain ⟨A₁, k₁, hgoes, -⟩ := hr
  exact leads_pure ⟨A₁, hgoes.adds, nofun, nofun⟩

theorem lowersStmtTo_bind (hΓ : K.Reads Γ) {inLoop : Bool} {span : Span} {sym : SymbolId}
    {s : Hir.Symbol} {e : Expr} (hs : Γ.symbols[sym]? = some s) (hpass : s.pass = none)
    (he : LowersTo K Γ e) (ht : e.type = s.type) : LowersStmtTo K Γ inLoop (.bind span sym e) := by
  intro A b k scope h hext hscoped hserves _ hsep
  have htype : e.type = bindingType K.symbols sym := ht.trans (hΓ.bindingType hs).symm
  have hsym : isReference K.symbols sym = false := by
    unfold isReference
    rw [← hΓ.symbols, hs, Option.any_some, hpass]
    rfl
  unfold lowerStmt
  refine (he A b k h hext (hserves.has hscoped fun _ hsym => hsym) hsep).bind fun r b₁ hr => ?_
  obtain ⟨A₁, k₁, hgoes, hgives⟩ := hr
  obtain ⟨v, rfl, hknown, hkind⟩ := hgives.exists (htype ▸ hΓ.bindings sym)
  refine ⟨A₁, (hgoes.trans (goes_bind hgoes.ready hsym hknown (htype ▸ hkind))).adds, nofun,
    fun sym' hsym' => ?_⟩
  obtain rfl := List.mem_singleton.mp hsym'
  refine ⟨hsym, fun _ _ => ?_⟩
  have hlt : sym' < b₁.env.size := by
    rw [hgoes.ready.size, ← hΓ.symbols]
    exact (Array.getElem?_eq_some_iff.mp hs).1
  show ((b₁.env.setIfInBounds sym' (some v)).getD sym' none).isSome = true
  rw [getD_set_self hlt]
  rfl

theorem leads_assign (hΓ : K.Reads Γ) (h : b.Ready K A k) (span : Span) {sym : SymbolId}
    {s : Hir.Symbol} {field : Option Nat} {t : TypeId} (hs : Γ.symbols[sym]? = some s)
    (ht : Γ.Assigned s field t) {value : Option ValueId} (hvalue : Gives K A b k value t)
    (href : isReference K.symbols sym = true → (K.start.getD sym none).isSome = true)
    (hold : field.isSome = true → (b.env.getD sym none).isSome = true) :
    (assign K.symbols span sym field value).Leads b fun _ b' => Goes K A b k A b' k := by
  have htype := hΓ.bindingType hs
  have hne : t ≠ Builtin.unit.id := by
    cases field with
    | none => exact ht ▸ htype ▸ hΓ.bindings sym
    | some index =>
      obtain ⟨decl, name, hdecl, hfield⟩ := ht
      exact hΓ.fields.field hdecl (List.mem_of_getElem? hfield)
  obtain ⟨v, rfl, hv⟩ := hvalue.exists hne
  -- a copy with one field replaced
  have hinsert {b₁ : Builder} (hgoes : Goes K A b k A b₁ k) {base : ValueId} (index : Nat)
      (hbase : b₁.code.Known A k base ∧ b₁.code.Plain K base) :
      (emit (.insert base index v) (some (bindingType K.symbols sym)) .pure span).Leads
        b₁ fun r b₂ =>
        Goes K A b k A b₂ k ∧ Gives K A b₂ k r (bindingType K.symbols sym) := by
    have hall : ∀ w ∈ [base, v], b₁.code.Known A k w ∧ b₁.code.Plain K w := by
      intro w hw
      rcases List.mem_cons.mp hw with rfl | hw
      · exact hbase
      · rw [List.mem_singleton.mp hw]
        exact ⟨hgoes.here v hv.1, _, hgoes.part.grows.kind? hv.2⟩
    exact (leads_emit (.insert base index v) hgoes.ready (fun w hw => (hall w hw).2)
      (fun w hw => (hall w hw).1) rfl (.inl rfl) .pure span).imp fun r b₂ hr =>
      ⟨hgoes.trans hr.1, hr.2.1⟩
  unfold assign
  refine leads_valueOf ?_
  extract_lets type ref store
  split
  · rename_i hsym
    obtain ⟨cell, hcell⟩ := Option.isSome_iff_exists.mp (href hsym)
    have hbound : b.env.getD sym none = some cell := (h.holds.refs sym hsym).trans hcell
    obtain ⟨hknown, hbinds⟩ := h.holds.known sym cell hbound
    have hcell := hbinds.reference hsym
    have href : ref = cell := by
      unfold ref
      rw [hbound, Option.getD_some]
    have hstore {b₁ : Builder} (hgoes : Goes K A b k A b₁ k) {w : ValueId}
        (hw : b₁.code.Known A k w ∧ b₁.code.Plain K w) :
        (store (some w)).Leads b₁ fun _ b₂ => Goes K A b k A b₂ k := by
      unfold store
      rw [href]
      refine (leads_emit (.refStore cell w) hgoes.ready ⟨⟨_, hgoes.part.grows.cell hcell⟩, hw.2⟩
        (fun x hx => ?_)
        rfl (.inr ⟨rfl, rfl⟩) .writesMemory span).bind fun _ b₂ hr => leads_pure (hgoes.trans hr.1)
      rcases List.mem_cons.mp hx with rfl | hx
      · exact hgoes.here _ hknown
      · rw [List.mem_singleton.mp hx]
        exact hw.1
    split
    · exact hstore (.refl h) ⟨hv.1, _, hv.2⟩
    · rename_i index
      rw [href]
      refine (leads_emit (.refLoad cell) h ⟨_, hcell⟩ (fun w hw => ?_) rfl (.inl rfl)
        .readsMemory span).bind fun loaded b₁ hr => ?_
      · rw [List.mem_singleton.mp hw]
        exact hknown
      obtain ⟨hgoes₁, hgives₁, -⟩ := hr
      obtain ⟨base, rfl, hbase⟩ := hgives₁.exists (hΓ.bindings sym)
      refine (hinsert hgoes₁ index ⟨hbase.1, _, hbase.2⟩).bind fun stored b₂ hr => ?_
      obtain ⟨w, rfl, hw⟩ := hr.2.exists (hΓ.bindings sym)
      exact hstore hr.1 ⟨hw.1, _, hw.2⟩
  · rename_i hsym
    have hsym : isReference K.symbols sym = false := Bool.eq_false_iff.mpr hsym
    split
    · exact goes_bind h hsym hv.1 (by rw [htype, ← show t = s.type from ht]; exact hv.2)
    · rename_i index
      obtain ⟨base, hbase, hknown, hbinds⟩ := h.exists_value (hold rfl)
      rw [hbase, Option.getD_some]
      refine (hinsert (.refl h) index ⟨hknown, _, hbinds.kind? hsym⟩).bind fun r b₁ hr => ?_
      obtain ⟨w, rfl, hw⟩ := hr.2.exists (hΓ.bindings sym)
      exact hr.1.trans (goes_bind hr.1.ready hsym hw.1 hw.2)

theorem lowersStmtTo_assign (hΓ : K.Reads Γ) {inLoop : Bool} {span : Span} {sym : SymbolId}
    {s : Hir.Symbol} {field : Option Nat} {e : Expr} (hs : Γ.symbols[sym]? = some s)
    (he : LowersTo K Γ e) (ht : Γ.Assigned s field e.type) :
    LowersStmtTo K Γ inLoop (.assign span sym field e) := by
  intro A b k scope h hext hscoped hserves _ hsep
  obtain ⟨hsym, hscoped⟩ := hscoped
  unfold lowerStmt
  refine (he A b k h hext (hserves.has hscoped fun sym' hsym' => ?_) hsep).bind fun r b₁ hr => ?_
  · cases field with
    | none => exact hsym'
    | some index => exact List.mem_cons_of_mem _ hsym'
  obtain ⟨A₁, k₁, hgoes, hgives⟩ := hr
  refine (leads_assign hΓ hgoes.ready span hs ht hgives (hserves.refs sym hsym)
    fun hfield => ?_).imp fun _ b₂ hgoes₂ => ⟨A₁, (hgoes.trans hgoes₂).adds, nofun, nofun⟩
  cases field with
  | none => cases hfield
  | some index => exact hgoes.keeps.isSome sym (hserves.values sym hsym List.mem_cons_self)

theorem lowersStmtTo_ret {inLoop : Bool} {span : Span} {e : Expr} (he : LowersTo K Γ e)
    (ht : e.type = K.ret) :
    LowersStmtTo K Γ inLoop (.ret span (some e)) := by
  intro A b k scope h hext hscoped hserves _ hsep
  unfold lowerStmt
  refine (he A b k h hext (hserves.has hscoped fun _ hsym => hsym) hsep).bind fun r b₁ hr => ?_
  obtain ⟨A₁, k₁, hgoes, hgives⟩ := hr
  have hend : b₁.code.EndValid K A₁ k₁ (.ret r) := by
    refine ⟨fun v hv => ?_, nofun, fun v hv => ?_, fun hnone => ?_⟩
    · exact (hgives.value v (Option.mem_toList.mp hv)).imp_right fun hkind => ⟨_, hkind⟩
    · exact ht ▸ typeIn_of_kind? (hgives.value v (Terminator.ret.inj hv)).2
    · by_contra hne
      have hsome := hgives.isSome (ht ▸ hne)
      rw [Terminator.ret.inj hnone] at hsome
      cases hsome
  exact ⟨A₁, hgoes.then (hgoes.ready.ended hend nofun), fun _ => rfl, nofun⟩

/-- The code of a statement that only ends the block. -/
theorem lowersStmtTo_end {inLoop : Bool} {s : Stmt} (t : Terminator)
    (hcode : lowerStmt K.functions K.symbols s = terminate t) (hbinds : s.binds = [])
    (hoperands : t.operands = []) (hedges : t.edges = []) (hret : ∀ v, t ≠ .ret (some v))
    (hnone : t = .ret none → Γ.types.isUnit K.ret = true) : LowersStmtTo K Γ inLoop s := by
  intro A b k scope h hext _ _ _ _
  rw [hcode]
  have hend : b.code.EndValid K A k t := by
    refine ⟨fun v hv => ?_, fun e he => ?_, fun v hv => absurd hv (hret v),
      fun ht => h.valid.types.unit_unique _ (hext.isUnit (hnone ht))⟩
    · rw [hoperands] at hv
      cases hv
    · rw [hedges] at he
      cases he
  refine ⟨A, h.ended hend fun e he => ?_, fun _ => rfl, fun sym hsym => ?_⟩
  · rw [hedges] at he
    cases he
  · rw [hbinds] at hsym
    cases hsym

theorem lowersStmtTo_require {inLoop : Bool} {span : Span} {c : Expr} {message : String}
    (hc : LowersTo K Γ c) (hbool : Γ.types.isBool c.type = true) :
    LowersStmtTo K Γ inLoop (.require span c message) := by
  intro A b k scope h hext hscoped hserves _ hsep
  unfold lowerStmt
  refine (hc A b k h hext (hserves.has hscoped fun _ hsym => hsym) hsep).bind fun r b₁ hr => ?_
  obtain ⟨A₁, k₁, hgoes, hgives⟩ := hr
  have h₁ := hgoes.ready
  obtain ⟨cond, rfl, hcond⟩ := hgives.exists
    (h₁.valid.types.standard.ne_unit_of_isBool ((hgoes.extends hext).isBool hbool))
  refine leads_newBlock (leads_newBlock (leads_terminate (leads_moveTo (leads_terminate ?_))))
  have hfork := h₁.forked cond ⟨hcond.1, _, hcond.2⟩ (.inl rfl)
  generalize b₁.code.blocks.size = x at *
  generalize hy : b₁.grown.code.blocks.size = y
  replace hy : b₁.code.addBlock.blocks.size = y := by rw [← hy, Builder.code_grown]
  rw [hy] at hfork
  have hrevert := (hfork.part.congr fun z => List.Perm.mem_iff (.swap x y [])).close
      (t := .revert message) List.mem_cons_self ⟨nofun, nofun, nofun, nofun⟩ nofun
    (Part.mem_iff_of_not_mem fun hmem => hfork.ne (List.mem_singleton.mp hmem).symm)
  have hcode : (((b₁.grown.grown.ended (.branch cond x [] y [])).moved (some y)).ended
      (.revert message)).code =
      (b₁.code.addBlock.addBlock.close k₁ (.branch cond x [] y [])).close y (.revert message) := by
    have hcurrent : b₁.grown.grown.current = some k₁ := h₁.current
    refine (Builder.code_ended rfl).trans ?_
    rw [Builder.code_moved, Builder.code_ended hcurrent, Builder.code_grown, Builder.code_grown]
  have hg := grows_close (b₁.code.addBlock.addBlock.close k₁ (.branch cond x [] y [])) y
      (.revert message) (A₁.add x (b₁.code.Known A₁ k₁))
  rw [← hcode] at hrevert hg
  have hagrees : b₁.Agrees (((b₁.grown.grown.ended (.branch cond x [] y [])).moved (some y)).ended
      (.revert message)) := ⟨rfl, rfl, rfl⟩
  rw [Option.getD_some]
  generalize ((b₁.grown.grown.ended (.branch cond x [] y [])).moved (some y)).ended
    (.revert message) = b₂ at *
  have hhere (v : ValueId) (hv : b₁.code.Known A₁ k₁ v) := hg.known (hfork.here v hv)
  have hholds := h₁.holds.mono hrevert.grows hhere
  rw [← hagrees.env] at hholds
  have hgoes₂ : Goes K A₁ b₁ k₁ _ (b₂.moved (some x)) x :=
    Part.goes hrevert rfl hholds hhere (.of_env hagrees.env) hagrees.loops hagrees.pending
  exact ⟨_, (hgoes.trans hgoes₂).adds, nofun, nofun⟩

/-! ## Choices -/

/-- The edge out of the block that is open, if one is. -/
def Builder.openEdges (b : Builder) : List Edge :=
  b.current.toList.map fun source => { source, env := b.env }

theorem leads_openEdge {α : Type} {f : List Edge → Build α} {Q : α → Builder → Prop}
    (h : (f b.openEdges).Leads b Q) : (openEdge >>= f).Leads b Q := h

@[simp] theorem Builder.map_openEdges (b : Builder) :
    b.openEdges.map (·.source) = b.current.toList := by
  unfold Builder.openEdges
  rw [List.map_map]
  exact List.map_id _

theorem Builder.live_of_carried {l : LoopFrame} (hl : l ∈ b.loops) {sym : SymbolId}
    (hsym : sym ∈ l.carried) :
    b.isLive sym = true := by
  unfold Builder.isLive
  rw [Bool.or_eq_true]
  refine .inl (List.any_eq_true.mpr ⟨l, hl, ?_⟩)
  rw [List.contains_iff_mem.mpr hsym, Bool.true_or]

/-- Code that goes on in a block where the bindings that are read later have values. -/
theorem Part.adds (h : Part K A b k A₁ b₁.code [k₁]) (hcurrent : b₁.current = some k₁)
    (hholds : b₁.code.Holds K A₁ k₁ b₁.env) (hsize : b₁.env.size = b.env.size)
    (hhere : ∀ v, b.code.Known A k v → b₁.code.Known A₁ k₁ v) (hloops : b₁.loops = b.loops)
    (hpending : b₁.pending = b.pending) (hlives : ∀ sym, b.isLive sym = true →
      (b.env.getD sym none).isSome = true → (b₁.env.getD sym none).isSome = true) :
      Adds K A b k A₁ b₁ := by
  have hready := h.ready List.mem_cons_self hcurrent hholds hsize hloops hhere fun l hl s hs =>
    hlives s (Builder.live_of_carried hl hs) ((h.base.loops l hl).bound s hs)
  have hopen {k' : BlockId} (hk' : b₁.current = some k') : k₁ = k' :=
    Option.some.inj (hcurrent.symm.trans hk')
  refine ⟨?_, hsize, hloops, hpending, fun k' hk' => hopen hk' ▸ hready,
    fun k' hk' => hopen hk' ▸ hhere,
    fun _ _ => hlives⟩
  rw [hcurrent]
  exact h

/-- Jumps to a join from blocks that are still to be ended. -/
theorem leads_closeAll {join : BlockId} (hle : b.code.blocks.size ≤ join) (ends : List Edge)
    {sources : List BlockId} {b₁ : Builder}
    (h : Part K A b k A₁ b₁.code (ends.map (·.source) ++ [join]))
    (hnodup : (ends.map (·.source) ++ [join]).Nodup) (hempty : b₁.code.Empty A₁ join)
    (hsources : b₁.code.EdgesFrom join sources) :
    (closeAll join ends).Leads b₁ fun _ b₂ => Part K A b k A₁ b₂.code [join] ∧
      b₂.code.EdgesFrom join (sources ++ ends.map (·.source)) ∧ Grows A₁ b₁.code A₁ b₂.code ∧
        b₁.Agrees b₂ := by
  induction ends generalizing sources b₁ with
  | nil =>
    refine leads_pure ⟨h, ?_, .refl _ _, .refl _⟩
    rw [List.map_nil, List.append_nil]
    exact hsources
  | cons e ends ih =>
    obtain ⟨hnot, hnodup⟩ := List.nodup_cons.mp hnodup
    have hjoin : join ∈ ends.map (·.source) ++ [join] := List.mem_append_right _ List.mem_cons_self
    have hjump := h.jump_head hnot hjoin hle hempty
    have hself : join ≠ e.source := fun heq => hnot (by
      show e.source ∈ ends.map (·.source) ++ [join]
      rw [← heq]
      exact hjoin)
    have hempty₁ := hempty.close hself (.jump join [])
    have hsources₁ := hsources.jump (j := e.source) (x := join)
    have hg := grows_close b₁.code e.source (.jump join []) A₁
    have hcode : ((b₁.moved (some e.source)).ended (.jump join [])).code =
        b₁.code.close e.source (.jump join []) := Builder.code_ended rfl
    rw [← hcode] at hjump hempty₁ hsources₁ hg
    unfold closeAll
    refine leads_moveTo (leads_terminate ((ih hjump hnodup hempty₁ hsources₁).imp
      fun _ b₂ hb₂ => ?_))
    obtain ⟨hpart, hfrom, hg₂, hagrees⟩ := hb₂
    rw [List.append_assoc] at hfrom
    exact ⟨hpart, hfrom, hg.trans hg₂, hagrees.env, hagrees.loops, hagrees.pending⟩

/-- The arms of a choice meet, some of them at their own jumps to the join. -/
theorem leads_meet {join : BlockId} (skip ends : List Edge)
    (h : Part K A b k A₁ b₁.code (ends.map (·.source) ++ [join])) (hle : b.code.blocks.size ≤ join)
    (hnodup : (ends.map (·.source) ++ [join]).Nodup)
    (hdiffer : ((skip ++ ends).map (·.source)).Nodup) (hempty : b₁.code.Empty A₁ join)
    (hsources : b₁.code.EdgesFrom join (skip.map (·.source)))
    (harms : ∀ e ∈ skip ++ ends, Arm K A b k A₁ b₁.code e ∧ ∀ sym, b.isLive sym = true →
      (b.env.getD sym none).isSome = true → (e.env.getD sym none).isSome = true)
    (hne : skip ++ ends ≠ []) (hsize : b₁.env.size = b.env.size) (hloops : b₁.loops = b.loops)
    (hpending : b₁.pending = b.pending) :
    (closeAll join ends >>= fun _ => enterJoin join (skip ++ ends) true).Leads b₁ fun _ b₂ =>
      ∃ A₂, Adds K A b k A₂ b₂ := by
  refine (leads_closeAll hle ends h hnodup hempty hsources).bind fun _ b₂ hb₂ => ?_
  obtain ⟨hpart, hfrom, hg, hagrees⟩ := hb₂
  rw [← List.map_append] at hfrom
  have hjoins : Joins K A b k A₁ b₂.code join (skip ++ ends) :=
    ⟨hfrom, hdiffer, fun e he => (harms e he).1.mono hg⟩
  refine (leads_enterJoin hpart List.mem_cons_self hle hjoins hne
    (by rw [hagrees.env, hsize]) true).imp fun _ b₃ hb₃ => ?_
  obtain ⟨A₃, hat, -, hloops₃, hpending₃, hsome⟩ := hb₃
  refine ⟨A₃, hat.part.adds hat.current hat.holds hat.size hat.here
    (hloops₃.trans (hagrees.loops.trans hloops)) (hpending₃.trans (hagrees.pending.trans hpending))
    fun sym hlive hsym => ?_⟩
  refine hsome sym (fun _ => ?_) fun e he => (harms e he).2 sym hlive hsym
  unfold Builder.isLive
  rw [hagrees.loops, hagrees.pending, hloops, hpending]
  exact hlive

/-- The arms of a choice meet in a new block. -/
theorem leads_meetNew (ends : List Edge) {todo : List BlockId} (h : Part K A b k A₁ b₁.code todo)
    (htodo : ∀ j, j ∈ ends.map (·.source) ↔ j ∈ todo) (hnodup : (ends.map (·.source)).Nodup)
    (harms : ∀ e ∈ ends, Arm K A b k A₁ b₁.code e ∧ ∀ sym, b.isLive sym = true →
      (b.env.getD sym none).isSome = true → (e.env.getD sym none).isSome = true)
    (hne : ends ≠ []) (hsize : b₁.env.size = b.env.size) (hloops : b₁.loops = b.loops)
    (hpending : b₁.pending = b.pending) :
    (newBlock >>= fun join => closeAll join ends >>= fun _ => enterJoin join ends true).Leads b₁
      fun _ b₂ => ∃ A₂, Adds K A b k A₂ b₂ := by
  have hg := grows_addBlock A₁ b₁.code
  have hpart : Part K A b k A₁ b₁.grown.code (ends.map (·.source) ++ [b₁.code.blocks.size]) := by
    rw [Builder.code_grown]
    refine h.addBlock.congr fun z => ?_
    rw [List.mem_append, htodo, List.mem_singleton, List.mem_cons, or_comm]
  have hjoin : ∀ j ∈ ends.map (·.source), j ≠ b₁.code.blocks.size := fun j hj =>
    (h.valid.owned j (h.unended j ((htodo j).mp hj)).1).2.ne
  refine leads_newBlock (leads_meet [] ends hpart h.grows.blocks ?_ hnodup ?_ ?_
    (fun e he => ?_) hne hsize hloops hpending)
  · refine List.nodup_append.mpr ⟨hnodup, by simp, fun j hj j' hj' => ?_⟩
    rw [List.mem_singleton.mp hj']
    exact hjoin j hj
  · rw [Builder.code_grown]
    exact h.valid.empty_addBlock
  · rw [Builder.code_grown]
    exact h.valid.edgesFrom_addBlock
  · rw [Builder.code_grown]
    exact (harms e he).imp_left fun harm => harm.mono hg

/-- An arm of a choice: code that was added at one of the blocks of a part. -/
structure Branch (K : BodyContext) (A : Avail) (b : Builder) (k : BlockId) (A' : Avail)
    (b' : Builder) (todo : List BlockId) : Prop where
  part : Part K A b k A' b'.code (b'.current.toList ++ todo)
  nodup : (b'.current.toList ++ todo).Nodup
  size : b'.env.size = b.env.size
  loops : b'.loops = b.loops
  pending : b'.pending = b.pending
  arms : ∀ e ∈ b'.openEdges, Arm K A b k A' b'.code e ∧ ∀ sym, b.isLive sym = true →
    (b.env.getD sym none).isSome = true → (e.env.getD sym none).isSome = true
  le : ∀ j ∈ b'.current.toList, b.code.blocks.size ≤ j

theorem Adds.branch {j : BlockId} {todo : List BlockId} (hadds : Adds K A₁ b₁ j A₂ b₂)
    (h : Part K A b k A₁ b₁.code (j :: todo)) (hnodup : (j :: todo).Nodup)
    (hle : b.code.blocks.size ≤ j) (hagrees : b.Agrees b₁)
    (hhere : ∀ v, b.code.Known A k v → b₁.code.Known A₁ j v) : Branch K A b k A₂ b₂ todo := by
  obtain ⟨hnot, hnodup⟩ := List.nodup_cons.mp hnodup
  have hpart := h.nest_head hnot hadds.part hagrees.loops
  refine ⟨hpart, ?_, hadds.size.trans (by rw [hagrees.env]), hadds.loops.trans hagrees.loops,
    hadds.pending.trans hagrees.pending, fun e he => ?_,
    fun z hz => h.le_of_nested hadds.part hle hz⟩
  · refine List.nodup_append.mpr ⟨?_, hnodup, fun x hx y hy heq => ?_⟩
    · cases b₂.current <;> simp
    · have hne : y ≠ j := fun heq => hnot (heq ▸ hy)
      exact h.ne_of_todo (List.mem_cons_of_mem _ hy) hne hadds.part hx heq.symm
  · obtain ⟨j₂, hj₂, rfl⟩ := List.mem_map.mp he
    have hcurrent : b₂.current = some j₂ := Option.mem_toList.mp hj₂
    refine ⟨hpart.arm_end (List.mem_append_left _ hj₂) (hadds.ready j₂ hcurrent)
      (fun v hv => hadds.here j₂ hcurrent v (hhere v hv)) none, fun sym hlive hsym => ?_⟩
    exact hadds.lives j₂ hcurrent sym ((hagrees.isLive sym).trans hlive) (by rwa [hagrees.env])

theorem lowersStmtTo_ite {inLoop : Bool} {span : Span} {c : Expr} {thenBody elseBody : List Stmt}
    {hasElse : Bool} (hc : LowersTo K Γ c) (hbool : Γ.types.isBool c.type = true)
    (hthen : ∀ s ∈ thenBody, LowersStmtTo K Γ inLoop s)
    (helse : ∀ s ∈ elseBody, LowersStmtTo K Γ inLoop s) :
    LowersStmtTo K Γ inLoop (.ite span c thenBody hasElse elseBody) := by
  intro A b k scope h hext hscoped hserves hloop hsep
  obtain ⟨hscopedc, hscopedthen, hscopedelse⟩ := hscoped
  unfold readsOfStmt at hserves
  unfold Hir.Stmt.calls at hsep
  unfold lowerStmt
  refine (hc A b k h hext (hserves.has hscopedc fun _ hsym =>
    List.mem_append_left _ (List.mem_append_left _ hsym))
    fun hd call hcall => hsep hd call (List.mem_append_left _ (List.mem_append_left _ hcall))).bind
      fun r b₁ hr => ?_
  obtain ⟨A₁, k₁, hgoes, hgives⟩ := hr
  have h₁ := hgoes.ready
  have hext₁ := hgoes.extends hext
  obtain ⟨cond, rfl, hcond⟩ := hgives.exists
    (h₁.valid.types.standard.ne_unit_of_isBool (hext₁.isBool hbool))
  -- bindings that the arms read have values
  have hserves₁ {b' : Builder} (hb' : b'.env = b₁.env) {reads : List SymbolId}
      (hreads : ∀ sym ∈ reads, sym ∈ readsOfExpr c ++ readsOfStmts thenBody ++
        readsOfStmts elseBody) :
      b'.Serves K scope reads := by
    refine ⟨fun sym hsym hread => ?_, hserves.refs⟩
    rw [hb']
    exact hgoes.keeps.isSome sym (hserves.values sym hsym (hreads sym hread))
  have hloop₁ {b' : Builder} (hb' : b'.loops = b₁.loops) (hin : inLoop = true) : b'.loops ≠ [] := by
    rw [hb', hgoes.loops]
    exact hloop hin
  refine leads_newBlock (leads_newBlock (leads_openEdge (leads_get ?_)))
  extract_lets env
  have hskip : b₁.grown.grown.openEdges = [{ source := k₁, env := b₁.env }] := by
    show b₁.openEdges = _
    unfold Builder.openEdges
    rw [h₁.current]
    rfl
  rw [hskip]
  refine leads_fork h₁ cond ⟨hcond.1, _, hcond.2⟩ (.inl (by simp)) fun A₂ b₂ hfork h₂ hagrees => ?_
  generalize hother : b₁.grown.code.blocks.size = other
  replace hother : b₁.code.addBlock.blocks.size = other := by rw [← hother, Builder.code_grown]
  rw [hother] at hfork
  generalize b₁.code.blocks.size = first at hfork h₂
  -- the first arm
  refine (leads_lowerBlock hthen h₂ (hext₁.trans hfork.part.grows.types) hscopedthen
    (hserves₁ hagrees.env fun _ hsym => List.mem_append_left _ (List.mem_append_right _ hsym))
    (hloop₁ hagrees.loops) fun hd call hcall => hsep hd call
      (List.mem_append_left _ (List.mem_append_right _ hcall))).bind fun _ b₃ hb₃ => ?_
  obtain ⟨A₃, hadds₃, hends₃⟩ := hb₃
  have hnodup : [first, other].Nodup := by simpa using hfork.ne
  have hbranch₃ := hadds₃.branch hfork.part hnodup hfork.le_left hagrees hfork.here
  have hother₃ : other ∈ [first, other] := List.mem_cons_of_mem _ List.mem_cons_self
  have hempty₃ := hfork.part.empty_beside hother₃ hfork.ne.symm hadds₃.part hfork.empty
  have hsources₃ := hfork.part.sources_beside hother₃ hadds₃.part hfork.le_right hagrees.loops
    hfork.sources
  refine leads_openEdge ?_
  extract_lets finish
  cases hasElse with
  | false =>
    rw [if_neg Bool.false_ne_true]
    show (finish []).Leads b₃ _
    unfold finish
    extract_lets ends edges enter
    rw [if_neg (by simp [edges]), if_neg Bool.false_ne_true]
    show (enter other).Leads b₃ _
    unfold enter
    have hends : ends = b₃.openEdges := List.append_nil _
    have hedges : edges = [{ source := k₁, env := b₁.env }] ++ b₃.openEdges := by
      unfold edges
      rw [hends]
      rfl
    rw [hends, hedges]
    refine (leads_meet [{ source := k₁, env := b₁.env }] b₃.openEdges ?_ hfork.le_right ?_ ?_
      hempty₃ hsources₃ ?_ (by simp) hbranch₃.size hbranch₃.loops
      hbranch₃.pending).imp fun _ b₄ ⟨A₄, hadds₄⟩ => ⟨A₄, hgoes.then hadds₄, nofun, nofun⟩
    · rw [Builder.map_openEdges]
      exact hbranch₃.part
    · rw [Builder.map_openEdges]
      exact hbranch₃.nodup
    · rw [List.map_append, Builder.map_openEdges]
      refine List.nodup_cons.mpr ⟨fun hmem => ?_, (List.nodup_append.mp hbranch₃.nodup).1⟩
      exact hbranch₃.part.ne_start (hbranch₃.le k₁ hmem) rfl
    · intro e he
      rcases List.mem_append.mp he with he | he
      · rw [List.mem_singleton.mp he]
        exact ⟨hbranch₃.part.arm_start none, fun _ _ hsym => hsym⟩
      · exact hbranch₃.arms e he
  | true =>
    rw [if_pos rfl]
    refine leads_resume ?_
    -- the second arm
    have htodo (z : BlockId) : z ∈ other :: b₃.current.toList ↔
        z ∈ b₃.current.toList ++ [other] := by
      rw [List.mem_append, List.mem_cons, List.mem_singleton, or_comm]
    obtain ⟨hpart₄, h₄, hagrees₄⟩ := (hbranch₃.part.congr htodo).reenter List.mem_cons_self
      hfork.le_right hsources₃ hbranch₃.loops hbranch₃.pending
    have hhere₄ (v : ValueId) (hv : b₁.code.Known A₁ k₁ v) :
        (b₃.resumed b₁.env other).code.Known (A₃.add other (b₁.code.Known A₁ k₁)) other v :=
      .inl (.inr ⟨rfl, hv⟩)
    have hg₄ := grows_assume A₃ b₃.code other (b₁.code.Known A₁ k₁)
    generalize A₃.add other (b₁.code.Known A₁ k₁) = A₄ at hpart₄ h₄ hhere₄ hg₄
    have hnodup₄ : (other :: b₃.current.toList).Nodup :=
      (List.perm_append_singleton _ _).nodup_iff.mp hbranch₃.nodup
    refine (leads_lowerBlock helse h₄ (hext₁.trans hpart₄.grows.types) hscopedelse
      (hserves₁ hagrees₄.env fun _ hsym => List.mem_append_right _ hsym) (hloop₁ hagrees₄.loops)
      fun hd call hcall => hsep hd call (List.mem_append_right _ hcall)).bind fun _ b₅ hb₅ => ?_
    obtain ⟨A₅, hadds₅, hends₅⟩ := hb₅
    have hbranch₅ := hadds₅.branch hpart₄ hnodup₄ hfork.le_right hagrees₄ hhere₄
    have hg₅ := hg₄.trans hadds₅.part.grows
    refine leads_openEdge ?_
    unfold finish
    extract_lets ends edges enter
    have hends : ends = b₃.openEdges ++ b₅.openEdges := rfl
    show (if ends.isEmpty then moveTo none else newBlock >>= enter).Leads b₅ _
    split
    · rename_i hempty
      rw [List.isEmpty_iff, hends, List.append_eq_nil_iff] at hempty
      have htodo : b₅.current.toList ++ b₃.current.toList = [] := by
        rw [← Builder.map_openEdges, ← Builder.map_openEdges, hempty.1, hempty.2]
        rfl
      have hpart := hbranch₅.part
      rw [htodo] at hpart
      have hadds : Adds K A₁ b₁ k₁ A₅ (b₅.moved none) :=
        ⟨hpart, hbranch₅.size, hbranch₅.loops, hbranch₅.pending, nofun, nofun, nofun⟩
      exact ⟨A₅, hgoes.then hadds, fun _ => rfl, nofun⟩
    · rename_i hne
      have hmap : ends.map (·.source) = b₃.current.toList ++ b₅.current.toList := by
        rw [hends, List.map_append, Builder.map_openEdges, Builder.map_openEdges]
      have hperm := @List.perm_append_comm _ b₃.current.toList b₅.current.toList
      rw [← hmap] at hperm
      refine (leads_meetNew ends hbranch₅.part (fun z => hperm.mem_iff)
        (hperm.nodup_iff.mpr hbranch₅.nodup)
        (fun e he => ?_) (fun hnil => hne (List.isEmpty_iff.mpr hnil)) hbranch₅.size hbranch₅.loops
        hbranch₅.pending).imp fun _ b₆ ⟨A₆, hadds₆⟩ => ⟨A₆, hgoes.then hadds₆, fun hs => ?_, nofun⟩
      · rcases List.mem_append.mp he with he | he
        · exact (hbranch₃.arms e he).imp_left fun harm => harm.mono hg₅
        · exact hbranch₅.arms e he
      · unfold Hir.Stmt.ends at hs
        rw [Bool.and_eq_true, Bool.and_eq_true] at hs
        rw [hends₃ hs.1.2, hends₅ hs.2] at hmap
        exact absurd (List.isEmpty_iff.mpr (List.map_eq_nil_iff.mp hmap)) hne

end ContractCompiler.Ssa
