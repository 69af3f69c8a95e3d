import ContractCompiler.Proofs.Ssa.Lowering

/-!
# The code of expressions is valid

The code of an expression whose bindings have values is a part of the function in which everything
is in order. It goes on in some block, where its value is known.

- `BodyContext.Reads`: the program that the body of a function is built from;
- `LowersTo`: the code of an expression is valid;
- `leads_lowerArgs`: the code of arguments; cells that are passed are different ones;
- `lowersTo_of_typed`: the code of every typed expression is valid.
-/

namespace ContractCompiler

namespace TypePool

variable {p : TypePool} {t : TypeId}

/-! ## Types of values -/

theorem Standard.ne_unit (h : p.Standard) (ht : p.builtin? t ≠ some .unit) : t ≠ Builtin.unit.id :=
  fun heq => ht (heq ▸ h .unit)

theorem Standard.ne_unit_of_isBuiltin (h : p.Standard) {b : Builtin} (hb : b ≠ .unit)
    (ht : p.isBuiltin t b = true) : t ≠ Builtin.unit.id := by
  refine h.ne_unit ?_
  rw [builtin?_of_isBuiltin ht]
  exact fun heq => hb (Option.some.inj heq)

theorem Standard.ne_unit_of_isInteger (h : p.Standard) (ht : p.isInteger t = true) :
    t ≠ Builtin.unit.id := by
  refine h.ne_unit fun heq => ?_
  unfold TypePool.isInteger at ht
  rw [heq] at ht
  cases ht

theorem Standard.ne_unit_of_isBool (h : p.Standard) (ht : p.isBool t = true) :
    t ≠ Builtin.unit.id :=
  h.ne_unit_of_isBuiltin (b := .bool) nofun ht

theorem Standard.ne_unit_of_isBytes (h : p.Standard) (ht : p.isBytes t = true) :
    t ≠ Builtin.unit.id :=
  h.ne_unit_of_isBuiltin (b := .bytes) nofun ht

theorem Standard.ne_unit_of_isStateValue (h : p.Standard) (ht : p.isStateValue t = true) :
    t ≠ Builtin.unit.id := by
  unfold isStateValue at ht
  rw [Bool.or_eq_true, Bool.or_eq_true] at ht
  rcases ht with (ht | ht) | ht
  · exact h.ne_unit_of_isInteger ht
  · exact h.ne_unit_of_isBool ht
  · exact h.ne_unit_of_isBytes ht

theorem Standard.ne_unit_of_resultElem? (h : p.Standard) {e : TypeId}
    (ht : p.resultElem? t = some e) :
    t ≠ Builtin.unit.id := by
  refine h.ne_unit fun heq => ?_
  rw [resultElem?_of_builtin? heq] at ht
  cases ht

theorem Standard.ne_unit_of_structDecl? (h : p.Standard) {d : StructDecl}
    (ht : p.structDecl? t = some d) :
    t ≠ Builtin.unit.id := by
  refine h.ne_unit fun heq => ?_
  unfold builtin? at heq
  unfold structDecl? at ht
  split at heq
  · rename_i hshape
    rw [hshape] at ht
    cases ht
  · cases heq

/-- The fields of a struct are of types of values. -/
theorem Valued.field (h : p.Valued) {d : StructDecl} (hd : p.structDecl? t = some d)
    {field : String × TypeId} (hfield : field ∈ d.fields) : field.2 ≠ Builtin.unit.id := by
  unfold structDecl? at hd
  split at hd
  · exact h d (Array.mem_of_getElem? hd) field hfield
  · cases hd

end TypePool

theorem Hir.TypeContext.IsKey.ne_unit {Γ : Hir.TypeContext} {t : TypeId} (h : Γ.IsKey t)
    {types : TypePool} (hext : Γ.types.Extends types) (hstandard : types.Standard) :
    t ≠ Builtin.unit.id :=
  h.elim (fun hint => hstandard.ne_unit_of_isInteger (hext.isInteger hint)) fun hbytes =>
    hstandard.ne_unit_of_isBytes (hext.isBytes hbytes)

end ContractCompiler

namespace ContractCompiler.Ssa

open Hir (Expr Stmt SymbolId PassMode)
open Build Code

/-! ## Programs -/

/-- The bindings that a call passes exclusively are different. -/
def SeparateCall (functions : Array Hir.Function) (call : FuncId × List Expr) : Prop :=
  ((exclusiveOf (passModes functions call.1) call.2).filterMap (·.local?)).Nodup

/-- The program that the body of a function is built from. -/
structure BodyContext.Reads (K : BodyContext) (Γ : Hir.TypeContext) : Prop where
  symbols : Γ.symbols = K.symbols
  signature : ∀ f, Γ.signature f = (K.functions[f]?).map (·.signature)
  bindings : ∀ sym, bindingType K.symbols sym ≠ Builtin.unit.id
  params : ∀ f sig, Γ.signature f = some sig → ∀ p ∈ sig.1, p.1 ≠ Builtin.unit.id
  fields : Γ.types.Valued
  /-- Different references stand for different cells. -/
  start : ∀ s s' v, isReference K.symbols s = true → isReference K.symbols s' = true →
    K.start.getD s none = some v → K.start.getD s' none = some v → s = s'

/-- Bindings have values. -/
def Builder.Has (b : Builder) (syms : List SymbolId) : Prop :=
  ∀ sym ∈ syms, (b.env.getD sym none).isSome = true

/-- The code of an expression is valid, wherever its bindings have values. -/
def LowersTo (K : BodyContext) (Γ : Hir.TypeContext) (e : Expr) : Prop :=
  ∀ A b k, Builder.Ready K A b k → Γ.types.Extends b.types → b.Has (readsOfExpr e) →
    (K.disjoint → ∀ call ∈ e.calls, SeparateCall K.functions call) →
    (lowerExpr K.functions K.symbols e).Leads b fun r b' => ∃ A' k', Goes K A b k A' b' k' ∧
      Gives K A' b' k' r e.type

variable {K : BodyContext} {Γ : Hir.TypeContext} {A A₁ A₂ : Avail} {b b₁ b₂ : Builder}
  {k k₁ k₂ : BlockId}

theorem Goes.has (h : Goes K A b k A₁ b₁ k₁) {syms : List SymbolId} (hb : b.Has syms) :
    b₁.Has syms :=
  fun sym hsym => h.keeps.isSome sym (hb sym hsym)

theorem Goes.extends (h : Goes K A b k A₁ b₁ k₁) (hext : Γ.types.Extends b.types) :
    Γ.types.Extends b₁.types :=
  hext.trans h.part.grows.types

theorem BodyContext.Reads.bindingType (hΓ : K.Reads Γ) {sym : SymbolId} {s : Hir.Symbol}
    (hs : Γ.symbols[sym]? = some s) : bindingType K.symbols sym = s.type := by
  unfold Ssa.bindingType
  rw [← hΓ.symbols, hs]
  rfl

theorem Code.Binds.reference {c : Code} {sym : SymbolId} {v : ValueId} (h : c.Binds K sym v)
    (hsym : isReference K.symbols sym = true) : c.Cell K v (bindingType K.symbols sym) := by
  unfold Code.Binds at h
  rw [if_pos hsym] at h
  exact h

theorem Code.Binds.kind? {c : Code} {sym : SymbolId} {v : ValueId} (h : c.Binds K sym v)
    (hsym : isReference K.symbols sym = false) :
    c.kind? K v = some (bindingType K.symbols sym, false) := by
  unfold Code.Binds at h
  rw [if_neg (by rw [hsym]; exact Bool.false_ne_true)] at h
  exact h

theorem Code.binds_of_kind? {c : Code} {sym : SymbolId} {v : ValueId}
    (h : c.kind? K v = some (bindingType K.symbols sym, false))
    (hsym : isReference K.symbols sym = false) : c.Binds K sym v := by
  unfold Code.Binds
  rw [if_neg (by rw [hsym]; exact Bool.false_ne_true)]
  exact h

/-- Binding a name to a value. -/
theorem goes_bind (h : b.Ready K A k) {sym : SymbolId} (hsym : isReference K.symbols sym = false)
    {v : ValueId} (hknown : b.code.Known A k v)
    (hkind : b.code.kind? K v = some (bindingType K.symbols sym, false)) :
    Goes K A b k A { b with env := b.env.setIfInBounds sym (some v) } k := by
  have hholds := h.holds.set hsym (some v) fun w hw => by
    obtain rfl := Option.some.inj hw
    exact ⟨hknown, binds_of_kind? hkind hsym⟩
  exact Goes.withEnv h hholds (keeps_bind b sym rfl)

/-- The value of a binding that has one. -/
theorem Builder.Ready.exists_value (h : b.Ready K A k) {sym : SymbolId}
    (hsym : (b.env.getD sym none).isSome = true) :
    ∃ v, b.env.getD sym none = some v ∧ b.code.Known A k v ∧ b.code.Binds K sym v := by
  obtain ⟨v, hv⟩ := Option.isSome_iff_exists.mp hsym
  exact ⟨v, hv, h.holds.known sym v hv⟩

/-! ## Single instructions -/

/-- The code of an instruction without operands. -/
theorem lowersTo_const {e : Expr} {data : InstData} {effect : Effect} {span : Span}
    (hcode : lowerExpr K.functions K.symbols e = emit data (some e.type) effect span)
    (hfits : ∀ c : Code, c.Fits K data) (hoperands : data.operands = [])
    (hcell : data.makesCell = false) :
    LowersTo K Γ e := by
  intro A b k h _ _ _
  rw [hcode]
  refine (leads_emit data h (hfits _) (fun v hv => ?_) hcell (.inl rfl) effect span).imp
    fun r b' hr => ?_
  · rw [hoperands] at hv
    cases hv
  · exact ⟨A, k, hr.1, hr.2.1⟩

/-- The code of an instruction with one operand. -/
theorem lowersTo_operand (data : ValueId → InstData) {a e : Expr} {effect : Effect} {span : Span}
    (hcode : lowerExpr K.functions K.symbols e = do
      let src := (← lowerExpr K.functions K.symbols a).getD invalidId
      emit (data src) (some e.type) effect span)
    (hreads : readsOfExpr e = readsOfExpr a) (hcalls : e.calls = a.calls) (ha : LowersTo K Γ a)
    (hvalue : ∀ types : TypePool, Γ.types.Extends types → types.Standard → a.type ≠ Builtin.unit.id)
    (hfits : ∀ (c : Code) v, c.Fits K (data v) ↔ ∀ w ∈ [v], c.Plain K w)
    (hoperands : ∀ v, (data v).operands = [v]) (hcell : ∀ v, (data v).makesCell = false) :
    LowersTo K Γ e := by
  intro A b k h hext hhas hsep
  rw [hcode]
  rw [hreads] at hhas
  rw [hcalls] at hsep
  refine (ha A b k h hext hhas hsep).bind fun r b₁ hr => ?_
  obtain ⟨A₁, k₁, hgoes, hgives⟩ := hr
  obtain ⟨v, rfl, hknown, hkind⟩ :=
    hgives.exists (hvalue _ (hgoes.extends hext) hgoes.ready.valid.types.standard)
  have hplain : ∀ w ∈ [v], b₁.code.Plain K w := fun w hw => by
    rw [List.mem_singleton.mp hw]
    exact ⟨_, hkind⟩
  refine (leads_emit (data v) hgoes.ready ((hfits _ _).mpr hplain) (fun w hw => ?_) (hcell _)
    (.inl rfl) effect span).imp fun r b₂ hr => ⟨A₁, k₁, hgoes.trans hr.1, hr.2.1⟩
  rw [hoperands] at hw
  rw [List.mem_singleton.mp hw]
  exact hknown

/-- The code of an instruction with two operands. -/
theorem lowersTo_operands (data : ValueId → ValueId → InstData) {a a' e : Expr}
    {type : Option TypeId} {effect : Effect} {span : Span}
    (hcode : lowerExpr K.functions K.symbols e = do
      let x := (← lowerExpr K.functions K.symbols a).getD invalidId
      let y := (← lowerExpr K.functions K.symbols a').getD invalidId
      emit (data x y) type effect span)
    (hreads : readsOfExpr e = readsOfExpr a ++ readsOfExpr a')
    (hcalls : e.calls = a.calls ++ a'.calls) (ha : LowersTo K Γ a) (ha' : LowersTo K Γ a')
    (hvalues : ∀ types : TypePool, Γ.types.Extends types → types.Standard →
      a.type ≠ Builtin.unit.id ∧ a'.type ≠ Builtin.unit.id)
    (htype : ∀ types : TypePool, Γ.types.Extends types → types.Sound →
      type = some e.type ∨ type = none ∧ e.type = Builtin.unit.id)
    (hfits : ∀ (c : Code) x y, c.Fits K (data x y) ↔ ∀ w ∈ [x, y], c.Plain K w)
    (hoperands : ∀ x y, (data x y).operands = [x, y])
    (hcell : ∀ x y, (data x y).makesCell = false) :
    LowersTo K Γ e := by
  intro A b k h hext hhas hsep
  rw [hcode]
  rw [hreads] at hhas
  rw [hcalls] at hsep
  refine (ha A b k h hext (fun s hs => hhas s (List.mem_append_left _ hs)) fun hd call hcall =>
    hsep hd call (List.mem_append_left _ hcall)).bind fun r b₁ hr => ?_
  obtain ⟨A₁, k₁, hgoes₁, hgives₁⟩ := hr
  have hhas₁ : b₁.Has (readsOfExpr a') := hgoes₁.has fun s hs => hhas s (List.mem_append_right _ hs)
  refine (ha' A₁ b₁ k₁ hgoes₁.ready (hgoes₁.extends hext) hhas₁ fun hd call hcall =>
    hsep hd call (List.mem_append_right _ hcall)).bind fun r' b₂ hr' => ?_
  obtain ⟨A₂, k₂, hgoes₂, hgives₂⟩ := hr'
  have hext₂ := hgoes₂.extends (hgoes₁.extends hext)
  have hvalue := hvalues _ hext₂ hgoes₂.ready.valid.types.standard
  obtain ⟨v, rfl, hknown, hkind⟩ := (hgoes₂.gives hgives₁).exists hvalue.1
  obtain ⟨v', rfl, hknown', hkind'⟩ := hgives₂.exists hvalue.2
  have hall : ∀ w ∈ [v, v'], b₂.code.Known A₂ k₂ w ∧ b₂.code.Plain K w := by
    intro w hw
    rcases List.mem_cons.mp hw with rfl | hw
    · exact ⟨hknown, _, hkind⟩
    · rw [List.mem_singleton.mp hw]
      exact ⟨hknown', _, hkind'⟩
  refine (leads_emit (data v v') hgoes₂.ready ((hfits _ _ _).mpr fun w hw => (hall w hw).2)
    (fun w hw => ?_)
    (hcell _ _) (htype _ hext₂ hgoes₂.ready.valid.types) effect span).imp fun r b₃ hr =>
      ⟨A₂, k₂, (hgoes₁.trans hgoes₂).trans hr.1, hr.2.1⟩
  rw [hoperands] at hw
  exact (hall w hw).1

/-- The code of a result that is made of a value, if there is one. -/
theorem lowersTo_makeResult {e a : Expr} {isOk : Bool} {span : Span}
    (hcode : lowerExpr K.functions K.symbols e = do
      let v ← lowerExpr K.functions K.symbols a
      emit (.makeResult isOk v) (some e.type) .pure span)
    (hreads : readsOfExpr e = readsOfExpr a) (hcalls : e.calls = a.calls) (ha : LowersTo K Γ a) :
    LowersTo K Γ e := by
  intro A b k h hext hhas hsep
  rw [hcode]
  rw [hreads] at hhas
  rw [hcalls] at hsep
  refine (ha A b k h hext hhas hsep).bind fun r b₁ hr => ?_
  obtain ⟨A₁, k₁, hgoes, hgives⟩ := hr
  have hall : ∀ w ∈ r.toList, b₁.code.Known A₁ k₁ w ∧ b₁.code.Plain K w := fun w hw =>
    (hgives.value w (Option.mem_toList.mp hw)).imp_right fun hkind => ⟨_, hkind⟩
  exact (leads_emit (.makeResult isOk r) hgoes.ready (fun w hw => (hall w hw).2)
    (fun w hw => (hall w hw).1) rfl (.inl rfl) .pure span).imp fun r b₂ hr =>
    ⟨A₁, k₁, hgoes.trans hr.1, hr.2.1⟩

/-- Reading a reference loads its cell. -/
theorem lowersTo_local (hΓ : K.Reads Γ) {i : Hir.ExprInfo} {sym : SymbolId} {s : Hir.Symbol}
    (hs : Γ.symbols[sym]? = some s) (ht : i.type = s.type) : LowersTo K Γ (.local i sym) := by
  intro A b k h _ hhas _
  have htype : i.type = bindingType K.symbols sym := ht.trans (hΓ.bindingType hs).symm
  obtain ⟨v, hv, hknown, hbinds⟩ := h.exists_value (hhas sym (by simp [readsOfExpr, Hir.Expr.uses]))
  unfold lowerExpr
  refine leads_valueOf ?_
  rw [hv]
  split
  · rename_i href
    refine (leads_emit (.refLoad v) h ⟨_, hbinds.reference href⟩ (fun w hw => ?_) rfl (.inl rfl)
      .readsMemory i.span).imp fun r b₁ hr => ⟨A, k, hr.1, hr.2.1⟩
    rw [List.mem_singleton.mp hw]
    exact hknown
  · rename_i href
    refine leads_pure ⟨A, k, .refl h, fun w hw => ?_, fun _ => rfl⟩
    obtain rfl := Option.some.inj hw
    refine ⟨hknown, ?_⟩
    show b.code.kind? K v = some (i.type, false)
    rw [htype]
    exact hbinds.kind? (Bool.eq_false_iff.mpr href)

/-! ## Arguments -/

/-- An argument for a parameter; exclusively passed ones are cells. -/
def ArgGiven (K : BodyContext) (A : Avail) (b : Builder) (k : BlockId) (v : ValueId)
    (p : TypeId × PassMode) : Prop :=
  b.code.Known A k v ∧
    if p.2 = .exclusive then b.code.Cell K v p.1 else b.code.kind? K v = some (p.1, false)

/-- A binding that is put into a cell is no reference. -/
def LentGiven (K : BodyContext) (A : Avail) (b : Builder) (k : BlockId) (l : Lent) : Prop :=
  isReference K.symbols l.sym = false ∧ ∃ v, l.cell = some v ∧ b.code.Known A k v ∧
    b.code.Cell K v (bindingType K.symbols l.sym)

theorem Goes.argGiven (h : Goes K A b k A₁ b₁ k₁) {v : ValueId} {p : TypeId × PassMode}
    (hv : ArgGiven K A b k v p) : ArgGiven K A₁ b₁ k₁ v p := by
  refine ⟨h.here v hv.1, ?_⟩
  have hkind := hv.2
  split
  · rename_i hpass
    rw [if_pos hpass] at hkind
    exact h.part.grows.cell hkind
  · rename_i hpass
    rw [if_neg hpass] at hkind
    exact h.part.grows.kind? hkind

theorem Goes.lentGiven (h : Goes K A b k A₁ b₁ k₁) {l : Lent} (hl : LentGiven K A b k l) :
    LentGiven K A₁ b₁ k₁ l := by
  obtain ⟨hsym, v, hv, hknown, hcell⟩ := hl
  exact ⟨hsym, v, hv, h.here v hknown, h.part.grows.cell hcell⟩

/-- Cells that are passed are those of references that are passed, or new ones, and different ones
if the bindings are different. -/
structure Apart (K : BodyContext) (size : Nat) (syms : List SymbolId)
    (cells : List ValueId) : Prop where
  source : ∀ v ∈ cells, (∃ sym ∈ syms, isReference K.symbols sym = true ∧
      K.start.getD sym none = some v) ∨
    size ≤ v
  nodup : syms.Nodup → cells.Nodup

theorem Code.Grows.size_values {c c' : Code} (h : Grows A c A₁ c') :
    c.values.size ≤ c'.values.size := by
  by_contra hlt
  have hsize : c'.values.size < c.values.size := Nat.not_le.mp hlt
  have hsome := h.values _ _ (Array.getElem?_eq_getElem hsize)
  rw [Array.getElem?_eq_none (Nat.le_refl _)] at hsome
  cases hsome

theorem exclusiveOf_cons {α : Type} (modes : List PassMode) (x : α) (xs : List α) :
    exclusiveOf modes (x :: xs) =
      (if modes.headD .owned = .exclusive then [x] else []) ++ exclusiveOf modes.tail xs := by
  cases modes with
  | nil => rfl
  | cons mode modes =>
    unfold exclusiveOf
    rw [List.zip_cons_cons, List.filter_cons]
    by_cases hmode : mode = .exclusive
    · simp [hmode]
    · simp [hmode]

/-- Numbers the reference type to a type. -/
theorem leads_refType (h : b.Ready K A k) (e : TypeId) :
    Leads (modifyGet fun b =>
      let (t, types) := b.types.ref e
      (t, { b with types })) b fun t b' => Goes K A b k A b' k ∧ b'.types.refElem? t = some e ∧
        b'.env = b.env ∧ b'.values = b.values := by
  have hpart := (Part.refl h).withTypes (TypePool.extends_ref b.types e) (h.valid.types.ref e)
  refine ⟨?_, TypePool.refElem?_ref _ _, rfl, rfl⟩
  have hhere (v : ValueId) (hv : b.code.Known A k v) := hpart.grows.known hv
  exact Part.goes hpart h.current (h.holds.mono hpart.grows hhere) hhere (.of_env rfl) rfl rfl

theorem leads_lowerExclusive (h : b.Ready K A k) {sym : SymbolId}
    (hsym : (b.env.getD sym none).isSome = true) (span : Span) :
    (lowerExclusive K.symbols sym span).Leads b fun r b' => Goes K A b k A b' k ∧
      (∀ l, r.2 = some l → LentGiven K A b' k l) ∧ ∃ v, r.1 = some v ∧ b'.code.Known A k v ∧
        b'.code.Cell K v (bindingType K.symbols sym) ∧
          (isReference K.symbols sym = true ∧ K.start.getD sym none = some v ∨
            b.values.size ≤ v) := by
  obtain ⟨v, hv, hknown, hbinds⟩ := h.exists_value hsym
  unfold lowerExclusive
  refine leads_valueOf ?_
  rw [hv]
  split
  · rename_i href
    exact leads_pure ⟨.refl h, nofun, v, rfl, hknown, hbinds.reference href,
      .inl ⟨href, (h.holds.refs sym href).symm.trans hv⟩⟩
  · rename_i href
    have href : isReference K.symbols sym = false := Bool.eq_false_iff.mpr href
    refine (leads_refType h _).bind fun t b₁ ht => ?_
    obtain ⟨hgoes₁, ht, -, hvalues⟩ := ht
    have hplain : b₁.code.Plain K v := ⟨_, hgoes₁.part.grows.kind? (hbinds.kind? href)⟩
    refine (leads_emitCell hgoes₁.ready hplain (hgoes₁.here v hknown) ht span).bind
      fun cell b₂ hcell => ?_
    obtain ⟨hgoes₂, -, w, rfl, hknown', hcell, hsize⟩ := hcell
    refine leads_pure ⟨hgoes₁.trans hgoes₂, fun l hl => ?_, w, rfl, hknown', hcell,
      .inr (hvalues ▸ hsize)⟩
    obtain rfl := Option.some.inj hl
    exact ⟨href, w, rfl, hknown', hcell⟩

/-- A further cell is different from the later ones. -/
theorem Apart.cons (hΓ : K.Reads Γ) (h : b.Ready K A k) {n : Nat} {sym : SymbolId} {v : ValueId}
    (hv : isReference K.symbols sym = true ∧ K.start.getD sym none = some v ∨ b.values.size ≤ v)
    (hlt : v < n) (hle : b.values.size ≤ n) {syms : List SymbolId} {cells : List ValueId}
    (hrest : Apart K n syms cells) : Apart K b.values.size (sym :: syms) (v :: cells) := by
  refine ⟨fun w hw => ?_, fun hnodup => ?_⟩
  · rcases List.mem_cons.mp hw with rfl | hw
    · exact hv.imp_left fun href => ⟨sym, List.mem_cons_self, href⟩
    · refine (hrest.source w hw).imp (fun ⟨s, hs, href⟩ => ⟨s, List.mem_cons_of_mem _ hs, href⟩)
        fun hw => ?_
      exact hle.trans hw
  · obtain ⟨hnot, hnodup⟩ := List.nodup_cons.mp hnodup
    refine List.nodup_cons.mpr ⟨fun hmem => ?_, hrest.nodup hnodup⟩
    rcases hrest.source v hmem with ⟨s, hs, href, hstart⟩ | hge
    · rcases hv with ⟨href', hstart'⟩ | hnew
      · exact hnot (hΓ.start sym s v href' href hstart' hstart ▸ hs)
      · -- the cell of a reference is older
        have hold := (h.holds.known s v ((h.holds.refs s href).trans hstart)).2.reference href
        obtain ⟨r, hr, -⟩ := hold
        exact absurd (lt_size_of_kind? hr) (Nat.not_lt.mpr hnew)
    · exact absurd hlt (Nat.not_lt.mpr hge)

/-- The code of arguments. -/
theorem leads_lowerArgs (hΓ : K.Reads Γ) (args : List Expr) (params : List (TypeId × PassMode))
    {modes : List PassMode} {A : Avail} {b : Builder} {k : BlockId} (h : b.Ready K A k)
    (hext : Γ.types.Extends b.types) (hargs : ∀ a ∈ args, a.Typed Γ)
    (hlowers : ∀ a ∈ args, LowersTo K Γ a) (hhas : b.Has ((Hir.usesOfExprs args).map (·.2)))
    (hsep : K.disjoint → ∀ call ∈ Hir.callsOfExprs args, SeparateCall K.functions call)
    (htypes : args.map (·.type) = params.map (·.1))
    (hmodes : ∀ (i : Nat) p, params[i]? = some p → modes.getD i .owned = p.2)
    (hvalues : ∀ p ∈ params, p.1 ≠ Builtin.unit.id)
    (hplaces : ∀ (i : Nat) a t, args[i]? = some a → params[i]? = some (t, .exclusive) →
      a.local?.isSome = true) :
    (lowerArgs K.functions K.symbols modes args).Leads b fun r b' =>
      ∃ A' k', Goes K A b k A' b' k' ∧
      List.Forall₂ (ArgGiven K A' b' k') r.1 params ∧ (∀ l ∈ r.2, LentGiven K A' b' k' l) ∧
        Apart K b.values.size ((exclusiveOf modes args).filterMap (·.local?))
          (exclusiveOf modes r.1) := by
  induction args generalizing params modes A b k with
  | nil =>
    obtain rfl := List.map_eq_nil_iff.mp htypes.symm
    unfold lowerArgs
    refine leads_pure ⟨A, k, .refl h, .nil, fun _ hl => absurd hl List.not_mem_nil, ?_⟩
    have hnil (α : Type) : exclusiveOf modes ([] : List α) = [] := by simp [exclusiveOf]
    rw [hnil, hnil]
    exact ⟨fun _ hv => absurd hv List.not_mem_nil, fun _ => List.nodup_nil⟩
  | cons e es ih =>
    cases params with
    | nil => cases htypes
    | cons p params =>
    obtain ⟨htype, htypes⟩ : e.type = p.1 ∧ es.map (·.type) = params.map (·.1) :=
      List.cons.inj htypes
    have hmode : modes.headD .owned = p.2 := by
      have := hmodes 0 p rfl
      rw [← this]
      cases modes <;> rfl
    have htail (i : Nat) (q : TypeId × PassMode) (hq : params[i]? = some q) :
        modes.tail.getD i .owned = q.2 := by
      have := hmodes (i + 1) q hq
      rw [← this]
      cases modes <;> rfl
    rw [Hir.usesOfExprs, List.map_append] at hhas
    rw [Hir.callsOfExprs] at hsep
    unfold lowerArgs
    extract_lets rest
    -- the other arguments
    have hrest (A₁ : Avail) (b₁ : Builder) (k₁ : BlockId) (hgoes : Goes K A b k A₁ b₁ k₁)
        (v : ValueId) (lent : Option Lent) (hv : ArgGiven K A₁ b₁ k₁ v p)
        (hlent : ∀ l, lent = some l → LentGiven K A₁ b₁ k₁ l)
        (hsplit : ∀ cells, Apart K b₁.values.size ((exclusiveOf modes.tail es).filterMap (·.local?))
          cells →
          Apart K b.values.size ((exclusiveOf modes (e :: es)).filterMap (·.local?))
            ((if modes.headD .owned = .exclusive then [v] else []) ++ cells)) :
        (rest (some v, lent)).Leads b₁ fun r b' => ∃ A' k', Goes K A b k A' b' k' ∧
          List.Forall₂ (ArgGiven K A' b' k') r.1 (p :: params) ∧
          (∀ l ∈ r.2, LentGiven K A' b' k' l) ∧
            Apart K b.values.size ((exclusiveOf modes (e :: es)).filterMap (·.local?))
              (exclusiveOf modes r.1) := by
      refine (ih params hgoes.ready (hgoes.extends hext)
        (fun a ha => hargs a (List.mem_cons_of_mem _ ha))
          (fun a ha => hlowers a (List.mem_cons_of_mem _ ha))
        (hgoes.has fun s hs => hhas s (List.mem_append_right _ hs))
        (fun hd call hcall => hsep hd call (List.mem_append_right _ hcall)) htypes htail
        (fun q hq => hvalues q (List.mem_cons_of_mem _ hq))
        fun i a t ha hp => hplaces (i + 1) a t ha hp).bind fun r b₂ hr => ?_
      obtain ⟨vs, lents⟩ := r
      obtain ⟨A₂, k₂, hgoes₂, hvs, hlents, hapart⟩ := hr
      refine leads_pure ⟨A₂, k₂, hgoes.trans hgoes₂, .cons (hgoes₂.argGiven hv) hvs,
        fun l hl => ?_, ?_⟩
      · rcases List.mem_append.mp hl with hl | hl
        · exact hgoes₂.lentGiven (hlent l (Option.mem_toList.mp hl))
        · exact hlents l hl
      · rw [exclusiveOf_cons modes ((some v).getD invalidId) vs]
        exact hsplit _ hapart
    split
    · rename_i sym hexcl hlocal
      have htype' : p.1 = bindingType K.symbols sym := by
        rw [← htype]
        cases hargs e List.mem_cons_self with
        | «local» hs ht =>
          obtain rfl := Option.some.inj hlocal
          exact ht.trans (hΓ.bindingType hs).symm
        | _ => cases hlocal
      have hsym : (b.env.getD sym none).isSome = true := by
        refine hhas sym (List.mem_append_left _ ?_)
        cases e with
        | «local» i s =>
          obtain rfl := Option.some.inj hlocal
          simp [Hir.Expr.uses]
        | _ => cases hlocal
      refine (leads_lowerExclusive h hsym e.span).bind fun r b₁ hr => ?_
      obtain ⟨hgoes, hlent, v, hr, hknown, hcell, hfrom⟩ := hr
      obtain ⟨r, lent⟩ := r
      obtain rfl : r = some v := hr
      refine hrest A b₁ k hgoes v lent ⟨hknown, ?_⟩ hlent fun cells hapart => ?_
      · rw [if_pos (hmode.symm.trans hexcl), htype']
        exact hcell
      · rw [exclusiveOf_cons, if_pos hexcl, if_pos hexcl, List.filterMap_append,
          show [e].filterMap (·.local?) = [sym] by simp [hlocal]]
        obtain ⟨r, hr, -⟩ := hcell
        exact Apart.cons hΓ h hfrom (lt_size_of_kind? hr) hgoes.part.grows.size_values hapart
    · rename_i hnot
      have hpass : p.2 ≠ .exclusive := by
        intro hexcl
        have hsome := hplaces 0 e p.1 rfl (congrArg some (Prod.ext rfl hexcl))
        obtain ⟨sym, hsym⟩ := Option.isSome_iff_exists.mp hsome
        exact hnot sym (hmode.trans hexcl) hsym
      refine (hlowers e List.mem_cons_self A b k h hext
        (fun s hs => hhas s (List.mem_append_left _ hs))
        fun hd call hcall => hsep hd call (List.mem_append_left _ hcall)).bind fun r b₁ hr => ?_
      obtain ⟨A₁, k₁, hgoes, hgives⟩ := hr
      obtain ⟨v, rfl, hknown, hkind⟩ := hgives.exists (htype ▸ hvalues p List.mem_cons_self)
      refine hrest A₁ b₁ k₁ hgoes v none ⟨hknown, ?_⟩ (fun _ hl => by cases hl)
        fun cells hapart => ?_
      · rw [if_neg hpass, ← htype]
        exact hkind
      · have hmode : modes.headD .owned ≠ .exclusive := hmode ▸ hpass
        rw [exclusiveOf_cons, if_neg hmode, if_neg hmode, List.nil_append, List.nil_append]
        exact ⟨fun w hw => (hapart.source w hw).imp_right hgoes.part.grows.size_values.trans,
          hapart.nodup⟩

/-- The code of values that are all passed on. -/
theorem leads_lowerOwned (hΓ : K.Reads Γ) {args : List Expr} (h : b.Ready K A k)
    (hext : Γ.types.Extends b.types) (hargs : ∀ a ∈ args, a.Typed Γ)
    (hlowers : ∀ a ∈ args, LowersTo K Γ a) (hhas : b.Has ((Hir.usesOfExprs args).map (·.2)))
    (hsep : K.disjoint → ∀ call ∈ Hir.callsOfExprs args, SeparateCall K.functions call)
    (hvalues : ∀ a ∈ args, a.type ≠ Builtin.unit.id) :
    (lowerArgs K.functions K.symbols [] args).Leads b fun r b' => ∃ A' k', Goes K A b k A' b' k' ∧
      ∀ v ∈ r.1, b'.code.Known A' k' v ∧ b'.code.Plain K v := by
  have howned (p : TypeId × PassMode) (hp : p ∈ args.map fun a => (a.type, PassMode.owned)) :
      p.2 = .owned ∧ p.1 ≠ Builtin.unit.id := by
    obtain ⟨a, ha, rfl⟩ := List.mem_map.mp hp
    exact ⟨rfl, hvalues a ha⟩
  refine (leads_lowerArgs hΓ args (args.map fun a => (a.type, .owned))
    h hext hargs hlowers hhas hsep
    (by simp) (fun i p hp => ?_) (fun p hp => (howned p hp).2) fun i a t _ hp => ?_).imp
    fun r b₁ hr => ?_
  · rw [(howned p (List.mem_of_getElem? hp)).1]
    rfl
  · cases (howned _ (List.mem_of_getElem? hp)).1
  · obtain ⟨A₁, k₁, hgoes, hvs, -⟩ := hr
    refine ⟨A₁, k₁, hgoes, fun v hv => ?_⟩
    obtain ⟨i, hi⟩ := List.getElem?_of_mem hv
    obtain ⟨p, hp, hknown, hkind⟩ := getElem?_of_forall₂ hvs hi
    rw [if_neg (by rw [(howned p (List.mem_of_getElem? hp)).1]; nofun)] at hkind
    exact ⟨hknown, _, hkind⟩

/-! ## Calls -/

/-- Bindings that were put into cells take the values of the cells. -/
theorem goes_takeBack (hΓ : K.Reads Γ) (span : Span) (ls : List Lent) {b : Builder}
    (h : b.Ready K A k) (hls : ∀ l ∈ ls, LentGiven K A b k l) :
    (takeBack K.symbols span ls).Leads b fun _ b' => Goes K A b k A b' k := by
  induction ls generalizing b with
  | nil => exact leads_pure (.refl h)
  | cons l ls ih =>
    obtain ⟨hsym, cell, hcell, hknown, hkind⟩ := hls l List.mem_cons_self
    unfold takeBack
    rw [hcell]
    refine (leads_emit (.refLoad cell) h ⟨_, hkind⟩ (fun w hw => ?_) rfl (.inl rfl)
      .readsMemory span).bind fun r b₁ hr => ?_
    · rw [List.mem_singleton.mp hw]
      exact hknown
    obtain ⟨hgoes, hgives, -⟩ := hr
    obtain ⟨v, rfl, hv⟩ := hgives.exists (hΓ.bindings l.sym)
    have hbind := goes_bind hgoes.ready hsym hv.1 hv.2
    refine leads_bind ?_
    refine (ih hbind.ready fun l' hl' => ?_).imp fun _ b₂ hb₂ => (hgoes.trans hbind).trans hb₂
    exact (hgoes.trans hbind).lentGiven (hls l' (List.mem_cons_of_mem _ hl'))

/-- There is one reference type to each type, so cells are of the parameter's type. -/
theorem ArgGiven.typeIn (hsound : b.types.Sound) {v : ValueId} {p : TypeId × PassMode} {t : TypeId}
    (hv : ArgGiven K A b k v p) (ht : Builder.ParamType b.types p t) :
    typeIn b.values v = some t := by
  have hkind := hv.2
  unfold Builder.ParamType at ht
  split at hkind
  · rename_i hpass
    rw [if_pos hpass] at ht
    obtain ⟨r, hr, helem⟩ := hkind
    rw [← hsound.ref_unique r t p.1 helem ht]
    exact typeIn_of_kind? hr
  · rename_i hpass
    rw [if_neg hpass] at ht
    exact ht ▸ typeIn_of_kind? hkind

theorem lowersTo_call (hΓ : K.Reads Γ) {i : Hir.ExprInfo} {callee : FuncId} {args : List Expr}
    {params : List (TypeId × PassMode)} (hcallee : Γ.signature callee = some (params, i.type))
    (hargs : ∀ a ∈ args, a.Typed Γ) (hlowers : ∀ a ∈ args, LowersTo K Γ a)
    (htypes : args.map (·.type) = params.map (·.1))
    (hplaces : ∀ (j : Nat) a t, args[j]? = some a → params[j]? = some (t, .exclusive) →
      a.local?.isSome = true) : LowersTo K Γ (.call i callee args) := by
  intro A b k h hext hhas hsep
  obtain ⟨fn, hfn, hsig⟩ : ∃ fn, K.functions[callee]? = some fn ∧ fn.signature = (params, i.type) :=
    Option.map_eq_some_iff.mp ((hΓ.signature callee).symm.trans hcallee)
  have hmodes : passModes K.functions callee = params.map (·.2) := by
    have hparams : (fn.params.map fun p => (p.type, p.pass)) = params := congrArg Prod.fst hsig
    unfold passModes
    rw [hfn, ← hparams]
    simp
  unfold Expr.calls at hsep
  unfold readsOfExpr Expr.uses at hhas
  unfold lowerExpr
  refine (leads_lowerArgs hΓ args params h hext hargs hlowers hhas
    (fun hd call hcall => hsep hd call (List.mem_cons_of_mem _ hcall)) htypes (fun j p hp => ?_)
    (hΓ.params callee _ hcallee) hplaces).bind fun r b₁ hr => ?_
  · rw [hmodes, List.getD_eq_getElem?_getD, List.getElem?_map, hp]
    rfl
  obtain ⟨vs, lent⟩ := r
  obtain ⟨A₁, k₁, hgoes₁, hvs, hlent, hapart⟩ := hr
  obtain ⟨ts, hts, hparams⟩ := hgoes₁.ready.valid.signature callee fn hfn
  rw [hsig] at hparams
  have hfits : b₁.code.Fits K (.call callee vs) := by
    refine ⟨⟨ts, _, hts, ?_⟩, ?_, fun hd => hapart.nodup (hsep hd _ List.mem_cons_self)⟩
    · have hlen := hvs.length_eq.trans hparams.length_eq
      refine List.forall₂_iff_get.mpr ⟨hlen, fun j hj hj' => ?_⟩
      have hj'' : j < params.length := hvs.length_eq ▸ hj
      exact ArgGiven.typeIn hgoes₁.ready.valid.types (hvs.get hj hj'') (hparams.get hj'' hj')
    · rw [hmodes, List.forall₂_map_right_iff]
      refine hvs.imp fun v p hv => ?_
      have hkind := hv.2
      split at hkind
      · rename_i hpass
        obtain ⟨r, hr, -⟩ := hkind
        exact ⟨r, by rw [hr, decide_eq_true hpass]⟩
      · rename_i hpass
        exact ⟨_, by rw [hkind, decide_eq_false hpass]⟩
  refine (leads_emit (.call callee vs) hgoes₁.ready hfits (fun v hv => ?_) rfl (.inl rfl)
    .call i.span).bind fun r b₂ hr => ?_
  · obtain ⟨j, hj⟩ := List.getElem?_of_mem hv
    obtain ⟨p, -, hknown, -⟩ := getElem?_of_forall₂ hvs hj
    exact hknown
  obtain ⟨hgoes₂, hgives, -⟩ := hr
  refine (goes_takeBack hΓ i.span lent hgoes₂.ready fun l hl => hgoes₂.lentGiven (hlent l hl)).bind
    fun _ b₃ hgoes₃ => ?_
  exact leads_pure ⟨A₁, k₁, (hgoes₁.trans hgoes₂).trans hgoes₃, hgoes₃.gives hgives⟩

/-! ## Choices -/

theorem lowersTo_logical {i : Hir.ExprInfo} {isAnd : Bool} {x y : Expr} (hx : LowersTo K Γ x)
    (hy : LowersTo K Γ y) (hsame : y.type = x.type) (hbool : Γ.types.isBool x.type = true)
    (ht : i.type = x.type) : LowersTo K Γ (.logical i isAnd x y) := by
  intro A b k h hext hhas hsep
  unfold readsOfExpr Expr.uses at hhas
  rw [List.map_append] at hhas
  unfold Expr.calls at hsep
  have hvalue {types : TypePool} (hext : Γ.types.Extends types) (hstandard : types.Standard) :
      x.type ≠ Builtin.unit.id := hstandard.ne_unit_of_isBool (hext.isBool hbool)
  unfold lowerExpr
  refine (hx A b k h hext (fun s hs => hhas s (List.mem_append_left _ hs)) fun hd call hcall =>
    hsep hd call (List.mem_append_left _ hcall)).bind fun left b₁ hr => ?_
  obtain ⟨A₁, k₁, hgoes₁, hgives₁⟩ := hr
  have hne := hvalue (hgoes₁.extends hext) hgoes₁.ready.valid.types.standard
  obtain ⟨left, rfl, hleft⟩ := hgives₁.exists hne
  refine (leads_emit (.constBool !isAnd) hgoes₁.ready (fun _ hv => absurd hv List.not_mem_nil)
    (fun _ hv => absurd hv List.not_mem_nil) rfl (.inl rfl) .pure i.span).bind
    fun shortcut b₂ hr => ?_
  obtain ⟨hgoes₂, hgives₂, -⟩ := hr
  obtain ⟨shortcut, rfl, hshortcut⟩ := hgives₂.exists (ht ▸ hne)
  have h₂ := hgoes₂.ready
  refine leads_get (leads_get (leads_newBlock (leads_newBlock ?_)))
  rw [h₂.current, Option.getD_some]
  refine leads_fork h₂ left ⟨hgoes₂.here left hleft.1, _, hgoes₂.part.grows.kind? hleft.2⟩
    (by cases isAnd <;> simp) fun A₃ b₃ hfork h₃ hagrees => ?_
  generalize hjoin : b₂.grown.code.blocks.size = join
  replace hjoin : b₂.code.addBlock.blocks.size = join := by rw [← hjoin, Builder.code_grown]
  rw [hjoin] at hfork
  generalize b₂.code.blocks.size = right at hfork h₃
  -- the right operand
  have hgoes := hgoes₁.trans hgoes₂
  have hext₃ : Γ.types.Extends b₃.types := (hgoes.extends hext).trans hfork.part.grows.types
  have hhas₃ : b₃.Has (readsOfExpr y) := by
    intro s hs
    rw [hagrees.env]
    exact hgoes.has hhas s (List.mem_append_right _ hs)
  refine (hy A₃ b₃ right h₃ hext₃ hhas₃ fun hd call hcall =>
    hsep hd call (List.mem_append_right _ hcall)).bind fun value b₄ hr => ?_
  obtain ⟨A₄, k₄, hgoes₄, hgives₄⟩ := hr
  obtain ⟨value, rfl, hvalue₄⟩ := hgives₄.exists (hsame ▸ hne)
  refine leads_get (leads_get (leads_terminate ?_))
  rw [hgoes₄.ready.current, Option.getD_some]
  have hnot : right ∉ [join] := fun hright => hfork.ne (List.mem_singleton.mp hright)
  have harm := hgoes₄.arrives hfork.part hnot hagrees.loops hfork.le_left hfork.here
    List.mem_cons_self hfork.le_right hfork.empty hfork.sources
  have hjoins : Joins K A₁ b₂ k₁ A₄ (b₄.ended (.jump join [])).code join
      [{ source := k₁, env := b₂.env, value := some shortcut },
        { source := k₄, env := b₄.env, value := some value }] := by
    refine ⟨harm.sources, by simpa using (harm.part.ne_start harm.le).symm, fun e he => ?_⟩
    rcases List.mem_cons.mp he with rfl | he
    · exact harm.part.arm_start _
    · exact List.mem_singleton.mp he ▸ harm.arm _
  refine Leads.bind (leads_enterValueJoin harm.part List.mem_cons_self hfork.le_right hjoins
    (List.cons_ne_nil _ _) (hgoes₄.ready.size.trans h₂.size.symm) i.type ?_) fun v b₅ hr => ?_
  · intro e he
    rcases List.mem_cons.mp he with rfl | he
    · exact ⟨shortcut, rfl, harm.part.grows.known hshortcut.1, harm.part.grows.kind? hshortcut.2⟩
    · rw [List.mem_singleton.mp he]
      refine ⟨value, rfl, harm.grows.known hvalue₄.1, ?_⟩
      rw [ht, ← hsame]
      exact harm.grows.kind? hvalue₄.2
  · obtain ⟨A₅, hat, hloops, hpending, hknown, hkind, hsome⟩ := hr
    refine leads_pure ⟨A₅, join, hgoes.trans
      (hat.goes ?_ ?_ fun sym hsym => hsome sym fun e he => ?_), ?_, ?_⟩
    · exact hloops.trans (hgoes₄.loops.trans hagrees.loops)
    · exact hpending.trans (hgoes₄.pending.trans hagrees.pending)
    · rcases List.mem_cons.mp he with rfl | he
      · exact hsym
      · rw [List.mem_singleton.mp he]
        exact hgoes₄.keeps.isSome sym (hagrees.env ▸ hsym)
    · intro w hw
      obtain rfl := Option.some.inj hw
      exact ⟨hknown, hkind⟩
    · exact fun _ => rfl

theorem lowersTo_select {i : Hir.ExprInfo} {c x y : Expr} (hc : LowersTo K Γ c)
    (hbool : Γ.types.isBool c.type = true) (hx : LowersTo K Γ x) (hy : LowersTo K Γ y)
    (hsame : y.type = x.type) (ht : i.type = x.type) : LowersTo K Γ (.select i c x y) := by
  intro A b k h hext hhas hsep
  unfold readsOfExpr Expr.uses at hhas
  rw [List.map_append, List.map_append] at hhas
  unfold Expr.calls at hsep
  unfold lowerExpr
  refine (hc A b k h hext (fun s hs => hhas s (List.mem_append_left _ (List.mem_append_left _ hs)))
    fun hd call hcall => hsep hd call (List.mem_append_left _ (List.mem_append_left _ hcall))).bind
      fun cond b₁ hr => ?_
  obtain ⟨A₁, k₁, hgoes₁, hgives₁⟩ := hr
  have hext₁ := hgoes₁.extends hext
  obtain ⟨cond, rfl, hcond⟩ := hgives₁.exists
    (hgoes₁.ready.valid.types.standard.ne_unit_of_isBool (hext₁.isBool hbool))
  refine leads_newBlock (leads_newBlock (leads_newBlock
    (leads_terminate (leads_get (leads_moveTo ?_)))))
  refine leads_forkJoin hgoes₁.ready cond ⟨hcond.1, _, hcond.2⟩ fun A₂ b₂ hfork h₂ hagrees => ?_
  generalize b₁.code.blocks.size = left, b₁.grown.code.blocks.size = right,
    b₁.grown.grown.code.blocks.size = join at *
  have hnodup := List.nodup_cons.mp hfork.nodup
  have hright : right ∈ [right, join] := List.mem_cons_self
  have hjoin : join ∈ [right, join] := List.mem_cons_of_mem _ List.mem_cons_self
  have hne : right ∉ [join] := (List.nodup_cons.mp hnodup.2).1
  have hjoinright : join ≠ right := fun heq => hne (List.mem_singleton.mpr heq.symm)
  have hle {z : BlockId} (hz : z ∈ [right, join]) := hfork.le z (List.mem_cons_of_mem _ hz)
  -- the first arm
  refine (hx A₂ b₂ left h₂ ?_ ?_ fun hd call hcall => hsep hd call ?_).bind fun value b₃ hr => ?_
  · exact hext₁.trans hfork.part.grows.types
  · intro s hs
    rw [hagrees.env]
    exact hgoes₁.has hhas s (List.mem_append_left _ (List.mem_append_right _ hs))
  · exact List.mem_append_left _ (List.mem_append_right _ hcall)
  obtain ⟨A₃, k₃, hgoes₃, hvalue₃⟩ := hr
  refine leads_get (leads_get (leads_terminate (leads_resume ?_)))
  rw [hgoes₃.ready.current, Option.getD_some]
  have harm₃ := hgoes₃.arrives hfork.part hnodup.1 hagrees.loops
      (hfork.le left List.mem_cons_self) hfork.here
    hjoin (hle hjoin) hfork.joinEmpty hfork.joinSources
  have hbeside := hgoes₃.beside hfork.part hagrees.loops hright
      (hle hright) hjoinright hfork.sources
  -- the second arm
  obtain ⟨hpart₄, h₄, hagrees₄⟩ := harm₃.part.reenter hright (hle hright) hbeside
    (hgoes₃.loops.trans hagrees.loops) (hgoes₃.pending.trans hagrees.pending)
  have hg₄ := grows_assume A₃ (b₃.ended (.jump join [])).code right (b₁.code.Known A₁ k₁)
  have hempty₄ := harm₃.empty.assume hjoinright (b₁.code.Known A₁ k₁)
  have hhere₄ (v : ValueId) (hv : b₁.code.Known A₁ k₁ v) :
      (b₃.ended (.jump join [])).code.Known (A₃.add right (b₁.code.Known A₁ k₁)) right v :=
    .inl (.inr ⟨rfl, hv⟩)
  generalize A₃.add right (b₁.code.Known A₁ k₁) = A₄ at hpart₄ h₄ hg₄ hempty₄ hhere₄
  refine (hy A₄ _ right h₄ ?_ ?_ fun hd call hcall => hsep hd call ?_).bind fun value' b₅ hr => ?_
  · exact hext₁.trans hpart₄.grows.types
  · intro s hs
    exact hgoes₁.has hhas s (List.mem_append_right _ hs)
  · exact List.mem_append_right _ hcall
  obtain ⟨A₅, k₅, hgoes₅, hvalue₅⟩ := hr
  refine leads_get (leads_get (leads_terminate (leads_get ?_)))
  rw [hgoes₅.ready.current, Option.getD_some]
  have harm₅ := hgoes₅.arrives hpart₄ hne hagrees₄.loops (hle hright) (fun v hv => hhere₄ v hv)
    List.mem_cons_self (hle hjoin) hempty₄ harm₃.sources
  have hg₅ := (hg₄.trans hgoes₅.part.grows).trans harm₅.grows
  have hdiffer : k₃ ≠ k₅ := by
    rcases (hgoes₅.part.unended k₅ (List.mem_singleton.mpr rfl)).2.1 with heq | hle
    · exact heq ▸ (harm₃.others right hright).symm
    · exact (harm₃.lt.trans_le hle).ne
  have hjoins : Joins K A₁ b₁ k₁ A₅ (b₅.ended (.jump join [])).code join
      [{ source := k₃, env := b₃.env, value },
        { source := k₅, env := b₅.env, value := value' }] := by
    refine ⟨harm₅.sources, by simpa using hdiffer, fun e he => ?_⟩
    rcases List.mem_cons.mp he with rfl | he
    · exact (harm₃.arm _).mono hg₅
    · exact List.mem_singleton.mp he ▸ harm₅.arm _
  have hsize : (b₅.ended (.jump join [])).env.size = b₁.env.size :=
    hgoes₅.ready.size.trans hgoes₁.ready.size.symm
  have hloops : b₅.loops = b₁.loops := hgoes₅.loops.trans hagrees₄.loops
  have hpending : b₅.pending = b₁.pending := hgoes₅.pending.trans hagrees₄.pending
  -- a binding with a value has one at the end of both arms
  have hkeeps (sym : SymbolId) (hsym : (b₁.env.getD sym none).isSome = true) : ∀ e ∈
      [({ source := k₃, env := b₃.env, value } : Edge),
        { source := k₅, env := b₅.env, value := value' }],
        (e.env.getD sym none).isSome = true := by
    intro e he
    rcases List.mem_cons.mp he with rfl | he
    · exact hgoes₃.keeps.isSome sym (hagrees.env ▸ hsym)
    · rw [List.mem_singleton.mp he]
      exact hgoes₅.keeps.isSome sym hsym
  split
  · rename_i hunit
    refine (leads_enterJoin harm₅.part List.mem_cons_self (hle hjoin) hjoins
      (List.cons_ne_nil _ _) hsize false).bind fun _ b₆ hr => ?_
    obtain ⟨A₆, hat, -, hloops₆, hpending₆, hsome⟩ := hr
    have hgoes₆ := hat.goes (hloops₆.trans hloops) (hpending₆.trans hpending) fun sym hsym =>
      hsome sym (fun h => by cases h) (hkeeps sym hsym)
    have htype : i.type = Builtin.unit.id := harm₅.part.valid.types.unit_unique _ hunit
    exact leads_pure ⟨A₆, join, hgoes₁.trans hgoes₆, (fun _ hw => by cases hw),
      fun hne => absurd htype hne⟩
  · rename_i hunit
    have htype : i.type ≠ Builtin.unit.id := fun heq =>
      hunit (heq ▸ harm₅.part.valid.types.standard.isBuiltin .unit)
    obtain ⟨v, rfl, hv⟩ := hvalue₃.exists (ht ▸ htype)
    obtain ⟨v', rfl, hv'⟩ := hvalue₅.exists (hsame ▸ ht ▸ htype)
    refine (leads_enterValueJoin harm₅.part List.mem_cons_self (hle hjoin) hjoins
      (List.cons_ne_nil _ _) hsize i.type ?_).bind fun w b₆ hr => ?_
    · intro e he
      rcases List.mem_cons.mp he with rfl | he
      · exact ⟨v, rfl, hg₅.known (harm₃.grows.known hv.1), ht ▸ hg₅.kind? (harm₃.grows.kind? hv.2)⟩
      · rw [List.mem_singleton.mp he]
        exact ⟨v', rfl, harm₅.grows.known hv'.1, ht ▸ hsame ▸ harm₅.grows.kind? hv'.2⟩
    · obtain ⟨A₆, hat, hloops₆, hpending₆, hknown, hkind, hsome⟩ := hr
      have hgoes₆ := hat.goes (hloops₆.trans hloops) (hpending₆.trans hpending) fun sym hsym =>
        hsome sym (hkeeps sym hsym)
      refine leads_pure ⟨A₆, join, hgoes₁.trans hgoes₆, fun w' hw' => ?_, fun _ => rfl⟩
      obtain rfl := Option.some.inj hw'
      exact ⟨hknown, hkind⟩

/-! ## All expressions -/

/-- The code of an instruction that takes a list of values. -/
theorem lowersTo_list (hΓ : K.Reads Γ) (data : List ValueId → InstData)
    {args : List Expr} {e : Expr} {type : Option TypeId} {effect : Effect} {span : Span}
    (hcode : lowerExpr K.functions K.symbols e = do
      let (vs, _) ← lowerArgs K.functions K.symbols [] args
      emit (data vs) type effect span)
    (hreads : readsOfExpr e = (Hir.usesOfExprs args).map (·.2))
    (hcalls : e.calls = Hir.callsOfExprs args) (hargs : ∀ a ∈ args, a.Typed Γ)
    (hlowers : ∀ a ∈ args, LowersTo K Γ a)
    (hvalues : ∀ types : TypePool, Γ.types.Extends types → types.Standard →
      ∀ a ∈ args, a.type ≠ Builtin.unit.id)
    (htype : ∀ types : TypePool, Γ.types.Extends types → types.Sound →
      type = some e.type ∨ type = none ∧ e.type = Builtin.unit.id)
    (hfits : ∀ (c : Code) vs, c.Fits K (data vs) ↔ ∀ w ∈ vs, c.Plain K w)
    (hoperands : ∀ vs, (data vs).operands = vs) (hcell : ∀ vs, (data vs).makesCell = false) :
    LowersTo K Γ e := by
  intro A b k h hext hhas hsep
  rw [hcode]
  rw [hreads] at hhas
  rw [hcalls] at hsep
  refine (leads_lowerOwned hΓ h hext hargs hlowers hhas hsep
    (hvalues _ hext h.valid.types.standard)).bind fun owned b₁ hr => ?_
  obtain ⟨vs, _⟩ := owned
  obtain ⟨A₁, k₁, hgoes, hall⟩ := hr
  refine (leads_emit (data vs) hgoes.ready ((hfits _ _).mpr fun v hv => (hall v hv).2)
    (fun v hv => ?_)
    (hcell _) (htype _ (hgoes.extends hext) hgoes.ready.valid.types) effect span).imp fun r b₂ hr =>
      ⟨A₁, k₁, hgoes.trans hr.1, hr.2.1⟩
  rw [hoperands] at hv
  exact (hall v hv).1

theorem lowersTo_stateGet {i : Hir.ExprInfo} {ns : String} {key : Expr} (hkey : LowersTo K Γ key)
    (hkind : Γ.IsKey key.type) : LowersTo K Γ (.stateGet i ns key) := by
  intro A b k h hext hhas hsep
  unfold lowerExpr
  refine (hkey A b k h hext hhas hsep).bind fun r b₁ hr => ?_
  obtain ⟨A₁, k₁, hgoes, hgives⟩ := hr
  obtain ⟨v, rfl, hv⟩ := hgives.exists
    (hkind.ne_unit (hgoes.extends hext) hgoes.ready.valid.types.standard)
  refine leads_get ?_
  generalize (b₁.types.resultElem? i.type).getD TypeId.invalid = type
  refine (leads_emit (.stateRead ns v type) hgoes.ready (fun w hw => ?_) (fun w hw => ?_)
    rfl (.inl rfl) .readsMemory i.span).imp fun r b₂ hr => ⟨A₁, k₁, hgoes.trans hr.1, hr.2.1⟩
  · rw [List.mem_singleton.mp hw]
    exact ⟨_, hv.2⟩
  · rw [List.mem_singleton.mp hw]
    exact hv.1

/-- The code of every typed expression is valid. -/
theorem lowersTo_of_typed (hΓ : K.Reads Γ) {e : Expr} (he : e.Typed Γ) : LowersTo K Γ e := by
  induction he with
  | int _ => exact lowersTo_const rfl (fun _ => nofun) rfl rfl
  | bool _ => exact lowersTo_const rfl (fun _ => nofun) rfl rfl
  | bytes _ => exact lowersTo_const rfl (fun _ => nofun) rfl rfl
  | @unit i ht =>
    intro A b k h hext _ _
    have htype : i.type = Builtin.unit.id := h.valid.types.unit_unique _ (hext.isUnit ht)
    exact leads_pure ⟨A, k, .refl h, nofun, fun hne => absurd htype hne⟩
  | «local» hs ht => exact lowersTo_local hΓ hs ht
  | @neg i mode a _ hint _ ih =>
    exact lowersTo_operand (.unary .neg mode) rfl rfl rfl ih
      (fun _ hext h => h.ne_unit_of_isInteger (hext.isInteger hint)) (fun _ _ => Iff.rfl)
        (fun _ => rfl) fun _ => rfl
  | not _ hbool _ ih =>
    exact lowersTo_operand (.unary .not .wrapping) rfl rfl rfl ih
      (fun _ hext h => h.ne_unit_of_isBool (hext.isBool hbool)) (fun _ _ => Iff.rfl) (fun _ => rfl)
      fun _ => rfl
  | bitNot _ hint _ ih =>
    exact lowersTo_operand (.unary .bitNot .wrapping) rfl rfl rfl ih
      (fun _ hext h => h.ne_unit_of_isInteger (hext.isInteger hint)) (fun _ _ => Iff.rfl)
        (fun _ => rfl) fun _ => rfl
  | @compare i op _ _ _ _ _ hsame hopnd _ iha ihb =>
    refine lowersTo_operands (.binary op .trap) rfl (List.map_append ..) rfl iha ihb
      (fun _ hext h => ?_)
      (fun _ _ _ => .inl rfl) (fun _ _ _ => Iff.rfl) (fun _ _ => rfl) fun _ _ => rfl
    -- what is compared is not of type unit, so both operands have values
    have hne := hopnd.elim (fun hint => h.ne_unit_of_isInteger (hext.isInteger hint)) fun hbool =>
      h.ne_unit_of_isBool (hext.isBool hbool.2)
    exact ⟨hne, hsame ▸ hne⟩
  | @arith i op mode _ _ _ _ _ hsame hint _ _ iha ihb =>
    refine lowersTo_operands (.binary op mode) rfl (List.map_append ..) rfl iha ihb
      (fun _ hext h => ?_)
      (fun _ _ _ => .inl rfl) (fun _ _ _ => Iff.rfl) (fun _ _ => rfl) fun _ _ => rfl
    have hne := h.ne_unit_of_isInteger (hext.isInteger hint)
    exact ⟨hne, hsame ▸ hne⟩
  | logical _ _ hsame hbool ht iha ihb => exact lowersTo_logical iha ihb hsame hbool ht
  | @cast i mode _ _ hint _ ih =>
    exact lowersTo_operand (.cast mode i.type) rfl rfl rfl ih
      (fun _ hext h => h.ne_unit_of_isInteger (hext.isInteger hint)) (fun _ _ => Iff.rfl)
        (fun _ => rfl) fun _ => rfl
  | call hcallee hargs htypes hplaces ih => exact lowersTo_call hΓ hcallee hargs ih htypes hplaces
  | @field i name index _ _ _ hdecl _ ih =>
    exact lowersTo_operand (.extract · index) rfl rfl rfl ih
      (fun _ hext h => h.ne_unit_of_structDecl? (hext.structDecl? hdecl)) (fun _ _ => Iff.rfl)
      (fun _ => rfl) fun _ => rfl
  | @struct i fields decl hfields hdecl htypes ih =>
    refine lowersTo_list hΓ .makeStruct rfl rfl rfl hfields ih (fun _ _ _ a ha => ?_)
      (fun _ _ _ => .inl rfl) (fun _ _ => Iff.rfl) (fun _ => rfl) fun _ => rfl
    have hmem : a.type ∈ decl.fields.map (·.2) := htypes ▸ List.mem_map.mpr ⟨a, ha, rfl⟩
    obtain ⟨field, hfield, heq⟩ := List.mem_map.mp hmem
    exact heq ▸ hΓ.fields.field hdecl hfield
  | select _ hcond _ _ hsame ht ihc iha ihb => exact lowersTo_select ihc hcond iha ihb hsame ht
  | ok _ _ ih => exact lowersTo_makeResult rfl rfl rfl ih
  | err _ _ _ ih => exact lowersTo_makeResult rfl rfl rfl ih
  | isOk _ he _ ih =>
    exact lowersTo_operand .resultIsOk rfl rfl rfl ih
      (fun _ hext h => h.ne_unit_of_resultElem? (hext.resultElem? he)) (fun _ _ => Iff.rfl)
        (fun _ => rfl) fun _ => rfl
  | unwrap _ ht ih =>
    exact lowersTo_operand .resultValue rfl rfl rfl ih
      (fun _ hext h => h.ne_unit_of_resultElem? (hext.resultElem? ht)) (fun _ _ => Iff.rfl)
        (fun _ => rfl) fun _ => rfl
  | code _ he _ ih =>
    exact lowersTo_operand .resultCode rfl rfl rfl ih
      (fun _ hext h => h.ne_unit_of_resultElem? (hext.resultElem? he)) (fun _ _ => Iff.rfl)
        (fun _ => rfl) fun _ => rfl
  | length _ hbytes _ ih =>
    exact lowersTo_operand .bytesLength rfl rfl rfl ih
      (fun _ hext h => h.ne_unit_of_isBytes (hext.isBytes hbytes)) (fun _ _ => Iff.rfl)
        (fun _ => rfl) fun _ => rfl
  | stateGet _ _ hkind _ _ ih => exact lowersTo_stateGet ih hkind
  | @statePut i ns _ _ _ _ hkind _ hstored ht ihk ihv =>
    refine lowersTo_operands (.stateWrite ns) rfl (List.map_append ..) rfl ihk ihv
      (fun _ hext h => ?_)
      (fun _ hext h => .inr ⟨rfl, ?_⟩) (fun _ _ _ => Iff.rfl) (fun _ _ => rfl) fun _ _ => rfl
    · exact ⟨hkind.ne_unit hext h, h.ne_unit_of_isStateValue (hext.isStateValue hstored)⟩
    · exact h.unit_unique _ (hext.isUnit ht)
  | @stateHas i ns _ _ _ hkind _ ih =>
    exact lowersTo_operand (.stateHas ns) rfl rfl rfl ih (fun _ hext h => hkind.ne_unit hext h)
      (fun _ _ => Iff.rfl) (fun _ => rfl) fun _ => rfl
  | context _ => exact lowersTo_const rfl (fun _ => nofun) rfl rfl
  | digest _ hbytes _ ih =>
    exact lowersTo_operand .digest rfl rfl rfl ih
      (fun _ hext h => h.ne_unit_of_isBytes (hext.isBytes hbytes)) (fun _ _ => Iff.rfl)
        (fun _ => rfl) fun _ => rfl
  | @emit i topic args hargs hstored ht ih =>
    refine lowersTo_list hΓ (.emit topic) rfl rfl rfl hargs ih (fun _ hext h a ha => ?_)
      (fun _ hext h => .inr ⟨rfl, ?_⟩) (fun _ _ => Iff.rfl) (fun _ => rfl) fun _ => rfl
    · exact h.ne_unit_of_isStateValue (hext.isStateValue (hstored a ha))
    · exact h.unit_unique _ (hext.isUnit ht)

end ContractCompiler.Ssa
