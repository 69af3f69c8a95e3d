import ContractCompiler.Proofs.Ssa.Building

/-!
# The code of expressions is typed

The code of a typed expression consists of typed instructions, and its value has the type of the
expression. Bindings that had values before it have values after it.

- `BuildContext.Reads`: the program that a function is built from;
- `Lowers`: the code of an expression is typed;
- `lowers_of_typed`: that of every typed expression is.
-/

namespace ContractCompiler.Ssa

open Hir (Expr Stmt SymbolId PassMode)
open Build Builder

/-- The bindings and signatures of a program are those that a function is built with. -/
structure BuildContext.Reads (K : BuildContext) (Γ : Hir.TypeContext) : Prop where
  symbols : Γ.symbols = K.symbols
  signature : ∀ f, Γ.signature f = (K.functions[f]?).map (·.signature)

/-- The code of an expression is typed, wherever at least the types of a program are known. -/
def Lowers (K : BuildContext) (Γ : Hir.TypeContext) (e : Expr) : Prop :=
  ∀ b, b.Typed K → Γ.types.Extends b.types →
    (lowerExpr K.functions K.symbols e).Ensures K b fun r b' => b'.Yields r e.type ∧ b.Keeps b'

variable {K : BuildContext} {Γ : Hir.TypeContext} {b : Builder}

/-! ## Bindings -/

theorem bindingType_of_symbol (hΓ : K.Reads Γ) {sym : SymbolId} {s : Hir.Symbol}
    (hs : Γ.symbols[sym]? = some s) : bindingType K.symbols sym = s.type := by
  unfold bindingType
  rw [← hΓ.symbols, hs]
  rfl

theorem Builder.Binds.yields {r : Option ValueId} {sym : SymbolId}
    (h : ∀ v, r = some v → b.Binds K sym v) (hsym : isReference K.symbols sym = false) :
    b.Yields r (bindingType K.symbols sym) := by
  intro v hv
  obtain ⟨t, ht, hbinds⟩ := h v hv
  rw [if_neg (by rw [hsym]; exact Bool.false_ne_true)] at hbinds
  exact hbinds ▸ ht

theorem Builder.Binds.reference {r : Option ValueId} {sym : SymbolId}
    (h : ∀ v, r = some v → b.Binds K sym v) (hsym : isReference K.symbols sym = true) :
    (b.context K).Reference (r.getD invalidId) (bindingType K.symbols sym) := by
  cases r with
  | none => exact .inl rfl
  | some v =>
    obtain ⟨t, ht, hbinds⟩ := h v rfl
    rw [if_pos hsym] at hbinds
    exact .inr ⟨t, ht, hbinds⟩

theorem Builder.Yields.binds {r : Option ValueId} {sym : SymbolId}
    (h : b.Yields r (bindingType K.symbols sym)) (hsym : isReference K.symbols sym = false) :
    ∀ v, r = some v → b.Binds K sym v := by
  intro v hv
  refine ⟨_, h v hv, ?_⟩
  rw [if_neg (by rw [hsym]; exact Bool.false_ne_true)]

theorem Builder.Advances.reference {b' : Builder} (h : b.Advances K b') {v : ValueId} {t : TypeId}
    (hv : (b.context K).Reference v t) : (b'.context K).Reference v t :=
  hv.imp_right fun ⟨a, hv, ha⟩ => ⟨a, h.values v a hv, h.types.refElem? ha⟩

/-! ## Cells -/

/-- The parameter type of a parameter stays its parameter type when more types are known. -/
theorem ParamType.mono {types types' : TypePool} (hext : types.Extends types')
    {p : TypeId × PassMode} {t : TypeId} (h : ParamType types p t) : ParamType types' p t := by
  unfold ParamType at h ⊢
  split
  · rename_i hpass
    rw [if_pos hpass] at h
    exact hext.refElem? h
  · rename_i hpass
    rw [if_neg hpass] at h
    exact h

theorem advances_withTypes (h : b.Typed K) {types : TypePool} (hsound : types.Sound)
    (hext : b.types.Extends types) : b.Advances K { b with types } := by
  have hctx : (b.context K).Extends (Builder.context K { b with types }) :=
    ⟨hext, fun _ _ hf => hf, fun _ _ hv => hv⟩
  refine ⟨⟨hsound, h.tables.mono hctx, fun sym v hv => ?_, fun f fn hfn => ?_, h.ret,
    h.current, h.owned,
    h.first_le, h.sealed_le, h.bindings⟩, hext, fun _ _ hv => hv, fun _ _ => rfl,
    fun _ _ _ hv => hv, Nat.le_refl _⟩
  · obtain ⟨t, ht, hbinds⟩ := h.env sym v hv
    refine ⟨t, ht, ?_⟩
    split
    · rename_i href
      rw [if_pos href] at hbinds
      exact hext.refElem? hbinds
    · rename_i href
      rw [if_neg href] at hbinds
      exact hbinds
  · obtain ⟨params, hsig, hparams⟩ := h.signature f fn hfn
    exact ⟨params, hsig, hparams.imp fun _ _ hp => ParamType.mono hext hp⟩

/-- Numbers the reference type to a type. -/
theorem ensures_refType (h : b.Typed K) (e : TypeId) :
    Ensures (modifyGet fun b =>
      let (t, types) := b.types.ref e
      (t, { b with types })) K b fun t b' => b'.types.refElem? t = some e ∧ b'.env = b.env :=
  ⟨advances_withTypes h (h.types.ref e) (TypePool.extends_ref _ _), TypePool.refElem?_ref _ _, rfl⟩

/-- An argument of a parameter type; exclusively passed ones are references. -/
def ArgTyped (K : BuildContext) (b : Builder) (v : ValueId) (p : TypeId × PassMode) : Prop :=
  if p.2 = .exclusive then (b.context K).Reference v p.1 else (b.context K).Operand v p.1

theorem Builder.Advances.argTyped {b' : Builder} (h : b.Advances K b') {v : ValueId}
    {p : TypeId × PassMode} (hv : ArgTyped K b v p) : ArgTyped K b' v p := by
  unfold ArgTyped at hv ⊢
  split
  · rename_i hpass
    rw [if_pos hpass] at hv
    exact h.reference hv
  · rename_i hpass
    rw [if_neg hpass] at hv
    exact h.operand hv

/-- There is one reference type to each type, so references are of the parameter's type. -/
theorem ArgTyped.operand (h : b.Typed K) {v : ValueId} {p : TypeId × PassMode} {t : TypeId}
    (hv : ArgTyped K b v p) (ht : ParamType b.types p t) : (b.context K).Operand v t := by
  unfold ArgTyped at hv
  unfold ParamType at ht
  split at hv
  · rename_i hpass
    rw [if_pos hpass] at ht
    rcases hv with rfl | ⟨a, hv, ha⟩
    · exact .inl rfl
    · obtain rfl := h.types.ref_unique a t p.1 ha ht
      exact .inr hv
  · rename_i hpass
    rw [if_neg hpass] at ht
    exact ht ▸ hv

/-- A binding that is put into a cell is no reference, and the cell is one of its type. -/
def LentTyped (K : BuildContext) (b : Builder) (l : Lent) : Prop :=
  isReference K.symbols l.sym = false ∧
    (b.context K).Reference (l.cell.getD invalidId) (bindingType K.symbols l.sym)

theorem ensures_lowerExclusive (h : b.Typed K) (sym : SymbolId) (span : Span) :
    (lowerExclusive K.symbols sym span).Ensures K b fun r b' =>
      (b'.context K).Reference (r.1.getD invalidId) (bindingType K.symbols sym) ∧
        (∀ l ∈ r.2, LentTyped K b' l) ∧ b'.env = b.env := by
  unfold lowerExclusive
  refine ensures_valueOf ?_
  split
  · rename_i href
    exact ensures_pure h ⟨Binds.reference (h.env sym) href, nofun, rfl⟩
  · rename_i href
    have href : isReference K.symbols sym = false := Bool.eq_false_iff.mpr href
    refine (ensures_refType h _).bind fun t b₁ h₁ ⟨ht, henv₁⟩ => ?_
    have hinit := (h₁.yields (Binds.yields (h.env sym) href)).operand K
    refine (ensures_emit h₁.typed (.refNew hinit ht) (.inl rfl) .pure span).bind
      fun cell b₂ h₂ ⟨hcell, henv₂, _⟩ => ?_
    have hcell : (b₂.context K).Reference (cell.getD invalidId) (bindingType K.symbols sym) :=
      (hcell.operand K).imp_right fun hv => ⟨t, hv, h₂.types.refElem? ht⟩
    refine ensures_pure h₂.typed ⟨hcell, fun l hl => ?_, henv₂.trans henv₁⟩
    obtain rfl := Option.some.inj hl
    exact ⟨href, hcell⟩

/-- Giving a binding another value keeps it defined. -/
theorem keeps_bind (b : Builder) (sym : SymbolId) {v : Option ValueId} (hv : v.isSome = true) :
    b.Keeps ((Build.bind sym v).run b).2 := by
  refine ⟨Array.size_setIfInBounds, fun sym' hsome => ?_⟩
  show ((b.env.setIfInBounds sym v).getD sym' none).isSome = true
  rw [Array.getD_eq_getD_getElem?, Array.getElem?_setIfInBounds]
  rw [Array.getD_eq_getD_getElem?] at hsome
  split
  · rename_i heq
    subst heq
    split
    · exact hv
    · rename_i hlt
      rw [Array.getElem?_eq_none (Nat.not_lt.mp hlt)] at hsome
      exact hsome
  · exact hsome

theorem ensures_takeBack (span : Span) (ls : List Lent) {b : Builder} (h : b.Typed K)
    (hls : ∀ l ∈ ls, LentTyped K b l) :
    (takeBack K.symbols span ls).Ensures K b fun _ b' => b.Keeps b' := by
  induction ls generalizing b with
  | nil => exact ensures_pure h (.of_env rfl)
  | cons l ls ih =>
    obtain ⟨hsym, hcell⟩ := hls l List.mem_cons_self
    unfold takeBack
    refine (ensures_emit h (.refLoad hcell (h.bindings l.sym)) (.inl rfl) _ span).bind
      fun v b₁ h₁ ⟨hv, henv₁, hsome⟩ => ?_
    have hkeeps := keeps_bind b₁ l.sym (hsome (h.bindings l.sym))
    have hbind : (Build.bind l.sym v).Ensures K b₁ fun _ b' => b₁.Keeps b' :=
      ⟨(ensures_bind h₁.typed (hv.binds hsym)).1, hkeeps⟩
    refine hbind.bind fun _ b₂ h₂ hkeeps => ?_
    refine (ih h₂.typed fun l' hl' => ?_).imp fun _ b₃ _ hrest => ?_
    · obtain ⟨hsym', hcell'⟩ := hls l' (List.mem_cons_of_mem _ hl')
      exact ⟨hsym', (h₁.trans h₂).reference hcell'⟩
    · exact ((Keeps.of_env henv₁).trans hkeeps).trans hrest

/-! ## Arguments -/

theorem type_of_local (hΓ : K.Reads Γ) {e : Expr} (he : e.Typed Γ) {sym : SymbolId}
    (hsym : e.local? = some sym) : e.type = bindingType K.symbols sym := by
  cases he with
  | «local» hs ht =>
    obtain rfl := Option.some.inj hsym
    exact ht.trans (bindingType_of_symbol hΓ hs).symm
  | _ => cases hsym

/-- The values of arguments fit parameters of their types. -/
theorem ensures_lowerArgs (hΓ : K.Reads Γ) (args : List Expr) (params : List (TypeId × PassMode))
    {modes : List PassMode} {b : Builder} (h : b.Typed K) (hext : Γ.types.Extends b.types)
    (hargs : ∀ a ∈ args, a.Typed Γ) (hlowers : ∀ a ∈ args, Lowers K Γ a)
    (htypes : args.map (·.type) = params.map (·.1))
    (hmodes : ∀ (k : Nat) p, params[k]? = some p → modes.getD k .owned = p.2)
    (hplaces : ∀ (k : Nat) a t, args[k]? = some a → params[k]? = some (t, .exclusive) →
      a.local?.isSome = true) :
    (lowerArgs K.functions K.symbols modes args).Ensures K b fun r b' =>
      List.Forall₂ (ArgTyped K b') r.1 params ∧ (∀ l ∈ r.2, LentTyped K b' l) ∧ b.Keeps b' := by
  induction args generalizing params modes b with
  | nil =>
    obtain rfl := List.map_eq_nil_iff.mp htypes.symm
    unfold lowerArgs
    exact ensures_pure h ⟨.nil, nofun, .of_env rfl⟩
  | cons e es ih =>
    cases params with
    | nil => cases htypes
    | cons p params =>
      obtain ⟨htype, htypes⟩ : e.type = p.1 ∧ es.map (·.type) = params.map (·.1) :=
        List.cons.inj htypes
      have hmode : modes.headD .owned = p.2 := by
        have := hmodes 0 p rfl
        rw [← this]
        cases modes <;> rfl
      have htail : ∀ (k : Nat) q, params[k]? = some q → modes.tail.getD k .owned = q.2 := by
        intro k q hq
        have := hmodes (k + 1) q hq
        rw [← this]
        cases modes with
        | nil => rfl
        | cons _ _ => rfl
      unfold lowerArgs
      extract_lets rest
      have hrest (b₁ : Builder) (h₁ : b.Advances K b₁) (hkeeps : b.Keeps b₁)
          (r : Option ValueId × Option Lent) (hr : ArgTyped K b₁ (r.1.getD invalidId) p)
          (hlent : ∀ l ∈ r.2, LentTyped K b₁ l) :
          (rest r).Ensures K b₁ fun r b' => List.Forall₂ (ArgTyped K b') r.1 (p :: params) ∧
            (∀ l ∈ r.2, LentTyped K b' l) ∧ b.Keeps b' := by
        refine (ih params h₁.typed (hext.trans h₁.types)
          (fun a ha => hargs a (List.mem_cons_of_mem _ ha))
          (fun a ha => hlowers a (List.mem_cons_of_mem _ ha)) htypes htail
          fun k a t ha hp => hplaces (k + 1) a t ha hp).bind
          fun (vs, lents) b₂ h₂ ⟨hvs, hlents, hkeeps'⟩ => ?_
        refine ensures_pure h₂.typed ⟨.cons (h₂.argTyped hr) hvs, fun l hl => ?_,
          hkeeps.trans hkeeps'⟩
        rcases List.mem_append.mp hl with hl | hl
        · obtain ⟨hsym, hcell⟩ := hlent l (Option.mem_toList.mp hl)
          exact ⟨hsym, h₂.reference hcell⟩
        · exact hlents l hl
      split
      · rename_i sym hexcl hlocal
        have htype' : p.1 = bindingType K.symbols sym :=
          htype.symm.trans (type_of_local hΓ (hargs e List.mem_cons_self) hlocal)
        refine (ensures_lowerExclusive h sym e.span).bind fun r b₁ h₁ ⟨href, hlent, henv⟩ => ?_
        refine hrest b₁ h₁ (.of_env henv) r ?_ hlent
        unfold ArgTyped
        rw [if_pos (hmode.symm.trans hexcl), htype']
        exact href
      · rename_i hnot
        have hpass : p.2 ≠ .exclusive := by
          intro hexcl
          have hsome := hplaces 0 e p.1 rfl (congrArg some (Prod.ext rfl hexcl))
          obtain ⟨sym, hsym⟩ := Option.isSome_iff_exists.mp hsome
          exact hnot sym (hmode.trans hexcl) hsym
        refine (hlowers e List.mem_cons_self b h hext).bind fun v b₁ h₁ ⟨hv, hkeeps⟩ => ?_
        refine hrest b₁ h₁ hkeeps (v, none) ?_ nofun
        unfold ArgTyped
        rw [if_neg hpass]
        exact htype ▸ hv.operand K

/-- Arguments that are all passed by value have the types of the expressions. -/
theorem ensures_lowerOwned (hΓ : K.Reads Γ) {args : List Expr} (h : b.Typed K)
    (hext : Γ.types.Extends b.types) (hargs : ∀ a ∈ args, a.Typed Γ)
    (hlowers : ∀ a ∈ args, Lowers K Γ a) :
    (lowerArgs K.functions K.symbols [] args).Ensures K b fun r b' =>
      List.Forall₂ (b'.context K).Operand r.1 (args.map (·.type)) ∧ b.Keeps b' := by
  have howned (k : Nat) (p : TypeId × PassMode)
      (hp : (args.map fun a => (a.type, PassMode.owned))[k]? = some p) : p.2 = .owned := by
    obtain ⟨a, -, rfl⟩ := List.mem_map.mp (List.mem_of_getElem? hp)
    rfl
  refine (ensures_lowerArgs hΓ args (args.map fun a => (a.type, .owned))
    h hext hargs hlowers (by simp) (fun k p hp => ?_) fun k a t _ hp => ?_).imp fun r b' _ hr => ?_
  · rw [howned k p hp]
    rfl
  · cases howned k _ hp
  · have hvs := hr.1
    rw [List.forall₂_map_right_iff] at hvs ⊢
    exact ⟨hvs.imp fun v a hv => hv, hr.2.2⟩

/-! ## Expressions -/

/-- The code of a binary operation. -/
theorem lowers_binary {i : Hir.ExprInfo} {op : BinOp} {mode : ArithMode} {x y : Expr}
    (hx : Lowers K Γ x) (hy : Lowers K Γ y)
    (hd : ∀ b left right, Γ.types.Extends (Builder.types b) → (b.context K).Operand left x.type →
      (b.context K).Operand right y.type → InstType (b.context K)
      (.binary op mode left right) i.type) :
    Lowers K Γ (.binary i op mode x y) := by
  intro b h hext
  refine (hx b h hext).bind fun left b₁ h₁ ⟨hleft, hkeeps₁⟩ => ?_
  have hext₁ := hext.trans h₁.types
  refine (hy b₁ h₁.typed hext₁).bind fun right b₂ h₂ ⟨hright, hkeeps₂⟩ => ?_
  have hdata := hd b₂ _ _ (hext₁.trans h₂.types) (h₂.operand (hleft.operand K)) (hright.operand K)
  exact (ensures_emit h₂.typed hdata (.inl rfl) _ _).imp fun r b₃ _ ⟨hr, henv, _⟩ =>
    ⟨hr, (hkeeps₁.trans hkeeps₂).trans (.of_env henv)⟩

/-- The code of an instruction with one operand. -/
theorem lowers_operand (data : ValueId → InstData) {a e : Expr} {effect : Effect} {span : Span}
    (hcode : lowerExpr K.functions K.symbols e = do
      let src := (← lowerExpr K.functions K.symbols a).getD invalidId
      emit (data src) (some e.type) effect span)
    (ha : Lowers K Γ a)
    (hd : ∀ b src, Γ.types.Extends (Builder.types b) → (b.context K).Operand src a.type →
      InstType (b.context K) (data src) e.type) : Lowers K Γ e := by
  intro b h hext
  rw [hcode]
  refine (ha b h hext).bind fun src b₁ h₁ ⟨hsrc, hkeeps⟩ => ?_
  have hdata := hd b₁ _ (hext.trans h₁.types) (hsrc.operand K)
  exact (ensures_emit h₁.typed hdata (.inl rfl) _ _).imp fun r b₂ _ ⟨hr, henv, _⟩ =>
    ⟨hr, hkeeps.trans (.of_env henv)⟩

/-- The code of an instruction without operands. -/
theorem lowers_const {e : Expr} {data : InstData} {effect : Effect} {span : Span}
    (hcode : lowerExpr K.functions K.symbols e = emit data (some e.type) effect span)
    (hd : ∀ b, Γ.types.Extends (Builder.types b) → InstType (b.context K) data e.type) :
    Lowers K Γ e := by
  intro b h hext
  rw [hcode]
  exact (ensures_emit h (hd b hext) (.inl rfl) _ _).imp fun r b₁ _ ⟨hr, henv, _⟩ =>
    ⟨hr, .of_env henv⟩

theorem lowers_local (hΓ : K.Reads Γ) {i : Hir.ExprInfo} {sym : SymbolId} {s : Hir.Symbol}
    (hs : Γ.symbols[sym]? = some s) (ht : i.type = s.type) : Lowers K Γ (.local i sym) := by
  intro b h _
  have htype : i.type = bindingType K.symbols sym := ht.trans (bindingType_of_symbol hΓ hs).symm
  refine ensures_valueOf ?_
  split
  · rename_i href
    have href := Binds.reference (h.env sym) href
    rw [← htype] at href
    exact (ensures_emit h (.refLoad href (htype ▸ h.bindings sym)) (.inl rfl) _ _).imp
      fun r b₁ _ ⟨hr, henv, _⟩ => ⟨hr, .of_env henv⟩
  · rename_i href
    have hyields := Binds.yields (h.env sym) (Bool.eq_false_iff.mpr href)
    rw [← htype] at hyields
    exact ensures_pure h ⟨hyields, .of_env rfl⟩

/-- Bindings that are kept on both edges to a join are kept by the join. -/
theorem keeps_join {b₀ b₁ : Builder} {edge₁ edge₂ : Edge} (hsize : b₁.env.size = b₀.env.size)
    (hdefined : [edge₁, edge₂] ≠ [] → Defined [edge₁, edge₂] b₁.env)
    (h₁ : ∀ sym, (b₀.env.getD sym none).isSome = true → (edge₁.env.getD sym none).isSome = true)
    (h₂ : ∀ sym, (b₀.env.getD sym none).isSome = true → (edge₂.env.getD sym none).isSome = true) :
    b₀.Keeps b₁ := by
  refine ⟨hsize, fun sym hsome => hdefined (List.cons_ne_nil _ _) sym ?_ fun e he => ?_⟩
  · rw [hsize]
    refine Nat.lt_of_not_le fun hle => ?_
    rw [Array.getD_eq_getD_getElem?, Array.getElem?_eq_none hle] at hsome
    cases hsome
  · simp only [List.mem_cons, List.not_mem_nil, or_false] at he
    rcases he with rfl | rfl
    · exact h₁ sym hsome
    · exact h₂ sym hsome

theorem envTyped_edges {edge₁ edge₂ : Edge} (h₁ : b.EnvTyped K edge₁.env)
    (h₂ : b.EnvTyped K edge₂.env) :
    ∀ e ∈ [edge₁, edge₂], b.EnvTyped K e.env := by
  intro e he
  simp only [List.mem_cons, List.not_mem_nil, or_false] at he
  rcases he with rfl | rfl
  · exact h₁
  · exact h₂

theorem lowers_logical {i : Hir.ExprInfo} {isAnd : Bool} {x y : Expr} (hx : Lowers K Γ x)
    (hy : Lowers K Γ y) (hbool : Γ.types.isBool i.type = true) :
    Lowers K Γ (.logical i isAnd x y) := by
  intro b h hext
  refine (hx b h hext).bind fun left b₁ h₁ ⟨hleft, hkeeps₁⟩ => ?_
  have hext₁ := hext.trans h₁.types
  refine (ensures_emit h₁.typed (.constBool (hext₁.isBool hbool)) (.inl rfl) _ _).bind
    fun shortcut b₂ h₂ ⟨_, henv₂, _⟩ => ?_
  refine ensures_get (ensures_get ?_)
  refine (ensures_newBlock h₂.typed).bind fun right b₃ h₃ ⟨hright, henv₃⟩ => ?_
  refine (ensures_newBlock h₃.typed).bind fun join b₄ h₄ ⟨hjoin, henv₄⟩ => ?_
  refine (ensures_terminate h₄.typed ?_).bind fun _ b₅ h₅ henv₅ => ?_
  · intro v hv
    split at hv <;> cases hv
  refine (ensures_moveTo h₅.typed ?_).bind fun _ b₆ h₆ henv₆ => ?_
  · intro k hk
    obtain rfl := Option.some.inj hk
    exact h.first_le.trans hright
  have h₂₆ := ((h₃.trans h₄).trans h₅).trans h₆
  refine (hy b₆ h₆.typed ((hext₁.trans h₂.types).trans h₂₆.types)).bind
    fun value b₇ h₇ ⟨_, hkeeps₇⟩ => ?_
  refine ensures_get (ensures_get ?_)
  refine (ensures_terminate h₇.typed ?_).bind fun _ b₈ h₈ henv₈ => ?_
  · exact nofun
  refine (ensures_enterValueJoin h₈.typed hjoin ?_ i.type).bind
    fun v b₉ h₉ ⟨hv, hsize, hdefined⟩ => ?_
  · exact envTyped_edges (((h₂₆.trans h₇).trans h₈).envTyped h₂.typed.env)
      (h₈.envTyped h₇.typed.env)
  have henv₂₆ : b₆.env = b₂.env := ((henv₆.trans henv₅).trans henv₄).trans henv₃
  have hkeeps : b₂.Keeps b₇ := (Keeps.of_env henv₂₆).trans hkeeps₇
  refine ensures_pure h₉.typed ⟨fun w hw => ?_, (hkeeps₁.trans (.of_env henv₂)).trans ?_⟩
  · obtain rfl := Option.some.inj hw
    exact hv
  · refine keeps_join ?_ hdefined (fun _ hsome => hsome) hkeeps.isSome
    rw [hsize, henv₈, hkeeps.size]

theorem lowers_select {i : Hir.ExprInfo} {c x y : Expr} (hc : Lowers K Γ c) (hx : Lowers K Γ x)
    (hy : Lowers K Γ y) : Lowers K Γ (.select i c x y) := by
  intro b h hext
  refine (hc b h hext).bind fun cond b₁ h₁ ⟨_, hkeeps₁⟩ => ?_
  refine (ensures_newBlock h₁.typed).bind fun thenBlock b₂ h₂ ⟨hthen, henv₂⟩ => ?_
  refine (ensures_newBlock h₂.typed).bind fun elseBlock b₃ h₃ ⟨helse, henv₃⟩ => ?_
  refine (ensures_newBlock h₃.typed).bind fun join b₄ h₄ ⟨hjoin, henv₄⟩ => ?_
  refine (ensures_terminate h₄.typed ?_).bind fun _ b₅ h₅ henv₅ => ?_
  · exact nofun
  refine ensures_get ?_
  extract_lets env
  refine (ensures_moveTo h₅.typed ?_).bind fun _ b₆ h₆ henv₆ => ?_
  · intro k hk
    obtain rfl := Option.some.inj hk
    exact h.first_le.trans hthen
  have hext₆ := (((((hext.trans h₁.types).trans h₂.types).trans h₃.types).trans h₄.types).trans
    h₅.types).trans h₆.types
  refine (hx b₆ h₆.typed hext₆).bind fun onTrue b₇ h₇ ⟨_, hkeeps₇⟩ => ?_
  refine ensures_get (ensures_get ?_)
  extract_lets edge₁
  refine (ensures_terminate h₇.typed ?_).bind fun _ b₈ h₈ _ => ?_
  · exact nofun
  have h₅₈ := (h₆.trans h₇).trans h₈
  refine (ensures_setEnv h₈.typed (h₅₈.envTyped h₅.typed.env)).bind fun _ b₉ h₉ henv₉ => ?_
  refine (ensures_moveTo h₉.typed ?_).bind fun _ b₁₀ h₁₀ henv₁₀ => ?_
  · intro k hk
    obtain rfl := Option.some.inj hk
    exact h.first_le.trans helse
  have h₇₁₀ := (h₈.trans h₉).trans h₁₀
  refine (hy b₁₀ h₁₀.typed ((hext₆.trans h₇.types).trans h₇₁₀.types)).bind
    fun onFalse b₁₁ h₁₁ ⟨_, hkeeps₁₁⟩ => ?_
  refine ensures_get (ensures_get ?_)
  extract_lets edge₂
  refine (ensures_terminate h₁₁.typed ?_).bind fun _ b₁₂ h₁₂ henv₁₂ => ?_
  · exact nofun
  have hedges : ∀ e ∈ [edge₁, edge₂], b₁₂.EnvTyped K e.env :=
    envTyped_edges (((h₇₁₀.trans h₁₁).trans h₁₂).envTyped h₇.typed.env) (h₁₂.envTyped h₁₁.typed.env)
  have henv₁₅ : b₅.env = b₁.env := ((henv₅.trans henv₄).trans henv₃).trans henv₂
  have htrue : b₁.Keeps b₇ := (Keeps.of_env (henv₆.trans henv₁₅)).trans hkeeps₇
  have hfalse : b₁.Keeps b₁₁ := (Keeps.of_env ((henv₁₀.trans henv₉).trans henv₁₅)).trans hkeeps₁₁
  have hsize₁₂ : b₁₂.env.size = b₁.env.size := by rw [henv₁₂, hfalse.size]
  refine ensures_get ?_
  split
  · refine (ensures_enterJoin h₁₂.typed hjoin hedges false).bind
      fun _ b₁₃ h₁₃ ⟨hsize, hdefined⟩ => ?_
    refine ensures_pure h₁₃.typed ⟨nofun, hkeeps₁.trans ?_⟩
    exact keeps_join (hsize.trans hsize₁₂) (hdefined rfl) htrue.isSome hfalse.isSome
  · refine (ensures_enterValueJoin h₁₂.typed hjoin hedges i.type).bind
      fun v b₁₃ h₁₃ ⟨hv, hsize, hdefined⟩ => ?_
    refine ensures_pure h₁₃.typed ⟨fun w hw => ?_, hkeeps₁.trans ?_⟩
    · obtain rfl := Option.some.inj hw
      exact hv
    · exact keeps_join (hsize.trans hsize₁₂) hdefined htrue.isSome hfalse.isSome

theorem lowers_call (hΓ : K.Reads Γ) {i : Hir.ExprInfo} {callee : FuncId} {args : List Expr}
    {params : List (TypeId × PassMode)} (hcallee : Γ.signature callee = some (params, i.type))
    (hargs : ∀ a ∈ args, a.Typed Γ) (hlowers : ∀ a ∈ args, Lowers K Γ a)
    (htypes : args.map (·.type) = params.map (·.1))
    (hplaces : ∀ (k : Nat) a t, args[k]? = some a → params[k]? = some (t, .exclusive) →
      a.local?.isSome = true) : Lowers K Γ (.call i callee args) := by
  intro b h hext
  obtain ⟨fn, hfn, hsig⟩ : ∃ fn, K.functions[callee]? = some fn ∧ fn.signature = (params, i.type) :=
    Option.map_eq_some_iff.mp ((hΓ.signature callee).symm.trans hcallee)
  have hmodes : passModes K.functions callee = params.map (·.2) := by
    have hparams : (fn.params.map fun p => (p.type, p.pass)) = params := congrArg Prod.fst hsig
    unfold passModes
    rw [hfn, ← hparams]
    simp
  refine (ensures_lowerArgs hΓ args params h hext hargs hlowers htypes (fun k p hp => ?_)
    hplaces).bind fun (vs, lent) b₁ h₁ ⟨hvs, hlent, hkeeps₁⟩ => ?_
  · rw [hmodes, List.getD_eq_getElem?_getD, List.getElem?_map, hp]
    rfl
  obtain ⟨ts, hts, hparams⟩ := h₁.typed.signature callee fn hfn
  rw [hsig] at hparams
  have hret : fn.ret = i.type := congrArg Prod.snd hsig
  rw [hret] at hts
  have hoperands : List.Forall₂ (b₁.context K).Operand vs ts := by
    have hlen := hvs.length_eq.trans hparams.length_eq
    refine List.forall₂_iff_get.mpr ⟨hlen, fun k hk hk' => ?_⟩
    have hk'' : k < params.length := hvs.length_eq ▸ hk
    exact ArgTyped.operand h₁.typed (hvs.get hk hk'') (hparams.get hk'' hk')
  refine (ensures_emit h₁.typed (.call hts hoperands) (.inl rfl) _ _).bind
    fun r b₂ h₂ ⟨hr, henv₂, _⟩ => ?_
  refine (ensures_takeBack i.span lent h₂.typed fun l hl => ?_).bind fun _ b₃ h₃ hkeeps₃ => ?_
  · obtain ⟨hsym, hcell⟩ := hlent l hl
    exact ⟨hsym, h₂.reference hcell⟩
  · exact ensures_pure h₃.typed ⟨h₃.yields hr, (hkeeps₁.trans (.of_env henv₂)).trans hkeeps₃⟩

theorem ofMode_of_typed {mode : ArithMode} {a t : TypeId} (ht : Γ.OfMode mode a t)
    (hext : Γ.types.Extends b.types) : (b.context K).OfMode mode a t := by
  unfold Hir.TypeContext.OfMode at ht
  unfold TypeContext.OfMode
  split
  · rename_i hmode
    rw [if_pos hmode] at ht
    exact hext.resultElem? ht
  · rename_i hmode
    rw [if_neg hmode] at ht
    exact ht

theorem key_of_typed {v : ValueId} {t : TypeId} (hv : (b.context K).Operand v t) (ht : Γ.IsKey t)
    (hext : Γ.types.Extends b.types) : (b.context K).Key v :=
  ⟨t, hv, ht.imp hext.isInteger hext.isBytes⟩

theorem lowers_stateGet {i : Hir.ExprInfo} {ns : String} {key : Expr} {e : TypeId}
    (hns : IsNamespace ns) (hkey : Lowers K Γ key) (hkind : Γ.IsKey key.type)
    (he : Γ.types.isStateValue e = true) (ht : Γ.types.resultElem? i.type = some e) :
    Lowers K Γ (.stateGet i ns key) := by
  intro b h hext
  refine (hkey b h hext).bind fun k b₁ h₁ ⟨hk, hkeeps⟩ => ?_
  have hext₁ := hext.trans h₁.types
  refine ensures_get ?_
  rw [hext₁.resultElem? ht, Option.getD_some]
  have hread := InstType.stateRead hns (key_of_typed (hk.operand K) hkind hext₁)
      (hext₁.isStateValue he) (hext₁.resultElem? ht)
  exact (ensures_emit h₁.typed hread (.inl rfl) _ _).imp fun r b₂ _ ⟨hr, henv, _⟩ =>
    ⟨hr, hkeeps.trans (.of_env henv)⟩

theorem lowers_statePut {i : Hir.ExprInfo} {ns : String} {key value : Expr} (hns : IsNamespace ns)
    (hkey : Lowers K Γ key) (hkind : Γ.IsKey key.type) (hvalue : Lowers K Γ value)
    (hstored : Γ.types.isStateValue value.type = true) (ht : Γ.types.isUnit i.type = true) :
    Lowers K Γ (.statePut i ns key value) := by
  intro b h hext
  refine (hkey b h hext).bind fun k b₁ h₁ ⟨hk, hkeeps₁⟩ => ?_
  have hext₁ := hext.trans h₁.types
  refine (hvalue b₁ h₁.typed hext₁).bind fun v b₂ h₂ ⟨hv, hkeeps₂⟩ => ?_
  have hext₂ := hext₁.trans h₂.types
  have hunit := hext₂.isUnit ht
  have hwrite := InstType.stateWrite hns (key_of_typed (h₂.operand (hk.operand K)) hkind hext₂)
    ⟨value.type, hv.operand K, hext₂.isStateValue hstored⟩ hunit
  exact (ensures_emit h₂.typed hwrite (.inr ⟨rfl, hunit⟩) _ _).imp fun r b₃ _ ⟨hr, henv, _⟩ =>
    ⟨hr, (hkeeps₁.trans hkeeps₂).trans (.of_env henv)⟩

theorem lowers_emit (hΓ : K.Reads Γ) {i : Hir.ExprInfo} {topic : String} {args : List Expr}
    (hargs : ∀ a ∈ args, a.Typed Γ) (hlowers : ∀ a ∈ args, Lowers K Γ a)
    (hstored : ∀ a ∈ args, Γ.types.isStateValue a.type = true) (ht : Γ.types.isUnit i.type = true) :
    Lowers K Γ (.emit i topic args) := by
  intro b h hext
  refine (ensures_lowerOwned hΓ h hext hargs hlowers).bind fun (vs, _) b₁ h₁ ⟨hvs, hkeeps⟩ => ?_
  have hext₁ := hext.trans h₁.types
  have hunit := hext₁.isUnit ht
  have hall : ∀ v ∈ vs, (b₁.context K).Stored v := by
    intro v hv
    obtain ⟨k, hk, rfl⟩ := List.mem_iff_getElem.mp hv
    have hk' : k < (args.map (·.type)).length := hvs.length_eq ▸ hk
    have hk'' : k < args.length := by simpa using hk'
    refine ⟨_, hvs.get hk hk', ?_⟩
    simp only [List.get_eq_getElem, List.getElem_map]
    exact hext₁.isStateValue (hstored _ (List.getElem_mem hk''))
  exact (ensures_emit h₁.typed (.emit hall hunit) (.inr ⟨rfl, hunit⟩) _ _).imp
    fun r b₂ _ ⟨hr, henv, _⟩ => ⟨hr, hkeeps.trans (.of_env henv)⟩

/-- The code of a result that is made of a value. -/
theorem lowers_makeResult {i : Hir.ExprInfo} {e a : Expr} {isOk : Bool}
    (hcode : lowerExpr K.functions K.symbols e = do
      let v ← lowerExpr K.functions K.symbols a
      emit (.makeResult isOk v) (some i.type) .pure i.span)
    (htype : e.type = i.type) (ha : Lowers K Γ a)
    (hd : ∀ b r, Γ.types.Extends (Builder.types b) → b.Yields r a.type →
      InstType (b.context K) (.makeResult isOk r) i.type) : Lowers K Γ e := by
  intro b h hext
  rw [hcode, htype]
  refine (ha b h hext).bind fun v b₁ h₁ ⟨hv, hkeeps⟩ => ?_
  exact (ensures_emit h₁.typed (hd b₁ v (hext.trans h₁.types) hv) (.inl rfl) _ _).imp
    fun r b₂ _ ⟨hr, henv, _⟩ => ⟨hr, hkeeps.trans (.of_env henv)⟩

/-- The code of a typed expression is typed. -/
theorem lowers_of_typed (hΓ : K.Reads Γ) {e : Expr} (he : e.Typed Γ) : Lowers K Γ e := by
  induction he with
  | int ht => exact lowers_const rfl fun b hext => .constInt (hext.isInteger ht)
  | bool ht => exact lowers_const rfl fun b hext => .constBool (hext.isBool ht)
  | bytes ht => exact lowers_const rfl fun b hext => .constBytes (hext.isBytes ht)
  | unit _ => exact fun b h _ => ensures_pure h ⟨nofun, .of_env rfl⟩
  | «local» hs ht => exact lowers_local hΓ hs ht
  | @neg i mode a ha hint ht ih =>
    refine lowers_operand (.unary .neg mode) rfl ih fun b src hext hsrc => ?_
    exact .neg hsrc (hext.isInteger hint) (ofMode_of_typed ht hext)
  | not ha hbool ht ih =>
    refine lowers_operand (.unary .not .wrapping) rfl ih fun b src hext hsrc => ?_
    rw [← ht] at hsrc hbool
    exact .not hsrc (hext.isBool hbool)
  | bitNot ha hint ht ih =>
    refine lowers_operand (.unary .bitNot .wrapping) rfl ih fun b src hext hsrc => ?_
    rw [← ht] at hsrc hint
    exact .bitNot hsrc (hext.isInteger hint)
  | compare hop ha hb hsame hopnd ht iha ihb =>
    refine lowers_binary iha ihb fun b left right hext hleft hright => ?_
    refine .compare hop hleft (hsame ▸ hright) ?_ rfl (hext.isBool ht)
    exact hopnd.imp hext.isInteger fun hbool => hext.isBool hbool.2
  | arith hop ha hb hsame hint hmode ht iha ihb =>
    refine lowers_binary iha ihb fun b left right hext hleft hright => ?_
    exact .arith hop hleft (hsame ▸ hright) (hext.isInteger hint) hmode (ofMode_of_typed ht hext)
  | logical ha hb hsame hbool ht iha ihb => exact lowers_logical iha ihb (ht ▸ hbool)
  | @cast i mode a ha hint ht ih =>
    refine lowers_operand (.cast mode i.type) rfl ih fun b src hext hsrc => ?_
    exact .cast hsrc (hext.isInteger hint) (hext.isInteger ht)
  | call hcallee hargs htypes hplaces ih => exact lowers_call hΓ hcallee hargs ih htypes hplaces
  | @field i name index base decl hbase hdecl ht ih =>
    refine lowers_operand (.extract · index) rfl ih fun b src hext hsrc => ?_
    exact .extract hsrc (hext.structDecl? hdecl) ht
  | struct hfields hdecl htypes ih =>
    intro b h hext
    refine (ensures_lowerOwned hΓ h hext hfields ih).bind fun (vs, _) b₁ h₁ ⟨hvs, hkeeps⟩ => ?_
    rw [htypes] at hvs
    have hmake := InstType.makeStruct ((hext.trans h₁.types).structDecl? hdecl) hvs
    exact (ensures_emit h₁.typed hmake (.inl rfl) _ _).imp fun r b₂ _ ⟨hr, henv, _⟩ =>
      ⟨hr, hkeeps.trans (.of_env henv)⟩
  | select hc hcond ha hb hsame ht ihc iha ihb => exact lowers_select ihc iha ihb
  | ok ha ht ih =>
    refine lowers_makeResult rfl rfl ih fun b r hext hr => ?_
    exact .ok (hext.resultElem? ht) fun w hw => .inr (hr w hw)
  | err ha hcode ht ih =>
    refine lowers_makeResult rfl rfl ih fun b r hext hr => ?_
    rw [hcode] at hr
    exact .err (hext.resultElem? ht) fun w hw => .inr (hr w hw)
  | isOk ha he ht ih =>
    refine lowers_operand .resultIsOk rfl ih fun b src hext hsrc => ?_
    exact .resultIsOk hsrc (hext.resultElem? he) (hext.isBool ht)
  | unwrap ha ht ih =>
    refine lowers_operand .resultValue rfl ih fun b src hext hsrc => ?_
    exact .resultValue hsrc (hext.resultElem? ht)
  | code ha he ht ih =>
    refine lowers_operand .resultCode rfl ih fun b src hext hsrc => ?_
    exact .resultCode hsrc (hext.resultElem? he) ht
  | length ha hbytes ht ih =>
    refine lowers_operand .bytesLength rfl ih fun b src hext hsrc => ?_
    exact .bytesLength hsrc (hext.isBytes hbytes) (hext.isBuiltin ht)
  | stateGet hns hkey hkind he ht ih => exact lowers_stateGet hns ih hkind he ht
  | statePut hns hkey hkind hvalue hstored ht ihk ihv =>
    exact lowers_statePut hns ihk hkind ihv hstored ht
  | @stateHas i ns key hns hkey hkind ht ih =>
    refine lowers_operand (.stateHas ns) rfl ih fun b src hext hsrc => ?_
    exact .stateHas hns (key_of_typed hsrc hkind hext) (hext.isBool ht)
  | @context i query ht =>
    refine lowers_const rfl fun b hext => .context ?_
    have ht' := hext.isBuiltin ht
    cases query with
    | caller | self => exact .inl ht'
    | blockHeight | timestamp | callValue => exact .inr ht'
  | digest ha hbytes ht ih =>
    refine lowers_operand .digest rfl ih fun b src hext hsrc => ?_
    exact .digest hsrc (hext.isBytes hbytes) (hext.isBytes ht)
  | emit hargs hstored ht ih => exact lowers_emit hΓ hargs ih hstored ht

end ContractCompiler.Ssa
