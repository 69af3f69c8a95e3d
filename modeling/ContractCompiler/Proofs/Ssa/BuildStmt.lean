import ContractCompiler.Proofs.Ssa.BuildExpr

/-!
# The code of statements is typed

A loop gives its header and its exit parameters for bindings that have values before it. They still
have values after the condition, so that the parameters get their types.

- `ensures_assign`: assigning a value of the right type;
- `LowersStmt`: the code of a statement is typed;
- `lowersStmt_of_typed`: that of every typed statement is.
-/

namespace ContractCompiler.Ssa

open Hir (Expr Stmt SymbolId PassMode)
open Build Builder

variable {K : BuildContext} {Γ : Hir.TypeContext} {b : Builder}

/-! ## Assignments -/

/-- A copy of a struct with one field replaced. -/
theorem instType_insert (hΓ : K.Reads Γ) {s : Hir.Symbol} {sym : SymbolId} {index : Nat}
    {t : TypeId} (hs : Γ.symbols[sym]? = some s) (ht : Γ.Assigned s (some index) t)
    (hext : Γ.types.Extends b.types) {base value : Option ValueId}
    (hbase : b.Yields base (bindingType K.symbols sym)) (hvalue : b.Yields value t) :
    InstType (b.context K) (.insert (base.getD invalidId) index (value.getD invalidId))
      (bindingType K.symbols sym) := by
  obtain ⟨decl, name, hdecl, hfield⟩ := ht
  rw [← bindingType_of_symbol hΓ hs] at hdecl
  exact .insert (hbase.operand K) (hext.structDecl? hdecl) hfield (hvalue.operand K)

theorem ensures_assign (hΓ : K.Reads Γ) (h : b.Typed K) (hext : Γ.types.Extends b.types)
    (span : Span) {sym : SymbolId} {s : Hir.Symbol} {field : Option Nat} {t : TypeId}
    (hs : Γ.symbols[sym]? = some s) (ht : Γ.Assigned s field t) {value : Option ValueId}
    (hvalue : b.Yields value t) :
    (assign K.symbols span sym field value).Ensures K b fun _ _ => True := by
  have htype := bindingType_of_symbol hΓ hs
  unfold assign
  refine ensures_valueOf ?_
  extract_lets type ref store
  split
  · rename_i href
    have href : (b.context K).Reference ref type := Binds.reference (h.env sym) href
    have hstore (b₁ : Builder) (h₁ : b.Advances K b₁) (stored : Option ValueId)
        (hstored : b₁.Yields stored type) : (store stored).Ensures K b₁ fun _ _ => True := by
      have hunit := h₁.typed.types.standard.isBuiltin .unit
      have hdata := InstType.refStore (h₁.reference href) (hstored.operand K) hunit
      exact (ensures_emit h₁.typed hdata (.inr ⟨rfl, hunit⟩) _ _).bind fun _ b₂ h₂ _ =>
        ensures_pure h₂.typed trivial
    split
    · refine hstore b h.refl value ?_
      rw [show type = t from htype.trans ht.symm]
      exact hvalue
    · refine (ensures_emit h (.refLoad href (h.bindings sym)) (.inl rfl) _ span).bind
        fun loaded b₁ h₁ ⟨hloaded, _, _⟩ => ?_
      have hinsert := instType_insert hΓ hs ht (hext.trans h₁.types) hloaded (h₁.yields hvalue)
      refine (ensures_emit h₁.typed hinsert (.inl rfl) _ span).bind
        fun stored b₂ h₂ ⟨hstored, _, _⟩ => ?_
      exact hstore b₂ (h₁.trans h₂) stored hstored
  · rename_i href
    have href : isReference K.symbols sym = false := Bool.eq_false_iff.mpr href
    split
    · refine ensures_bind h (Yields.binds ?_ href)
      rw [show bindingType K.symbols sym = t from htype.trans ht.symm]
      exact hvalue
    · have hinsert := instType_insert hΓ hs ht hext (Binds.yields (h.env sym) href) hvalue
      refine (ensures_emit h hinsert (.inl rfl) _ span).bind fun v b₁ h₁ ⟨hv, _, _⟩ => ?_
      exact ensures_bind h₁.typed (hv.binds href)

/-! ## Jumps and joins -/

theorem ensures_jumpWith (h : b.Typed K) (target : BlockId) (syms : List SymbolId) :
    (jumpWith target syms).Ensures K b fun _ b' => b'.env = b.env := by
  have hjump := ensures_terminate h (t := .jump target
    (syms.map fun s => (b.env.getD s none).getD invalidId)) nofun
  exact hjump

theorem ensures_isOpen {α : Type} {k : Bool → Build α} {Q : α → Builder → Prop}
    (h : (k b.current.isSome).Ensures K b Q) : (isOpen >>= k).Ensures K b Q := h

/-- An edge out of a block of the function, with bindings that are typed. -/
def EdgeTyped (K : BuildContext) (b : Builder) (e : Edge) : Prop :=
  K.first ≤ e.source ∧ b.EnvTyped K e.env

theorem ensures_openEdge {α : Type} {k : List Edge → Build α} {Q : α → Builder → Prop}
    (h : b.Typed K)
    (hk : ∀ edges, (∀ e ∈ edges, EdgeTyped K b e) → (k edges).Ensures K b Q) :
    (openEdge >>= k).Ensures K b Q := by
  refine hk (b.current.toList.map fun source => { source, env := b.env }) fun e he => ?_
  obtain ⟨source, hsource, rfl⟩ := List.mem_map.mp he
  exact ⟨h.current source (Option.mem_toList.mp hsource), h.env⟩

theorem ensures_closeAll (join : BlockId) (edges : List Edge) {b : Builder} (h : b.Typed K)
    (hedges : ∀ e ∈ edges, K.first ≤ e.source) :
    (closeAll join edges).Ensures K b fun _ _ => True := by
  induction edges generalizing b with
  | nil => exact ensures_pure h trivial
  | cons e edges ih =>
    unfold closeAll
    refine (ensures_moveTo h fun k hk => ?_).bind fun _ b₁ h₁ _ => ?_
    · obtain rfl := Option.some.inj hk
      exact hedges e List.mem_cons_self
    · refine (ensures_terminate h₁.typed (t := .jump join []) nofun).bind fun _ b₂ h₂ _ => ?_
      exact ih h₂.typed fun e he => hedges e (List.mem_cons_of_mem _ he)

/-! ## Loops -/

theorem ensures_liveOf (syms : List SymbolId) {b : Builder} (h : b.Typed K) :
    (liveOf syms).Ensures K b fun live b' => (∀ s ∈ live, s ∈ syms) ∧ b'.env = b.env := by
  induction syms with
  | nil => exact ensures_pure h ⟨fun _ hs => hs, rfl⟩
  | cons s syms ih =>
    obtain ⟨hadv, hlive, henv⟩ := ih
    have hrun : ((liveOf (s :: syms)).run b).2 = ((liveOf syms).run b).2 := rfl
    refine ⟨hrun ▸ hadv, fun s' hs' => ?_, hrun ▸ henv⟩
    have hmem : s' ∈ s :: ((liveOf syms).run b).1 := by
      have hlist : ((liveOf (s :: syms)).run b).1 =
          if ((isLiveAfter s).run b).1 then s :: ((liveOf syms).run b).1
            else ((liveOf syms).run b).1 := rfl
      rw [hlist] at hs'
      split at hs'
      · exact hs'
      · exact List.mem_cons_of_mem _ hs'
    rcases List.mem_cons.mp hmem with rfl | hmem
    · exact List.mem_cons_self
    · exact List.mem_cons_of_mem _ (hlive s' hmem)

/-- Parameters for bindings that have values have the types of the values. -/
theorem ensures_joinParamsFor {block : BlockId} (hblock : K.sealed ≤ block) (syms : List SymbolId)
    {b : Builder} (h : b.Typed K) (hsyms : ∀ s ∈ syms, (b.env.getD s none).isSome = true) :
    (joinParamsFor block syms).Ensures K b fun ps b' =>
      (∀ p ∈ ps, b'.Binds K p.1 p.2) ∧ b'.env = b.env := by
  induction syms generalizing b with
  | nil => exact ensures_pure h ⟨nofun, rfl⟩
  | cons s syms ih =>
    unfold joinParamsFor
    refine ensures_valueOf ?_
    obtain ⟨v, hv⟩ := Option.isSome_iff_exists.mp (hsyms s List.mem_cons_self)
    obtain ⟨t, ht, hsym⟩ := h.env s v hv
    rw [hv, Option.getD_some]
    refine ensures_typeOf ht ?_
    refine (ensures_addJoinParam h hblock t).bind fun p b₁ h₁ ⟨hp, henv₁⟩ => ?_
    refine (ih h₁.typed fun s' hs' => ?_).bind fun ps b₂ h₂ ⟨hps, henv₂⟩ => ?_
    · rw [henv₁]
      exact hsyms s' (List.mem_cons_of_mem _ hs')
    · refine ensures_pure h₂.typed ⟨fun q hq => ?_, henv₂.trans henv₁⟩
      rcases List.mem_cons.mp hq with rfl | hq
      · exact h₂.binds (Binds.param (h₁.binds ⟨t, ht, hsym⟩) (h₁.values v t ht) hp)
      · exact hps q hq

theorem ensures_bindParams (ps : List (SymbolId × ValueId)) {b : Builder} (h : b.Typed K)
    (hps : ∀ p ∈ ps, b.Binds K p.1 p.2) : (bindParams ps).Ensures K b fun _ b' => b.Keeps b' := by
  induction ps generalizing b with
  | nil => exact ensures_pure h (.of_env rfl)
  | cons p ps ih =>
    obtain ⟨s, v⟩ := p
    unfold bindParams
    have hbind : (Build.bind s (some v)).Ensures K b fun _ b' => b.Keeps b' := by
      refine ⟨(ensures_bind h fun w hw => ?_).1, keeps_bind b s rfl⟩
      obtain rfl := Option.some.inj hw
      exact hps _ List.mem_cons_self
    refine hbind.bind fun _ b₁ h₁ hkeeps₁ => ?_
    refine (ih h₁.typed fun p hp => h₁.binds (hps p (List.mem_cons_of_mem _ hp))).imp ?_
    exact fun _ b₂ _ hkeeps₂ => hkeeps₁.trans hkeeps₂

theorem envTyped_forget (syms : List SymbolId) {env : Bindings} (henv : b.EnvTyped K env) :
    b.EnvTyped K (syms.foldl (fun env s => env.setIfInBounds s none) env) := by
  induction syms generalizing env with
  | nil => exact henv
  | cons s syms ih => exact ih (envTyped_set henv nofun)

theorem isSome_of_carriedBy {symbols : Array Hir.Symbol} {env : Bindings} {rebound : List SymbolId}
    {s : SymbolId} (h : s ∈ carriedBy symbols env rebound) : (env.getD s none).isSome = true := by
  have := (List.mem_filter.mp h).2
  rw [Bool.and_eq_true] at this
  exact this.1

/-! ## Statements -/

/-- The code of a statement is typed, wherever at least the types of a program are known. -/
def LowersStmt (K : BuildContext) (Γ : Hir.TypeContext) (s : Stmt) : Prop :=
  ∀ b, b.Typed K → Γ.types.Extends b.types →
    (lowerStmt K.functions K.symbols s).Ensures K b fun _ _ => True

/-- What is noted about the statements around leaves everything typed. -/
theorem advances_withNotes (h : b.Typed K) (loops : List LoopFrame) (pending : List (List Stmt)) :
    b.Advances K { b with loops, pending } :=
  ⟨{ h with }, .refl _, fun _ _ hv => hv, fun _ _ => rfl, fun _ _ _ hv => hv, Nat.le_refl _⟩

theorem ensures_lowerStmts (ss : List Stmt) (hss : ∀ s ∈ ss, LowersStmt K Γ s) {b : Builder}
    (h : b.Typed K) (hext : Γ.types.Extends b.types) :
    (lowerStmts K.functions K.symbols ss).Ensures K b fun _ _ => True := by
  induction ss generalizing b with
  | nil =>
    unfold lowerStmts
    exact ensures_pure h trivial
  | cons s ss ih =>
    unfold lowerStmts
    refine ensures_isOpen ?_
    split
    · have hpending : (setPending ss).Ensures K b fun _ _ => True :=
        ⟨advances_withNotes h b.loops (ss :: b.pending.tail), trivial⟩
      refine hpending.bind fun _ b₁ h₁ _ => ?_
      have hext₁ := hext.trans h₁.types
      refine (hss s List.mem_cons_self b₁ h₁.typed hext₁).bind fun _ b₂ h₂ _ => ?_
      exact ih (fun s hs => hss s (List.mem_cons_of_mem _ hs)) h₂.typed (hext₁.trans h₂.types)
    · exact ensures_pure h trivial

theorem ensures_lowerBlock {ss : List Stmt} (hss : ∀ s ∈ ss, LowersStmt K Γ s) (h : b.Typed K)
    (hext : Γ.types.Extends b.types) :
    (lowerBlock K.functions K.symbols ss).Ensures K b fun _ _ => True := by
  unfold lowerBlock
  have hopen : Ensures (modify fun b => { b with pending := [] :: b.pending }) K b
      fun _ _ => True :=
    ⟨advances_withNotes h b.loops ([] :: b.pending), trivial⟩
  refine hopen.bind fun _ b₁ h₁ _ => ?_
  refine (ensures_lowerStmts ss hss h₁.typed (hext.trans h₁.types)).bind fun _ b₂ h₂ _ => ?_
  exact ⟨advances_withNotes h₂.typed b₂.loops b₂.pending.tail, trivial⟩

theorem lowersStmt_ite {span : Span} {c : Expr} {thenBody elseBody : List Stmt} {hasElse : Bool}
    (hc : Lowers K Γ c) (hthen : ∀ s ∈ thenBody, LowersStmt K Γ s)
    (helse : ∀ s ∈ elseBody, LowersStmt K Γ s) :
    LowersStmt K Γ (.ite span c thenBody hasElse elseBody) := by
  intro b h hext
  unfold lowerStmt
  refine (hc b h hext).bind fun cond b₁ h₁ _ => ?_
  refine (ensures_newBlock h₁.typed).bind fun thenBlock b₂ h₂ ⟨hthenBlock, _⟩ => ?_
  refine (ensures_newBlock h₂.typed).bind fun otherBlock b₃ h₃ ⟨hotherBlock, _⟩ => ?_
  refine ensures_openEdge h₃.typed fun skip hskip => ?_
  refine ensures_get ?_
  extract_lets env
  refine (ensures_terminate h₃.typed ?_).bind fun _ b₄ h₄ _ => ?_
  · exact nofun
  refine (ensures_moveTo h₄.typed ?_).bind fun _ b₅ h₅ _ => ?_
  · intro k hk
    obtain rfl := Option.some.inj hk
    exact h.first_le.trans hthenBlock
  have h₃₅ := h₄.trans h₅
  have hext₅ := (((hext.trans h₁.types).trans h₂.types).trans h₃.types).trans h₃₅.types
  refine (ensures_lowerBlock hthen h₅.typed hext₅).bind fun _ b₆ h₆ _ => ?_
  have h₃₆ := h₃₅.trans h₆
  refine ensures_openEdge h₆.typed fun fromThen hfromThen => ?_
  extract_lets finish
  have hfinish (b₇ : Builder) (h₇ : b₆.Advances K b₇) (fromElse : List Edge)
      (hfromElse : ∀ e ∈ fromElse, EdgeTyped K b₇ e) :
      (finish fromElse).Ensures K b₇ fun _ _ => True := by
    unfold finish
    extract_lets ends edges enter
    have hends : ∀ e ∈ ends, EdgeTyped K b₇ e := by
      intro e he
      rcases List.mem_append.mp he with he | he
      · exact ⟨(hfromThen e he).1, h₇.envTyped (hfromThen e he).2⟩
      · exact hfromElse e he
    have hedges : ∀ e ∈ edges, EdgeTyped K b₇ e := by
      intro e he
      unfold edges at he
      split at he
      · exact hends e he
      · rcases List.mem_append.mp he with he | he
        · exact ⟨(hskip e he).1, (h₃₆.trans h₇).envTyped (hskip e he).2⟩
        · exact hends e he
    have henter (b₈ : Builder) (h₈ : b₇.Advances K b₈) (join : BlockId) (hjoin : K.sealed ≤ join) :
        (enter join).Ensures K b₈ fun _ _ => True := by
      refine (ensures_closeAll join ends h₈.typed fun e he => (hends e he).1).bind
        fun _ b₉ h₉ _ => ?_
      refine (ensures_enterJoin h₉.typed hjoin (fun e he => ?_) true).imp fun _ _ _ _ => trivial
      exact (h₈.trans h₉).envTyped (hedges e he).2
    split
    · exact (ensures_moveTo h₇.typed (k := none) nofun).imp fun _ _ _ _ => trivial
    · split
      · exact (ensures_newBlock h₇.typed).bind fun join b₈ h₈ ⟨hjoin, _⟩ => henter b₈ h₈ join hjoin
      · exact henter b₇ h₇.typed.refl otherBlock hotherBlock
  split
  · refine (ensures_setEnv h₆.typed (h₃₆.envTyped h₃.typed.env)).bind fun _ b₇ h₇ _ => ?_
    refine (ensures_moveTo h₇.typed ?_).bind fun _ b₈ h₈ _ => ?_
    · intro k hk
      obtain rfl := Option.some.inj hk
      exact h.first_le.trans hotherBlock
    have h₆₈ := h₇.trans h₈
    refine (ensures_lowerBlock helse h₈.typed ((hext₅.trans h₆.types).trans h₆₈.types)).bind
      fun _ b₉ h₉ _ => ?_
    exact ensures_openEdge h₉.typed fun fromElse hfromElse => hfinish b₉ (h₆₈.trans h₉)
      fromElse hfromElse
  · exact hfinish b₆ h₆.typed.refl [] nofun

theorem lowersStmt_loop {span : Span} {c : Expr} {body : List Stmt} (hc : Lowers K Γ c)
    (hbody : ∀ s ∈ body, LowersStmt K Γ s) : LowersStmt K Γ (.loop span c body) := by
  intro b h hext
  unfold lowerStmt
  extract_lets rebound reads
  refine ensures_get ?_
  extract_lets carried
  have hcarried : ∀ s ∈ carried, (b.env.getD s none).isSome = true :=
    fun s hs => isSome_of_carriedBy hs
  -- the header, with a parameter for each binding that is carried around
  refine (ensures_liveOf carried h).bind fun leaving b₁ h₁ ⟨hleaving, henv₁⟩ => ?_
  refine (ensures_newBlock h₁.typed).bind fun header b₂ h₂ ⟨hheader, henv₂⟩ => ?_
  refine (ensures_jumpWith h₂.typed header carried).bind fun _ b₃ h₃ henv₃ => ?_
  refine (ensures_moveTo h₃.typed ?_).bind fun _ b₄ h₄ henv₄ => ?_
  · intro k hk
    obtain rfl := Option.some.inj hk
    exact h.first_le.trans hheader
  have henv : b₄.env = b.env := ((henv₄.trans henv₃).trans henv₂).trans henv₁
  refine (ensures_joinParamsFor hheader carried h₄.typed ?_).bind fun ps b₅ h₅ ⟨hps, henv₅⟩ => ?_
  · rw [henv]
    exact hcarried
  refine (ensures_bindParams ps h₅.typed hps).bind fun _ b₆ h₆ hkeeps₆ => ?_
  have hext₆ := (((((hext.trans h₁.types).trans h₂.types).trans h₃.types).trans h₄.types).trans
    h₅.types).trans h₆.types
  refine (hc b₆ h₆.typed hext₆).bind fun cond b₇ h₇ ⟨_, hkeeps₇⟩ => ?_
  have hkeeps : b.Keeps b₇ := ((Keeps.of_env (henv₅.trans henv)).trans hkeeps₆).trans hkeeps₇
  extract_lets cond
  -- the body and the exit
  refine (ensures_newBlock h₇.typed).bind fun bodyBlock b₈ h₈ ⟨hbodyBlock, henv₈⟩ => ?_
  refine (ensures_newBlock h₈.typed).bind fun exit b₉ h₉ ⟨hexit, henv₉⟩ => ?_
  refine (ensures_joinParamsFor hexit leaving h₉.typed ?_).bind
    fun exitParams b₁₀ h₁₀ ⟨hexitParams, _⟩ => ?_
  · intro s hs
    rw [henv₉, henv₈]
    exact hkeeps.isSome s (hcarried s (hleaving s hs))
  refine ensures_get ?_
  refine (ensures_terminate h₁₀.typed ?_).bind fun _ b₁₁ h₁₁ _ => ?_
  · exact nofun
  refine ensures_get ?_
  extract_lets env leave
  have hloops : Ensures (modify fun b =>
      { b with loops := { header, exit, carried, leaving, reads } :: b.loops }) K b₁₁
      fun _ _ => True :=
    ⟨advances_withNotes h₁₁.typed _ b₁₁.pending, trivial⟩
  refine hloops.bind fun _ b₁₂ h₁₂ _ => ?_
  refine (ensures_moveTo h₁₂.typed ?_).bind fun _ b₁₃ h₁₃ _ => ?_
  · intro k hk
    obtain rfl := Option.some.inj hk
    exact h.first_le.trans hbodyBlock
  have hext₁₃ := ((((((hext₆.trans h₇.types).trans h₈.types).trans h₉.types).trans h₁₀.types).trans
    h₁₁.types).trans h₁₂.types).trans h₁₃.types
  refine (ensures_lowerBlock hbody h₁₃.typed hext₁₃).bind fun _ b₁₄ h₁₄ _ => ?_
  have h₁₁₁₄ := (h₁₂.trans h₁₃).trans h₁₄
  refine ensures_isOpen ?_
  -- both ways to end the body leave the loop alike
  have hleave (b₁₅ : Builder) (h₁₅ : b₁₄.Advances K b₁₅) (u : Unit) :
      (leave u).Ensures K b₁₅ fun _ _ => True := by
    have hpop : Ensures (modify fun b => { b with loops := b.loops.tail }) K b₁₅ fun _ _ => True :=
      ⟨advances_withNotes h₁₅.typed _ b₁₅.pending, trivial⟩
    refine hpop.bind fun _ b₁₆ h₁₆ _ => ?_
    have h₁₁₁₆ := (h₁₁₁₄.trans h₁₅).trans h₁₆
    have hforget := envTyped_forget carried (h₁₁₁₆.envTyped h₁₁.typed.env)
    refine (ensures_setEnv h₁₆.typed hforget).bind fun _ b₁₇ h₁₇ _ => ?_
    refine (ensures_bindParams exitParams h₁₇.typed fun p hp => ?_).bind fun _ b₁₈ h₁₈ _ => ?_
    · exact ((h₁₁.trans h₁₁₁₆).trans h₁₇).binds (hexitParams p hp)
    refine (ensures_moveTo h₁₈.typed fun k hk => ?_).imp fun _ _ _ _ => trivial
    obtain rfl := Option.some.inj hk
    exact h.first_le.trans hexit
  split
  · refine (ensures_jumpWith h₁₄.typed header carried).bind fun u b₁₅ h₁₅ _ => ?_
    exact hleave b₁₅ h₁₅ u
  · exact hleave b₁₄ h₁₄.typed.refl ()

/-- The code of a typed statement is typed. -/
theorem lowersStmt_of_typed (hΓ : K.Reads Γ) {inLoop : Bool} {s : Stmt}
    (hs : s.Typed Γ K.ret inLoop) :
    LowersStmt K Γ s := by
  induction hs with
  | expr he =>
    intro b h hext
    unfold lowerStmt
    exact (lowers_of_typed hΓ he b h hext).bind fun _ b₁ h₁ _ => ensures_pure h₁.typed trivial
  | bind hs hpass he ht =>
    intro b h hext
    unfold lowerStmt
    refine (lowers_of_typed hΓ he b h hext).bind ?_
    rintro v b₁ h₁ ⟨hv, -⟩
    refine ensures_bind h₁.typed (Yields.binds ?_ ?_)
    · rw [bindingType_of_symbol hΓ hs, ← ht]
      exact hv
    · unfold isReference
      rw [← hΓ.symbols, hs, Option.any_some, hpass]
      rfl
  | assign hs he ht =>
    intro b h hext
    unfold lowerStmt
    refine (lowers_of_typed hΓ he b h hext).bind ?_
    rintro v b₁ h₁ ⟨hv, -⟩
    exact ensures_assign hΓ h₁.typed (hext.trans h₁.types) _ hs ht hv
  | ite hc hcond _ _ _ ihthen ihelse => exact lowersStmt_ite (lowers_of_typed hΓ hc) ihthen ihelse
  | loop hc hcond _ ih => exact lowersStmt_loop (lowers_of_typed hΓ hc) ih
  | retNone hunit =>
    intro b h hext
    unfold lowerStmt
    refine (ensures_terminate h fun v hv => ?_).imp fun _ _ _ _ => trivial
    cases hv
  | ret he ht =>
    intro b h hext
    unfold lowerStmt
    refine (lowers_of_typed hΓ he b h hext).bind ?_
    rintro v b₁ h₁ ⟨hv, -⟩
    refine (ensures_terminate h₁.typed fun w hw => ?_).imp fun _ _ _ _ => trivial
    rw [ht] at hv
    exact .inr (hv w (Terminator.ret.inj hw))
  | stop =>
    intro b h hext
    unfold lowerStmt
    refine ensures_get ?_
    split
    · exact ensures_pure h trivial
    · exact (ensures_jumpWith h _ _).imp fun _ _ _ _ => trivial
  | next =>
    intro b h hext
    unfold lowerStmt
    refine ensures_get ?_
    split
    · exact ensures_pure h trivial
    · exact (ensures_jumpWith h _ _).imp fun _ _ _ _ => trivial
  | require hc hcond =>
    intro b h hext
    unfold lowerStmt
    refine (lowers_of_typed hΓ hc b h hext).bind fun cond b₁ h₁ _ => ?_
    refine (ensures_newBlock h₁.typed).bind ?_
    rintro holds b₂ h₂ ⟨hholds, -⟩
    refine (ensures_newBlock h₂.typed).bind ?_
    rintro fails b₃ h₃ ⟨hfails, -⟩
    refine (ensures_terminate h₃.typed fun v hv => ?_).bind fun _ b₄ h₄ _ => ?_
    · cases hv
    refine (ensures_moveTo h₄.typed ?_).bind fun _ b₅ h₅ _ => ?_
    · intro k hk
      obtain rfl := Option.some.inj hk
      exact h.first_le.trans hfails
    refine (ensures_terminate h₅.typed fun v hv => ?_).bind fun _ b₆ h₆ _ => ?_
    · cases hv
    refine (ensures_moveTo h₆.typed fun k hk => ?_).imp fun _ _ _ _ => trivial
    obtain rfl := Option.some.inj hk
    exact h.first_le.trans hholds
  | revert =>
    intro b h hext
    unfold lowerStmt
    refine (ensures_terminate h fun v hv => ?_).imp fun _ _ _ _ => trivial
    cases hv
  | panic =>
    intro b h hext
    unfold lowerStmt
    refine (ensures_terminate h fun v hv => ?_).imp fun _ _ _ _ => trivial
    cases hv

end ContractCompiler.Ssa
