import ContractCompiler.Proofs.Hir.Reader.Expr

/-!
# Statements that are read are typed

- `StmtParts.Typed`: readers of parts that yield typed parts only;
- `StmtForm.typed_read`: what the forms yield is typed;
- `typed_readStmt`, `typed_readBlock`: what `readStmt` and `readBlock` yield is typed.
-/

namespace ContractCompiler.Hir

open Read

/-- A statement read in a context is typed. -/
def ReadContext.Types (ctx : ReadContext) (s : ReadState) (stmt : Stmt) : Prop :=
  stmt.Typed (s.context ctx.signature) ctx.ret (ctx.loopDepth != 0)

/-- Readers of the parts of statements that yield typed parts only. -/
structure StmtParts.Typed (parts : StmtParts) : Prop where
  expr : parts.expr.Typed parts.ctx.signature
  block : ∀ depth items s, s.Sound →
    (parts.block { parts.ctx with loopDepth := depth } items).Ensures s fun ss s' =>
      ∀ stmt ∈ ss, ReadContext.Types { parts.ctx with loopDepth := depth } s' stmt

namespace StmtForm

variable {f : StmtForm} {parts : StmtParts} {s : ReadState}

theorem typed_bind (h : s.Sound) (hparts : parts.Typed) :
    (f.bind parts).Ensures s fun stmt s' => parts.ctx.Types s' stmt := by
  unfold bind
  extract_lets mutable
  split
  · rename_i name init _ _
    extract_lets finish
    have hfinish (s₁ : ReadState) (h₁ : s₁.Sound) (declared : Option TypeId) :
        (finish declared).Ensures s₁ fun stmt s' => parts.ctx.Types s' stmt := by
      refine (hparts.expr init declared s₁ h₁).bind fun e s₂ h₂ he => ?_
      extract_lets enter
      have henter (s₃ : ReadState) (h₃ : s₂.Advances s₃) (u : Unit) :
          (enter u).Ensures s₃ fun stmt s' => parts.ctx.Types s' stmt := by
        refine (ensures_types h₃.sound).bind ?_
        rintro _ s₄ h₄ rfl
        split
        · exact ensures_failMalformed h₄.sound
        · rename_i hunit
          have hunit : e.type ≠ Builtin.unit.id := by
            intro heq
            rw [heq] at hunit
            exact hunit (h₄.sound.types.standard.isBuiltin .unit)
          refine (ensures_declare h₄.sound _ fun _ => hunit).bind fun sym s₅ h₅ hsym => ?_
          refine ensures_pure h₅.sound (.bind hsym rfl (he.mono ?_) rfl)
          exact ((h₃.trans h₄).trans h₅).context _
      split
      · exact (ensures_expectType h₂.sound e _ _).bind fun u s₃ h₃ _ => henter s₃ h₃ u
      · exact henter s₂ h₂.sound.refl ()
    split
    · exact (ensures_parseType h _ _).bind fun t s₁ h₁ _ => hfinish s₁ h₁.sound (some t)
    · exact hfinish s h none
  · exact ensures_failMalformed h

theorem ensures_assignedField [Json.Library] (h : s.Sound) (sig : FuncId → Option Signature)
    (symbol : Symbol) :
    (f.assignedField symbol.type).Ensures s fun p s' =>
      (s'.context sig).Assigned symbol p.1 p.2 := by
  unfold assignedField
  split
  · exact ensures_pure h rfl
  · refine (ensures_types h).bind ?_
    rintro _ s₁ h₁ rfl
    split
    · exact ensures_failMalformed h₁.sound
    · rename_i decl hdecl
      split
      · rename_i hfind
        exact ensures_pure h₁.sound ⟨decl, _, hdecl, ExprForm.getElem?_of_find? hfind⟩
      · exact ensures_failWith h₁.sound

theorem typed_assign [Json.Library] (h : s.Sound) (hparts : parts.Typed) (name : String) :
    (f.assign parts name).Ensures s fun stmt s' => parts.ctx.Types s' stmt := by
  unfold assign
  refine (ensures_lookup h name f.span).bind fun sym s₁ h₁ hsym => ?_
  split
  · exact ensures_failMalformed h₁.sound
  · refine (ensures_symbol h₁.sound hsym).bind fun symbol s₂ h₂ hsymbol => ?_
    refine (ensures_assignedField h₂.sound parts.ctx.signature symbol).bind
      fun (field, t) s₃ h₃ hassigned => ?_
    refine (hparts.expr _ _ s₃ h₃.sound).bind fun e s₄ h₄ he => ?_
    refine (ensures_expectType h₄.sound e t f.span).bind fun _ s₅ h₅ ht => ?_
    have hbound := ((h₃.trans h₄).trans h₅).symbols _ _ hsymbol
    refine ensures_pure h₅.sound (.assign hbound (he.mono (h₅.context _)) ?_)
    rw [ht]
    exact ((h₄.trans h₅).context _).assigned hassigned

theorem ensures_condition (h : s.Sound) (hparts : parts.Typed) (v : Json) :
    (f.condition parts v).Ensures s fun c s' =>
      c.Typed (s'.context parts.ctx.signature) ∧ s'.types.isBool c.type = true := by
  unfold condition
  refine (hparts.expr v _ s h).bind fun c s₁ h₁ hc => ?_
  refine (ensures_expectType h₁.sound c _ _).bind fun _ s₂ h₂ ht => ?_
  exact ensures_pure h₂.sound ⟨hc.mono (h₂.context _), ht ▸ h₂.sound.types.standard.isBuiltin .bool⟩

theorem ensures_childBlock (h : s.Sound) (hparts : parts.Typed) (depth : Nat) (key : String) :
    (f.childBlock parts { parts.ctx with loopDepth := depth } key).Ensures s fun ss s' =>
      ∀ stmt ∈ ss, ReadContext.Types { parts.ctx with loopDepth := depth } s' stmt := by
  unfold childBlock
  split
  · exact hparts.block depth _ s h
  · exact ensures_failMalformed h

theorem typed_ite (h : s.Sound) (hparts : parts.Typed) (v : Json) :
    (f.ite parts v).Ensures s fun stmt s' => parts.ctx.Types s' stmt := by
  unfold ite
  refine (ensures_condition h hparts v).bind fun c s₁ h₁ ⟨hc, hcond⟩ => ?_
  refine (ensures_childBlock h₁.sound hparts _ "then").attempt.bind fun thenBody s₂ h₂ hthen => ?_
  extract_lets finish
  have hfinish (s₃ : ReadState) (h₃ : s₂.Advances s₃) (elseBody : Option (List Stmt))
      (helse : ∀ ss, elseBody = some ss → ∀ stmt ∈ ss, parts.ctx.Types s₃ stmt) :
      (finish elseBody).Ensures s₃ fun stmt s' => parts.ctx.Types s' stmt := by
    unfold finish
    split
    · rename_i thenBody
      have hadv := (h₂.trans h₃).context parts.ctx.signature
      refine ensures_pure h₃.sound (.ite (hc.mono hadv) ((h₂.trans h₃).types.isBool hcond) ?_ ?_ ?_)
      · exact fun stmt hstmt => (hthen _ rfl stmt hstmt).mono (h₃.context _)
      · intro stmt hstmt
        cases elseBody with
        | none => cases hstmt
        | some ss => exact helse ss rfl stmt hstmt
      · intro hnone
        cases elseBody with
        | none => rfl
        | some ss => cases hnone
    · exact ensures_failure h₃.sound
  split
  · refine (hparts.block parts.ctx.loopDepth _ s₂ h₂.sound).bind fun ss s₃ h₃ hss => ?_
    refine hfinish s₃ h₃ (some ss) fun ss' heq => ?_
    obtain rfl := Option.some.inj heq
    exact hss
  · exact hfinish s₂ h₂.sound.refl none nofun

theorem typed_loop (h : s.Sound) (hparts : parts.Typed) (v : Json) :
    (f.loop parts v).Ensures s fun stmt s' => parts.ctx.Types s' stmt := by
  unfold loop
  refine (ensures_condition h hparts v).bind fun c s₁ h₁ ⟨hc, hcond⟩ => ?_
  extract_lets inside
  refine (ensures_childBlock h₁.sound hparts _ "body").bind fun body s₂ h₂ hbody => ?_
  exact ensures_pure h₂.sound (.loop (hc.mono (h₂.context _)) (h₂.types.isBool hcond) hbody)

theorem typed_ret (h : s.Sound) (hparts : parts.Typed) (v : Json) :
    (f.ret parts v).Ensures s fun stmt s' => parts.ctx.Types s' stmt := by
  unfold ret
  split
  · refine (ensures_types h).bind ?_
    rintro _ s₁ h₁ rfl
    split
    · exact ensures_pure h₁.sound (.retNone ‹_›)
    · exact ensures_mismatch h₁.sound
  · refine (hparts.expr _ _ s h).bind fun e s₁ h₁ he => ?_
    refine (ensures_expectType h₁.sound e _ _).bind fun _ s₂ h₂ ht => ?_
    exact ensures_pure h₂.sound (.ret (he.mono (h₂.context _)) ht)

theorem typed_jump (h : s.Sound) :
    (f.jump parts).Ensures s fun stmt s' => parts.ctx.Types s' stmt := by
  unfold jump
  split
  · exact ensures_failMalformed h
  · rename_i hdepth
    have hin : (parts.ctx.loopDepth != 0) = true := bne_iff_ne.mpr hdepth
    unfold ReadContext.Types
    rw [hin]
    split
    · exact ensures_pure h .stop
    · exact ensures_pure h .next

theorem typed_require (h : s.Sound) (hparts : parts.Typed) (v : Json) :
    (f.require parts v).Ensures s fun stmt s' => parts.ctx.Types s' stmt := by
  unfold require
  refine (ensures_condition h hparts v).bind fun c s₁ h₁ ⟨hc, hcond⟩ => ?_
  exact ensures_pure h₁.sound (.require hc hcond)

theorem typed_abort (h : s.Sound) (ctx : ReadContext) :
    f.abort.Ensures s fun stmt s' => ctx.Types s' stmt := by
  unfold abort
  split
  · exact ensures_pure h .panic
  · exact ensures_pure h .revert

/-- Every form yields typed statements only. -/
theorem typed_read [Json.Library] (h : s.Sound) (hparts : parts.Typed) :
    (f.read parts).Ensures s fun stmt s' => parts.ctx.Types s' stmt := by
  unfold read
  split
  · exact typed_bind h hparts
  split
  · exact typed_assign h hparts _
  split
  · exact typed_ite h hparts _
  split
  · exact typed_loop h hparts _
  split
  · exact typed_ret h hparts _
  split
  · exact typed_jump h
  split
  · exact typed_require h hparts _
  split
  · exact typed_abort h _
  · refine (hparts.expr _ _ s h).bind fun e s₁ h₁ he => ?_
    exact ensures_pure h₁.sound (.expr he)

end StmtForm

/-- Statements that are read one after the other are typed if each of them is. -/
theorem typed_readStmts {ctx : ReadContext} {read : Json → Read Stmt}
    (hread : ∀ v s, s.Sound → (read v).Ensures s fun stmt s' => ctx.Types s' stmt)
    (items : List Json) {s : ReadState} (h : s.Sound) :
    (readStmts read items).Ensures s fun ss s' => ∀ stmt ∈ ss, ctx.Types s' stmt := by
  induction items generalizing s with
  | nil => exact ensures_pure h nofun
  | cons v vs ih =>
    unfold readStmts
    refine (hread v s h).attempt.bind fun stmt? s₁ h₁ hstmt => ?_
    have hcount : Ensures (modify fun state =>
        { state with stmtCount := state.stmtCount + stmt?.toList.length }) s₁ fun _ _ => True :=
      ⟨⟨⟨h₁.sound.types, h₁.sound.scope, h₁.sound.symbols⟩, .refl _, fun _ _ hi => hi,
        fun hf => hf⟩,
        fun _ _ => trivial⟩
    refine hcount.bind fun _ s₂ h₂ _ => ?_
    refine (ih h₂.sound).bind fun ss s₃ h₃ hss => ?_
    refine ensures_pure h₃.sound fun stmt hmem => ?_
    rcases List.mem_append.mp hmem with hmem | hmem
    · exact (hstmt stmt (Option.mem_toList.mp hmem)).mono ((h₂.trans h₃).context _)
    · exact hss stmt hmem

/-- Statements that are read are typed. -/
theorem typed_readStmt [Json.Library] (fuel : Nat) (ctx : ReadContext) (v : Json) {s : ReadState}
    (h : s.Sound) :
    (readStmt fuel ctx v).Ensures s fun stmt s' => ctx.Types s' stmt := by
  induction fuel generalizing ctx v s with
  | zero => exact ensures_failure h
  | succ fuel ih =>
    unfold readStmt
    split
    · extract_lets form
      refine StmtForm.typed_read h ⟨typed_readExpr ctx (fuel + 1), fun depth items s₁ h₁ => ?_⟩
      exact (typed_readStmts (fun v s h => ih _ v h) items h₁).inScope h₁ fun _ _ _ hss => hss
    · exact ensures_failMalformed h

theorem typed_readBlock [Json.Library] (fuel : Nat) (ctx : ReadContext) (items : List Json)
    {s : ReadState} (h : s.Sound) :
    (readBlock fuel ctx items).Ensures s fun ss s' => ∀ stmt ∈ ss, ctx.Types s' stmt :=
  (typed_readStmts (fun v _ h => typed_readStmt fuel ctx v h) items h).inScope h
    fun _ _ _ hss => hss

end ContractCompiler.Hir
