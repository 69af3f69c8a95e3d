import ContractCompiler.Proofs.Hir.Reading

/-!
# Expressions that are read are typed

Each form yields typed expressions only, provided that the reader of sub-expressions does.

- `SubReader.Typed`: a reader of expressions that yields typed ones only;
- `typed_rule`: what the forms yield is typed;
- `typed_readExpr`: what `readExpr` yields is typed.
-/

namespace ContractCompiler.Hir

open Read

/-- The signatures of the functions that can be called. -/
def ReadContext.signature (ctx : ReadContext) (f : FuncId) : Option Signature :=
  (ctx.functions[f]?).map (·.signature)

/-- A reader of expressions that yields typed ones only. -/
def SubReader.Typed (sub : SubReader) (sig : FuncId → Option Signature) : Prop :=
  ∀ v hint s, s.Sound → (sub v hint).Ensures s fun e s' => e.Typed (s'.context sig)

namespace ExprForm

variable {sig : FuncId → Option Signature} {s : ReadState} {f : ExprForm} {sub : SubReader}

/-! ## Parts of forms -/

theorem ensures_need (h : s.Sound) (key : String) : (f.need key).Ensures s fun _ _ => True := by
  unfold need
  split
  · exact ensures_pure h trivial
  · exact ensures_failMalformed h

theorem ensures_need2 (h : s.Sound) (key₁ key₂ : String) :
    (f.need2 key₁ key₂).Ensures s fun _ _ => True := by
  unfold need2
  refine (ensures_need h key₁).attempt.bind fun v₁ s₁ h₁ _ => ?_
  refine (ensures_need h₁.sound key₂).attempt.bind fun v₂ s₂ h₂ _ => ?_
  split
  · exact ensures_pure h₂.sound trivial
  · exact ensures_failure h₂.sound

theorem ensures_mode (h : s.Sound) : f.mode.Ensures s fun _ _ => True := by
  unfold mode
  split
  all_goals first | exact ensures_pure h trivial | exact ensures_failMalformed h

theorem ensures_hintElem (h : s.Sound) : f.hintElem.Ensures s fun _ _ => True :=
  (ensures_types h).bind fun _ _ hadv _ => ensures_pure hadv.sound trivial

theorem ensures_operandHint (h : s.Sound) (mode : ArithMode) (otherwise : Hint) :
    (f.operandHint mode otherwise).Ensures s fun _ _ => True := by
  unfold operandHint
  refine (ensures_hintElem h).bind fun hint s' hadv _ => ?_
  split <;> exact ensures_pure hadv.sound trivial

theorem ensures_modeType (sig : FuncId → Option Signature) (h : s.Sound) (mode : ArithMode)
    (a : TypeId) :
    (modeType mode a).Ensures s fun t s' => (s'.context sig).OfMode mode a t := by
  unfold modeType
  split
  · refine (ensures_resultType h a).imp fun t s' _ ht => ?_
    unfold TypeContext.OfMode
    rw [if_pos rfl]
    exact ht
  · rename_i hmode
    refine ensures_pure h ?_
    unfold TypeContext.OfMode
    rw [if_neg hmode]

theorem ensures_stateNamespace (h : s.Sound) :
    f.stateNamespace.Ensures s fun ns _ => IsNamespace ns := by
  unfold stateNamespace
  split
  · exact ensures_failMalformed h
  · rename_i ns _
    split
    · exact ensures_failMalformed h
    · rename_i hempty
      split
      · exact ensures_failMalformed h
      · rename_i hchars
        refine ensures_pure h ⟨?_, fun c hc => ?_⟩
        · rintro rfl
          exact hempty rfl
        · rw [Bool.not_eq_true, List.any_eq_false] at hchars
          simpa [and_assoc] using hchars c hc

theorem ensures_stateKey (h : s.Sound) (hsub : sub.Typed sig) :
    (f.stateKey sub).Ensures s fun key s' =>
      key.Typed (s'.context sig) ∧ (s'.context sig).IsKey key.type := by
  unfold stateKey
  refine (ensures_need h "key").bind fun v s₁ h₁ _ => ?_
  refine (hsub v _ s₁ h₁.sound).bind fun key s₂ h₂ hkey => ?_
  refine (ensures_types h₂.sound).bind ?_
  rintro _ s₃ h₃ rfl
  split
  · rename_i hkind
    refine ensures_pure h₃.sound ⟨hkey.mono (h₃.context sig), ?_⟩
    exact (Bool.or_eq_true _ _).mp hkind
  · exact ensures_failMalformed h₃.sound

theorem ensures_pair (h : s.Sound) (hsub : sub.Typed sig) (l r : Json) (hint : Hint) :
    (pair sub l r hint).Ensures s fun p s' =>
      p.1.Typed (s'.context sig) ∧ p.2.Typed (s'.context sig) := by
  unfold pair
  split
  · refine (hsub r hint s h).attempt.bind fun b s₁ h₁ hb => ?_
    refine (hsub l _ s₁ h₁.sound).attempt.bind fun a s₂ h₂ ha => ?_
    split
    · rename_i a b
      exact ensures_pure h₂.sound ⟨ha a rfl, (hb b rfl).mono (h₂.context sig)⟩
    · exact ensures_failure h₂.sound
  · refine (hsub l hint s h).attempt.bind fun a s₁ h₁ ha => ?_
    refine (hsub r _ s₁ h₁.sound).attempt.bind fun b s₂ h₂ hb => ?_
    split
    · rename_i a b
      exact ensures_pure h₂.sound ⟨(ha a rfl).mono (h₂.context sig), hb b rfl⟩
    · exact ensures_failure h₂.sound

theorem ensures_each (hsub : sub.Typed sig) {s : ReadState} (h : s.Sound) (vs : List Json)
    (hints : List TypeId) :
    (each sub vs hints).Ensures s fun es s' =>
      es.length = vs.length ∧ ∀ e ∈ es, e.Typed (s'.context sig) := by
  induction vs generalizing s hints with
  | nil => exact ensures_pure h ⟨rfl, nofun⟩
  | cons v vs ih =>
    unfold each
    refine (hsub v _ s h).attempt.bind fun e s₁ h₁ he => ?_
    refine (ih h₁.sound hints.tail).attempt.bind fun es s₂ h₂ hes => ?_
    split
    · rename_i e es
      obtain ⟨hlen, hes⟩ := hes es rfl
      refine ensures_pure h₂.sound
        ⟨by rw [List.length_cons, List.length_cons, hlen], fun a ha => ?_⟩
      rcases List.mem_cons.mp ha with rfl | ha
      · exact (he a rfl).mono (h₂.context sig)
      · exact hes a ha
    · exact ensures_failure h₂.sound

/-! ## Forms -/

theorem typed_readIntValue [Json.Library] (h : s.Sound) (v : Json) (hint : Hint) (span : Span) :
    (readIntValue v hint span).Ensures s fun e s' => e.Typed (s'.context sig) := by
  unfold readIntValue
  refine (ensures_types h).bind ?_
  rintro _ s₁ h₁ rfl
  extract_lets type
  have htype : s₁.types.isInteger type = true := by
    have hi64 := h₁.sound.types.standard.isInteger (b := .i64) rfl
    unfold type
    split
    · split
      · assumption
      · exact hi64
    · exact hi64
  split
  · exact ensures_failMalformed h₁.sound
  · split
    · refine (ensures_complete h₁.sound _ _ _).imp ?_
      rintro _ s₂ h₂ ⟨i, hi, rfl⟩
      exact .int (hi ▸ h₂.types.isInteger htype)
    · exact ensures_failMalformed h₁.sound

theorem typed_int [Json.Library] (h : s.Sound) :
    f.int.Ensures s fun e s' => e.Typed (s'.context sig) := by
  unfold int
  split
  · exact (ensures_parseType h _ _).bind fun t s₁ h₁ _ => typed_readIntValue h₁.sound _ _ _
  · exact typed_readIntValue h _ _ _

theorem typed_bytes (h : s.Sound) : f.bytes.Ensures s fun e s' => e.Typed (s'.context sig) := by
  refine (ensures_complete h _ _ _).imp ?_
  rintro _ s₁ h₁ ⟨i, hi, rfl⟩
  exact .bytes (hi ▸ h₁.sound.types.standard.isBuiltin .bytes)

theorem typed_unit (h : s.Sound) : f.unit.Ensures s fun e s' => e.Typed (s'.context sig) := by
  refine (ensures_complete h _ _ _).imp ?_
  rintro _ s₁ h₁ ⟨i, hi, rfl⟩
  exact .unit (hi ▸ h₁.sound.types.standard.isBuiltin .unit)

theorem typed_useOf (h : s.Sound) (name : String) (span : Span) :
    (useOf name span).Ensures s fun e s' => e.Typed (s'.context sig) := by
  unfold useOf
  refine (ensures_lookup h name span).bind fun sym s₁ h₁ hsym => ?_
  refine (ensures_symbol h₁.sound hsym).bind fun symbol s₂ h₂ hsymbol => ?_
  refine (ensures_complete h₂.sound _ _ _).imp ?_
  rintro _ s₃ h₃ ⟨i, hi, rfl⟩
  exact .local (h₃.symbols _ _ hsymbol) hi

theorem typed_logical (h : s.Sound) (hsub : sub.Typed sig) (isAnd : Bool) :
    (f.logical sub isAnd).Ensures s fun e s' => e.Typed (s'.context sig) := by
  unfold logical
  refine (ensures_need2 h "l" "r").bind fun (l, r) s₁ h₁ _ => ?_
  refine (ensures_mode h₁.sound).bind fun _ s₂ h₂ _ => ?_
  refine (hsub l _ s₂ h₂.sound).attempt.bind fun a s₃ h₃ ha => ?_
  refine (hsub r _ s₃ h₃.sound).attempt.bind fun b s₄ h₄ hb => ?_
  split
  · exact ensures_failure h₄.sound
  · rename_i a
    refine (ensures_expectType h₄.sound a _ _).bind fun _ s₅ h₅ hta => ?_
    split
    · exact ensures_failure h₅.sound
    · rename_i b
      refine (ensures_expectType h₅.sound b _ _).bind fun _ s₆ h₆ htb => ?_
      refine (ensures_complete h₆.sound _ _ _).imp ?_
      rintro _ s₇ h₇ ⟨i, hi, rfl⟩
      have hadv := (h₅.trans h₆).trans h₇
      refine .logical ((ha a rfl).mono ((h₄.trans hadv).context sig))
        ((hb b rfl).mono (hadv.context sig)) (htb.trans hta.symm) ?_ (hi.trans hta.symm)
      rw [hta]
      exact h₇.sound.types.standard.isBuiltin .bool

theorem ensures_checkCompare (h : s.Sound) (op : BinOp) (mode : ArithMode) (t : TypeId) :
    (f.checkCompare op mode t).Ensures s fun _ s' => mode = .trap ∧
      (s'.types.isInteger t = true ∨ (op = .eq ∨ op = .ne) ∧ s'.types.isBool t = true) := by
  unfold checkCompare
  refine (ensures_types h).bind ?_
  rintro _ s₁ h₁ rfl
  extract_lets onBool
  split
  · exact ensures_failMalformed h₁.sound
  · rename_i hopnd
    split
    · exact ensures_failMalformed h₁.sound
    · rename_i hmode
      refine ensures_pure h₁.sound ⟨not_not.mp hmode, ?_⟩
      cases hint : s₁.types.isInteger t with
      | true => exact .inl rfl
      | false =>
        refine .inr ?_
        have honBool : onBool = true := by simpa [hint] using hopnd
        simpa [onBool] using honBool

theorem ensures_checkArith (h : s.Sound) (op : BinOp) (mode : ArithMode) (t : TypeId) :
    (f.checkArith op mode t).Ensures s fun _ s' =>
      s'.types.isInteger t = true ∧ (op.isBitwise = true → mode = .trap) := by
  unfold checkArith
  refine (ensures_types h).bind ?_
  rintro _ s₁ h₁ rfl
  split
  · exact ensures_failMalformed h₁.sound
  · rename_i hint
    split
    · exact ensures_failMalformed h₁.sound
    · rename_i hmode
      refine ensures_pure h₁.sound ⟨by simpa using hint, fun hop => ?_⟩
      simpa [hop] using hmode

theorem typed_arithmetic (h : s.Sound) (hsub : sub.Typed sig) (op : BinOp) :
    (f.arithmetic sub op).Ensures s fun e s' => e.Typed (s'.context sig) := by
  unfold arithmetic
  refine (ensures_need2 h "l" "r").bind fun (l, r) s₁ h₁ _ => ?_
  refine (ensures_mode h₁.sound).bind fun mode s₂ h₂ _ => ?_
  refine (ensures_operandHint h₂.sound _ _).bind fun hint s₃ h₃ _ => ?_
  refine (ensures_pair h₃.sound hsub l r hint).bind fun (a, b) s₄ h₄ ⟨ha, hb⟩ => ?_
  refine (ensures_expectType h₄.sound b _ _).bind fun _ s₅ h₅ hsame => ?_
  split
  · rename_i hop
    refine (ensures_checkCompare h₅.sound op mode _).bind fun _ s₆ h₆ ⟨hmode, hopnd⟩ => ?_
    refine (ensures_complete h₆.sound _ _ _).imp ?_
    rintro _ s₇ h₇ ⟨i, hi, rfl⟩
    have hadv := ((h₅.trans h₆).trans h₇).context sig
    rw [hmode]
    refine .compare hop (ha.mono hadv) (hb.mono hadv) hsame ?_ ?_
    · exact hopnd.imp h₇.types.isInteger (And.imp_right h₇.types.isBool)
    · exact hi ▸ h₇.sound.types.standard.isBuiltin .bool
  · rename_i hop
    refine (ensures_checkArith h₅.sound op mode _).bind fun _ s₆ h₆ ⟨hint, hmode⟩ => ?_
    refine (ensures_modeType sig h₆.sound mode a.type).bind fun t s₇ h₇ ht => ?_
    refine (ensures_complete h₇.sound _ _ _).imp ?_
    rintro _ s₈ h₈ ⟨i, hi, rfl⟩
    have hadv := (((h₅.trans h₆).trans h₇).trans h₈).context sig
    refine .arith (Bool.eq_false_iff.mpr hop) (ha.mono hadv) (hb.mono hadv) hsame ?_ hmode ?_
    · exact (h₇.trans h₈).types.isInteger hint
    · exact hi ▸ (h₈.context sig).ofMode ht

theorem typed_binary (h : s.Sound) (hsub : sub.Typed sig) :
    (f.binary sub).Ensures s fun e s' => e.Typed (s'.context sig) := by
  unfold binary
  extract_lets op
  split
  · exact typed_logical h hsub true
  · split
    · exact typed_logical h hsub false
    · split
      · exact typed_arithmetic h hsub _
      · exact ensures_failMalformed h

theorem typed_neg (h : s.Sound) (hsub : sub.Typed sig) :
    (f.neg sub).Ensures s fun e s' => e.Typed (s'.context sig) := by
  unfold neg
  refine (ensures_mode h).bind fun mode s₁ h₁ _ => ?_
  refine (ensures_operandHint h₁.sound _ _).bind fun hint s₂ h₂ _ => ?_
  refine (hsub _ hint s₂ h₂.sound).bind fun a s₃ h₃ ha => ?_
  refine (ensures_types h₃.sound).bind ?_
  rintro _ s₄ h₄ rfl
  split
  · exact ensures_failMalformed h₄.sound
  · rename_i hint
    refine (ensures_modeType sig h₄.sound mode a.type).bind fun t s₅ h₅ ht => ?_
    refine (ensures_complete h₅.sound _ _ _).imp ?_
    rintro _ s₆ h₆ ⟨i, hi, rfl⟩
    refine .neg (ha.mono (((h₄.trans h₅).trans h₆).context sig)) ?_
      (hi ▸ (h₆.context sig).ofMode ht)
    exact (h₅.trans h₆).types.isInteger (by simpa using hint)

theorem typed_not (h : s.Sound) (hsub : sub.Typed sig) :
    (f.not sub).Ensures s fun e s' => e.Typed (s'.context sig) := by
  unfold ExprForm.not
  refine (hsub _ _ s h).bind fun a s₁ h₁ ha => ?_
  refine (ensures_types h₁.sound).bind ?_
  rintro _ s₂ h₂ rfl
  split
  · rename_i hbool
    refine (ensures_complete h₂.sound _ _ _).imp ?_
    rintro _ s₃ h₃ ⟨i, hi, rfl⟩
    exact .not (ha.mono ((h₂.trans h₃).context sig)) (h₃.types.isBool hbool) hi
  · split
    · rename_i hint
      refine (ensures_complete h₂.sound _ _ _).imp ?_
      rintro _ s₃ h₃ ⟨i, hi, rfl⟩
      exact .bitNot (ha.mono ((h₂.trans h₃).context sig)) (h₃.types.isInteger hint) hi
    · exact ensures_failMalformed h₂.sound

theorem typed_cast (h : s.Sound) (hsub : sub.Typed sig) :
    (f.cast sub).Ensures s fun e s' => e.Typed (s'.context sig) := by
  unfold cast
  split
  · exact ensures_failMalformed h
  · refine (ensures_parseType h _ _).attempt.bind fun target? s₁ h₁ _ => ?_
    refine (ensures_mode h₁.sound).attempt.bind fun mode? s₂ h₂ _ => ?_
    split
    · rename_i target mode _ _
      extract_lets convert
      have hconvert (s₃ : ReadState) (h₃ : s₃.Sound) (castMode : CastMode) :
          (convert castMode).Ensures s₃ fun e s' => e.Typed (s'.context sig) := by
        refine (hsub _ _ s₃ h₃).bind fun a s₄ h₄ ha => ?_
        refine (ensures_types h₄.sound).bind ?_
        rintro _ s₅ h₅ rfl
        split
        · exact ensures_failMalformed h₅.sound
        · rename_i hints
          have hints : s₅.types.isInteger a.type = true ∧ s₅.types.isInteger target = true := by
            simpa using hints
          refine (ensures_complete h₅.sound _ _ _).imp ?_
          rintro _ s₆ h₆ ⟨i, hi, rfl⟩
          exact .cast (ha.mono ((h₅.trans h₆).context sig)) (h₆.types.isInteger hints.1)
            (hi ▸ h₆.types.isInteger hints.2)
      split
      · exact hconvert s₂ h₂.sound .trap
      · exact hconvert s₂ h₂.sound .wrapping
      · exact (ensures_failMalformed h₂.sound).bind fun castMode s₃ h₃ (_ : True) =>
          hconvert s₃ h₃.sound castMode
    · exact ensures_failure h₂.sound

/-- Arguments that were checked have the types of the parameters, and places stand where they have
to. -/
theorem ensures_checkArgs {s : ReadState} (h : s.Sound) (args : List Expr) (params : List Param)
    (hlen : args.length = params.length) :
    (f.checkArgs args params).Ensures s fun _ _ =>
      args.map (·.type) = params.map (·.type) ∧ ∀ (k : Nat) a p, args[k]? = some a →
        params[k]? = some p → p.pass = .exclusive → a.local?.isSome = true := by
  induction args generalizing s params with
  | nil =>
    obtain rfl := List.eq_nil_of_length_eq_zero hlen.symm
    exact ensures_pure h ⟨rfl, nofun⟩
  | cons a args ih =>
    cases params with
    | nil => cases hlen
    | cons p params =>
      unfold checkArgs
      refine (ensures_expectType h a p.type f.span).bind fun _ s₁ h₁ hta => ?_
      split
      · exact ensures_failWith h₁.sound
      · rename_i hplace
        refine (ih h₁.sound params (Nat.succ.inj hlen)).imp fun _ _ _ ⟨htypes, hplaces⟩ => ?_
        refine ⟨by rw [List.map_cons, List.map_cons, hta, htypes], fun k a' p' ha' hp' hpass => ?_⟩
        cases k with
        | zero =>
          obtain rfl := Option.some.inj ha'
          obtain rfl := Option.some.inj hp'
          rw [Option.isSome_iff_ne_none]
          exact fun hnone => hplace ⟨hpass, hnone⟩
        | succ k => exact hplaces k a' p' ha' hp' hpass

theorem typed_call {ctx : ReadContext} (h : s.Sound) (hsub : sub.Typed ctx.signature) :
    (f.call sub ctx).Ensures s fun e s' => e.Typed (s'.context ctx.signature) := by
  unfold call
  extract_lets name items
  split
  · exact ensures_failWith h
  · rename_i fid hfid
    extract_lets callee
    have hcallee : ctx.functions[fid]? = some callee := by
      obtain ⟨i, -, rfl⟩ := Option.map_eq_some_iff.mp hfid
      show ctx.functions[i.val]? = some (ctx.functions.getD i.val default)
      rw [Array.getD_eq_getD_getElem?, Array.getElem?_eq_getElem i.isLt, Option.getD_some]
    split
    · exact ensures_failWith h
    · rename_i hlen
      refine (ensures_each hsub h _ _).bind fun args s₁ h₁ ⟨hlen', hargs⟩ => ?_
      have hcount : args.length = callee.params.length := hlen'.trans (not_not.mp hlen)
      refine (ensures_checkArgs h₁.sound args _ hcount).bind fun _ s₂ h₂ ⟨htypes, hplaces⟩ => ?_
      refine (ensures_complete h₂.sound _ _ _).imp ?_
      rintro _ s₃ h₃ ⟨i, hi, rfl⟩
      have hsig : ctx.signature fid = some (callee.signature.1, i.type) := by
        unfold ReadContext.signature
        rw [hcallee, hi]
        rfl
      refine .call hsig (fun a ha => (hargs a ha).mono ((h₂.trans h₃).context _)) ?_ ?_
      · rw [htypes]
        simp [Function.signature]
      · intro k a t ha hp
        obtain ⟨p, hp, heq⟩ := Option.map_eq_some_iff.mp (List.getElem?_map ▸ hp)
        exact hplaces k a p ha hp (Prod.mk.inj heq).2

/-- The first field of a name is a field. -/
theorem getElem?_of_find? {fields : List (String × TypeId)} {name name' : String} {t : TypeId}
    {index : Nat} (h : fields.zipIdx.find? (·.1.1 == name) = some ((name', t), index)) :
    fields[index]? = some (name, t) := by
  have hfound := List.find?_some h
  have hname : name' = name := eq_of_beq hfound
  have hmem := List.mem_zipIdx (List.mem_of_find?_eq_some h)
  obtain ⟨-, hlt, heq⟩ := hmem
  rw [List.getElem?_eq_some_iff]
  refine ⟨by simpa using hlt, ?_⟩
  rw [← hname]
  simpa using heq.symm

theorem typed_field (h : s.Sound) (hsub : sub.Typed sig) :
    (f.field sub).Ensures s fun e s' => e.Typed (s'.context sig) := by
  unfold field
  split
  · exact ensures_failMalformed h
  · rename_i name _
    refine (hsub _ _ s h).bind fun base s₁ h₁ hbase => ?_
    refine (ensures_types h₁.sound).bind ?_
    rintro _ s₂ h₂ rfl
    split
    · exact ensures_failMalformed h₂.sound
    · rename_i decl hdecl
      split
      · rename_i _ name' t index hfind
        refine (ensures_complete h₂.sound _ _ _).imp ?_
        rintro _ s₃ h₃ ⟨i, hi, rfl⟩
        exact .field (hbase.mono ((h₂.trans h₃).context sig)) (h₃.types.structDecl? hdecl)
          (hi ▸ getElem?_of_find? hfind)
      · exact ensures_failWith h₂.sound

theorem ensures_checkTypes {s : ReadState} (h : s.Sound) (es : List Expr) (ts : List TypeId)
    (hlen : es.length = ts.length) :
    (f.checkTypes es ts).Ensures s fun _ _ => es.map (·.type) = ts := by
  induction es generalizing s ts with
  | nil =>
    obtain rfl := List.eq_nil_of_length_eq_zero hlen.symm
    exact ensures_pure h rfl
  | cons e es ih =>
    cases ts with
    | nil => cases hlen
    | cons t ts =>
      unfold checkTypes
      refine (ensures_expectType h e t f.span).bind fun _ s₁ h₁ hte => ?_
      refine (ih h₁.sound ts (Nat.succ.inj hlen)).imp fun _ _ _ htypes => ?_
      rw [List.map_cons, hte, htypes]

theorem typed_struct (h : s.Sound) (hsub : sub.Typed sig) :
    (f.struct sub).Ensures s fun e s' => e.Typed (s'.context sig) := by
  unfold struct
  extract_lets name items
  refine (ensures_types h).bind ?_
  rintro _ s₁ h₁ rfl
  split
  · exact ensures_failWith h₁.sound
  · rename_i st hst
    have hdecl : ∃ decl, s₁.types.structDecl? st = some decl := by
      have hnamed := List.find?_some hst
      exact ((Option.any_eq_true _ _).mp hnamed).imp fun decl hdecl => hdecl.1
    obtain ⟨decl, hdecl⟩ := hdecl
    extract_lets fields types
    have hfields : fields = decl.fields := by
      unfold fields
      rw [hdecl]
      rfl
    split
    · exact ensures_failWith h₁.sound
    · rename_i hlen
      refine (ensures_each hsub h₁.sound _ _).bind fun es s₂ h₂ ⟨hlen', hes⟩ => ?_
      have hcount : es.length = types.length := by
        rw [hlen', not_not.mp hlen]
        simp [types]
      refine (ensures_checkTypes h₂.sound es types hcount).bind fun _ s₃ h₃ htypes => ?_
      refine (ensures_complete h₃.sound _ _ _).imp ?_
      rintro _ s₄ h₄ ⟨i, hi, rfl⟩
      refine .struct (fun a ha => (hes a ha).mono ((h₃.trans h₄).context sig))
        (hi ▸ ((h₂.trans h₃).trans h₄).types.structDecl? hdecl) ?_
      rw [htypes, ← hfields]

theorem typed_select (h : s.Sound) (hsub : sub.Typed sig) :
    (f.select sub).Ensures s fun e s' => e.Typed (s'.context sig) := by
  unfold select
  refine (ensures_need2 h _ _).bind fun (t, e) s₁ h₁ _ => ?_
  refine (hsub _ _ s₁ h₁.sound).bind fun c s₂ h₂ hc => ?_
  refine (ensures_expectType h₂.sound c _ _).bind fun _ s₃ h₃ hcond => ?_
  refine (ensures_pair h₃.sound hsub t e f.hint).bind fun (a, b) s₄ h₄ ⟨ha, hb⟩ => ?_
  refine (ensures_expectType h₄.sound b _ _).bind fun _ s₅ h₅ hsame => ?_
  refine (ensures_complete h₅.sound _ _ _).imp ?_
  rintro _ s₆ h₆ ⟨i, hi, rfl⟩
  have hadv := h₅.trans h₆
  refine .select (hc.mono (((h₃.trans h₄).trans hadv).context sig)) ?_ (ha.mono (hadv.context sig))
    (hb.mono (hadv.context sig)) hsame hi
  rw [hcond]
  exact h₆.sound.types.standard.isBuiltin .bool

theorem ensures_stateValueType (h : s.Sound) :
    f.stateValueType.Ensures s fun t s' => s'.types.isStateValue t = true := by
  unfold stateValueType
  extract_lets check
  have hcheck (s₁ : ReadState) (h₁ : s₁.Sound) (type : Option TypeId) :
      (check type).Ensures s₁ fun t s' => s'.types.isStateValue t = true := by
    refine (ensures_types h₁).bind ?_
    rintro _ s₂ h₂ rfl
    split
    · split
      · exact ensures_pure h₂.sound ‹_›
      · exact ensures_failMalformed h₂.sound
    · exact ensures_failMalformed h₂.sound
  split
  · exact (ensures_parseType h _ _).bind fun t s₁ h₁ _ => hcheck s₁ h₁.sound (some t)
  · exact (ensures_hintElem h).bind fun type s₁ h₁ _ => hcheck s₁ h₁.sound type

theorem typed_stateGet (h : s.Sound) (hsub : sub.Typed sig) :
    (f.stateGet sub).Ensures s fun e s' => e.Typed (s'.context sig) := by
  unfold stateGet
  refine (ensures_stateNamespace h).bind fun ns s₁ h₁ hns => ?_
  refine (ensures_stateValueType h₁.sound).bind fun type s₂ h₂ htype => ?_
  refine (ensures_stateKey h₂.sound hsub).bind fun key s₃ h₃ ⟨hkey, hkind⟩ => ?_
  refine (ensures_resultType h₃.sound type).bind fun t s₄ h₄ ht => ?_
  refine (ensures_complete h₄.sound _ _ _).imp ?_
  rintro _ s₅ h₅ ⟨i, hi, rfl⟩
  have hadv := h₄.trans h₅
  exact .stateGet hns (hkey.mono (hadv.context sig)) ((hadv.context sig).isKey hkind)
    ((h₃.trans hadv).types.isStateValue htype) (hi ▸ h₅.types.resultElem? ht)

theorem typed_statePut (h : s.Sound) (hsub : sub.Typed sig) :
    (f.statePut sub).Ensures s fun e s' => e.Typed (s'.context sig) := by
  unfold statePut
  refine (ensures_stateNamespace h).bind fun ns s₁ h₁ hns => ?_
  refine (ensures_need h₁.sound _).bind fun v s₂ h₂ _ => ?_
  refine (ensures_stateKey h₂.sound hsub).bind fun key s₃ h₃ ⟨hkey, hkind⟩ => ?_
  refine (hsub v _ s₃ h₃.sound).bind fun value s₄ h₄ hvalue => ?_
  refine (ensures_types h₄.sound).bind ?_
  rintro _ s₅ h₅ rfl
  split
  · exact ensures_failMalformed h₅.sound
  · rename_i hstored
    have hstored : s₅.types.isStateValue value.type = true := by simpa using hstored
    refine (ensures_complete h₅.sound _ _ _).imp ?_
    rintro _ s₆ h₆ ⟨i, hi, rfl⟩
    have hadv := h₅.trans h₆
    have hadv' := (h₄.trans hadv).context sig
    exact .statePut hns (hkey.mono hadv') (hadv'.isKey hkind) (hvalue.mono (hadv.context sig))
      (h₆.types.isStateValue hstored) (hi ▸ h₆.sound.types.standard.isBuiltin .unit)

theorem typed_stateHas (h : s.Sound) (hsub : sub.Typed sig) :
    (f.stateHas sub).Ensures s fun e s' => e.Typed (s'.context sig) := by
  unfold stateHas
  refine (ensures_stateNamespace h).bind fun ns s₁ h₁ hns => ?_
  refine (ensures_stateKey h₁.sound hsub).bind fun key s₂ h₂ ⟨hkey, hkind⟩ => ?_
  refine (ensures_complete h₂.sound _ _ _).imp ?_
  rintro _ s₃ h₃ ⟨i, hi, rfl⟩
  exact .stateHas hns (hkey.mono (h₃.context sig)) ((h₃.context sig).isKey hkind)
    (hi ▸ h₃.sound.types.standard.isBuiltin .bool)

theorem typed_context (h : s.Sound) : f.context.Ensures s fun e s' => e.Typed (s'.context sig) := by
  unfold context
  extract_lets name
  split
  · rename_i query type hlookup
    have hall : ∀ q ∈ contextQueries, q.2.2 = answerType q.2.1 := by decide
    have htype : type = answerType query := hall _ (mem_of_lookup hlookup)
    refine (ensures_complete h _ _ _).imp ?_
    rintro _ s₁ h₁ ⟨i, hi, rfl⟩
    exact .context (hi ▸ htype ▸ h₁.sound.types.standard.isBuiltin type)
  · exact ensures_failMalformed h

theorem typed_digest (h : s.Sound) (hsub : sub.Typed sig) :
    (f.digest sub).Ensures s fun e s' => e.Typed (s'.context sig) := by
  unfold digest
  refine (hsub _ _ s h).bind fun a s₁ h₁ ha => ?_
  refine (ensures_expectType h₁.sound a _ _).bind fun _ s₂ h₂ hta => ?_
  refine (ensures_complete h₂.sound _ _ _).imp ?_
  rintro _ s₃ h₃ ⟨i, hi, rfl⟩
  have hbytes := h₃.sound.types.standard.isBuiltin .bytes
  exact .digest (ha.mono ((h₂.trans h₃).context sig)) (hta ▸ hbytes) (hi ▸ hbytes)

theorem typed_length (h : s.Sound) (hsub : sub.Typed sig) :
    (f.length sub).Ensures s fun e s' => e.Typed (s'.context sig) := by
  unfold length
  refine (hsub _ _ s h).bind fun a s₁ h₁ ha => ?_
  refine (ensures_expectType h₁.sound a _ _).bind fun _ s₂ h₂ hta => ?_
  refine (ensures_complete h₂.sound _ _ _).imp ?_
  rintro _ s₃ h₃ ⟨i, hi, rfl⟩
  have hstd := h₃.sound.types.standard
  exact .length (ha.mono ((h₂.trans h₃).context sig)) (hta ▸ hstd.isBuiltin .bytes)
    (hi ▸ hstd.isBuiltin .u64)

theorem typed_emit (h : s.Sound) (hsub : sub.Typed sig) :
    (f.emit sub).Ensures s fun e s' => e.Typed (s'.context sig) := by
  unfold emit
  refine (ensures_each hsub h _ _).bind fun args s₁ h₁ ⟨_, hargs⟩ => ?_
  refine (ensures_types h₁.sound).bind ?_
  rintro _ s₂ h₂ rfl
  split
  · exact ensures_failMalformed h₂.sound
  · rename_i hstored
    rw [Bool.not_eq_true, Bool.not_eq_false', List.all_eq_true] at hstored
    refine (ensures_complete h₂.sound _ _ _).imp ?_
    rintro _ s₃ h₃ ⟨i, hi, rfl⟩
    exact .emit (fun a ha => (hargs a ha).mono ((h₂.trans h₃).context sig))
      (fun a ha => h₃.types.isStateValue (hstored a ha))
      (hi ▸ h₃.sound.types.standard.isBuiltin .unit)

theorem typed_result (h : s.Sound) (hsub : sub.Typed sig) (op : ResultOp) :
    (f.result sub op).Ensures s fun e s' => e.Typed (s'.context sig) := by
  unfold result
  refine (hsub _ _ s h).bind fun a s₁ h₁ ha => ?_
  refine (ensures_types h₁.sound).bind ?_
  rintro _ s₂ h₂ rfl
  split
  · exact ensures_failMalformed h₂.sound
  · rename_i elem helem
    extract_lets type
    refine (ensures_complete h₂.sound _ _ _).imp ?_
    rintro _ s₃ h₃ ⟨i, hi, rfl⟩
    have ha := ha.mono ((h₂.trans h₃).context sig)
    have helem := h₃.types.resultElem? helem
    cases op with
    | isOk => exact .isOk ha helem (hi ▸ h₃.sound.types.standard.isBuiltin .bool)
    | unwrap => exact .unwrap ha (hi ▸ helem)
    | code => exact .code ha helem hi

theorem typed_ok (h : s.Sound) (hsub : sub.Typed sig) :
    (f.ok sub).Ensures s fun e s' => e.Typed (s'.context sig) := by
  unfold ok
  refine (ensures_hintElem h).bind fun hint s₁ h₁ _ => ?_
  refine (hsub _ hint s₁ h₁.sound).bind fun a s₂ h₂ ha => ?_
  refine (ensures_resultType h₂.sound a.type).bind fun t s₃ h₃ ht => ?_
  refine (ensures_complete h₃.sound _ _ _).imp ?_
  rintro _ s₄ h₄ ⟨i, hi, rfl⟩
  exact .ok (ha.mono ((h₃.trans h₄).context sig)) (hi ▸ h₄.types.resultElem? ht)

theorem typed_err (h : s.Sound) (hsub : sub.Typed sig) :
    (f.err sub).Ensures s fun e s' => e.Typed (s'.context sig) := by
  unfold err
  extract_lets make
  have hmake (s₁ : ReadState) (h₁ : s₁.Sound) (type : Option TypeId) :
      (make type).Ensures s₁ fun e s' => e.Typed (s'.context sig) := by
    refine (ensures_types h₁).bind ?_
    rintro _ s₂ h₂ rfl
    split
    · exact ensures_failMalformed h₂.sound
    · rename_i t
      split
      · exact ensures_failMalformed h₂.sound
      · rename_i hresult
        obtain ⟨e, he⟩ := Option.ne_none_iff_exists'.mp (by simpa using hresult)
        refine (hsub _ _ s₂ h₂.sound).bind fun a s₃ h₃ ha => ?_
        refine (ensures_expectType h₃.sound a _ _).bind fun _ s₄ h₄ hcode => ?_
        refine (ensures_complete h₄.sound _ _ _).imp ?_
        rintro _ s₅ h₅ ⟨i, hi, rfl⟩
        have hadv := h₄.trans h₅
        exact .err (ha.mono (hadv.context sig)) hcode (hi ▸ (h₃.trans hadv).types.resultElem? he)
  split
  · refine (ensures_parseType h _ _).bind fun t s₁ h₁ _ => ?_
    exact (ensures_resultType h₁.sound t).bind fun r s₂ h₂ _ => hmake s₂ h₂.sound (some r)
  · exact hmake s h f.hint

/-! ## All forms -/

/-- Every form yields typed expressions only. -/
theorem typed_rule [Json.Library] {ctx : ReadContext} {r : Rule} (hr : r ∈ rules) (h : s.Sound)
    (hsub : sub.Typed ctx.signature) :
    (r.read ctx sub f).Ensures s fun e s' => e.Typed (s'.context ctx.signature) := by
  simp only [rules, List.mem_cons, List.not_mem_nil, or_false] at hr
  rcases hr with rfl | rfl | rfl | rfl | rfl | rfl | rfl | rfl | rfl | rfl | rfl | rfl |
    rfl | rfl | rfl |
    rfl | rfl | rfl | rfl | rfl | rfl | rfl | rfl | rfl
  · exact typed_int h
  · exact typed_bytes h
  · exact typed_unit h
  · exact typed_useOf h _ _
  · exact typed_binary h hsub
  · exact typed_neg h hsub
  · exact typed_not h hsub
  · exact typed_cast h hsub
  · exact typed_call h hsub
  · exact typed_field h hsub
  · exact typed_struct h hsub
  · exact typed_select h hsub
  · exact typed_stateGet h hsub
  · exact typed_statePut h hsub
  · exact typed_stateHas h hsub
  · exact typed_context h
  · exact typed_digest h hsub
  · exact typed_length h hsub
  · exact typed_emit h hsub
  · exact typed_result h hsub .isOk
  · exact typed_result h hsub .unwrap
  · exact typed_result h hsub .code
  · exact typed_ok h hsub
  · exact typed_err h hsub

theorem typed_readObject [Json.Library] {ctx : ReadContext} (h : s.Sound)
    (hsub : sub.Typed ctx.signature) (o : Json) (hint : Hint) :
    (readObject ctx sub o hint).Ensures s fun e s' => e.Typed (s'.context ctx.signature) := by
  unfold readObject
  extract_lets span
  split
  · rename_i r value hfind
    obtain ⟨r', hr', hvalue⟩ := List.exists_of_findSome?_eq_some hfind
    obtain ⟨v, -, heq⟩ := Option.map_eq_some_iff.mp hvalue
    obtain ⟨rfl, rfl⟩ := Prod.mk.inj heq
    exact typed_rule hr' h hsub
  · exact ensures_failMalformed h

end ExprForm

/-- Expressions that are read are typed. -/
theorem typed_readExpr [Json.Library] (ctx : ReadContext) (fuel : Nat) :
    SubReader.Typed (readExpr ctx fuel) ctx.signature := by
  induction fuel with
  | zero => exact fun _ _ s h => ensures_failure h
  | succ fuel ih =>
    intro v hint s h
    unfold readExpr
    extract_lets start
    split
    · exact ExprForm.typed_readIntValue h _ _ _
    · refine (ensures_complete h _ _ _).imp ?_
      rintro _ s₁ h₁ ⟨i, hi, rfl⟩
      exact .bool (hi ▸ h₁.sound.types.standard.isBuiltin .bool)
    · exact ExprForm.typed_useOf h _ _
    · exact ExprForm.typed_readObject h ih _ _
    · exact ensures_failMalformed h

end ContractCompiler.Hir
