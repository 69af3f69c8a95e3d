import ContractCompiler.Proofs.Hir.Reader.Stmt

/-!
# Documents that are read are typed

Structs are declared before anything else is read, so from there on types are only added. The
functions of a module have the signatures that their bodies were read with.

- `Read.Settles`: like `Read.Ensures`, for steps after which known types may have changed;
- `typed_readFunctions`: functions that are read are typed;
- `typed_readDocument`: so is the module that a document is read into.
-/

namespace ContractCompiler.Hir

open Read

namespace Read

variable {α β : Type} {s : ReadState}

/-- A step leads to a sound state, and what it yields has a property there. -/
def Settles (r : Read α) (s : ReadState) (Q : α → ReadState → Prop) : Prop :=
  (r.run s).2.Sound ∧ ∀ a, (r.run s).1 = some a → Q a (r.run s).2

theorem Ensures.settles {r : Read α} {Q : α → ReadState → Prop} (h : r.Ensures s Q) :
    r.Settles s Q :=
  ⟨h.1.sound, h.2⟩

theorem Settles.bind {r : Read α} {k : α → Read β} {Q : α → ReadState → Prop}
    {Q' : β → ReadState → Prop} (h : r.Settles s Q)
    (hk : ∀ a s', s'.Sound → Q a s' → (k a).Settles s' Q') : (r >>= k).Settles s Q' := by
  obtain ⟨hsound, hQ⟩ := h
  unfold Settles
  rw [run_bind]
  cases hr : r.run s with
  | mk a? s' =>
    rw [hr] at hsound hQ
    cases a? with
    | none => exact ⟨hsound, nofun⟩
    | some a => exact hk a s' hsound (hQ a rfl)

theorem Settles.attempt {r : Read α} {Q : α → ReadState → Prop} (h : r.Settles s Q) :
    (attempt r).Settles s fun _ _ => True :=
  ⟨h.1, fun _ _ => trivial⟩

end Read

variable {s : ReadState}

/-! ## Declarations -/

theorem ensures_readFields (st : TypeId) (span : Span) (items : List Json) {s : ReadState}
    (h : s.Sound) : (readFields st span items).Ensures s fun _ _ => True := by
  induction items generalizing s with
  | nil => exact ensures_pure h trivial
  | cons v items ih =>
    unfold readFields
    split
    · rename_i heq
      cases heq
    · rename_i heq
      obtain ⟨rfl, rfl⟩ := List.cons.inj heq
      refine (ensures_parseType h _ _).bind fun t s₁ h₁ _ => ?_
      refine (ensures_types h₁.sound).bind fun pool s₂ h₂ _ => ?_
      split
      · exact ensures_failMalformed h₂.sound
      · exact (ih h₂.sound).bind fun fields s₃ h₃ _ => ensures_pure h₃.sound trivial
    · exact ensures_failMalformed h

theorem settles_readStruct [Json.Library] (h : s.Sound) (file : UInt32) (v : Json) :
    (readStruct file v).Settles s fun _ _ => True := by
  unfold readStruct
  extract_lets span
  split
  · split
    · refine (ensures_types h).settles.bind ?_
      rintro _ s₁ h₁ rfl
      split
      · exact (ensures_failWith h₁).settles
      · rename_i st pool hdeclare
        have hset : Settles (modify fun s => { s with types := pool }) s₁ fun _ _ => True :=
          ⟨⟨h₁.types.declareStruct hdeclare, h₁.scope, h₁.symbols⟩, fun _ _ => trivial⟩
        refine hset.bind fun _ s₂ h₂ _ => ?_
        refine (ensures_readFields st span _ h₂).settles.bind fun fields s₃ h₃ _ => ?_
        exact ⟨⟨h₃.types.setFields st fields, h₃.scope, h₃.symbols⟩, fun _ _ => trivial⟩
    · exact (ensures_failMalformed h).settles
  · exact (ensures_failMalformed h).settles

theorem settles_readEach {read : Json → Read Unit}
    (hread : ∀ v s, s.Sound → (read v).Settles s fun _ _ => True) (items : List Json)
    {s : ReadState} (h : s.Sound) : (readEach read items).Settles s fun _ _ => True := by
  induction items generalizing s with
  | nil => exact (ensures_pure h trivial).settles
  | cons v items ih => exact (hread v s h).attempt.bind fun _ s₁ h₁ _ => ih h₁

/-- Without a fault, no parameter has type unit. -/
def ReadState.NoUnit (s : ReadState) (params : List Param) : Prop :=
  s.faults = #[] → ∀ p ∈ params, p.type ≠ Builtin.unit.id

theorem ReadState.Advances.noUnit {s' : ReadState} (h : s.Advances s') {params : List Param}
    (hparams : s.NoUnit params) : s'.NoUnit params :=
  fun hf => hparams (h.faults hf)

theorem ensures_readParam [Json.Library] (h : s.Sound) (file : UInt32) (fnSpan : Span) (v : Json) :
    (readParam file fnSpan v).Ensures s fun p s' => s'.faults = #[] → p.type ≠ Builtin.unit.id := by
  unfold readParam
  split
  · refine (ensures_parseType h _ _).attempt.bind fun t? s₁ h₁ _ => ?_
    extract_lets t finish withMode
    have hfinish (s₂ : ReadState) (h₂ : s₂.Sound) (ht : s₂.faults = #[] → t ≠ Builtin.unit.id)
        (p : PassMode × Bool) :
        (finish p).Ensures s₂ fun p s' => s'.faults = #[] → p.type ≠ Builtin.unit.id :=
      ensures_pure h₂ ht
    have hwithMode (s₂ : ReadState) (h₂ : s₂.Sound) (ht : s₂.faults = #[] → t ≠ Builtin.unit.id)
        (u : Unit) :
        (withMode u).Ensures s₂ fun p s' => s'.faults = #[] → p.type ≠ Builtin.unit.id := by
      unfold withMode
      split
      · exact hfinish s₂ h₂ ht (.owned, false)
      · split
        · exact hfinish s₂ h₂ ht _
        · refine (ensures_malformed h₂ _ _).bind fun _ s₃ h₃ _ => ?_
          exact hfinish s₃ h₃.sound (fun hf => ht (h₃.faults hf)) (.owned, false)
    refine (ensures_types h₁.sound).bind ?_
    rintro _ s₂ h₂ rfl
    split
    · refine (ensures_malformed h₂.sound _ _).bind fun u s₃ h₃ hfault => ?_
      exact hwithMode s₃ h₃.sound (fun hf => absurd hf hfault) u
    · rename_i hunit
      refine hwithMode s₂ h₂.sound (fun _ heq => hunit ?_) ()
      rw [heq]
      exact h₂.sound.types.standard.isBuiltin .unit
  · exact ensures_failMalformed h

theorem ensures_readParams [Json.Library] (file : UInt32) (fnSpan : Span) (items : List Json)
    {s : ReadState} (h : s.Sound) :
    (readParams file fnSpan items).Ensures s fun ps s' => s'.NoUnit ps := by
  induction items generalizing s with
  | nil => exact ensures_pure h fun _ => nofun
  | cons v items ih =>
    refine (ensures_readParam h file fnSpan v).attempt.bind fun p? s₁ h₁ hp => ?_
    refine (ih h₁.sound).bind fun ps s₂ h₂ hps => ensures_pure h₂.sound fun hf p hmem => ?_
    rcases List.mem_append.mp hmem with hmem | hmem
    · exact hp p (Option.mem_toList.mp hmem) (h₂.faults hf)
    · exact hps hf p hmem

theorem ensures_readAttrs (span : Span) (items : List Json) {s : ReadState} (h : s.Sound) :
    (readAttrs span items).Ensures s fun _ _ => True := by
  induction items generalizing s with
  | nil => exact ensures_pure h trivial
  | cons v items ih =>
    unfold readAttrs
    split
    · rename_i heq
      cases heq
    · rename_i heq
      obtain ⟨rfl, rfl⟩ := List.cons.inj heq
      exact (ih h).bind fun attrs s₁ h₁ _ => ensures_pure h₁.sound trivial
    · rename_i heq
      obtain ⟨rfl, rfl⟩ := List.cons.inj heq
      exact (ensures_malformed h _ _).bind fun _ s₁ h₁ _ => ih h₁.sound

/-- A signature has no body yet, and none of its parameters has type unit. -/
theorem ensures_readSignature [Json.Library] (h : s.Sound) (file : UInt32)
    (functions : Array Function) (o : Json) :
    (readSignature file functions o).Ensures s fun f s' => f.body = [] ∧ s'.NoUnit f.params := by
  unfold readSignature
  extract_lets span named
  have hnamed (s₁ : ReadState) (h₁ : s₁.Sound) (name : String) :
      (named name).Ensures s₁ fun f s' => f.body = [] ∧ s'.NoUnit f.params := by
    unfold named
    extract_lets finish declared
    have hfinish (s₂ : ReadState) (h₂ : s₂.Sound) (ret : TypeId) :
        (finish ret).Ensures s₂ fun f s' => f.body = [] ∧ s'.NoUnit f.params := by
      refine (ensures_readAttrs span _ h₂).bind fun attrs s₃ h₃ _ => ?_
      exact (ensures_readParams file span _ h₃.sound).bind fun ps s₄ h₄ hps =>
        ensures_pure h₄.sound ⟨rfl, hps⟩
    have hdeclared (s₂ : ReadState) (h₂ : s₂.Sound) (u : Unit) :
        (declared u).Ensures s₂ fun f s' => f.body = [] ∧ s'.NoUnit f.params := by
      unfold declared
      split
      · exact (ensures_parseType h₂ _ _).attempt.bind fun t s₃ h₃ _ => hfinish s₃ h₃.sound _
      · exact hfinish s₂ h₂ _
    split
    · exact (ensures_report h₁ _ _ _).bind fun u s₂ h₂ _ => hdeclared s₂ h₂.sound u
    · exact hdeclared s₁ h₁ ()
  split
  · exact hnamed s h _
  · exact (ensures_malformed h _ _).bind fun _ s₁ h₁ _ => hnamed s₁ h₁.sound _

theorem ensures_readSignatures [Json.Library] (file : UInt32) (items : List Json)
    (functions : Array Function) {s : ReadState} (h : s.Sound) :
    (readSignatures file functions items).Ensures s fun fs s' =>
      ∀ p ∈ fs, p.1.body = [] ∧ s'.NoUnit p.1.params := by
  induction items generalizing s functions with
  | nil => exact ensures_pure h nofun
  | cons v items ih =>
    unfold readSignatures
    split
    · refine (ensures_readSignature h file functions _).bind fun f s₁ h₁ hf => ?_
      refine (ih _ h₁.sound).bind fun fs s₂ h₂ hfs => ensures_pure h₂.sound fun p hp => ?_
      rcases List.mem_cons.mp hp with rfl | hp
      · exact ⟨hf.1, h₂.noUnit hf.2⟩
      · exact hfs p hp
    · exact (ensures_malformed h _ _).bind fun _ s₁ h₁ _ => ih _ h₁.sound

/-! ## Bodies -/

theorem ensures_bindParams (sig : FuncId → Option Signature) (params : List Param) {s : ReadState}
    (h : s.Sound) (hparams : s.NoUnit params) :
    (bindParams params).Ensures s fun ps s' => (∀ p ∈ ps, (s'.context sig).Bound p) ∧
      (ps.map fun p => (p.type, p.pass)) = params.map fun p => (p.type, p.pass) := by
  induction params generalizing s with
  | nil => exact ensures_pure h ⟨nofun, rfl⟩
  | cons p params ih =>
    unfold bindParams
    refine (ensures_declare h _ fun hf => hparams hf p List.mem_cons_self).bind
      fun sym s₁ h₁ hsym => ?_
    have hrest := h₁.noUnit fun hf q hq => hparams hf q (List.mem_cons_of_mem _ hq)
    refine (ih h₁.sound hrest).bind fun ps s₂ h₂ ⟨hbound, hps⟩ => ?_
    refine ensures_pure h₂.sound ⟨fun q hq => ?_, by rw [List.map_cons, hps, List.map_cons]⟩
    rcases List.mem_cons.mp hq with rfl | hq
    · exact ⟨_, h₂.symbols _ _ hsym, rfl, rfl⟩
    · exact hbound q hq

/-- A body is read without a change to the signature. -/
theorem typed_readBody [Json.Library] (fuel : Nat) {ctx : ReadContext} (hdepth : ctx.loopDepth = 0)
    {f : Function} (hbody : f.body = []) (o : Json) (h : s.Sound) (hparams : s.NoUnit f.params) :
    (readBody fuel ctx f o).Ensures s fun f' s' =>
      f'.signature = f.signature ∧ f'.Typed (s'.context ctx.signature) := by
  unfold readBody
  refine Ensures.inScope h ?_ fun _ _ _ hf => hf
  refine (ensures_bindParams ctx.signature f.params h hparams).bind fun ps s₁ h₁ ⟨hbound, hps⟩ => ?_
  split
  · refine (ensures_malformed h₁.sound _ _).bind fun _ s₂ h₂ _ => ensures_pure h₂.sound ⟨?_, ?_, ?_⟩
    · unfold Function.signature
      rw [hps]
    · intro p hp
      obtain ⟨symbol, hsymbol, hrest⟩ := hbound p hp
      exact ⟨symbol, h₂.symbols _ _ hsymbol, hrest⟩
    · intro stmt hstmt
      rw [hbody] at hstmt
      cases hstmt
  · refine (typed_readBlock fuel { ctx with ret := f.ret } _ h₁.sound).bind
      fun body s₂ h₂ hstmts => ?_
    refine ensures_pure h₂.sound ⟨?_, ?_, ?_⟩
    · unfold Function.signature
      rw [hps]
    · intro p hp
      obtain ⟨symbol, hsymbol, hrest⟩ := hbound p hp
      exact ⟨symbol, h₂.symbols _ _ hsymbol, hrest⟩
    · intro stmt hstmt
      have := hstmts stmt hstmt
      unfold ReadContext.Types at this
      rw [hdepth] at this
      exact this

theorem typed_readBodies [Json.Library] (fuel : Nat) {ctx : ReadContext}
    (hdepth : ctx.loopDepth = 0) (fs : List (Function × Json)) {s : ReadState} (h : s.Sound)
    (hfs : ∀ p ∈ fs, p.1.body = [] ∧ s.NoUnit p.1.params) :
    (readBodies fuel ctx fs).Ensures s fun fs' s' =>
      fs'.map (·.signature) = fs.map (·.1.signature) ∧
          ∀ f ∈ fs', f.Typed (s'.context ctx.signature) := by
  induction fs generalizing s with
  | nil => exact ensures_pure h ⟨rfl, nofun⟩
  | cons p fs ih =>
    obtain ⟨f, o⟩ := p
    unfold readBodies
    obtain ⟨hbody, hparams⟩ := hfs _ List.mem_cons_self
    refine (typed_readBody fuel hdepth hbody o h hparams).bind fun f' s₁ h₁ ⟨hsig, hf'⟩ => ?_
    refine (ih h₁.sound fun p hp => ?_).bind fun fs' s₂ h₂ ⟨hsigs, hfs'⟩ => ?_
    · obtain ⟨hbody, hparams⟩ := hfs p (List.mem_cons_of_mem _ hp)
      exact ⟨hbody, h₁.noUnit hparams⟩
    refine ensures_pure h₂.sound ⟨by rw [List.map_cons, hsig, hsigs, List.map_cons], fun g hg => ?_⟩
    rcases List.mem_cons.mp hg with rfl | hg
    · exact hf'.mono (h₂.context _)
    · exact hfs' g hg

/-! ## Documents -/

/-- Functions that are read are typed by their own signatures. -/
theorem typed_readFunctions [Json.Library] (h : s.Sound) (file : UInt32) (root : Json)
    (items : List Json) :
    (readFunctions file root items).Ensures s fun fs s' => ∀ f ∈ fs,
      f.Typed (s'.context fun id => (fs.toArray[id]?).map (·.signature)) := by
  unfold readFunctions
  refine (ensures_readSignatures file items #[] h).bind fun signatures s₁ h₁ hsignatures => ?_
  extract_lets ctx
  refine (typed_readBodies (nesting root + 1) rfl signatures h₁.sound hsignatures).imp
    fun fs s₂ _ ⟨hsigs, hfs⟩ => ?_
  have hctx : ctx.signature = fun id => (fs.toArray[id]?).map (·.signature) := by
    funext id
    unfold ReadContext.signature
    rw [List.getElem?_toArray, List.getElem?_toArray, ← List.getElem?_map,
      ← List.getElem?_map, hsigs, List.map_map]
    rfl
  rw [← hctx]
  exact hfs

/-- Without a fault, the module that is read is typed. -/
theorem typed_readModule [Json.Library] (h : s.Sound) (file : UInt32) (root : Json) :
    (readModule file root).Settles s fun m s' => s'.faults = #[] → m.Typed s'.types := by
  unfold readModule
  split
  · refine (ensures_malformed h _ _).settles.bind fun _ s₁ h₁ hfault => ?_
    exact (ensures_pure h₁ fun hf => absurd hf hfault).settles
  · refine (settles_readEach (fun v s h => settles_readStruct h file v) _ h).bind
      fun _ s₁ h₁ _ => ?_
    split
    · refine (ensures_malformed h₁ _ _).settles.bind fun _ s₂ h₂ hfault => ?_
      exact (ensures_pure h₂ fun hf => absurd hf hfault).settles
    · refine (typed_readFunctions h₁ file root _).settles.bind fun fs s₂ h₂ hfs => ?_
      have hget : Settles (get : Read ReadState) s₂ fun s₀ s' => s₀ = s₂ ∧ s' = s₂ :=
        ⟨h₂, fun _ h₀ => ⟨(Option.some.inj h₀).symm, rfl⟩⟩
      refine hget.bind ?_
      rintro _ _ h₃ ⟨rfl, rfl⟩
      refine (ensures_pure h₃ fun hf => ⟨fun f hf => ?_, h₃.symbols hf⟩).settles
      exact hfs f (List.mem_toArray.mp hf)

/-- The types of a document are sound, and the module of one that is accepted is typed. -/
theorem typed_readDocument [Json.Library] (text docName : String) {types : TypePool}
    (htypes : types.Sound) (sources : Sources) :
    (readDocument text docName types sources).types.Sound ∧
      ((readDocument text docName types sources).ok = true →
        (readDocument text docName types sources).module.Typed
          (readDocument text docName types sources).types) := by
  unfold readDocument
  split
  · exact ⟨htypes, nofun⟩
  · split
    · rename_i fields _
      obtain ⟨name, content⟩ := sourceOf docName (.object fields)
      dsimp only
      obtain ⟨file, sources⟩ := sources.add name content
      have hmodule := typed_readModule (s := { types }) ⟨htypes, nofun, fun _ => nofun⟩ file
        (.object fields)
      cases hrun : (readModule file (.object fields)).run { types } with
      | mk m? s' =>
        unfold Settles at hmodule
        rw [hrun] at hmodule
        refine ⟨hmodule.1.types, fun hok => ?_⟩
        have hfaults : s'.faults = #[] := by
          have hempty : s'.faults.toList.isEmpty = true := hok
          exact Array.toList_eq_nil_iff.mp (List.isEmpty_iff.mp hempty)
        cases m? with
        | none => exact ⟨nofun, nofun⟩
        | some m => exact hmodule.2 m rfl hfaults
    · exact ⟨htypes, nofun⟩

end ContractCompiler.Hir
