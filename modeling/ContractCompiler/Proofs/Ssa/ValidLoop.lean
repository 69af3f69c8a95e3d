import ContractCompiler.Proofs.Ssa.ValidStmt

/-!
# The code of loops is valid

The header of a loop has a parameter for every binding that the loop carries, and so has its exit
for those that are read later. What is known before the loop is known in the header; what is known
after the condition is known in the body and at the exit, so that every jump out of the body may
lead there.

- `Code.addParams`: a block with a parameter for each of some bindings;
- `Builder.Ready.enterLoop`: going on in the header of a loop;
- `Builder.Ready.splitLoop`: branching to the body and to the exit;
- `lowersStmtTo_loop`: the code of a loop is valid;
- `lowersStmtTo_of_typed`: the code of every typed statement is valid.
-/

namespace ContractCompiler.Ssa

open Hir (Expr Stmt SymbolId PassMode)
open Build Code

variable {K : BodyContext} {Γ : Hir.TypeContext} {A A₁ A₂ : Avail} {b b₁ b₂ : Builder}
  {k k₁ k₂ : BlockId}

/-! ## Parameters -/

namespace Code

variable {c : Code} {j : BlockId}

/-- Gives a block further parameters. -/
def addParams (c : Code) (k : BlockId) : List (TypeId × Span) → Code
  | [] => c
  | p :: ps => (c.addParam k p.1 p.2).addParams k ps

theorem size_addParam (c : Code) (k : BlockId) (p : TypeId × Span) :
    (c.addParam k p.1 p.2).blocks.size = c.blocks.size :=
  Array.size_modify

theorem grows_addParams (A : Avail) (hk : k < c.blocks.size) (ps : List (TypeId × Span)) :
    Grows A c A (c.addParams k ps) := by
  induction ps generalizing c with
  | nil => exact .refl _ _
  | cons p ps ih => exact (grows_addParam c k p.1 p.2 A hk).trans (ih (by rwa [size_addParam]))

theorem addParams_close (h : k ≠ j) (t : Terminator) (ps : List (TypeId × Span)) :
    (c.close j t).addParams k ps = (c.addParams k ps).close j t := by
  induction ps generalizing c with
  | nil => rfl
  | cons p ps ih =>
    unfold addParams
    rw [addParam_close c h, ih]

theorem block_addParams_of_ne (h : j ≠ k) (ps : List (TypeId × Span)) :
    (c.addParams k ps).block j = c.block j := by
  induction ps generalizing c with
  | nil => rfl
  | cons p ps ih => exact ih.trans (block_addParam_of_ne c k p.1 p.2 j h)

theorem EdgesFrom.addParams {target : BlockId} {sources : List BlockId}
    (h : c.EdgesFrom target sources) (ps : List (TypeId × Span)) :
    (c.addParams k ps).EdgesFrom target sources := by
  induction ps generalizing c with
  | nil => exact h
  | cons p ps ih =>
    refine ih fun j hj t ht => h j hj t ?_
    rwa [term_addParam] at ht

/-- The parameters that were added have numbers from the first one that was free. -/
theorem params_addParams (hk : k < c.blocks.size) (ps : List (TypeId × Span)) :
    ((c.addParams k ps).block k).params =
      (c.block k).params ++ List.range' c.values.size ps.length := by
  induction ps generalizing c with
  | nil => exact (List.append_nil _).symm
  | cons p ps ih =>
    have hsize : (c.addParam k p.1 p.2).values.size = c.values.size + 1 := Array.size_push _
    refine (ih (by rwa [size_addParam])).trans ?_
    rw [params_addParam_self c k p.1 p.2 hk, hsize, List.append_assoc, List.length_cons,
      List.range'_succ]
    rfl

/-- The parameters that were added are defined by the block; they are cells where the entry takes
them exclusively. -/
theorem kind?_addParams (hk : k < c.blocks.size) (ps : List (TypeId × Span)) {i : Nat}
    {p : TypeId × Span} (hp : ps[i]? = some p) : (c.addParams k ps).Defines k (c.values.size + i) ∧
      (c.addParams k ps).kind? K (c.values.size + i) = some (p.1, decide (k = K.entry) &&
        decide (K.modes[(c.block k).params.length + i]? = some .exclusive)) := by
  induction ps generalizing c i with
  | nil => cases hp
  | cons q ps ih =>
    have hk' : k < (c.addParam k q.1 q.2).blocks.size := by rwa [size_addParam]
    cases i with
    | zero =>
      obtain rfl := Option.some.inj hp
      have hg := grows_addParams (c := c.addParam k q.1 q.2) (fun _ _ => True) hk' ps
      exact ⟨hg.defines _ _ (defines_addParam c k q.1 q.2 hk),
        hg.kind? (kind?_addParam c k q.1 q.2 K)⟩
    | succ i =>
      have hsize : (c.addParam k q.1 q.2).values.size = c.values.size + 1 := Array.size_push _
      have hlength : ((c.addParam k q.1 q.2).block k).params.length =
          (c.block k).params.length + 1 := by
        rw [params_addParam_self c k q.1 q.2 hk, List.length_append]
        rfl
      have := ih hk' hp
      rw [hsize, hlength, Nat.add_right_comm, Nat.add_right_comm _ 1] at this
      exact this

/-- Parameters of another block than the entry are no cells. -/
theorem kinds_addParams (hk : k < c.blocks.size) (hne : k ≠ K.entry) (ps : List (TypeId × Span)) :
    List.Forall₂ (fun v (p : TypeId × Span) => (c.addParams k ps).Defines k v ∧
      (c.addParams k ps).kind? K v = some (p.1, false))
        (List.range' c.values.size ps.length) ps := by
  refine List.forall₂_iff_get.mpr ⟨List.length_range', fun i hi hi' => ?_⟩
  have hparam := kind?_addParams (K := K) hk ps (List.getElem?_eq_getElem hi')
  rw [decide_eq_false hne, Bool.false_and] at hparam
  simpa using hparam

end Code

theorem Part.addParams {c : Code} {todo : List BlockId} {j : BlockId} (h : Part K A b k A₁ c todo)
    (hj : j ∈ c.owned) (hle : b.code.blocks.size ≤ j) (hfrom : c.EdgesFrom j [])
    (ps : List (TypeId × Span)) : Part K A b k A₁ (c.addParams j ps) todo := by
  induction ps generalizing c with
  | nil => exact h
  | cons p ps ih => exact ih (h.addParam hj hle hfrom p.1 p.2) hj (hfrom.addParams [p])

/-- What a parameter for a binding is given. -/
def paramOf (K : BodyContext) (sym : SymbolId) : TypeId × Span := (bindingType K.symbols sym, {})

theorem leads_addJoinParam (block : BlockId) (type : TypeId) :
    (addJoinParam block type).Leads b fun p b' => p = b.values.size ∧
      b'.code = b.code.addParam block type {} ∧ b.Agrees b' ∧ b'.current = b.current := by
  refine ⟨rfl, ?_, ⟨rfl, rfl, rfl⟩, rfl⟩
  unfold Code.addParam
  rw [← Builder.params_length]
  rfl

theorem leads_joinParamsFor (block : BlockId) (syms : List SymbolId) {b : Builder}
    (hsyms : ∀ s ∈ syms, ∃ v, b.env.getD s none = some v ∧
      typeIn b.values v = some (bindingType K.symbols s)) :
    (joinParamsFor block syms).Leads b fun ps b' =>
      ps = syms.zip (List.range' b.code.values.size syms.length) ∧
        b'.code = b.code.addParams block (syms.map (paramOf K)) ∧ b.Agrees b' ∧
        b'.current = b.current := by
  induction syms generalizing b with
  | nil => exact leads_pure ⟨rfl, rfl, .refl _, rfl⟩
  | cons s syms ih =>
    obtain ⟨v, hv, ht⟩ := hsyms s List.mem_cons_self
    unfold joinParamsFor
    refine leads_valueOf ?_
    rw [hv]
    refine leads_typeOf ht ((leads_addJoinParam block _).bind fun p b₁ hp => ?_)
    obtain ⟨rfl, hcode, hagrees, hcurrent⟩ := hp
    have hvalues : b₁.code.values.size = b.code.values.size + 1 := by
      rw [hcode]
      exact Array.size_push _
    refine (ih fun s' hs' => ?_).bind fun ps b₂ hps => ?_
    · obtain ⟨v', hv', ht'⟩ := hsyms s' (List.mem_cons_of_mem _ hs')
      obtain ⟨value, hvalue, htype⟩ := Option.map_eq_some_iff.mp ht'
      refine ⟨v', by rw [hagrees.env, hv'], Option.map_eq_some_iff.mpr ⟨value, ?_, htype⟩⟩
      rw [show b₁.values = _ from congrArg Code.values hcode]
      exact getElem?_push_of_some hvalue
    · obtain ⟨rfl, hcode₂, hagrees₂, hcurrent₂⟩ := hps
      refine leads_pure ⟨?_, ?_, hagrees.trans hagrees₂, hcurrent₂.trans hcurrent⟩
      · rw [hvalues, List.length_cons, List.range'_succ]
        rfl
      · rw [hcode₂, hcode]
        rfl

/-- Bindings take the values of parameters. -/
def bindAll (env : Bindings) : List (SymbolId × ValueId) → Bindings
  | [] => env
  | p :: ps => bindAll (env.setIfInBounds p.1 (some p.2)) ps

theorem leads_bindParams (ps : List (SymbolId × ValueId)) {b : Builder} :
    (bindParams ps).Leads b fun _ b' => b' = { b with env := bindAll b.env ps } := by
  induction ps generalizing b with
  | nil => exact leads_pure rfl
  | cons p ps ih =>
    unfold bindParams
    exact leads_bind ih

theorem Code.Holds.bindAll {c : Code} {env : Bindings} (h : c.Holds K A k env)
    (ps : List (SymbolId × ValueId)) (hps : ∀ p ∈ ps, isReference K.symbols p.1 = false ∧
      c.Known A k p.2 ∧ c.kind? K p.2 = some (bindingType K.symbols p.1, false)) :
    c.Holds K A k (bindAll env ps) := by
  induction ps generalizing env with
  | nil => exact h
  | cons p ps ih =>
    obtain ⟨hsym, hknown, hkind⟩ := hps p List.mem_cons_self
    refine ih (h.set hsym (some p.2) fun v hv => ?_)
      fun p' hp' => hps p' (List.mem_cons_of_mem _ hp')
    obtain rfl := Option.some.inj hv
    exact ⟨hknown, binds_of_kind? hkind hsym⟩

theorem size_bindAll (env : Bindings) (ps : List (SymbolId × ValueId)) :
    (bindAll env ps).size = env.size := by
  induction ps generalizing env with
  | nil => rfl
  | cons p ps ih => exact (ih _).trans Array.size_setIfInBounds

/-- Bindings that have values or get them have some. -/
theorem isSome_bindAll {env : Bindings} (ps : List (SymbolId × ValueId)) {sym : SymbolId}
    (hlt : sym < env.size) (h : (env.getD sym none).isSome = true ∨ sym ∈ ps.map (·.1)) :
    ((bindAll env ps).getD sym none).isSome = true := by
  induction ps generalizing env with
  | nil => exact h.resolve_right List.not_mem_nil
  | cons p ps ih =>
    refine ih (by rwa [Array.size_setIfInBounds]) ?_
    by_cases heq : sym = p.1
    · refine .inl ?_
      rw [← heq, getD_set_self hlt]
      rfl
    · rw [getD_set_of_ne heq]
      exact h.imp_right fun hmem => (List.mem_cons.mp hmem).resolve_left heq

/-- Bindings lose their values. -/
def forget (env : Bindings) (syms : List SymbolId) : Bindings :=
  syms.foldl (fun env s => env.setIfInBounds s none) env

theorem Code.Holds.forget {c : Code} {env : Bindings} (h : c.Holds K A k env) (syms : List SymbolId)
    (hsyms : ∀ s ∈ syms, isReference K.symbols s = false) : c.Holds K A k (forget env syms) := by
  induction syms generalizing env with
  | nil => exact h
  | cons s syms ih =>
    exact ih (h.set (hsyms s List.mem_cons_self) none nofun)
      fun s' hs' => hsyms s' (List.mem_cons_of_mem _ hs')

theorem size_forget (env : Bindings) (syms : List SymbolId) :
    (forget env syms).size = env.size := by
  induction syms generalizing env with
  | nil => rfl
  | cons s syms ih => exact (ih _).trans Array.size_setIfInBounds

theorem getD_forget {env : Bindings} {syms : List SymbolId} {sym : SymbolId} (h : sym ∉ syms) :
    (forget env syms).getD sym none = env.getD sym none := by
  induction syms generalizing env with
  | nil => rfl
  | cons s syms ih =>
    obtain ⟨hne, hnot⟩ := not_or.mp (mt List.mem_cons.mpr h)
    exact (ih hnot).trans (getD_set_of_ne hne none)

/-! ## Jumps -/

/-- The values of bindings, to be passed along an edge. -/
def Builder.valuesOf (b : Builder) (syms : List SymbolId) : List ValueId :=
  syms.map fun s => (b.env.getD s none).getD invalidId

theorem leads_valuesOf {α : Type} {syms : List SymbolId} {f : List ValueId → Build α}
    {Q : α → Builder → Prop} (h : (f (b.valuesOf syms)).Leads b Q) :
    (Build.valuesOf syms >>= f).Leads b Q := h

theorem leads_jumpWith {α : Type} {target : BlockId} {syms : List SymbolId} {f : Unit → Build α}
    {Q : α → Builder → Prop} (h : (f ()).Leads (b.ended (.jump target (b.valuesOf syms))) Q) :
    (jumpWith target syms >>= f).Leads b Q := h

/-- Bindings that have values and are no references. -/
def Builder.Carries (K : BodyContext) (b : Builder) (syms : List SymbolId) : Prop :=
  ∀ s ∈ syms, (b.env.getD s none).isSome = true ∧ isReference K.symbols s = false

/-- What is passed for bindings is known, and of the types of the bindings. -/
theorem Builder.Ready.valuesOf (h : b.Ready K A k) {syms : List SymbolId}
    (hsyms : b.Carries K syms) :
    List.Forall₂ (fun v s => b.code.Known A k v ∧
      b.code.kind? K v = some (bindingType K.symbols s, false)) (b.valuesOf syms) syms := by
  refine List.forall₂_map_left_iff.mpr (List.forall₂_same.mpr fun s hs => ?_)
  obtain ⟨hsome, href⟩ := hsyms s hs
  obtain ⟨v, hv, hknown, hbinds⟩ := h.exists_value hsome
  rw [hv]
  exact ⟨hknown, hbinds.kind? href⟩

theorem Code.matches_of_types {c : Code} {vs : List ValueId} {syms : List SymbolId}
    {target : BlockId}
    (hvs : List.Forall₂ (fun v s => c.kind? K v = some (bindingType K.symbols s, false)) vs syms)
    (hparams : List.Forall₂ (fun p s => typeIn c.values p = some (bindingType K.symbols s))
      (c.block target).params syms) : c.Matches vs target := by
  refine List.forall₂_iff_get.mpr ⟨hvs.length_eq.trans hparams.length_eq.symm, fun i hi hi' => ?_⟩
  have hi'' : i < syms.length := hvs.length_eq ▸ hi
  exact ⟨_, typeIn_of_kind? (hvs.get hi hi''), hparams.get hi' hi''⟩

/-- The values that are passed along an edge are known. -/
theorem Builder.Ready.uses_valuesOf (h : b.Ready K A k) {syms : List SymbolId}
    (hsyms : b.Carries K syms) {v : ValueId} (hv : v ∈ b.valuesOf syms) :
    b.code.Known A k v ∧ b.code.Plain K v := by
  obtain ⟨i, hi⟩ := List.getElem?_of_mem hv
  obtain ⟨s, -, hknown, hkind⟩ := getElem?_of_forall₂ (h.valuesOf hsyms) hi
  exact ⟨hknown, _, hkind⟩

/-- A jump to where a loop goes on or ends. -/
theorem Builder.Ready.jumpOut (h : b.Ready K A k) {l : LoopFrame} (hl : l ∈ b.loops)
    {target : BlockId} {syms : List SymbolId}
    (htarget : target = l.header ∧ syms = l.carried ∨ target = l.exit ∧ syms = l.leaving) :
    Adds K A b k A (b.ended (.jump target (b.valuesOf syms))) := by
  have hl' := h.loops l hl
  have hone : target = l.header ∨ target = l.exit := htarget.imp And.left And.left
  obtain ⟨howned, hentry, -, havail⟩ := hl'.targets target hone
  have hsyms : b.Carries K syms := by
    intro s hs
    have hcarried : s ∈ l.carried := by
      rcases htarget with ⟨-, rfl⟩ | ⟨-, rfl⟩
      · exact hs
      · exact hl'.leaving s hs
    exact ⟨hl'.bound s hcarried, hl'.carried s hcarried⟩
  have hparams : List.Forall₂ (fun p s => typeIn b.code.values p = some (bindingType K.symbols s))
      (b.code.block target).params syms := by
    rcases htarget with ⟨rfl, rfl⟩ | ⟨rfl, rfl⟩
    · exact hl'.header
    · exact hl'.exit
  have hargs := matches_of_types ((h.valuesOf hsyms).imp fun _ _ hv => hv.2) hparams
  refine h.ended ⟨fun v hv => h.uses_valuesOf hsyms hv, fun e he => ?_, nofun, nofun⟩ fun e he => ?_
  · rw [List.mem_singleton.mp he]
    exact ⟨howned, hentry, havail, hargs⟩
  · rw [List.mem_singleton.mp he]
    exact .inr ⟨l, hl, hone⟩

/-- The code of a statement that jumps to where a loop goes on or ends. -/
theorem lowersStmtTo_jump {s : Stmt} (target : LoopFrame → BlockId)
    (syms : LoopFrame → List SymbolId) (hcode : lowerStmt K.functions K.symbols s = (do
      match (← get).loops with
      | [] => return ()
      | l :: _ => jumpWith (target l) (syms l)))
    (hbinds : s.binds = [])
    (htarget : ∀ l, target l = l.header ∧ syms l = l.carried ∨ target l = l.exit ∧
      syms l = l.leaving) :
    LowersStmtTo K Γ true s := by
  intro A b k scope h _ _ _ hloop _
  rw [hcode]
  refine leads_get ?_
  split
  · rename_i hnil
    exact absurd hnil (hloop rfl)
  · rename_i l ls hloops
    have hl : l ∈ b.loops := by
      rw [hloops]
      exact List.mem_cons_self
    refine ⟨A, h.jumpOut hl (htarget l), fun _ => rfl, fun sym hsym => ?_⟩
    rw [hbinds] at hsym
    cases hsym

/-! ## Headers and exits -/

/-- A block has a parameter for each of some bindings. -/
def Code.Carries (K : BodyContext) (c : Code) (k : BlockId) (syms : List SymbolId) : Prop :=
  List.Forall₂ (fun p s => c.Defines k p ∧ c.kind? K p = some (bindingType K.symbols s, false))
    (c.block k).params syms

theorem Code.Carries.mono {c c' : Code} (hg : Grows A c A₁ c')
    (hparams : (c'.block k).params = (c.block k).params) {syms : List SymbolId}
    (h : c.Carries K k syms) : c'.Carries K k syms := by
  unfold Code.Carries
  rw [hparams]
  exact h.imp fun _ _ hp => ⟨hg.defines _ _ hp.1, hg.kind? hp.2⟩

/-- A new block gets parameters for bindings, so that an edge may lead there with the values of
these. -/
theorem Part.carry {c : Code} {todo : List BlockId} {j : BlockId} (h : Part K A b k A₁ c todo)
    (hj : j ∈ todo) (hle : b.code.blocks.size ≤ j) (hempty : c.Empty A₁ j)
    (hfrom : c.EdgesFrom j []) {syms : List SymbolId} (hsyms : b.Carries K syms) :
    Part K A b k A₁ (c.addParams j (syms.map (paramOf K))) todo ∧
      (c.addParams j (syms.map (paramOf K))).Carries K j syms ∧
        (c.addParams j (syms.map (paramOf K))).EdgeValid K A₁ k (j, b.valuesOf syms) ∧
          ((c.addParams j (syms.map (paramOf K))).block j).params =
            List.range' c.values.size syms.length := by
  obtain ⟨howned, -, -⟩ := h.unended j hj
  have hlt := (h.valid.owned j howned).2
  have hpart := h.addParams howned hle hfrom (syms.map (paramOf K))
  have hparams := params_addParams hlt (syms.map (paramOf K))
  rw [hempty.1, List.nil_append] at hparams
  have hcarries := kinds_addParams hlt (h.ne_entry hle) (syms.map (paramOf K))
  rw [← hparams, List.forall₂_map_right_iff] at hcarries
  have hargs := matches_of_types ((h.base.valuesOf hsyms).imp fun _ _ hv => hpart.grows.kind? hv.2)
    (hcarries.imp fun _ _ hp => typeIn_of_kind? hp.2)
  rw [List.length_map] at hparams
  exact ⟨hpart, hcarries, ⟨(hpart.unended j hj).1, h.ne_entry hle,
    fun v hv => absurd hv (hempty.2 v), hargs⟩,
    hparams⟩

/-- Where a loop begins: what is known before it is known in its header, which has a parameter for
every binding that is carried. -/
structure LoopEntered (K : BodyContext) (A : Avail) (b : Builder) (k : BlockId) (A' : Avail)
    (b' : Builder) (header : BlockId) (syms : List SymbolId) : Prop where
  goes : Goes K A b k A' b' header
  le : b.code.blocks.size ≤ header
  known : ∀ v, A' header v → b.code.Known A k v
  carries : b'.code.Carries K header syms
  params : (b'.code.block header).params = List.range' b.code.values.size syms.length

theorem Builder.Ready.enterLoop (h : b.Ready K A k) {syms : List SymbolId}
    (hsyms : b.Carries K syms) (hcode : b₁.code =
      (b.code.addBlock.close k (.jump b.code.blocks.size (b.valuesOf syms))).addParams
      b.code.blocks.size (syms.map (paramOf K)))
    (hcurrent : b₁.current = some b.code.blocks.size) (hagrees : b.Agrees b₁) :
    ∃ A₁, LoopEntered K A b k A₁ b₁ b.code.blocks.size syms := by
  have h₁ := (Part.refl h).addBlock
  have hempty := h.valid.empty_addBlock
  have hfrom := h.valid.edgesFrom_addBlock
  have hne := h₁.ne_start (Nat.le_refl _)
  rw [addParams_close hne] at hcode
  generalize hheader : b.code.blocks.size = header at *
  have hle : b.code.blocks.size ≤ header := hheader.le
  obtain ⟨h₂, hcarries, hedge, hparams⟩ := h₁.carry List.mem_cons_self hle hempty hfrom hsyms
  have hfrom₂ := hfrom.addParams (k := header) (syms.map (paramOf K))
  generalize b.code.addBlock.addParams header (syms.map (paramOf K)) = c at *
  -- the jump to the header
  have hend : c.EndValid K A k (.jump header (b.valuesOf syms)) := by
    refine ⟨fun v hv => ?_, fun e he => List.mem_singleton.mp he ▸ hedge, nofun, nofun⟩
    exact (h.uses_valuesOf hsyms hv).imp h₂.grows.known h₂.grows.plain
  have h₃ := (h₂.congr fun x => List.Perm.mem_iff (.swap header k [])).close List.mem_cons_self hend
    (fun e he => by rw [List.mem_singleton.mp he]; exact .inl hle)
    (Part.mem_iff_of_not_mem fun hmem => hne (List.mem_singleton.mp hmem).symm)
  have hfrom₃ : (c.close k (.jump header (b.valuesOf syms))).EdgesFrom header [k] :=
    hfrom₂.close nofun fun _ _ _ => List.mem_singleton.mpr rfl
  have hcarries₃ := hcarries.mono (grows_close c k (.jump header (b.valuesOf syms)) A)
      (params_close c k _ header)
  have hparams₃ := (params_close c k (.jump header (b.valuesOf syms)) header).trans hparams
  rw [← hcode] at h₃ hfrom₃ hcarries₃ hparams₃
  -- what is known before the loop is known in the header
  have h₄ := h₃.assume (S := b.code.Known A k) (h₃.unended header List.mem_cons_self).1 hle hfrom₃
    fun j hj v hv => by
      rw [List.mem_singleton.mp hj]
      exact h₃.grows.known hv
  have hhere (v : ValueId) (hv : b.code.Known A k v) :
      b₁.code.Known (A.add header (b.code.Known A k)) header v := .inl (.inr ⟨rfl, hv⟩)
  have hholds := h.holds.mono h₄.grows hhere
  rw [← hagrees.env] at hholds
  refine ⟨_, h₄.goes hcurrent hholds hhere (.of_env hagrees.env) hagrees.loops hagrees.pending, hle,
    fun v hv => ?_, hcarries₃, hparams₃⟩
  exact hv.elim (fun hv => absurd hv (hempty.2 v)) And.right

/-- Where a loop goes on in its body or ends: what is known after the condition is known in both,
and the exit has a parameter for every binding that is read later. -/
structure LoopSplit (K : BodyContext) (A : Avail) (b : Builder) (k : BlockId)
    (A' : Avail) (c : Code) (body exit : BlockId) (syms : List SymbolId) : Prop where
  part : Part K A b k A' c [body, exit]
  le_body : b.code.blocks.size ≤ body
  le_exit : b.code.blocks.size ≤ exit
  ne : body ≠ exit
  here : ∀ v, b.code.Known A k v → c.Known A' body v ∧ c.Known A' exit v
  known : ∀ v, A' exit v → b.code.Known A k v
  carries : c.Carries K exit syms
  params : (c.block exit).params = List.range' b.code.values.size syms.length

theorem Builder.Ready.splitLoop (h : b.Ready K A k) (cond : ValueId)
    (hcond : b.code.Known A k cond ∧ b.code.Plain K cond) {syms : List SymbolId}
    (hsyms : b.Carries K syms) :
    ∃ A₁, LoopSplit K A b k A₁
      ((b.code.addBlock.addBlock.addParams b.code.addBlock.blocks.size (syms.map (paramOf K))).close
        k (.branch cond b.code.blocks.size [] b.code.addBlock.blocks.size (b.valuesOf syms)))
      b.code.blocks.size b.code.addBlock.blocks.size syms := by
  have h₁ := (Part.refl h).addBlock
  have h₂ := h₁.addBlock
  have hsize : b.code.addBlock.blocks.size = b.code.blocks.size + 1 := Array.size_push _
  have hlt := h.lt_size
  have hemptybody : b.code.addBlock.addBlock.Empty A b.code.blocks.size :=
    h.valid.empty_addBlock.addBlock
  have hfrombody := h.valid.edgesFrom_addBlock.addBlock
  have hemptyexit := h₁.valid.empty_addBlock
  have hfromexit := h₁.valid.edgesFrom_addBlock
  generalize hbody : b.code.blocks.size = body at *
  generalize b.code.addBlock.blocks.size = exit at *
  have hbe : body < exit := hsize ▸ Nat.lt_succ_self body
  have hle : b.code.blocks.size ≤ body := hbody.le
  have hle' : b.code.blocks.size ≤ exit := hle.trans hbe.le
  obtain ⟨h₃, hcarries, hedge, hparams⟩ :=
    h₂.carry List.mem_cons_self hle' hemptyexit hfromexit hsyms
  have hfrombody₃ := hfrombody.addParams (k := exit) (syms.map (paramOf K))
  have hfromexit₃ := hfromexit.addParams (k := exit) (syms.map (paramOf K))
  have hemptybody₃ :
      (b.code.addBlock.addBlock.addParams exit (syms.map (paramOf K))).Empty A body :=
    ⟨(block_addParams_of_ne hbe.ne _).trans hemptybody.1, hemptybody.2⟩
  generalize b.code.addBlock.addBlock.addParams exit (syms.map (paramOf K)) = c at *
  have hbody' : body ∈ [exit, body, k] := List.mem_cons_of_mem _ List.mem_cons_self
  -- the branch
  have hend : c.EndValid K A k (.branch cond body [] exit (b.valuesOf syms)) := by
    refine ⟨fun v hv => ?_, fun e he => ?_, nofun, nofun⟩
    · rcases List.mem_cons.mp hv with rfl | hv
      · exact ⟨h₃.grows.known hcond.1, h₃.grows.plain hcond.2⟩
      · exact (h.uses_valuesOf hsyms hv).imp h₃.grows.known h₃.grows.plain
    · rcases List.mem_cons.mp he with rfl | he
      · exact hemptybody₃.edge (h₃.unended body hbody').1 (h₃.ne_entry hle) k
      · exact List.mem_singleton.mp he ▸ hedge
  have htodo (x : BlockId) : x ∈ [body, exit] ↔ x ∈ [exit, body, k] ∧ x ≠ k := by
    simp only [List.mem_cons, List.not_mem_nil, or_false]
    constructor
    · rintro (rfl | rfl)
      · exact ⟨.inr (.inl rfl), h₃.ne_start hle⟩
      · exact ⟨.inl rfl, h₃.ne_start hle'⟩
    · rintro ⟨rfl | rfl | rfl, hx⟩
      · exact .inr rfl
      · exact .inl rfl
      · exact absurd rfl hx
  have hleaves : ∀ e ∈ (Terminator.branch cond body [] exit (b.valuesOf syms)).edges,
      b.Leaves e.1 := by
    intro e he
    rcases List.mem_cons.mp he with rfl | he
    · exact .inl hle
    · exact List.mem_singleton.mp he ▸ .inl hle'
  have h₄ : Part K A b k A (c.close k (.branch cond body [] exit (b.valuesOf syms))) [body, exit] :=
    h₃.close (by simp) hend hleaves htodo
  have hg := grows_close c k (.branch cond body [] exit (b.valuesOf syms)) A
  have hcarries₄ := hcarries.mono hg (params_close c k _ exit)
  have hfrom {target : BlockId} (hfrom : c.EdgesFrom target []) :
      (c.close k (.branch cond body [] exit (b.valuesOf syms))).EdgesFrom target [k] :=
    hfrom.close nofun fun _ _ _ => List.mem_singleton.mpr rfl
  have hknown (j : BlockId) (hj : j ∈ [k]) (v : ValueId) (hv : b.code.Known A k v) :
      (c.close k (.branch cond body [] exit (b.valuesOf syms))).Known A j v := by
    rw [List.mem_singleton.mp hj]
    exact h₄.grows.known hv
  have hmem₄ : exit ∈ [body, exit] := List.mem_cons_of_mem _ List.mem_cons_self
  have h₅ := h₄.assume (S := b.code.Known A k) (h₄.unended body List.mem_cons_self).1 hle
    (hfrom hfrombody₃) hknown
  have h₆ := h₅.assume (S := b.code.Known A k) (h₅.unended exit hmem₄).1 hle' (hfrom hfromexit₃)
    fun j hj v hv => (grows_assume A _ body _).known (hknown j hj v hv)
  refine ⟨_, h₆, hle, hle', hbe.ne, fun v hv =>
    ⟨.inl (.inl (.inr ⟨rfl, hv⟩)), .inl (.inr ⟨rfl, hv⟩)⟩,
    fun v hv => ?_, hcarries₄, (params_close c k _ exit).trans hparams⟩
  rcases hv with (hv | hv) | hv
  · exact absurd hv (hemptyexit.2 v)
  · exact hv.2
  · exact hv.2

/-- The parameters of a block may be bound to what they are for. -/
theorem Code.Carries.zip {c : Code} {syms : List SymbolId} (h : c.Carries K k syms)
    {p : SymbolId × ValueId} (hp : p ∈ syms.zip (c.block k).params) :
    p.1 ∈ syms ∧ c.Defines k p.2 ∧ c.kind? K p.2 = some (bindingType K.symbols p.1, false) := by
  obtain ⟨i, hi⟩ := List.getElem?_of_mem hp
  obtain ⟨hsym, hparam⟩ := List.getElem?_zip_eq_some.mp hi
  obtain ⟨s, hs, hdefines, hkind⟩ := getElem?_of_forall₂ h hparam
  obtain rfl := Option.some.inj (hsym.symm.trans hs)
  exact ⟨List.mem_of_getElem? hsym, hdefines, hkind⟩

/-! ## Loops -/

theorem leads_liveOf (syms : List SymbolId) :
    (liveOf syms).Leads b fun live b' => live = syms.filter b.isLive ∧ b' = b := by
  induction syms with
  | nil => exact leads_pure ⟨rfl, rfl⟩
  | cons s syms ih =>
    have hlive : (isLiveAfter s).Leads b fun live b' => live = b.isLive s ∧ b' = b := ⟨rfl, rfl⟩
    unfold liveOf
    refine hlive.bind fun live b₁ hb₁ => ?_
    obtain ⟨rfl, rfl⟩ := hb₁
    refine ih.bind fun rest b₂ hb₂ => ?_
    obtain ⟨rfl, rfl⟩ := hb₂
    refine leads_pure ⟨?_, rfl⟩
    rw [List.filter_cons]

theorem carries_carriedBy (b : Builder) (rebound : List SymbolId) :
    b.Carries K (carriedBy K.symbols b.env rebound) := by
  intro s hs
  have hs := (List.mem_filter.mp hs).2
  rw [Bool.and_eq_true, Bool.not_eq_true'] at hs
  exact hs

/-- The values of bindings are of the types of the bindings. -/
theorem Builder.Ready.typed (h : b.Ready K A k) {syms : List SymbolId} (hsyms : b.Carries K syms) :
    ∀ s ∈ syms, ∃ v, b.env.getD s none = some v ∧
      typeIn b.values v = some (bindingType K.symbols s) := by
  intro s hs
  obtain ⟨hsome, href⟩ := hsyms s hs
  obtain ⟨v, hv, -, hbinds⟩ := h.exists_value hsome
  exact ⟨v, hv, typeIn_of_kind? (hbinds.kind? href)⟩

/-- The header and the exit of a loop may be jumped to from its body. -/
theorem LoopSplit.loopValid {A₃ : Avail} {c : Code} {header body exit : BlockId}
    {carried leaving : List SymbolId} (hsplit : LoopSplit K A₂ b₂ k₂ A₃ c body exit leaving)
    (hentered : LoopEntered K A b k A₁ b₁ header carried) (hgoes : Goes K A₁ b₁ header A₂ b₂ k₂)
    (hcarried : b₂.Carries K carried) (hleaving : ∀ s ∈ leaving, s ∈ carried)
    (reads : List SymbolId) :
    c.LoopValid K A₃ body b₂.env { header, exit, carried, leaving, reads } := by
  have hlt₁ := hentered.goes.ready.lt_size
  have hlt := hlt₁.trans_le hgoes.part.grows.blocks
  obtain ⟨hparams₂, hA₂⟩ := hgoes.part.keeps hlt₁
  obtain ⟨hparams₃, hA₃⟩ := hsplit.part.keeps hlt
  have hg := hgoes.part.grows.trans hsplit.part.grows
  refine ⟨fun target htarget => ?_, ?_, ?_, hleaving, fun s hs => (hcarried s hs).2,
    fun s hs => (hcarried s hs).1⟩
  · rcases htarget with rfl | rfl
    · refine ⟨hg.owned _ hentered.goes.ready.owned, hentered.goes.part.ne_entry hentered.le,
        (hlt.trans_le hsplit.le_body).ne, fun v hv => ?_⟩
      rw [hA₃, hA₂] at hv
      exact (hsplit.here v (hgoes.here v (hentered.goes.here v (hentered.known v hv)))).1
    · refine ⟨(hsplit.part.unended _ (by simp)).1, hsplit.part.ne_entry hsplit.le_exit,
        hsplit.ne.symm,
        fun v hv => ?_⟩
      exact (hsplit.here v (hsplit.known v hv)).1
  · show List.Forall₂ _ (c.block header).params carried
    rw [hparams₃, hparams₂]
    exact hentered.carries.imp fun _ _ hp => hg.typeIn (typeIn_of_kind? hp.2)
  · exact hsplit.carries.imp fun _ _ hp => typeIn_of_kind? hp.2

/-- A state inside of a further loop. -/
def Builder.inLoop (b : Builder) (l : LoopFrame) : Builder := { b with loops := l :: b.loops }

@[simp] theorem Builder.code_inLoop (b : Builder) (l : LoopFrame) :
    (b.inLoop l).code = b.code := rfl

theorem Builder.Ready.inLoop (h : b.Ready K A k) {l : LoopFrame}
    (hl : b.code.LoopValid K A k b.env l) :
    (b.inLoop l).Ready K A k := by
  refine ⟨h.valid, h.current, h.owned, h.unended, h.holds, h.size, fun l' hl' => ?_⟩
  rcases List.mem_cons.mp hl' with rfl | hl'
  · exact hl
  · exact h.loops l' hl'

theorem leads_pushLoop {α : Type} {l : LoopFrame} {f : Unit → Build α} {Q : α → Builder → Prop}
    (h : (f ()).Leads (b.inLoop l) Q) :
    ((modify fun b => { b with loops := l :: b.loops }) >>= f).Leads b Q := h

theorem leads_popLoop {α : Type} {f : Unit → Build α} {Q : α → Builder → Prop}
    (h : (f ()).Leads { b with loops := b.loops.tail } Q) :
    ((modify fun b => { b with loops := b.loops.tail }) >>= f).Leads b Q := h

/-- Going on at the exit of a loop, where what is read later stands for the parameters. -/
theorem LoopSplit.leave {A₃ A₄ : Avail} {b₃ b₄ b₅ : Builder} {body exit : BlockId}
    {carried leaving : List SymbolId} (hsplit : LoopSplit K A₂ b₂ k₂ A₃ b₃.code body exit leaving)
    (hgoes : Goes K A b k A₂ b₂ k₂) {l : LoopFrame} (hheader : b.code.blocks.size ≤ l.header)
    (hexit : l.exit = exit) (hagrees : b₂.Agrees b₃)
    (hadds : Adds K A₃ ((b₃.inLoop l).moved (some body)) body A₄ b₄) (hnone : b₄.current = none)
    (hcarried : b.Carries K carried) (hleaving : leaving = carried.filter b.isLive)
    (hcode : b₅.code = b₄.code) (hcurrent : b₅.current = some exit)
    (hloops : b₅.loops = b₄.loops.tail) (hpending : b₅.pending = b₄.pending)
    (henv : b₅.env = bindAll (forget b₂.env carried) (leaving.zip (b₃.code.block exit).params)) :
    Adds K A b k A₄ b₅ := by
  have hle : b.code.blocks.size ≤ exit := hgoes.part.grows.blocks.trans hsplit.le_exit
  have hlt : exit < b₃.code.blocks.size :=
    (hsplit.part.valid.owned exit (hsplit.part.unended exit (by simp)).1).2
  have hpart₃ : Part K A b k A₃ ((b₃.inLoop l).moved (some body)).code [body, exit] := by
    simpa using hgoes.part.nest_head List.not_mem_nil hsplit.part hgoes.loops
  have hpart₄ := hadds.part
  rw [hnone] at hpart₄
  have hnest : Part K A b k A₄ b₄.code [exit] := by
    refine hpart₃.nest List.mem_cons_self hpart₄ (fun l' hl' => ?_) fun x => ?_
    · rcases List.mem_cons.mp hl' with rfl | hl'
      · exact .inr ⟨hheader, hexit ▸ hle⟩
      · exact .inl (hgoes.loops ▸ hagrees.loops ▸ hl')
    · rw [Part.mem_iff_of_not_mem fun hmem => hsplit.ne (List.mem_singleton.mp hmem)]
      simp
  have hg := hadds.part.grows
  -- what is known after the condition is known at the exit
  have hhere (v : ValueId) (hv : b₂.code.Known A₂ k₂ v) : b₄.code.Known A₄ exit v :=
    hg.known (hsplit.here v hv).2
  have hzip {p : SymbolId × ValueId} (hp : p ∈ leaving.zip (b₃.code.block exit).params) :
      isReference K.symbols p.1 = false ∧ b₄.code.Known A₄ exit p.2 ∧
        b₄.code.kind? K p.2 = some (bindingType K.symbols p.1, false) := by
    obtain ⟨hsym, hdefines, hkind⟩ := hsplit.carries.zip hp
    have hmem : p.1 ∈ carried := (List.mem_filter.mp (hleaving ▸ hsym)).1
    exact ⟨(hcarried p.1 hmem).2, hg.known (.inr hdefines), hg.kind? hkind⟩
  have hholds : b₄.code.Holds K A₄ exit b₅.env := by
    rw [henv]
    refine Holds.bindAll ?_ _ fun p hp => hzip hp
    exact (hgoes.ready.holds.mono (hsplit.part.grows.trans hg) hhere).forget carried
      fun s hs => (hcarried s hs).2
  have hsize : b₅.env.size = b.env.size := by
    rw [henv, size_bindAll, size_forget, hgoes.keeps.size]
  rw [← hcode] at hnest hholds hhere
  refine hnest.adds hcurrent hholds hsize (fun v hv => hhere v (hgoes.here v hv)) ?_ ?_
    fun sym hlive hsym => ?_
  · rw [hloops, hadds.loops]
    exact hagrees.loops.trans hgoes.loops
  · rw [hpending, hadds.pending]
    exact hagrees.pending.trans hgoes.pending
  · -- what is carried and read later has a parameter
    rw [henv]
    refine isSome_bindAll _ ?_ ?_
    · rw [size_forget, hgoes.keeps.size]
      exact lt_size_of_isSome hsym
    · by_cases hmem : sym ∈ carried
      · refine .inr ?_
        rw [hsplit.params, List.map_fst_zip (by simp), hleaving]
        exact List.mem_filter.mpr ⟨hmem, hlive⟩
      · rw [getD_forget hmem]
        exact .inl (hgoes.keeps.isSome sym hsym)

/-- Going on in the header of a loop, where what is carried stands for the parameters. -/
theorem leads_loopHeader {α : Type} (h : b.Ready K A k) {syms : List SymbolId}
    (hsyms : b.Carries K syms) {f : BlockId → Build α} {Q : α → Builder → Prop}
    (hf : ∀ A₁ b₁ b₂ header, LoopEntered K A b k A₁ b₁ header syms →
      Goes K A₁ b₁ header A₁ b₂ header → (f header).Leads b₂ Q) :
    (newBlock >>= fun header => jumpWith header syms >>= fun _ => moveTo (some header) >>= fun _ =>
      joinParamsFor header syms >>= fun ps => bindParams ps >>= fun _ => f header).Leads b Q := by
  refine leads_newBlock (leads_jumpWith (leads_moveTo ?_))
  have hjump := leads_joinParamsFor b.code.blocks.size syms
    (b := (b.grown.ended (.jump b.code.blocks.size (b.valuesOf syms))).moved
      (some b.code.blocks.size)) (h.typed hsyms)
  refine hjump.bind fun ps b₁ hps => ?_
  obtain ⟨rfl, hcode, hagrees, hcurrent⟩ := hps
  have hgrown : b.grown.current = some k := h.current
  rw [Builder.code_moved, Builder.code_ended hgrown, Builder.code_grown] at hcode
  obtain ⟨A₁, hentered⟩ := h.enterLoop hsyms hcode hcurrent
    ⟨hagrees.env, hagrees.loops, hagrees.pending⟩
  refine (leads_bindParams _).bind fun _ b₂ hb₂ => ?_
  subst hb₂
  have hready := hentered.goes.ready
  refine hf A₁ b₁ _ _ hentered (Goes.withEnv hready (hready.holds.bindAll _ fun p hp => ?_)
    ⟨size_bindAll _ _, ?_⟩)
  · have hzip : p ∈ syms.zip (b₁.code.block b.code.blocks.size).params := by
      rw [hentered.params]
      exact hp
    obtain ⟨hsym, hdefines, hkind⟩ := hentered.carries.zip hzip
    exact ⟨(hsyms p.1 hsym).2, .inr hdefines, hkind⟩
  · exact fun sym hsym => isSome_bindAll _ (lt_size_of_isSome hsym) (.inl hsym)

/-- Branching to the body of a loop and to its exit. -/
theorem leads_loopSplit {α : Type} (h : b.Ready K A k) (cond : ValueId)
    (hcond : b.code.Known A k cond ∧ b.code.Plain K cond) {syms : List SymbolId}
    (hsyms : b.Carries K syms) {f : BlockId → BlockId → List (SymbolId × ValueId) → Build α}
    {Q : α → Builder → Prop}
    (hf : ∀ A₁ b₁ body exit, LoopSplit K A b k A₁ b₁.code body exit syms → b.Agrees b₁ →
      (f body exit (syms.zip (b₁.code.block exit).params)).Leads b₁ Q) :
    (newBlock >>= fun body => newBlock >>= fun exit => joinParamsFor exit syms >>= fun ps =>
      valuesOf syms >>= fun vs => terminate (.branch cond body [] exit vs) >>= fun _ =>
        f body exit ps).Leads b Q := by
  refine leads_newBlock (leads_newBlock ?_)
  refine (leads_joinParamsFor b.grown.code.blocks.size syms (b := b.grown.grown)
    (h.typed hsyms)).bind fun ps b₁ hps => ?_
  obtain ⟨rfl, hcode, hagrees, hcurrent⟩ := hps
  obtain ⟨A₁, hsplit⟩ := h.splitLoop cond hcond hsyms
  have hvalues : b₁.valuesOf syms = b.valuesOf syms := by
    unfold Builder.valuesOf
    rw [hagrees.env]
    rfl
  have hclose := Builder.code_ended
    (t := .branch cond b.code.blocks.size [] b.grown.code.blocks.size (b₁.valuesOf syms))
    (hcurrent.trans h.current)
  rw [hcode, hvalues] at hclose
  simp only [Builder.code_grown] at hclose
  rw [← hclose, ← Builder.code_grown, ← hvalues] at hsplit
  have hrest := hf A₁ _ _ _ hsplit ⟨hagrees.env, hagrees.loops, hagrees.pending⟩
  rw [hsplit.params] at hrest
  exact leads_valuesOf (leads_terminate hrest)

theorem lowersStmtTo_loop {inLoop : Bool} {span : Span} {c : Expr} {body : List Stmt}
    (hc : LowersTo K Γ c) (hbool : Γ.types.isBool c.type = true)
    (hbody : ∀ s ∈ body, LowersStmtTo K Γ true s) :
    LowersStmtTo K Γ inLoop (.loop span c body) := by
  intro A b k scope h hext hscoped hserves _ hsep
  obtain ⟨hscopedc, hscopedbody⟩ := hscoped
  unfold readsOfStmt at hserves
  unfold Hir.Stmt.calls at hsep
  unfold lowerStmt
  extract_lets rebound reads
  refine leads_get ?_
  extract_lets carried
  have hcarried : b.Carries K carried := carries_carriedBy b rebound
  refine (leads_liveOf carried).bind fun leaving b' hlive => ?_
  obtain ⟨hleaving, hb'⟩ := hlive
  rw [hb']
  have hsub : ∀ s ∈ leaving, s ∈ carried := fun s hs => (List.mem_filter.mp (hleaving ▸ hs)).1
  refine leads_loopHeader h hcarried fun A₁ b₁ b₂ header hentered hgoes₂ => ?_
  have hgoes := hentered.goes.trans hgoes₂
  have hcarries {b' : Builder} (hkeeps : b.Keeps b') {syms : List SymbolId}
      (hsyms : ∀ s ∈ syms, s ∈ carried) :
      b'.Carries K syms := fun s hs =>
    ⟨hkeeps.isSome s (hcarried s (hsyms s hs)).1, (hcarried s (hsyms s hs)).2⟩
  -- the condition
  refine (hc A₁ b₂ header hgoes.ready (hgoes.extends hext)
      (hgoes.has (hserves.has hscopedc fun _ hsym =>
    List.mem_append_left _ hsym)) fun hd call hcall =>
    hsep hd call (List.mem_append_left _ hcall)).bind fun r b₃ hr => ?_
  obtain ⟨A₃, k₃, hgoes₃, hgives⟩ := hr
  have hgoes' := hgoes.trans hgoes₃
  have h₃ := hgoes₃.ready
  obtain ⟨cond, rfl, hcond⟩ := hgives.exists
    (h₃.valid.types.standard.ne_unit_of_isBool ((hgoes'.extends hext).isBool hbool))
  refine leads_loopSplit h₃ cond ⟨hcond.1, _, hcond.2⟩ (hcarries hgoes'.keeps hsub)
    fun A₄ b₄ block exit hsplit hagrees => ?_
  refine leads_get ?_
  extract_lets env leave
  -- the body
  have hvalid := hsplit.loopValid hentered (hgoes₂.trans hgoes₃)
      (hcarries hgoes'.keeps fun _ hs => hs) hsub reads
  generalize hl : ({ header, exit, carried, leaving, reads } : LoopFrame) = l at hvalid
  have hready : (b₄.moved (some block)).Ready K A₄ block :=
    Part.enter hsplit.part List.mem_cons_self rfl ⟨hagrees.env, hagrees.loops, hagrees.pending⟩
      fun v hv => (hsplit.here v hv).1
  have h₅ : ((b₄.inLoop l).moved (some block)).Ready K A₄ block := by
    refine hready.inLoop (l := l) ?_
    show LoopValid K A₄ b₄.code block b₄.env l
    rw [hagrees.env]
    exact hvalid
  refine leads_pushLoop (leads_moveTo ?_)
  refine (leads_lowerBlock hbody h₅ ((hgoes'.extends hext).trans hsplit.part.grows.types)
    hscopedbody ?_
    (fun _ => List.cons_ne_nil _ _) fun hd call hcall =>
      hsep hd call (List.mem_append_right _ hcall)).bind fun _ b₆ hb₆ => ?_
  · refine ⟨fun sym hsym hread => ?_, hserves.refs⟩
    show (b₄.env.getD sym none).isSome = true
    rw [hagrees.env]
    exact hgoes'.keeps.isSome sym (hserves.values sym hsym (List.mem_append_right _ hread))
  obtain ⟨A₆, hadds, -⟩ := hb₆
  -- the exit
  have hleave {A₇ : Avail} {b₇ : Builder}
      (hadds : Adds K A₄ ((b₄.inLoop l).moved (some block)) block A₇ b₇)
      (hnone : b₇.current = none) (u : Unit) :
        (leave u).Leads b₇ fun _ b' => ∃ A', Adds K A b k A' b' := by
    unfold leave
    refine leads_popLoop (leads_setEnv ((leads_bindParams _).bind fun _ b' hb' => ?_))
    rw [hb']
    refine ⟨A₇, hsplit.leave hgoes' ?_ ?_ hagrees hadds hnone hcarried hleaving rfl rfl rfl rfl ?_⟩
    · rw [← hl]
      exact hentered.le
    · rw [← hl]
    · show bindAll (forget b₄.env carried) _ = _
      rw [hagrees.env]
  have hopen : isOpen.Leads b₆ fun r b' => r = b₆.current.isSome ∧ b' = b₆ := ⟨rfl, rfl⟩
  refine hopen.bind fun r b' hopen => ?_
  obtain ⟨hr, hb'⟩ := hopen
  rw [hr, hb']
  have hdone {x : Build Unit} {b' : Builder}
      (hx : x.Leads b' fun _ b' => ∃ A', Adds K A b k A' b') :
      x.Leads b' fun _ b' => ∃ A', Adds K A b k A' b' ∧
        ((Stmt.loop span c body).ends = true → b'.current = none) ∧
          ∀ sym ∈ (Stmt.loop span c body).binds, isReference K.symbols sym = false ∧
            ∀ k', b'.current = some k' → (b'.env.getD sym none).isSome = true :=
    hx.imp fun _ _ hadds => by
      obtain ⟨A', hadds⟩ := hadds
      refine ⟨A', hadds, fun hends => ?_, fun _ hsym => absurd hsym List.not_mem_nil⟩
      unfold Hir.Stmt.ends at hends
      cases hends
  refine hdone ?_
  cases hcurrent : b₆.current with
  | none => exact hleave hadds hcurrent ()
  | some k₆ =>
    have hmem : l ∈ b₆.loops := by
      rw [hadds.loops]
      exact List.mem_cons_self
    have hback : Adds K A₆ b₆ k₆ A₆ (b₆.ended (.jump header (b₆.valuesOf carried))) :=
      (hadds.ready k₆ hcurrent).jumpOut hmem (.inl (by rw [← hl]; exact ⟨rfl, rfl⟩))
    exact leads_jumpWith (hleave (hadds.trans hcurrent hback) rfl ())

/-! ## All statements -/

/-- The code of every typed statement is valid. -/
theorem lowersStmtTo_of_typed (hΓ : K.Reads Γ) {inLoop : Bool} {s : Stmt}
    (hs : s.Typed Γ K.ret inLoop) :
    LowersStmtTo K Γ inLoop s := by
  induction hs with
  | expr he => exact lowersStmtTo_expr (lowersTo_of_typed hΓ he)
  | bind hs hpass he ht => exact lowersStmtTo_bind hΓ hs hpass (lowersTo_of_typed hΓ he) ht
  | assign hs he ht => exact lowersStmtTo_assign hΓ hs (lowersTo_of_typed hΓ he) ht
  | ite hc hcond _ _ _ ihthen ihelse =>
    exact lowersStmtTo_ite (lowersTo_of_typed hΓ hc) hcond ihthen ihelse
  | loop hc hcond _ ih => exact lowersStmtTo_loop (lowersTo_of_typed hΓ hc) hcond ih
  | retNone hunit =>
    exact lowersStmtTo_end (.ret none) (by unfold lowerStmt; rfl) rfl rfl rfl nofun fun _ => hunit
  | ret he ht => exact lowersStmtTo_ret (lowersTo_of_typed hΓ he) ht
  | stop =>
    exact lowersStmtTo_jump (·.exit) (·.leaving) (by unfold lowerStmt; rfl) rfl
      fun _ => .inr ⟨rfl, rfl⟩
  | next =>
    exact lowersStmtTo_jump (·.header) (·.carried) (by unfold lowerStmt; rfl) rfl
      fun _ => .inl ⟨rfl, rfl⟩
  | require hc hcond => exact lowersStmtTo_require (lowersTo_of_typed hΓ hc) hcond
  | @revert _ _ message =>
    exact lowersStmtTo_end (.revert message) (by unfold lowerStmt; rfl) rfl rfl rfl nofun nofun
  | @panic _ _ message =>
    exact lowersStmtTo_end (.panic message) (by unfold lowerStmt; rfl) rfl rfl rfl nofun nofun

end ContractCompiler.Ssa
