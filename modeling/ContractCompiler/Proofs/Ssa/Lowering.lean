import ContractCompiler.Proofs.Ssa.Parts

/-!
# What the steps of lowering lead to

- `Build.Leads`: a step leads to a state in which its result has a property;
- `Goes`: the code of an expression, which goes on in a block;
- `Gives`: the value of an expression;
- `leads_emit`, `leads_emitCell`: adding an instruction;
- `Joins`: the edges to a join;
- `leads_enterJoin`, `leads_enterValueJoin`: going on at a join.
-/

namespace ContractCompiler.Ssa

open Hir (Expr Stmt SymbolId PassMode)
open Code

namespace Build

variable {α β : Type} {b : Builder}

/-- A step leads to a state in which its result has a property. -/
def Leads (x : Build α) (b : Builder) (Q : α → Builder → Prop) : Prop := Q (x.run b).1 (x.run b).2

theorem Leads.imp {x : Build α} {Q Q' : α → Builder → Prop} (h : x.Leads b Q)
    (hQ : ∀ a b', Q a b' → Q' a b') : x.Leads b Q' :=
  hQ _ _ h

theorem Leads.bind {x : Build α} {f : α → Build β} {Q : α → Builder → Prop}
    {Q' : β → Builder → Prop} (h : x.Leads b Q) (hf : ∀ a b', Q a b' → (f a).Leads b' Q') :
    (x >>= f).Leads b Q' :=
  hf _ _ h

theorem leads_pure {Q : α → Builder → Prop} {a : α} (h : Q a b) : (pure a : Build α).Leads b Q := h

theorem leads_get {f : Builder → Build α} {Q : α → Builder → Prop} (h : (f b).Leads b Q) :
    ((get : Build Builder) >>= f).Leads b Q := h

theorem leads_valueOf {sym : SymbolId} {f : Option ValueId → Build α} {Q : α → Builder → Prop}
    (h : (f (b.env.getD sym none)).Leads b Q) : (valueOf sym >>= f).Leads b Q := h

theorem leads_typeOf {v : ValueId} {t : TypeId} (hv : typeIn b.values v = some t)
    {f : TypeId → Build α} {Q : α → Builder → Prop} (h : (f t).Leads b Q) :
    (typeOf v >>= f).Leads b Q := by
  have hrun : ((typeOf v >>= f).run b) = (f ((typeIn b.values v).getD TypeId.invalid)).run b := rfl
  unfold Leads
  rw [hrun, hv]
  exact h

end Build

open Build

/-! ## The code of expressions -/

/-- Code was added at a block and goes on in another one. Bindings that had values still have
some. -/
structure Goes (K : BodyContext) (A : Avail) (b : Builder) (k : BlockId) (A' : Avail) (b' : Builder)
    (k' : BlockId) : Prop where
  part : Part K A b k A' b'.code [k']
  ready : b'.Ready K A' k'
  here : ∀ v, b.code.Known A k v → b'.code.Known A' k' v
  keeps : b.Keeps b'
  loops : b'.loops = b.loops
  pending : b'.pending = b.pending

/-- A value of a type that is known in a block; only one of type unit may be missing. -/
structure Gives (K : BodyContext) (A : Avail) (b : Builder) (k : BlockId) (r : Option ValueId)
    (t : TypeId) : Prop where
  value : ∀ v, r = some v → b.code.Known A k v ∧ b.code.kind? K v = some (t, false)
  isSome : t ≠ Builtin.unit.id → r.isSome = true

variable {K : BodyContext} {A A₁ A₂ : Avail} {b b₁ b₂ : Builder} {k k₁ k₂ : BlockId}

theorem Part.goes (h : Part K A b k A₁ b₁.code [k₁]) (hcurrent : b₁.current = some k₁)
    (hholds : b₁.code.Holds K A₁ k₁ b₁.env)
    (hhere : ∀ v, b.code.Known A k v → b₁.code.Known A₁ k₁ v) (hkeeps : b.Keeps b₁)
    (hloops : b₁.loops = b.loops) (hpending : b₁.pending = b.pending) : Goes K A b k A₁ b₁ k₁ := by
  refine ⟨h, ?_, hhere, hkeeps, hloops, hpending⟩
  refine h.ready (List.mem_singleton.mpr rfl) hcurrent hholds hkeeps.size hloops hhere
    fun l hl s hs => ?_
  exact hkeeps.isSome s ((h.base.loops l hl).bound s hs)

theorem Goes.refl (h : b.Ready K A k) : Goes K A b k A b k :=
  ⟨.refl h, h, fun _ hv => hv, .of_env rfl, rfl, rfl⟩

theorem Goes.trans (h : Goes K A b k A₁ b₁ k₁) (h' : Goes K A₁ b₁ k₁ A₂ b₂ k₂) :
    Goes K A b k A₂ b₂ k₂ := by
  refine ⟨?_, h'.ready, fun v hv => h'.here v (h.here v hv), h.keeps.trans h'.keeps,
    h'.loops.trans h.loops, h'.pending.trans h.pending⟩
  refine h.part.nest (List.mem_singleton.mpr rfl) h'.part
    (fun l hl => .inl (h.loops ▸ hl)) fun x => ?_
  simp

theorem Goes.gives (h : Goes K A b k A₁ b₁ k₁) {r : Option ValueId} {t : TypeId}
    (hr : Gives K A b k r t) :
    Gives K A₁ b₁ k₁ r t :=
  ⟨fun v hv => ⟨h.here v (hr.value v hv).1, h.part.grows.kind? (hr.value v hv).2⟩, hr.isSome⟩

theorem Gives.exists {r : Option ValueId} {t : TypeId} (h : Gives K A b k r t)
    (ht : t ≠ Builtin.unit.id) :
    ∃ v, r = some v ∧ b.code.Known A k v ∧ b.code.kind? K v = some (t, false) := by
  obtain ⟨v, rfl⟩ := Option.isSome_iff_exists.mp (h.isSome ht)
  exact ⟨v, rfl, h.value v rfl⟩

/-! ## Instructions -/

theorem code_emit (hcurrent : b.current = some k) (data : InstData) (type : Option TypeId)
    (effect : Effect) (span : Span) : ((emit data type effect span).run b).2.code =
      b.code.addInst k data (type.filter fun t => !b.types.isUnit t) effect span := by
  unfold emit Builder.code addInst
  simp only [StateT.run_modifyGet, hcurrent]
  cases type.filter fun t => !b.types.isUnit t <;> rfl

theorem result_emit (b : Builder) (data : InstData) (type : Option TypeId) (effect : Effect)
    (span : Span) :
    ((emit data type effect span).run b).1 =
      (type.filter fun t => !b.types.isUnit t).map fun _ => b.values.size := by
  unfold emit
  simp only [StateT.run_modifyGet, Option.map_map]
  rfl

/-- Adding an instruction whose operands are known. -/
theorem goes_emit (h : b.Ready K A k) {data : InstData} (hfits : b.code.Fits K data)
    (huses : ∀ v ∈ data.operands, b.code.Known A k v) (type : Option TypeId) (effect : Effect)
    (span : Span) :
    Goes K A b k A ((emit data type effect span).run b).2 k := by
  have hcode := code_emit h.current data type effect span
  have hpart : Part K A b k A ((emit data type effect span).run b).2.code [k] := by
    rw [hcode]
    exact (Part.refl h).addInst (List.mem_singleton.mpr rfl) hfits huses _ effect span
  have hhere (v : ValueId) (hv : b.code.Known A k v) :
      ((emit data type effect span).run b).2.code.Known A k v := hpart.grows.known hv
  exact hpart.goes h.current (h.holds.mono hpart.grows hhere) hhere (.of_env rfl) rfl rfl

theorem leads_emit (data : InstData) (h : b.Ready K A k) (hfits : b.code.Fits K data)
    (huses : ∀ v ∈ data.operands, b.code.Known A k v) (hcell : data.makesCell = false) {t : TypeId}
    {type : Option TypeId} (htype : type = some t ∨ type = none ∧ t = Builtin.unit.id)
    (effect : Effect) (span : Span) :
    (emit data type effect span).Leads b fun r b' => Goes K A b k A b' k ∧ Gives K A b' k r t ∧
      b'.env = b.env := by
  refine ⟨goes_emit h hfits huses type effect span, ?_, rfl⟩
  have hcode := code_emit h.current data type effect span
  have hresult := result_emit b data type effect span
  refine ⟨fun v hv => ?_, fun hne => ?_⟩
  · rw [hcode]
    rw [hresult] at hv
    obtain ⟨t', ht', rfl⟩ := Option.map_eq_some_iff.mp hv
    obtain ⟨rfl, -⟩ := Option.filter_eq_some_iff.mp ht'
    obtain rfl : t' = t := by
      rcases htype with heq | ⟨heq, -⟩
      · exact Option.some.inj heq
      · cases heq
    rw [ht']
    refine ⟨.inr (defines_addInst b.code k data effect span h.lt_size t'), ?_⟩
    rw [← hcell]
    exact kind?_addInst b.code k data effect span K t'
  · rcases htype with rfl | ⟨-, heq⟩
    · have hunit : b.types.isUnit t = false := Bool.eq_false_iff.mpr fun hunit =>
        hne (h.valid.types.unit_unique t hunit)
      rw [hresult]
      simp [hunit]
    · exact absurd heq hne

/-- Adding an instruction that makes a cell. -/
theorem leads_emitCell (h : b.Ready K A k) {init : ValueId} (hinit : b.code.Plain K init)
    (hknown : b.code.Known A k init) {t e : TypeId} (ht : b.types.refElem? t = some e)
    (span : Span) :
    (emit (.refNew init) (some t) .pure span).Leads b fun r b' => Goes K A b k A b' k ∧
    b'.env = b.env ∧
      ∃ v, r = some v ∧ b'.code.Known A k v ∧ b'.code.Cell K v e ∧ b.values.size ≤ v := by
  have hfits : b.code.Fits K (.refNew init) := fun v hv => by
    rw [List.mem_singleton.mp hv]
    exact hinit
  have huses : ∀ v ∈ (InstData.refNew init).operands, b.code.Known A k v := fun v hv => by
    rw [List.mem_singleton.mp hv]
    exact hknown
  have hunit : b.types.isUnit t = false := by
    refine Bool.eq_false_iff.mpr fun hunit => ?_
    have hshape := TypePool.shapes_of_isUnit hunit
    rw [TypePool.shapes_of_refElem? ht] at hshape
    cases hshape
  have hgoes := goes_emit h hfits huses (some t) .pure span
  refine ⟨hgoes, rfl, b.values.size, ?_, ?_, ?_, Nat.le_refl _⟩
  · rw [result_emit]
    simp [hunit]
  · rw [code_emit h.current]
    simp only [Option.filter_some, hunit, Bool.not_false, if_true]
    exact .inr (defines_addInst b.code k (.refNew init) .pure span h.lt_size t)
  · rw [code_emit h.current]
    simp only [Option.filter_some, hunit, Bool.not_false, if_true]
    exact ⟨t, kind?_addInst b.code k (.refNew init) .pure span K t, ht⟩

/-! ## Bindings -/

/-- Bindings may get other values that are known. -/
theorem Goes.withEnv (h : b.Ready K A k) {env : Bindings} (hholds : b.code.Holds K A k env)
    (hkeeps : b.Keeps { b with env }) : Goes K A b k A { b with env } k := by
  have hpart : Part K A b k A (Builder.code { b with env }) [k] := .refl h
  exact hpart.goes h.current hholds (fun _ hv => hv) hkeeps rfl rfl

theorem getD_set_of_ne {α : Type} {env : Array (Option α)} {sym sym' : Nat} (h : sym' ≠ sym)
    (value : Option α) : (env.setIfInBounds sym value).getD sym' none = env.getD sym' none := by
  rw [Array.getD_eq_getD_getElem?, Array.getD_eq_getD_getElem?,
    Array.getElem?_setIfInBounds_ne h.symm]

theorem getD_set_self {α : Type} {env : Array (Option α)} {sym : Nat} (h : sym < env.size)
    (value : Option α) : (env.setIfInBounds sym value).getD sym none = value := by
  rw [Array.getD_eq_getD_getElem?, Array.getElem?_setIfInBounds_self_of_lt h]
  rfl

theorem lt_size_of_isSome {env : Bindings} {sym : SymbolId}
    (h : (env.getD sym none).isSome = true) :
    sym < env.size := by
  by_contra hlt
  rw [Array.getD_eq_getD_getElem?, Array.getElem?_eq_none (Nat.not_lt.mp hlt)] at h
  cases h

theorem Code.Holds.set {c : Code} {env : Bindings} (h : c.Holds K A k env) {sym : SymbolId}
    (hsym : isReference K.symbols sym = false) (value : Option ValueId)
    (hvalue : ∀ v, value = some v → c.Known A k v ∧ c.Binds K sym v) :
    c.Holds K A k (env.setIfInBounds sym value) := by
  refine ⟨fun s v hv => ?_, fun s hs => ?_⟩
  · by_cases heq : s = sym
    · subst heq
      have hlt := lt_size_of_isSome
          (hv ▸ rfl : ((env.setIfInBounds s value).getD s none).isSome = true)
      rw [Array.size_setIfInBounds] at hlt
      exact hvalue v ((getD_set_self hlt value).symm.trans hv)
    · exact h.known s v (getD_set_of_ne heq value ▸ hv)
  · rw [getD_set_of_ne fun heq => by rw [heq, hsym] at hs; cases hs]
    exact h.refs s hs

theorem leads_bind {α : Type} {sym : SymbolId} {value : Option ValueId} {f : Unit → Build α}
    {Q : α → Builder → Prop}
    (h : (f ()).Leads { b with env := b.env.setIfInBounds sym value } Q) :
    (Build.bind sym value >>= f).Leads b Q := h

/-- Nothing is changed besides the tables and the block that is open. -/
structure Builder.Agrees (b b' : Builder) : Prop where
  env : b'.env = b.env
  loops : b'.loops = b.loops
  pending : b'.pending = b.pending

theorem Builder.Agrees.refl (b : Builder) : b.Agrees b := ⟨rfl, rfl, rfl⟩

theorem Builder.Agrees.trans (h : b.Agrees b₁) (h' : b₁.Agrees b₂) : b.Agrees b₂ :=
  ⟨h'.env.trans h.env, h'.loops.trans h.loops, h'.pending.trans h.pending⟩

/-! ## Blocks -/

/-- A state with a further block. -/
def Builder.grown (b : Builder) : Builder :=
  { b with blocks := b.blocks.push {}, owned := b.owned.push b.blocks.size }

/-- A state in which the current block is ended. -/
def Builder.ended (b : Builder) (t : Terminator) : Builder :=
  { b with
    current := none
    blocks := match b.current with
      | some k => b.blocks.modify k fun k => { k with term := some t }
      | none => b.blocks }

theorem leads_newBlock {α : Type} {f : BlockId → Build α} {Q : α → Builder → Prop}
    (h : (f b.code.blocks.size).Leads b.grown Q) : (newBlock >>= f).Leads b Q := h

theorem leads_terminate {α : Type} {t : Terminator} {f : Unit → Build α} {Q : α → Builder → Prop}
    (h : (f ()).Leads (b.ended t) Q) : (terminate t >>= f).Leads b Q := h

/-- A state in which another block is open. -/
def Builder.moved (b : Builder) (current : Option BlockId) : Builder := { b with current }

@[simp] theorem Builder.code_moved (b : Builder) (current : Option BlockId) :
    (b.moved current).code = b.code :=
  rfl

theorem leads_moveTo {α : Type} {current : Option BlockId} {f : Unit → Build α}
    {Q : α → Builder → Prop} (h : (f ()).Leads (b.moved current) Q) :
    (moveTo current >>= f).Leads b Q := h

theorem leads_setEnv {α : Type} {env : Bindings} {f : Unit → Build α} {Q : α → Builder → Prop}
    (h : (f ()).Leads { b with env } Q) : (setEnv env >>= f).Leads b Q := h

/-- A state in which code goes on in a block, with some values of bindings. -/
def Builder.resumed (b : Builder) (env : Bindings) (k : BlockId) :
    Builder := { b with env, current := some k }

theorem leads_resume {α : Type} {env : Bindings} {f : Unit → Build α} {Q : α → Builder → Prop}
    (h : (f ()).Leads (b.resumed env k) Q) :
    (setEnv env >>= fun _ => moveTo (some k) >>= f).Leads b Q := h

@[simp] theorem Builder.code_resumed (b : Builder) (env : Bindings) (k : BlockId) :
    (b.resumed env k).code = b.code := rfl

@[simp] theorem Builder.code_grown (b : Builder) : b.grown.code = b.code.addBlock := by
  unfold Builder.grown Builder.code Code.addBlock
  simp

theorem Builder.code_ended {t : Terminator} (h : b.current = some k) :
    (b.ended t).code = b.code.close k t := by
  unfold Builder.ended Builder.code Code.close
  rw [h]

/-- A block in which there is nothing and at whose start nothing is known. -/
def Code.Empty (A : Avail) (c : Code) (k : BlockId) : Prop := c.block k = {} ∧ ∀ v, ¬A k v

theorem Code.Valid.empty_addBlock {c : Code} (h : c.Valid K A) :
    c.addBlock.Empty A c.blocks.size := by
  refine ⟨?_, fun v hv => absurd (h.unborn _ v hv) (Nat.lt_irrefl _)⟩
  rw [block_addBlock, block_of_size_le (Nat.le_refl _)]

theorem Code.Empty.addBlock {c : Code} (h : c.Empty A k) : c.addBlock.Empty A k := by
  refine ⟨?_, h.2⟩
  rw [block_addBlock]
  exact h.1

theorem Code.Empty.close {c : Code} (h : c.Empty A k) (hne : k ≠ k₁) (t : Terminator) :
    (c.close k₁ t).Empty A k := by
  refine ⟨?_, h.2⟩
  rw [block_close_of_ne c k₁ t k hne]
  exact h.1

theorem Code.EdgesFrom.addBlock {c : Code} {target : BlockId} {sources : List BlockId}
    (h : c.EdgesFrom target sources) : c.addBlock.EdgesFrom target sources := by
  intro j hj t ht e he heq
  rw [block_addBlock] at ht
  rcases List.mem_append.mp hj with hj | hj
  · exact h j hj t ht e he heq
  · rw [List.mem_singleton.mp hj, block_of_size_le (Nat.le_refl _)] at ht
    cases ht

/-- An edge without arguments to a block in which there is nothing. -/
theorem Code.Empty.edge {c : Code} (h : c.Empty A k) (howned : k ∈ c.owned) (hne : k ≠ K.entry)
    (source : BlockId) : c.EdgeValid K A source (k, []) := by
  refine ⟨howned, hne, fun v hv => absurd hv (h.2 v), ?_⟩
  show List.Forall₂ _ [] (c.block k).params
  rw [h.1]
  exact .nil

theorem Code.EdgeValid.jump {c : Code} (h : c.EdgeValid K A k (k₁, [])) :
    c.EndValid K A k (.jump k₁ []) :=
  ⟨nofun, fun _ he => List.mem_singleton.mp he ▸ h, nofun, nofun⟩

theorem Code.EdgeValid.branch {c : Code} {cond : ValueId}
    (hcond : c.Known A k cond ∧ c.Plain K cond) (h₁ : c.EdgeValid K A k (k₁, []))
    (h₂ : c.EdgeValid K A k (k₂, [])) : c.EndValid K A k (.branch cond k₁ [] k₂ []) := by
  refine ⟨fun v hv => ?_, fun e he => ?_, nofun, nofun⟩
  · rw [List.mem_singleton.mp hv]
    exact hcond
  · rcases List.mem_cons.mp he with rfl | he
    · exact h₁
    · exact List.mem_singleton.mp he ▸ h₂

/-- Ending a block with a branch to blocks in which there is nothing. -/
theorem Part.branch {c : Code} {todo todo' : List BlockId} (h : Part K A b k A₁ c todo)
    {j x y : BlockId} (hj : j ∈ todo) (hx : x ∈ todo) (hy : y ∈ todo) {cond : ValueId}
    (hcond : c.Known A₁ j cond ∧ c.Plain K cond) (hxle : b.code.blocks.size ≤ x)
    (hyle : b.code.blocks.size ≤ y) (hxempty : c.Empty A₁ x) (hyempty : c.Empty A₁ y)
    (htodo : ∀ z, z ∈ todo' ↔ z ∈ todo ∧ z ≠ j) :
    Part K A b k A₁ (c.close j (.branch cond x [] y [])) todo' := by
  refine h.close hj (EdgeValid.branch hcond (hxempty.edge (h.unended x hx).1 (h.ne_entry hxle) j)
    (hyempty.edge (h.unended y hy).1 (h.ne_entry hyle) j)) (fun e he => ?_) htodo
  rcases List.mem_cons.mp he with rfl | he
  · exact .inl hxle
  · exact List.mem_singleton.mp he ▸ .inl hyle

/-- Two new blocks, which a block leads to; code can be added to the first one. -/
structure Forked (K : BodyContext) (A : Avail) (b : Builder) (k : BlockId) (A' : Avail) (c : Code)
    (x y : BlockId) : Prop where
  part : Part K A b k A' c [x, y]
  le_left : b.code.blocks.size ≤ x
  le_right : b.code.blocks.size ≤ y
  ne : x ≠ y
  here : ∀ v, b.code.Known A k v → c.Known A' x v
  sources : c.EdgesFrom y [k]
  empty : c.Empty A' y

theorem Builder.Ready.forked (h : b.Ready K A k) (cond : ValueId)
    (hcond : b.code.Known A k cond ∧ b.code.Plain K cond) {t : Terminator}
    (ht : t = .branch cond b.code.blocks.size [] b.code.addBlock.blocks.size [] ∨
      t = .branch cond b.code.addBlock.blocks.size [] b.code.blocks.size []) :
    Forked K A b k (A.add b.code.blocks.size (b.code.Known A k))
      (b.code.addBlock.addBlock.close k t) b.code.blocks.size b.code.addBlock.blocks.size := by
  have h₁ := (Part.refl h).addBlock
  have h₂ := h₁.addBlock
  have hsize : b.code.addBlock.blocks.size = b.code.blocks.size + 1 := Array.size_push _
  have hlt := h.lt_size
  generalize hx : b.code.blocks.size = x at *
  generalize hy : b.code.addBlock.blocks.size = y at *
  have hxy : x < y := hsize ▸ Nat.lt_succ_self x
  have hxk : x ≠ k := hlt.ne'
  have hyk : y ≠ k := (hlt.trans hxy).ne'
  have hxle : b.code.blocks.size ≤ x := hx.le
  have hyle : b.code.blocks.size ≤ y := hxle.trans hxy.le
  have hg : Grows A b.code A b.code.addBlock.addBlock := h₂.grows
  have hcond' := And.intro (hg.known hcond.1) (hg.plain hcond.2)
  have hxempty : b.code.addBlock.addBlock.Empty A x := hx ▸ h.valid.empty_addBlock.addBlock
  have hyempty : b.code.addBlock.addBlock.Empty A y := hy ▸ h₁.valid.empty_addBlock
  have hxfrom : b.code.addBlock.addBlock.EdgesFrom x [] := hx ▸ h.valid.edgesFrom_addBlock.addBlock
  have hyfrom : b.code.addBlock.addBlock.EdgesFrom y [] := hy ▸ h₁.valid.edgesFrom_addBlock
  have htodo (z : BlockId) : z ∈ [x, y] ↔ z ∈ [y, x, k] ∧ z ≠ k := by
    simp only [List.mem_cons, List.not_mem_nil, or_false]
    constructor
    · rintro (rfl | rfl)
      · exact ⟨.inr (.inl rfl), hxk⟩
      · exact ⟨.inl rfl, hyk⟩
    · rintro ⟨rfl | rfl | rfl, hz⟩
      · exact .inr rfl
      · exact .inl rfl
      · exact absurd rfl hz
  have hpart : Part K A b k A (b.code.addBlock.addBlock.close k t) [x, y] := by
    rcases ht with rfl | rfl
    · exact h₂.branch (by simp) (by simp) (by simp) hcond' hxle hyle hxempty hyempty htodo
    · exact h₂.branch (by simp) (by simp) (by simp) hcond' hyle hxle hyempty hxempty htodo
  have hsource {target : BlockId} (hfrom : b.code.addBlock.addBlock.EdgesFrom target []) :
      (b.code.addBlock.addBlock.close k t).EdgesFrom target [k] :=
    hfrom.close nofun fun _ _ _ => List.mem_singleton.mpr rfl
  have hassume := hpart.assume (S := b.code.Known A k) (hpart.unended x (by simp)).1 hxle
    (hsource hxfrom) fun j hj v hv => by
      rw [List.mem_singleton.mp hj]
      exact hpart.grows.known hv
  refine ⟨hassume, hxle, hyle, hxy.ne, fun v hv => .inl (.inr ⟨rfl, hv⟩), hsource hyfrom, ?_⟩
  refine ⟨(hyempty.close hyk t).1, fun v hv => ?_⟩
  exact hv.elim (hyempty.2 v) fun hv => hxy.ne' hv.1

/-- Ending a block with a jump to a block in which there is nothing. -/
theorem Part.jump {c : Code} {todo todo' : List BlockId} (h : Part K A b k A₁ c todo)
    {j x : BlockId} (hj : j ∈ todo) (hx : x ∈ todo) (hle : b.code.blocks.size ≤ x)
    (hempty : c.Empty A₁ x) (htodo : ∀ z, z ∈ todo' ↔ z ∈ todo ∧ z ≠ j) :
    Part K A b k A₁ (c.close j (.jump x [])) todo' := by
  refine h.close hj (hempty.edge (h.unended x hx).1 (h.ne_entry hle) j).jump (fun e he => ?_) htodo
  exact List.mem_singleton.mp he ▸ .inl hle

/-- The first of the blocks that are still to be ended jumps to another one of them. -/
theorem Part.jump_head {c : Code} {j x : BlockId} {todo : List BlockId}
    (h : Part K A b k A₁ c (j :: todo)) (hj : j ∉ todo) (hx : x ∈ todo)
    (hle : b.code.blocks.size ≤ x) (hempty : c.Empty A₁ x) :
    Part K A b k A₁ (c.close j (.jump x [])) todo :=
  h.jump List.mem_cons_self (List.mem_cons_of_mem _ hx) hle hempty (Part.mem_iff_of_not_mem hj)

theorem Code.EdgesFrom.jump {c : Code} {target j x : BlockId} {sources : List BlockId}
    (h : c.EdgesFrom target sources) : (c.close j (.jump x [])).EdgesFrom target (sources ++ [j]) :=
  h.close (fun _ => List.mem_append_left _)
    fun _ _ _ => List.mem_append_right _ (List.mem_singleton.mpr rfl)

section Beside

variable {c : Code} {todo todo₁ : List BlockId} {x z : BlockId} (h : Part K A b k A₁ b₁.code todo)
  (hz : z ∈ todo) (hne : z ≠ x) (h₁ : Part K A₁ b₁ x A₂ c todo₁)

include h hz

theorem Part.lt_of_todo : z < b₁.code.blocks.size := (h.valid.owned z (h.unended z hz).1).2

omit hz in
include h₁ in
/-- The blocks of code that was added at a new block are new ones. -/
theorem Part.le_of_nested (hx : b.code.blocks.size ≤ x) {w : BlockId} (hw : w ∈ todo₁) :
    b.code.blocks.size ≤ w :=
  (h₁.unended w hw).2.1.elim (fun heq => heq ▸ hx) h.grows.blocks.trans

include hne h₁

/-- A block stays empty while code is added in another one. -/
theorem Part.empty_beside (hempty : b₁.code.Empty A₁ z) : c.Empty A₂ z := by
  obtain ⟨hblock, hA⟩ := h₁.frame z fun hfree => hfree.elim hne (Nat.not_le.mpr (h.lt_of_todo hz))
  exact ⟨hblock.trans hempty.1, hA ▸ hempty.2⟩

theorem Part.ne_of_todo {w : BlockId} (hw : w ∈ todo₁) : z ≠ w := by
  rintro rfl
  exact (h₁.unended z hw).2.1.elim hne (Nat.not_le.mpr (h.lt_of_todo hz))

omit hne in
/-- No edges to a block are added while code is added in another one. -/
theorem Part.sources_beside (hle : b.code.blocks.size ≤ z) (hloops : b₁.loops = b.loops)
    {sources : List BlockId} (hsources : b₁.code.EdgesFrom z sources) : c.EdgesFrom z sources :=
  h₁.edgesFrom hsources (h.base.not_leaves hloops hle (h.lt_of_todo hz))

end Beside

/-- Going on in a block where everything is known that was known at the start of the part. -/
theorem Part.enter {todo : List BlockId} (h : Part K A b k A₁ b₁.code todo) (hk : k₁ ∈ todo)
    (hcurrent : b₁.current = some k₁) (hagrees : b.Agrees b₁)
    (hhere : ∀ v, b.code.Known A k v → b₁.code.Known A₁ k₁ v) : b₁.Ready K A₁ k₁ := by
  refine h.ready hk hcurrent ?_ (by rw [hagrees.env]) hagrees.loops hhere fun l hl s hs => ?_
  · rw [hagrees.env]
    exact h.base.holds.mono h.grows hhere
  · rw [hagrees.env]
    exact (h.base.loops l hl).bound s hs

/-- Going on in a block that only the block leads to where the part begins. -/
theorem Part.reenter {todo : List BlockId} (h : Part K A b k A₁ b₁.code todo) (hk : k₁ ∈ todo)
    (hle : b.code.blocks.size ≤ k₁) (hfrom : b₁.code.EdgesFrom k₁ [k]) (hloops : b₁.loops = b.loops)
    (hpending : b₁.pending = b.pending) :
    Part K A b k (A₁.add k₁ (b.code.Known A k)) (b₁.resumed b.env k₁).code todo ∧
      (b₁.resumed b.env k₁).Ready K (A₁.add k₁ (b.code.Known A k)) k₁ ∧
        b.Agrees (b₁.resumed b.env k₁) := by
  have hassume := h.assume (h.unended k₁ hk).1 hle hfrom fun j hj v hv => by
    rw [List.mem_singleton.mp hj]
    exact h.grows.known hv
  have hagrees : b.Agrees (b₁.resumed b.env k₁) := ⟨rfl, hloops, hpending⟩
  have hhere (v : ValueId) (hv : b.code.Known A k v) :
      (b₁.resumed b.env k₁).code.Known (A₁.add k₁ (b.code.Known A k)) k₁ v := .inl (.inr ⟨rfl, hv⟩)
  exact ⟨hassume, Part.enter hassume hk rfl hagrees hhere, hagrees⟩

theorem Code.Empty.assume {c : Code} (h : c.Empty A k) (hne : k ≠ k₁) (S : ValueId → Prop) :
    c.Empty (A.add k₁ S) k :=
  ⟨h.1, fun v hv => hv.elim (h.2 v) fun hv => hne hv.1⟩

/-- Branching to two new blocks and going on in the first one. -/
theorem leads_fork {α : Type} (h : b.Ready K A k) (cond : ValueId)
    (hcond : b.code.Known A k cond ∧ b.code.Plain K cond) {t : Terminator}
    (ht : t = .branch cond b.code.blocks.size [] b.code.addBlock.blocks.size [] ∨
      t = .branch cond b.code.addBlock.blocks.size [] b.code.blocks.size [])
    {f : Unit → Build α} {Q : α → Builder → Prop}
    (hf : ∀ A₁ b₁, Forked K A b k A₁ b₁.code b.code.blocks.size b.code.addBlock.blocks.size →
      b₁.Ready K A₁ b.code.blocks.size → b.Agrees b₁ → (f ()).Leads b₁ Q) :
    (terminate t >>= fun _ => moveTo (some b.code.blocks.size) >>= f).Leads b.grown.grown Q := by
  have hfork := h.forked cond hcond ht
  have hcurrent : b.grown.grown.current = some k := h.current
  have hcode : ((b.grown.grown.ended t).moved (some b.code.blocks.size)).code =
      b.code.addBlock.addBlock.close k t := by
    refine (Builder.code_ended hcurrent).trans ?_
    rw [Builder.code_grown, Builder.code_grown]
  rw [← hcode] at hfork
  have hagrees : b.Agrees ((b.grown.grown.ended t).moved (some b.code.blocks.size)) :=
    ⟨rfl, rfl, rfl⟩
  exact hf _ _ hfork (hfork.part.enter List.mem_cons_self rfl hagrees hfork.here) hagrees

/-- Two new blocks, which a block leads to, and a third one for their join. -/
structure ForkedJoin (K : BodyContext) (A : Avail) (b : Builder) (k : BlockId)
    (A' : Avail) (c : Code) (x y join : BlockId) : Prop where
  part : Part K A b k A' c [x, y, join]
  le : ∀ z ∈ [x, y, join], b.code.blocks.size ≤ z
  nodup : [x, y, join].Nodup
  here : ∀ v, b.code.Known A k v → c.Known A' x v
  sources : c.EdgesFrom y [k]
  joinSources : c.EdgesFrom join []
  joinEmpty : c.Empty A' join

theorem Forked.addBlock {c : Code} {x y : BlockId} (h : Forked K A b k A₁ c x y) :
    ForkedJoin K A b k A₁ c.addBlock x y c.blocks.size := by
  have hlt {z : BlockId} (hz : z ∈ [x, y]) : z < c.blocks.size :=
    (h.part.valid.owned z (h.part.unended z hz).1).2
  have hx : x < c.blocks.size := hlt List.mem_cons_self
  have hy : y < c.blocks.size := hlt (List.mem_cons_of_mem _ List.mem_cons_self)
  refine ⟨h.part.addBlock.congr fun z => ?_, fun z hz => ?_, ?_, fun v hv => ?_, h.sources.addBlock,
    h.part.valid.edgesFrom_addBlock, h.part.valid.empty_addBlock⟩
  · simp only [List.mem_cons, List.not_mem_nil, or_false]
    tauto
  · simp only [List.mem_cons, List.not_mem_nil, or_false] at hz
    rcases hz with rfl | rfl | rfl
    · exact h.le_left
    · exact h.le_right
    · exact h.part.grows.blocks
  · simp [h.ne, hx.ne, hy.ne]
  · exact (grows_addBlock A₁ c).known (h.here v hv)

/-- Branching to two new blocks, with a third one for the join, and going on in the first one. -/
theorem leads_forkJoin {α : Type} (h : b.Ready K A k) (cond : ValueId)
    (hcond : b.code.Known A k cond ∧ b.code.Plain K cond) {x : Build α} {Q : α → Builder → Prop}
    (hx : ∀ A₁ b₁, ForkedJoin K A b k A₁ b₁.code b.code.blocks.size b.grown.code.blocks.size
      b.grown.grown.code.blocks.size → b₁.Ready K A₁ b.code.blocks.size → b.Agrees b₁ →
      x.Leads b₁ Q) :
    x.Leads ((b.grown.grown.grown.ended
      (.branch cond b.code.blocks.size [] b.grown.code.blocks.size [])).moved
        (some b.code.blocks.size)) Q := by
  have hgrown : b.grown.code.blocks.size = b.code.addBlock.blocks.size := by rw [Builder.code_grown]
  generalize ht : Terminator.branch cond b.code.blocks.size [] b.grown.code.blocks.size [] = t
  have hfork := (h.forked cond hcond (.inl (ht.symm.trans (by rw [hgrown])))).addBlock
  have hcurrent : b.grown.grown.grown.current = some k := h.current
  have hlt : k < b.grown.grown.code.blocks.size := by
    rw [Builder.code_grown, Builder.code_grown]
    exact h.lt_size.trans_le ((grows_addBlock A _).trans (grows_addBlock A _)).blocks
  have hcode : ((b.grown.grown.grown.ended t).moved (some b.code.blocks.size)).code =
      (b.code.addBlock.addBlock.close k t).addBlock := by
    refine (Builder.code_ended hcurrent).trans ?_
    rw [Builder.code_grown, ← addBlock_close _ hlt, Builder.code_grown, Builder.code_grown]
  have hjoin : (b.code.addBlock.addBlock.close k t).blocks.size =
      b.grown.grown.code.blocks.size := by
    rw [Builder.code_grown, Builder.code_grown]
    exact Array.size_modify
  rw [← hcode, hjoin, ← hgrown] at hfork
  have hagrees : b.Agrees ((b.grown.grown.grown.ended t).moved (some b.code.blocks.size)) :=
    ⟨rfl, rfl, rfl⟩
  exact hx _ _ hfork (hfork.part.enter List.mem_cons_self rfl hagrees hfork.here) hagrees

/-! ## Joins -/

/-- Whether a binding is read after the current statement. -/
def Builder.isLive (b : Builder) (sym : SymbolId) : Bool :=
  b.loops.any (fun l => l.carried.contains sym || l.reads.contains sym)
    || b.pending.any (fun ss => (readsOfStmts ss).contains sym)

theorem Builder.Agrees.isLive (h : b.Agrees b₁) (sym : SymbolId) :
    b₁.isLive sym = b.isLive sym := by
  unfold Builder.isLive
  rw [h.loops, h.pending]

/-- An edge out of a block of a part, with what bindings stand for there. -/
structure Arm (K : BodyContext) (A : Avail) (b : Builder) (k : BlockId) (A' : Avail) (c : Code)
    (e : Edge) :
    Prop where
  free : b.Free k e.source
  holds : c.Holds K A' e.source e.env
  size : e.env.size = b.env.size
  here : ∀ v, b.code.Known A k v → c.Known A' e.source v

/-- The edges to a join, out of blocks of a part. -/
structure Joins (K : BodyContext) (A : Avail) (b : Builder) (k : BlockId) (A' : Avail) (c : Code)
    (join : BlockId) (edges : List Edge) : Prop where
  sources : c.EdgesFrom join (edges.map (·.source))
  nodup : (edges.map (·.source)).Nodup
  arms : ∀ e ∈ edges, Arm K A b k A' c e

section Join

variable {c c' : Code} {join : BlockId} {edges : List Edge} {todo : List BlockId}

theorem Arm.mono (hg : Grows A₁ c A₂ c') {e : Edge} (h : Arm K A b k A₁ c e) :
    Arm K A b k A₂ c' e :=
  ⟨h.free, h.holds.mono hg fun _ => hg.known, h.size, fun v hv => hg.known (h.here v hv)⟩

/-- The edge out of the block where a part begins. -/
theorem Part.arm_start (h : Part K A b k A₁ c todo) (value : Option ValueId) :
    Arm K A b k A₁ c { source := k, env := b.env, value } :=
  ⟨.inl rfl, h.base.holds.mono h.grows fun _ => h.grows.known, rfl, fun _ => h.grows.known⟩

/-- The edge out of a block to which code was added. -/
theorem Part.arm_end (h : Part K A b k A₁ b₁.code todo) (hk : k₁ ∈ todo) (hready : b₁.Ready K A₁ k₁)
    (hhere : ∀ v, b.code.Known A k v → b₁.code.Known A₁ k₁ v) (value : Option ValueId) :
    Arm K A b k A₁ b₁.code { source := k₁, env := b₁.env, value } :=
  ⟨(h.unended k₁ hk).2.1, hready.holds, hready.size.trans h.base.size.symm, hhere⟩

/-- Code that is added at a block of a part and ends with a jump to a join. -/
structure Arrives (K : BodyContext) (A : Avail) (b : Builder) (k : BlockId) (A' : Avail)
    (b' : Builder) (k' : BlockId) (todo : List BlockId) (join : BlockId)
    (sources : List BlockId) : Prop where
  part : Part K A b k A' (b'.ended (.jump join [])).code todo
  grows : Grows A' b'.code A' (b'.ended (.jump join [])).code
  arm :
      ∀ value, Arm K A b k A' (b'.ended (.jump join [])).code { source := k', env := b'.env, value }
  le : b.code.blocks.size ≤ k'
  lt : k' < (b'.ended (.jump join [])).code.blocks.size
  others : ∀ z ∈ todo, z ≠ k'
  empty : (b'.ended (.jump join [])).code.Empty A' join
  sources : (b'.ended (.jump join [])).code.EdgesFrom join (sources ++ [k'])

section Arrives

variable {j : BlockId} {sources : List BlockId} (h : Part K A b k A₁ b₁.code (j :: todo))
  (hj : j ∉ todo)
  (hgoes : Goes K A₁ b₁ j A₂ b₂ k₂) (hloops : b₁.loops = b.loops)

include h hj hgoes hloops

theorem Goes.arrives (hle : b.code.blocks.size ≤ j)
    (hhere : ∀ v, b.code.Known A k v → b₁.code.Known A₁ j v) (hjoin : join ∈ todo)
    (hjoinle : b.code.blocks.size ≤ join) (hempty : b₁.code.Empty A₁ join)
    (hsources : b₁.code.EdgesFrom join sources) : Arrives K A b k A₂ b₂ k₂ todo join sources := by
  have hmem : k₂ ∈ [k₂] := List.mem_singleton.mpr rfl
  have hbeside {z : BlockId} (hz : z ∈ todo) : z ≠ j := fun heq => hj (heq ▸ hz)
  have hother {z : BlockId} (hz : z ∈ todo) : z ≠ k₂ :=
    h.ne_of_todo (List.mem_cons_of_mem _ hz) (hbeside hz) hgoes.part hmem
  have hnest : Part K A b k A₂ b₂.code (k₂ :: todo) := h.nest_head hj hgoes.part hloops
  have hempty₂ := h.empty_beside (List.mem_cons_of_mem _ hjoin) (hbeside hjoin) hgoes.part hempty
  have hsources₂ := h.sources_beside
      (List.mem_cons_of_mem _ hjoin) hgoes.part hjoinle hloops hsources
  have hg := grows_close b₂.code k₂ (.jump join []) A₂
  have harm (value : Option ValueId) := (hnest.arm_end List.mem_cons_self hgoes.ready
    (fun v hv => hgoes.here v (hhere v hv)) value).mono hg
  have hjump := hnest.jump_head (fun hk₂ => hother hk₂ rfl) hjoin hjoinle hempty₂
  rw [← Builder.code_ended hgoes.ready.current] at hjump harm hg
  refine ⟨hjump, hg, harm, h.le_of_nested hgoes.part hle hmem,
    hgoes.ready.lt_size.trans_le hg.blocks,
    fun _ => hother, ?_, ?_⟩
  · rw [Builder.code_ended hgoes.ready.current]
    exact hempty₂.close (hother hjoin) _
  · rw [Builder.code_ended hgoes.ready.current]
    exact hsources₂.jump

omit hj in
/-- Code that jumps to a join adds no edges to other blocks. -/
theorem Goes.beside {z : BlockId} (hz : z ∈ todo) (hzle : b.code.blocks.size ≤ z) (hne : join ≠ z)
    (hsources : b₁.code.EdgesFrom z sources) :
    (b₂.ended (.jump join [])).code.EdgesFrom z sources := by
  have hsources₂ := h.sources_beside (List.mem_cons_of_mem _ hz) hgoes.part hzle hloops hsources
  rw [Builder.code_ended hgoes.ready.current]
  refine hsources₂.close (fun _ hk => hk) fun e he heq => ?_
  exact absurd ((congrArg Prod.fst (List.mem_singleton.mp he)).symm.trans heq) hne

end Arrives

theorem Joins.mono (h : Joins K A b k A₁ c join edges) (hg : Grows A₁ c A₂ c')
    (hsources : c'.EdgesFrom join (edges.map (·.source))) : Joins K A b k A₂ c' join edges :=
  ⟨hsources, h.nodup, fun e he => (h.arms e he).mono hg⟩

theorem Builder.params_length (b : Builder) (k : BlockId) :
    ((b.blocks[k]?).map (·.params.length)).getD 0 = (b.code.block k).params.length := by
  unfold Code.block Builder.code
  rw [Array.getD_eq_getD_getElem?]
  cases b.blocks[k]? <;> rfl

theorem code_passToJoin (b : Builder) (join : BlockId) (type : TypeId)
    (values : List (BlockId × Option ValueId)) :
    ((passToJoin join type values).run b).2.code =
      b.code.pass join type (values.map fun p => (p.1, p.2.getD invalidId)) := by
  have hrun : ((passToJoin join type values).run b).2.code =
      { b.code with
        values := b.values.push
          { type, site := .param join (((b.blocks[join]?).map (·.params.length)).getD 0),
            span := {} }
        blocks := values.foldl
          (fun blocks edge => blocks.modify edge.1 fun k =>
            { k with term := k.term.map (appendArg join (edge.2.getD invalidId)) })
          (b.blocks.modify join fun k => { k with params := k.params ++ [b.values.size] }) } := rfl
  rw [hrun, Builder.params_length]
  unfold Code.pass appendArgs
  rw [List.foldl_map]
  rfl

/-- Passing values along all edges to a further parameter of a join. -/
theorem leads_passToJoin (h : Part K A b k A₁ b₁.code todo) (hjoin : join ∈ todo)
    (hle : b.code.blocks.size ≤ join) (hjoins : Joins K A b k A₁ b₁.code join edges) (type : TypeId)
    (value : Edge → Option ValueId) (hvalues : ∀ e ∈ edges, ∃ v, value e = some v ∧
      b₁.code.Known A₁ e.source v ∧ b₁.code.kind? K v = some (type, false)) :
    (passToJoin join type (edges.map fun e => (e.source, value e))).Leads b₁ fun p b₂ =>
      Part K A b k A₁ b₂.code todo ∧ Joins K A b k A₁ b₂.code join edges ∧
        Grows A₁ b₁.code A₁ b₂.code ∧ b₁.Agrees b₂ ∧ b₂.current = b₁.current ∧
          b₂.code.Known A₁ join p ∧ b₂.code.kind? K p = some (type, false) := by
  obtain ⟨howned, -, -⟩ := h.unended join hjoin
  have hlt := (h.valid.owned join howned).2
  have hcode := code_passToJoin b₁ join type (edges.map fun e => (e.source, value e))
  rw [List.map_map] at hcode
  generalize hargs : edges.map ((fun p : BlockId × Option ValueId => (p.1, p.2.getD invalidId)) ∘
    fun e => (e.source, value e)) = args at hcode
  have hfst : args.map (·.1) = edges.map (·.source) := by
    rw [← hargs, List.map_map]
    rfl
  have hall : ∀ a ∈ args, b.Free k a.1 ∧ b₁.code.Known A₁ a.1 a.2 ∧
      b₁.code.kind? K a.2 = some (type, false) := by
    intro a ha
    rw [← hargs] at ha
    obtain ⟨e, he, rfl⟩ := List.mem_map.mp ha
    obtain ⟨v, hv, hknown⟩ := hvalues e he
    simp only [Function.comp, hv, Option.getD_some]
    exact ⟨(hjoins.arms e he).free, hknown⟩
  have hnodup : (args.map (·.1)).Nodup := hfst ▸ hjoins.nodup
  have hg : Grows A₁ b₁.code A₁ (b₁.code.pass join type args) := grows_pass A₁ hlt
  have hpart := h.pass howned hle hnodup (hfst ▸ hjoins.sources) (fun a ha => (hall a ha).1)
    fun a ha => (hall a ha).2
  have hsources : (b₁.code.pass join type args).EdgesFrom join (edges.map (·.source)) := by
    intro j hj t ht e he heq
    obtain ⟨t', e', ht', he', heq'⟩ := exists_edge_of_pass hnodup (h.valid.owned j hj).2 ht he
    exact hjoins.sources j hj t' ht' e' he' (heq'.trans heq)
  have hknown : (b₁.code.pass join type args).Known A₁ join b₁.code.values.size :=
    .inr (defines_pass hlt)
  have hkind : (b₁.code.pass join type args).kind? K b₁.code.values.size = some (type, false) :=
    kind?_pass (h.ne_entry hle)
  rw [← hcode] at hpart hg hsources hknown hkind
  exact ⟨hpart, hjoins.mono hg hsources, hg, ⟨rfl, rfl, rfl⟩, rfl, hknown, hkind⟩

/-- What a join makes of a binding. -/
structure Joined (K : BodyContext) (A : Avail) (c : Code) (join : BlockId) (edges : List Edge)
    (kept : SymbolId → Prop) (sym : SymbolId) (r : Option ValueId) : Prop where
  known : ∀ v, r = some v → c.Known A join v ∧ c.Binds K sym v
  refs : isReference K.symbols sym = true → r = K.start.getD sym none
  isSome : kept sym → (∀ e ∈ edges, (e.env.getD sym none).isSome = true) → r.isSome = true

theorem leads_joinBinding (h : Part K A b k A₁ b₁.code todo) (hjoin : join ∈ todo)
    (hle : b.code.blocks.size ≤ join) (hjoins : Joins K A b k A₁ b₁.code join edges)
    (hne : edges ≠ []) (hshared : ∀ sym v, (∀ e ∈ edges, e.env.getD sym none = some v) → A₁ join v)
    (onlyLive : Bool) (sym : SymbolId) : (joinBinding join edges onlyLive sym).Leads b₁ fun r b₂ =>
      Part K A b k A₁ b₂.code todo ∧ Joins K A b k A₁ b₂.code join edges ∧
        Grows A₁ b₁.code A₁ b₂.code ∧ b₁.Agrees b₂ ∧
          Joined K A₁ b₂.code join edges (fun sym => onlyLive = true →
            b₁.isLive sym = true) sym r := by
  have hbinds : ∀ e ∈ edges, ∀ v, e.env.getD sym none = some v → b₁.code.Known A₁ e.source v ∧
      b₁.code.Binds K sym v := fun e he => (hjoins.arms e he).holds.known sym
  have hrefs : ∀ e ∈ edges, isReference K.symbols sym = true →
      e.env.getD sym none = K.start.getD sym none := fun e he => (hjoins.arms e he).holds.refs sym
  have hsame : Part K A b k A₁ b₁.code todo ∧ Joins K A b k A₁ b₁.code join edges ∧
      Grows A₁ b₁.code A₁ b₁.code ∧ b₁.Agrees b₁ := ⟨h, hjoins, .refl _ _, .refl _⟩
  unfold joinBinding
  extract_lets incoming
  cases edges with
  | nil => exact absurd rfl hne
  | cons first rest =>
  simp only [incoming, List.map_cons]
  have hmem : first ∈ first :: rest := List.mem_cons_self
  split
  · -- all edges agree
    rename_i hall
    have hagree : ∀ e ∈ first :: rest, e.env.getD sym none = first.env.getD sym none := by
      intro e he
      rcases List.mem_cons.mp he with rfl | he
      · rfl
      · have := List.all_eq_true.mp hall _ (List.mem_map.mpr ⟨e, he, rfl⟩)
        exact eq_of_beq this
    refine leads_pure ⟨hsame.1, hsame.2.1, hsame.2.2.1, hsame.2.2.2, fun v hv => ?_,
      hrefs first hmem,
      fun _ hsome => hsome first hmem⟩
    exact ⟨.inl (hshared sym v fun e he => (hagree e he).trans hv), (hbinds first hmem v hv).2⟩
  · rename_i hdiffer
    -- a reference is the same on all edges
    have href : isReference K.symbols sym = false := by
      refine Bool.eq_false_iff.mpr fun href => hdiffer (List.all_eq_true.mpr fun p hp => ?_)
      obtain ⟨e, he, rfl⟩ := List.mem_map.mp hp
      rw [beq_iff_eq, hrefs first hmem href]
      exact hrefs e (List.mem_cons_of_mem _ he) href
    have hnone (hnone : ¬((onlyLive = true → b₁.isLive sym = true) ∧
        ∀ e ∈ first :: rest, (e.env.getD sym none).isSome = true)) :
        Joined K A₁ b₁.code join (first :: rest) (fun sym => onlyLive = true →
          b₁.isLive sym = true) sym none :=
      ⟨nofun, fun htrue => absurd (href.symm.trans htrue) Bool.noConfusion,
        fun hlive hsome => absurd ⟨hlive, hsome⟩ hnone⟩
    split
    · rename_i hfirst
      refine leads_pure ⟨hsame.1, hsame.2.1, hsame.2.2.1, hsame.2.2.2, hnone fun hall => ?_⟩
      have := hall.2 first hmem
      rw [hfirst] at this
      cases this
    · rename_i v hfirst
      split
      · rename_i hundefined
        refine leads_pure ⟨hsame.1, hsame.2.1, hsame.2.2.1, hsame.2.2.2, hnone fun hall => ?_⟩
        obtain ⟨p, hp, hundefined⟩ := List.any_eq_true.mp hundefined
        obtain ⟨e, he, rfl⟩ := List.mem_map.mp hp
        have := hall.2 e (List.mem_cons_of_mem _ he)
        rw [show e.env.getD sym none = none from Option.isNone_iff_eq_none.mp hundefined] at this
        cases this
      · rename_i hdefined
        have hlive : (isLiveAfter sym).Leads b₁ fun live b₂ => live = b₁.isLive sym ∧
          b₂ = b₁ := ⟨rfl, rfl⟩
        refine hlive.bind fun live b₂ hlive => ?_
        obtain ⟨rfl, rfl⟩ := hlive
        split
        · rename_i hdead
          refine leads_pure ⟨hsame.1, hsame.2.1, hsame.2.2.1, hsame.2.2.2, hnone fun hall => ?_⟩
          rw [Bool.and_eq_true, Bool.not_eq_true'] at hdead
          exact absurd (hall.1 hdead.1) (by rw [hdead.2]; exact Bool.false_ne_true)
        · have hkind {e : Edge} (he : e ∈ first :: rest) {w : ValueId}
              (hw : e.env.getD sym none = some w) : b₂.code.Known A₁ e.source w ∧
                b₂.code.kind? K w = some (bindingType K.symbols sym, false) := by
            obtain ⟨hknown, hbind⟩ := hbinds e he w hw
            unfold Code.Binds at hbind
            rw [if_neg (by rw [href]; exact Bool.false_ne_true)] at hbind
            exact ⟨hknown, hbind⟩
          refine leads_typeOf (typeIn_of_kind? (hkind hmem hfirst).2) ?_
          have hpass := leads_passToJoin h hjoin hle hjoins (bindingType K.symbols sym)
            (fun e => e.env.getD sym none) fun e he => ?_
          · refine Leads.bind hpass fun p b₃ hp => ?_
            obtain ⟨hpart, hjoins', hg, hagrees, -, hknown, hkind'⟩ := hp
            refine leads_pure ⟨hpart, hjoins', hg, hagrees, fun w hw => ?_,
              fun htrue => absurd (href.symm.trans htrue) Bool.noConfusion, fun _ _ => rfl⟩
            obtain rfl := Option.some.inj hw
            refine ⟨hknown, ?_⟩
            unfold Code.Binds
            rw [if_neg (by rw [href]; exact Bool.false_ne_true)]
            exact hkind'
          · have hsome : (e.env.getD sym none).isSome = true := by
              rcases List.mem_cons.mp he with rfl | he
              · rw [hfirst]
                rfl
              · refine Option.isSome_iff_ne_none.mpr fun hnone => hdefined ?_
                exact List.any_eq_true.mpr ⟨_, List.mem_map.mpr ⟨e, he, rfl⟩, by simp [hnone]⟩
            obtain ⟨w, hw⟩ := Option.isSome_iff_exists.mp hsome
            exact ⟨w, hw, hkind he hw⟩

theorem Joined.mono {kept kept' : SymbolId → Prop} (hg : Grows A₁ c A₁ c') {sym : SymbolId}
    {r : Option ValueId} (h : Joined K A₁ c join edges kept sym r) (hkept : kept' sym → kept sym) :
    Joined K A₁ c' join edges kept' sym r :=
  ⟨fun v hv => ⟨hg.known (h.known v hv).1, hg.binds (h.known v hv).2⟩, h.refs,
    fun hsym => h.isSome (hkept hsym)⟩

/-- The values of bindings after a join, one binding after the other. -/
theorem leads_joinBindings (hjoin : join ∈ todo) (hle : b.code.blocks.size ≤ join)
    (hne : edges ≠ []) (hshared : ∀ sym v, (∀ e ∈ edges, e.env.getD sym none = some v) → A₁ join v)
    (onlyLive : Bool) {kept : SymbolId → Prop} (count : Nat) {env : Bindings} {b₁ : Builder}
    (h : Part K A b k A₁ b₁.code todo) (hjoins : Joins K A b k A₁ b₁.code join edges)
    (hkept : ∀ sym, kept sym → onlyLive = true → b₁.isLive sym = true)
    (henv : ∀ sym, sym < env.size → Joined K A₁ b₁.code join edges kept sym (env.getD sym none)) :
    (joinBindings join edges onlyLive (List.range' env.size count) env).Leads b₁ fun env' b₂ =>
      Part K A b k A₁ b₂.code todo ∧ Joins K A b k A₁ b₂.code join edges ∧
        Grows A₁ b₁.code A₁ b₂.code ∧ b₁.Agrees b₂ ∧ env'.size = env.size + count ∧
          ∀ sym, sym < env'.size → Joined K A₁ b₂.code join edges kept sym
            (env'.getD sym none) := by
  induction count generalizing env b₁ with
  | zero => exact leads_pure ⟨h, hjoins, .refl _ _, .refl _, rfl, henv⟩
  | succ count ih =>
    rw [List.range'_succ]
    unfold joinBindings
    refine (leads_joinBinding h hjoin hle hjoins hne hshared onlyLive env.size).bind
      fun v b₂ hv => ?_
    obtain ⟨hpart, hjoins₂, hg, hagrees, hjoined⟩ := hv
    have hpush (sym : SymbolId) (hlt : sym < (env.push v).size) :
        Joined K A₁ b₂.code join edges kept sym ((env.push v).getD sym none) := by
      rw [Array.getD_eq_getD_getElem?, Array.getElem?_push]
      split
      · rename_i heq
        exact heq ▸ hjoined.mono (.refl _ _) (hkept env.size)
      · rename_i hne'
        rw [Array.size_push] at hlt
        rw [← Array.getD_eq_getD_getElem?]
        exact (henv sym (Nat.lt_of_le_of_ne (Nat.lt_succ_iff.mp hlt) hne')).mono hg id
    have hsize : (env.push v).size = env.size + 1 := Array.size_push v
    rw [← hsize]
    refine (ih hpart hjoins₂ (fun sym hsym honly => ?_) hpush).imp fun env' b₃ henv' => ?_
    · rw [hagrees.isLive]
      exact hkept sym hsym honly
    · obtain ⟨hpart₃, hjoins₃, hg₃, hagrees₃, hsize₃, henv₃⟩ := henv'
      refine ⟨hpart₃, hjoins₃, hg.trans hg₃, hagrees.trans hagrees₃, ?_, henv₃⟩
      rw [hsize₃, hsize]
      omega

/-- The state in which code goes on at a join. -/
structure AtJoin (K : BodyContext) (A : Avail) (b : Builder) (k : BlockId) (A' : Avail)
    (b' : Builder) (todo : List BlockId) (join : BlockId) (edges : List Edge) : Prop where
  part : Part K A b k A' b'.code todo
  joins : Joins K A b k A' b'.code join edges
  current : b'.current = some join
  holds : b'.code.Holds K A' join b'.env
  size : b'.env.size = b.env.size
  here : ∀ v, b.code.Known A k v → b'.code.Known A' join v

/-- Going on at a join. Bindings that are defined on all edges stay defined if they are not left
out. -/
theorem leads_enterJoin (h : Part K A b k A₁ b₁.code todo) (hjoin : join ∈ todo)
    (hle : b.code.blocks.size ≤ join) (hjoins : Joins K A b k A₁ b₁.code join edges)
    (hne : edges ≠ []) (hsize : b₁.env.size = b.env.size) (onlyLive : Bool) :
    (enterJoin join edges onlyLive).Leads b₁ fun _ b₂ =>
      ∃ A₂, AtJoin K A b k A₂ b₂ todo join edges ∧
      Grows A₁ b₁.code A₂ b₂.code ∧ b₂.loops = b₁.loops ∧ b₂.pending = b₁.pending ∧
        ∀ sym, (onlyLive = true → b₁.isLive sym = true) →
          (∀ e ∈ edges, (e.env.getD sym none).isSome = true) →
          (b₂.env.getD sym none).isSome = true := by
  obtain ⟨howned, -, -⟩ := h.unended join hjoin
  -- what is known on all edges is known at the join
  have hS : ∀ j ∈ edges.map (·.source), ∀ v, (∀ e ∈ edges, b₁.code.Known A₁ e.source v) →
      b₁.code.Known A₁ j v := by
    intro j hj v hv
    obtain ⟨e, he, rfl⟩ := List.mem_map.mp hj
    exact hv e he
  have hassume := h.assume howned hle hjoins.sources hS
  have hg := grows_assume A₁ b₁.code join fun v => ∀ e ∈ edges, b₁.code.Known A₁ e.source v
  have hjoins' := hjoins.mono hg hjoins.sources
  have hshared (sym : SymbolId) (v : ValueId) (hv : ∀ e ∈ edges, e.env.getD sym none = some v) :
      (A₁.add join fun v => ∀ e ∈ edges, b₁.code.Known A₁ e.source v) join v :=
    .inr ⟨rfl, fun e he => ((hjoins.arms e he).holds.known sym v (hv e he)).1⟩
  have hcommon (v : ValueId) (hv : b.code.Known A k v) :
      (A₁.add join fun v => ∀ e ∈ edges, b₁.code.Known A₁ e.source v) join v :=
    .inr ⟨rfl, fun e he => (hjoins.arms e he).here v hv⟩
  generalize (A₁.add join fun v => ∀ e ∈ edges, b₁.code.Known A₁ e.source v) = A₂ at *
  unfold enterJoin
  refine leads_get ?_
  extract_lets count
  rw [List.range_eq_range']
  have hempty (sym : SymbolId) (hlt : sym < (#[] : Bindings).size) : Joined K A₂ b₁.code join edges
      (fun sym => onlyLive = true → b₁.isLive sym = true) sym ((#[] : Bindings).getD sym none) :=
    absurd hlt (Nat.not_lt_zero _)
  refine (leads_joinBindings hjoin hle hne hshared onlyLive count hassume hjoins'
    (fun _ hsym => hsym) hempty).bind fun env b₂ henv => ?_
  obtain ⟨hpart₂, hjoins₂, hg₂, hagrees, henvsize, henv⟩ := henv
  have hcount : env.size = b.env.size := by
    rw [henvsize, ← hsize]
    exact Nat.zero_add _
  have hout {sym : SymbolId} (hle : env.size ≤ sym) : env.getD sym none = none := by
    rw [Array.getD_eq_getD_getElem?, Array.getElem?_eq_none hle]
    rfl
  have hholds : b₂.code.Holds K A₂ join env := by
    refine ⟨fun sym v hv => ?_, fun sym href => ?_⟩
    · by_cases hlt : sym < env.size
      · exact (henv sym hlt).known v hv
      · rw [hout (Nat.not_lt.mp hlt)] at hv
        cases hv
    · by_cases hlt : sym < env.size
      · exact (henv sym hlt).refs href
      · rw [hout (Nat.not_lt.mp hlt), ← h.base.holds.refs sym href, Array.getD_eq_getD_getElem?,
          Array.getElem?_eq_none (hcount ▸ Nat.not_lt.mp hlt)]
        rfl
  refine ⟨A₂, ⟨hpart₂, hjoins₂, rfl, hholds, hcount, fun v hv => .inl (hcommon v hv)⟩, hg.trans hg₂,
    hagrees.loops, hagrees.pending, fun sym hlive hsome => ?_⟩
  by_cases hlt : sym < env.size
  · exact (henv sym hlt).isSome hlive hsome
  · obtain ⟨e, he⟩ := List.exists_mem_of_ne_nil edges hne
    have := hsome e he
    rw [Array.getD_eq_getD_getElem?, Array.getElem?_eq_none
      (by rw [(hjoins.arms e he).size, ← hcount]; exact Nat.not_lt.mp hlt)] at this
    cases this

theorem leads_enterValueJoin (h : Part K A b k A₁ b₁.code todo) (hjoin : join ∈ todo)
    (hle : b.code.blocks.size ≤ join) (hjoins : Joins K A b k A₁ b₁.code join edges)
    (hne : edges ≠ []) (hsize : b₁.env.size = b.env.size) (type : TypeId)
    (hvalues : ∀ e ∈ edges, ∃ v, e.value = some v ∧
      b₁.code.Known A₁ e.source v ∧ b₁.code.kind? K v = some (type, false)) :
    (enterValueJoin join edges type).Leads b₁ fun v b₂ =>
      ∃ A₂, AtJoin K A b k A₂ b₂ todo join edges ∧
      b₂.loops = b₁.loops ∧ b₂.pending = b₁.pending ∧ b₂.code.Known A₂ join v ∧
        b₂.code.kind? K v = some (type, false) ∧
          ∀ sym, (∀ e ∈ edges, (e.env.getD sym none).isSome = true) →
            (b₂.env.getD sym none).isSome = true := by
  refine (leads_enterJoin h hjoin hle hjoins hne hsize false).bind fun _ b₂ hb₂ => ?_
  obtain ⟨A₂, hat, hg, hloops, hpending, hsome⟩ := hb₂
  have hpass := leads_passToJoin hat.part hjoin hle hat.joins type (·.value) fun e he => ?_
  · refine Leads.imp hpass fun v b₃ hv => ?_
    obtain ⟨hpart, hjoins₃, hg₃, hagrees, hcurrent, hknown, hkind⟩ := hv
    refine ⟨A₂, ⟨hpart, hjoins₃, hcurrent.trans hat.current, ?_, ?_,
      fun v hv => hg₃.known (hat.here v hv)⟩, hagrees.loops.trans hloops,
      hagrees.pending.trans hpending,
      hknown, hkind, fun sym hall => ?_⟩
    · rw [hagrees.env]
      exact hat.holds.mono hg₃ fun _ => hg₃.known
    · rw [hagrees.env]
      exact hat.size
    · rw [hagrees.env]
      exact hsome sym nofun hall
  · obtain ⟨v, hv, hknown, hkind⟩ := hvalues e he
    exact ⟨v, hv, hg.known hknown, hg.kind? hkind⟩

/-- The code that leads to a join goes on there. -/
theorem AtJoin.goes (h : AtJoin K A b k A₁ b₁ [join] join edges) (hloops : b₁.loops = b.loops)
    (hpending : b₁.pending = b.pending)
    (hkeeps : ∀ sym, (b.env.getD sym none).isSome = true → (b₁.env.getD sym none).isSome = true) :
    Goes K A b k A₁ b₁ join :=
  h.part.goes h.current h.holds h.here ⟨h.size, hkeeps⟩ hloops hpending

end Join

end ContractCompiler.Ssa
