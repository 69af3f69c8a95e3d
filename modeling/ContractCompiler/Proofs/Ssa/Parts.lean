import ContractCompiler.Proofs.Ssa.CodeSteps

/-!
# Parts of a function under construction

The code of an expression or a statement is a part of a function: it begins in the block that is
open, adds blocks of its own, and touches no others. Its edges lead to its own blocks or out of a
loop around it. While it is built, some of its blocks are still without an ending.

- `Code.Holds`: bindings stand for values that are known in a block;
- `Builder.Ready`: a state in which code can be added to a block;
- `Part`: the code that was added since, with the blocks that are still to be ended;
- `Part.close`, `Part.addInst`, `Part.assume` and their like: the steps that extend a part;
- `Part.nest`: a part inside of a part;
- `Goes`, `Adds`: what the code of an expression and of a statement is.
-/

namespace ContractCompiler.Ssa

open Hir (Expr Stmt SymbolId PassMode)

/-! ## Bindings and loops -/

namespace Code

variable {K : BodyContext} {A A' : Avail} {c c' : Code} {k k' : BlockId}

/-- A value that a binding may stand for: a cell if it is a reference. -/
def Binds (K : BodyContext) (c : Code) (sym : SymbolId) (v : ValueId) : Prop :=
  if isReference K.symbols sym then c.Cell K v (bindingType K.symbols sym)
  else c.kind? K v = some (bindingType K.symbols sym, false)

/-- Bindings stand for values that are known in a block. A reference stands for the same cell in all
of the function. -/
structure Holds (K : BodyContext) (A : Avail) (c : Code) (k : BlockId) (env : Bindings) : Prop where
  known : ∀ sym v, env.getD sym none = some v → c.Known A k v ∧ c.Binds K sym v
  refs : ∀ sym, isReference K.symbols sym = true → env.getD sym none = K.start.getD sym none

/-- Where a loop around a block of the function goes on and where it ends. -/
structure LoopValid (K : BodyContext) (A : Avail) (c : Code) (k : BlockId) (env : Bindings)
    (l : LoopFrame) :
    Prop where
  targets : ∀ target, target = l.header ∨ target = l.exit → target ∈ c.owned ∧ target ≠ K.entry ∧
    target ≠ k ∧ ∀ v, A target v → c.Known A k v
  header : List.Forall₂ (fun p sym => typeIn c.values p = some (bindingType K.symbols sym))
    (c.block l.header).params l.carried
  exit : List.Forall₂ (fun p sym => typeIn c.values p = some (bindingType K.symbols sym))
    (c.block l.exit).params l.leaving
  leaving : ∀ s ∈ l.leaving, s ∈ l.carried
  carried : ∀ s ∈ l.carried, isReference K.symbols s = false
  /-- What a loop carries has values all through it. -/
  bound : ∀ s ∈ l.carried, (env.getD s none).isSome = true

theorem Grows.binds (h : Grows A c A' c') {sym : SymbolId} {v : ValueId} (hv : c.Binds K sym v) :
    c'.Binds K sym v := by
  unfold Binds at hv ⊢
  split
  · rename_i href
    rw [if_pos href] at hv
    exact h.cell hv
  · rename_i href
    rw [if_neg href] at hv
    exact h.kind? hv

theorem Holds.mono (h : Grows A c A' c') (hhere : ∀ v, c.Known A k v → c'.Known A' k' v)
    {env : Bindings} (hc : c.Holds K A k env) : c'.Holds K A' k' env :=
  ⟨fun sym v hv => ⟨hhere v (hc.known sym v hv).1, h.binds (hc.known sym v hv).2⟩, hc.refs⟩

end Code

open Code

/-! ## States in which code can be added -/

/-- Code can be added to a block. -/
structure Builder.Ready (K : BodyContext) (A : Avail) (b : Builder) (k : BlockId) : Prop where
  valid : b.code.Valid K A
  current : b.current = some k
  owned : k ∈ b.code.owned
  unended : (b.code.block k).term = none
  holds : b.code.Holds K A k b.env
  size : b.env.size = K.symbols.size
  loops : ∀ l ∈ b.loops, b.code.LoopValid K A k b.env l

/-- A block that the code added at a block may change. -/
def Builder.Free (b : Builder) (k j : BlockId) : Prop := j = k ∨ b.code.blocks.size ≤ j

/-- A block that the edges of added code may lead to: a new one, or one of a loop around. -/
def Builder.Leaves (b : Builder) (target : BlockId) : Prop :=
  b.code.blocks.size ≤ target ∨ ∃ l ∈ b.loops, target = l.header ∨ target = l.exit

namespace Builder.Ready

variable {K : BodyContext} {A : Avail} {b : Builder} {k : BlockId}

theorem lt_size (h : b.Ready K A k) : k < b.code.blocks.size := (h.valid.owned k h.owned).2

theorem entry_lt (h : b.Ready K A k) : K.entry < b.code.blocks.size :=
  (h.valid.owned k h.owned).1.trans_lt h.lt_size

/-- The targets of loops are not changed by code that is added. -/
theorem not_free (h : b.Ready K A k) {l : LoopFrame} (hl : l ∈ b.loops) {target : BlockId}
    (htarget : target = l.header ∨ target = l.exit) : ¬b.Free k target := by
  obtain ⟨howned, -, hne, -⟩ := (h.loops l hl).targets target htarget
  exact fun hfree => hfree.elim hne (Nat.not_le.mpr (h.valid.owned target howned).2)

/-- A block that was added is none that a loop around leads to. -/
theorem not_leaves (h : b.Ready K A k) {b₁ : Builder} (hloops : b₁.loops = b.loops)
    {target : BlockId} (hle : b.code.blocks.size ≤ target) (hlt : target < b₁.code.blocks.size) :
    ¬b₁.Leaves target := by
  rintro (hle' | ⟨l, hl, htarget⟩)
  · exact absurd hlt (Nat.not_lt.mpr hle')
  · rw [hloops] at hl
    exact h.not_free hl htarget (.inr hle)

end Builder.Ready

/-! ## Parts -/

/-- The code that was added at a block, with the blocks that are still to be ended. -/
structure Part (K : BodyContext) (A : Avail) (b : Builder) (k : BlockId) (A' : Avail) (c : Code)
    (todo : List BlockId) : Prop where
  base : b.Ready K A k
  valid : c.Valid K A'
  grows : Grows A b.code A' c
  born : ∀ j ∈ c.owned, j < b.code.blocks.size → j ∈ b.code.owned
  /-- Other blocks are left alone. -/
  frame : ∀ j, ¬b.Free k j → c.block j = b.code.block j ∧ A' j = A j
  start : (c.block k).params = (b.code.block k).params ∧ A' k = A k
  unended : ∀ j ∈ todo, j ∈ c.owned ∧ b.Free k j ∧ (c.block j).term = none
  closed : ∀ j ∈ c.owned, b.Free k j → j ∉ todo → (c.block j).term.isSome = true
  edges : ∀ j ∈ c.owned, b.Free k j → ∀ t, (c.block j).term = some t → ∀ e ∈ t.edges, b.Leaves e.1

namespace Part

variable {K : BodyContext} {A A₁ A₂ : Avail} {b b₁ : Builder} {k j : BlockId} {c c' : Code}
  {todo todo₁ todo' : List BlockId}

theorem refl (h : b.Ready K A k) : Part K A b k A b.code [k] := by
  have hfree {j : BlockId} (hj : j ∈ b.code.owned) (hj' : b.Free k j) : j = k :=
    hj'.elim id fun hle => absurd (h.valid.owned j hj).2 (Nat.not_lt.mpr hle)
  refine ⟨h, h.valid, .refl _ _, fun _ hj _ => hj, fun _ _ => ⟨rfl, rfl⟩, ⟨rfl, rfl⟩,
    fun j hj => ?_,
    fun j hj hj' hnot => ?_, fun j hj hj' t ht => ?_⟩
  · rw [List.mem_singleton.mp hj]
    exact ⟨h.owned, .inl rfl, h.unended⟩
  · exact absurd (List.mem_singleton.mpr (hfree hj hj')) hnot
  · rw [hfree hj hj', h.unended] at ht
    cases ht

theorem entry_lt (h : Part K A b k A₁ c todo) : K.entry < c.blocks.size :=
  h.base.entry_lt.trans_le h.grows.blocks

/-- A block that was added is not the entry. -/
theorem ne_entry (h : Part K A b k A₁ c todo) (hj : b.code.blocks.size ≤ j) : j ≠ K.entry :=
  fun heq => absurd h.base.entry_lt (Nat.not_lt.mpr (heq ▸ hj))

theorem ne_start (h : Part K A b k A₁ c todo) (hj : b.code.blocks.size ≤ j) : j ≠ k :=
  fun heq => absurd h.base.lt_size (Nat.not_lt.mpr (heq ▸ hj))

/-- A block that there was before keeps its parameters, and what is known at its start. -/
theorem keeps (h : Part K A b k A₁ c todo) (hj : j < b.code.blocks.size) :
    (c.block j).params = (b.code.block j).params ∧ A₁ j = A j := by
  by_cases hjk : j = k
  · exact hjk ▸ h.start
  · obtain ⟨hblock, hA⟩ := h.frame j fun hfree => hfree.elim hjk (Nat.not_le.mpr hj)
    exact ⟨congrArg Block.params hblock, hA⟩

theorem congr (h : Part K A b k A₁ c todo) (htodo : ∀ x, x ∈ todo' ↔ x ∈ todo) :
    Part K A b k A₁ c todo' :=
  { h with
    unended := fun j hj => h.unended j ((htodo j).mp hj)
    closed := fun j hj hfree hnot => h.closed j hj hfree fun hmem => hnot ((htodo j).mpr hmem) }

theorem addBlock (h : Part K A b k A₁ c todo) :
    Part K A b k A₁ c.addBlock (c.blocks.size :: todo) := by
  have hg := grows_addBlock A₁ c
  have hnew : b.Free k c.blocks.size := .inr h.grows.blocks
  have hmem {j : BlockId} (hj : j ∈ c.addBlock.owned) (hnot : j ≠ c.blocks.size) : j ∈ c.owned := by
    rcases List.mem_append.mp hj with hj | hj
    · exact hj
    · exact absurd (List.mem_singleton.mp hj) hnot
  have hempty : (c.addBlock.block c.blocks.size).term = none := by
    rw [block_addBlock, block_of_size_le (Nat.le_refl _)]
  refine ⟨h.base, h.valid.addBlock h.entry_lt.le, h.grows.trans hg, fun j hj hlt => ?_,
    fun j hj => ?_, ?_,
    fun j hj => ?_, fun j hj hfree hnot => ?_, fun j hj hfree t ht e he => ?_⟩
  · exact h.born j (hmem hj fun heq => absurd hlt (Nat.not_lt.mpr (heq ▸ h.grows.blocks))) hlt
  · rw [block_addBlock]
    exact h.frame j hj
  · rw [block_addBlock]
    exact h.start
  · rcases List.mem_cons.mp hj with rfl | hj
    · exact ⟨mem_addBlock, hnew, hempty⟩
    · obtain ⟨howned, hfree, hterm⟩ := h.unended j hj
      rw [block_addBlock]
      exact ⟨hg.owned j howned, hfree, hterm⟩
  · obtain ⟨hne, hnot⟩ := not_or.mp (mt List.mem_cons.mpr hnot)
    rw [block_addBlock]
    exact h.closed j (hmem hj hne) hfree hnot
  · by_cases hne : j = c.blocks.size
    · rw [hne, hempty] at ht
      cases ht
    · rw [block_addBlock] at ht
      exact h.edges j (hmem hj hne) hfree t ht e he

theorem mem_iff_of_not_mem (hj : j ∉ todo) (x : BlockId) : x ∈ todo ↔ x ∈ j :: todo ∧ x ≠ j := by
  refine ⟨fun hx => ⟨List.mem_cons_of_mem _ hx, fun heq => hj (heq ▸ hx)⟩, fun ⟨hx, hne⟩ => ?_⟩
  exact (List.mem_cons.mp hx).resolve_left hne

/-- Ending one of the blocks that are still to be ended. -/
theorem close (h : Part K A b k A₁ c todo) (hj : j ∈ todo) {t : Terminator}
    (ht : c.EndValid K A₁ j t) (hleaves : ∀ e ∈ t.edges, b.Leaves e.1)
    (htodo : ∀ x, x ∈ todo' ↔ x ∈ todo ∧ x ≠ j) : Part K A b k A₁ (c.close j t) todo' := by
  obtain ⟨howned, hfree, -⟩ := h.unended j hj
  have hself := block_close_self c j t (h.valid.owned j howned).2
  refine ⟨h.base, h.valid.close howned ht, h.grows.trans (grows_close c j t A₁), h.born,
    fun x hx => ?_,
    ?_, fun x hx => ?_, fun x hx hx' hnot => ?_, fun x hx hx' t' ht' e he => ?_⟩
  · rw [block_close_of_ne c j t x fun heq => hx (heq ▸ hfree)]
    exact h.frame x hx
  · rw [params_close]
    exact h.start
  · obtain ⟨hx, hne⟩ := (htodo x).mp hx
    rw [block_close_of_ne c j t x hne]
    exact h.unended x hx
  · by_cases hne : x = j
    · rw [hne, hself]
      rfl
    · rw [block_close_of_ne c j t x hne]
      exact h.closed x hx hx' fun hmem => hnot ((htodo x).mpr ⟨hmem, hne⟩)
  · by_cases hne : x = j
    · rw [hne, hself] at ht'
      obtain rfl := Option.some.inj ht'
      exact hleaves e he
    · rw [block_close_of_ne c j t x hne] at ht'
      exact h.edges x hx hx' t' ht' e he

/-- What the steps have in common that end no block. -/
theorem of_step (h : Part K A b k A₁ c todo) (hvalid : c'.Valid K A₂) (hg : Grows A₁ c A₂ c')
    (howned : c'.owned = c.owned) (hframe : ∀ j, ¬b.Free k j → c'.block j = c.block j ∧ A₂ j = A₁ j)
    (hstart : (c'.block k).params = (c.block k).params ∧ A₂ k = A₁ k)
    (hnone : ∀ j, (c'.block j).term = none ↔ (c.block j).term = none)
    (hedges : ∀ j ∈ c.owned, ∀ t, (c'.block j).term = some t → ∀ e ∈ t.edges,
      ∃ t' e', (c.block j).term = some t' ∧ e' ∈ t'.edges ∧ e'.1 = e.1) :
    Part K A b k A₂ c' todo := by
  refine ⟨h.base, hvalid, h.grows.trans hg, fun j hj => h.born j (howned ▸ hj), fun j hj => ?_, ?_,
    fun j hj => ?_, fun j hj hfree hnot => ?_, fun j hj hfree t ht e he => ?_⟩
  · exact ⟨(hframe j hj).1.trans (h.frame j hj).1, (hframe j hj).2.trans (h.frame j hj).2⟩
  · exact ⟨hstart.1.trans h.start.1, hstart.2.trans h.start.2⟩
  · obtain ⟨hmem, hfree, hterm⟩ := h.unended j hj
    exact ⟨howned ▸ hmem, hfree, (hnone j).mpr hterm⟩
  · have hsome := h.closed j (howned ▸ hj) hfree hnot
    rw [Option.isSome_iff_ne_none] at hsome ⊢
    exact fun hterm => hsome ((hnone j).mp hterm)
  · obtain ⟨t', e', ht', he', heq⟩ := hedges j (howned ▸ hj) t ht e he
    exact heq ▸ h.edges j (howned ▸ hj) hfree t' ht' e' he'

theorem addInst (h : Part K A b k A₁ c todo) (hj : j ∈ todo) {data : InstData}
    (hfits : c.Fits K data) (huses : ∀ v ∈ data.operands, c.Known A₁ j v) (type : Option TypeId)
    (effect : Effect) (span : Span) : Part K A b k A₁ (c.addInst j data type effect span) todo := by
  obtain ⟨howned, hfree, -⟩ := h.unended j hj
  refine h.of_step (h.valid.addInst howned hfits huses type effect span)
    (grows_addInst c j data type effect span A₁) rfl (fun x hx => ⟨?_, rfl⟩)
    ⟨params_addInst c j data type effect span k, rfl⟩ (fun x => ?_) fun x _ t ht e he => ?_
  · exact block_addInst_of_ne c j data type effect span x fun heq => hx (heq ▸ hfree)
  · rw [term_addInst]
  · rw [term_addInst] at ht
    exact ⟨t, e, ht, he, rfl⟩

theorem addParam (h : Part K A b k A₁ c todo) (hj : j ∈ c.owned) (hle : b.code.blocks.size ≤ j)
    (hfrom : c.EdgesFrom j []) (type : TypeId) (span : Span) :
    Part K A b k A₁ (c.addParam j type span) todo := by
  refine h.of_step (h.valid.addParam hj hfrom type span)
    (grows_addParam c j type span A₁ (h.valid.owned j hj).2) rfl (fun x hx => ⟨?_, rfl⟩) ⟨?_, rfl⟩
    (fun x => ?_) fun x _ t ht e he => ?_
  · exact block_addParam_of_ne c j type span x fun heq => hx (heq ▸ .inr hle)
  · rw [block_addParam_of_ne c j type span k (h.ne_start hle).symm]
  · rw [term_addParam]
  · rw [term_addParam] at ht
    exact ⟨t, e, ht, he, rfl⟩

theorem withTypes (h : Part K A b k A₁ c todo) {types : TypePool} (hext : c.types.Extends types)
    (hsound : types.Sound) : Part K A b k A₁ { c with types } todo :=
  h.of_step (h.valid.withTypes hext hsound) (grows_withTypes A₁ c hext) rfl (fun _ _ => ⟨rfl, rfl⟩)
    ⟨rfl, rfl⟩ (fun _ => Iff.rfl) fun _ _ t ht e he => ⟨t, e, ht, he, rfl⟩

theorem assume (h : Part K A b k A₁ c todo) (hj : j ∈ c.owned) (hle : b.code.blocks.size ≤ j)
    {sources : List BlockId} (hfrom : c.EdgesFrom j sources) {S : ValueId → Prop}
    (hS : ∀ x ∈ sources, ∀ v, S v → c.Known A₁ x v) : Part K A b k (A₁.add j S) c todo := by
  have hother {x : BlockId} (hne : x ≠ j) : (A₁.add j S) x = A₁ x := by
    funext v
    simp [Avail.add, hne]
  refine h.of_step (h.valid.assume hj (h.ne_entry hle) hfrom hS) (grows_assume A₁ c j S) rfl
    (fun x hx => ⟨rfl, hother fun heq => hx (heq ▸ .inr hle)⟩) ⟨rfl, hother (h.ne_start hle).symm⟩
    (fun _ => Iff.rfl) fun _ _ t ht e he => ⟨t, e, ht, he, rfl⟩

theorem pass (h : Part K A b k A₁ c todo) (hj : j ∈ c.owned) (hle : b.code.blocks.size ≤ j)
    {type : TypeId} {args : List (BlockId × ValueId)} (hnodup : (args.map (·.1)).Nodup)
    (hfrom : c.EdgesFrom j (args.map (·.1))) (hfree : ∀ a ∈ args, b.Free k a.1)
    (hargs : ∀ a ∈ args, c.Known A₁ a.1 a.2 ∧ c.kind? K a.2 = some (type, false)) :
    Part K A b k A₁ (c.pass j type args) todo := by
  have hlt := (h.valid.owned j hj).2
  refine h.of_step (h.valid.pass hj (h.ne_entry hle) hnodup hfrom hargs) (grows_pass A₁ hlt) rfl
    (fun x hx => ⟨?_, rfl⟩) ⟨?_, rfl⟩ (fun x => ?_) fun x hx t ht e he => ?_
  · exact block_pass_of_ne (fun heq => hx (heq ▸ .inr hle)) fun hmem => by
      obtain ⟨a, ha, heq⟩ := List.mem_map.mp hmem
      exact hx (heq ▸ hfree a ha)
  · rw [params_pass_of_ne (h.ne_start hle).symm]
  · exact term_pass_eq_none x
  · exact exists_edge_of_pass hnodup (h.valid.owned x hx).2 ht he

/-- A part inside of a part. -/
theorem nest (h : Part K A b k A₁ b₁.code todo) (hj : j ∈ todo) (h₁ : Part K A₁ b₁ j A₂ c todo₁)
    (hloops : ∀ l ∈ b₁.loops, l ∈ b.loops ∨
      b.code.blocks.size ≤ l.header ∧ b.code.blocks.size ≤ l.exit)
    (htodo : ∀ x, x ∈ todo' ↔ x ∈ todo₁ ∨ x ∈ todo ∧ x ≠ j) : Part K A b k A₂ c todo' := by
  obtain ⟨-, hfree, -⟩ := h.unended j hj
  have hsize := h.grows.blocks
  have hout {x : BlockId} (hx : b₁.Free j x) : b.Free k x :=
    hx.elim (fun heq => heq ▸ hfree) fun hle => .inr (hsize.trans hle)
  have hin {x : BlockId} (hx : x < b₁.code.blocks.size) (hne : x ≠ j) : ¬b₁.Free j x :=
    fun hx' => hx'.elim hne (Nat.not_le.mpr hx)
  have hold {x : BlockId} (hx : x ∈ c.owned) (hx' : ¬b₁.Free j x) : x ∈ b₁.code.owned :=
    h₁.born x hx (Nat.not_le.mp fun hle => hx' (.inr hle))
  have hleaves {x : BlockId} (hx : b₁.Leaves x) : b.Leaves x := by
    rcases hx with hle | ⟨l, hl, hx⟩
    · exact .inl (hsize.trans hle)
    · rcases hloops l hl with hl | ⟨hheader, hexit⟩
      · exact .inr ⟨l, hl, hx⟩
      · exact .inl (hx.elim (fun heq => heq ▸ hheader) fun heq => heq ▸ hexit)
  refine ⟨h.base, h₁.valid, h.grows.trans h₁.grows, fun x hx hlt => ?_, fun x hx => ?_, ?_,
    fun x hx => ?_,
    fun x hx hx' hnot => ?_, fun x hx hx' t ht e he => ?_⟩
  · exact h.born x (h₁.born x hx (hlt.trans_le hsize)) hlt
  · obtain ⟨hblock, hA⟩ := h₁.frame x fun hx' => hx (hout hx')
    exact ⟨hblock.trans (h.frame x hx).1, hA.trans (h.frame x hx).2⟩
  · obtain ⟨hparams, hA⟩ := h₁.keeps (h.base.lt_size.trans_le hsize)
    exact ⟨hparams.trans h.start.1, hA.trans h.start.2⟩
  · rcases (htodo x).mp hx with hx | ⟨hx, hne⟩
    · obtain ⟨howned, hx', hterm⟩ := h₁.unended x hx
      exact ⟨howned, hout hx', hterm⟩
    · obtain ⟨howned, hx', hterm⟩ := h.unended x hx
      obtain ⟨hblock, -⟩ := h₁.frame x (hin (h.valid.owned x howned).2 hne)
      exact ⟨h₁.grows.owned x howned, hx', hblock ▸ hterm⟩
  · by_cases hfree₁ : b₁.Free j x
    · exact h₁.closed x hx hfree₁ fun hmem => hnot ((htodo x).mpr (.inl hmem))
    · have hne : x ≠ j := fun heq => hfree₁ (.inl heq)
      obtain ⟨hblock, -⟩ := h₁.frame x hfree₁
      rw [hblock]
      exact h.closed x (hold hx hfree₁) hx' fun hmem => hnot ((htodo x).mpr (.inr ⟨hmem, hne⟩))
  · by_cases hfree₁ : b₁.Free j x
    · exact hleaves (h₁.edges x hx hfree₁ t ht e he)
    · obtain ⟨hblock, -⟩ := h₁.frame x hfree₁
      rw [hblock] at ht
      exact h.edges x (hold hx hfree₁) hx' t ht e he

/-- A part inside of a part, at the first of the blocks that are still to be ended. -/
theorem nest_head (h : Part K A b k A₁ b₁.code (j :: todo)) (hj : j ∉ todo)
    (h₁ : Part K A₁ b₁ j A₂ c todo₁) (hloops : b₁.loops = b.loops) :
    Part K A b k A₂ c (todo₁ ++ todo) := by
  refine h.nest List.mem_cons_self h₁ (fun l hl => .inl (hloops ▸ hl)) fun x => ?_
  rw [List.mem_append, mem_iff_of_not_mem hj]

/-- A part adds no edges to other blocks than those that it may lead to. -/
theorem edgesFrom (h : Part K A b k A₁ c todo) {target : BlockId} {sources : List BlockId}
    (hfrom : b.code.EdgesFrom target sources) (htarget : ¬b.Leaves target) :
    c.EdgesFrom target sources := by
  intro j hj t ht e he heq
  by_cases hfree : b.Free k j
  · exact absurd (heq ▸ h.edges j hj hfree t ht e he) htarget
  · rw [(h.frame j hfree).1] at ht
    have howned := h.born j hj (Nat.not_le.mp fun hle => hfree (.inr hle))
    exact hfrom j howned t ht e he heq

/-- Code can be added to a block that is still to be ended. -/
theorem ready (h : Part K A b k A₁ b₁.code todo) (hj : j ∈ todo) (hcurrent : b₁.current = some j)
    (hholds : b₁.code.Holds K A₁ j b₁.env) (hsize : b₁.env.size = b.env.size)
    (hloops : b₁.loops = b.loops) (hhere : ∀ v, b.code.Known A k v → b₁.code.Known A₁ j v)
    (hbound : ∀ l ∈ b.loops, ∀ s ∈ l.carried, (b₁.env.getD s none).isSome = true) :
    b₁.Ready K A₁ j := by
  obtain ⟨howned, hfree, hterm⟩ := h.unended j hj
  refine ⟨h.valid, hcurrent, howned, hterm, hholds, hsize.trans h.base.size, fun l hl => ?_⟩
  rw [hloops] at hl
  have hl' := h.base.loops l hl
  have hparams {target : BlockId} (htarget : target = l.header ∨ target = l.exit) :
      (b₁.code.block target).params = (b.code.block target).params :=
    congrArg Block.params (h.frame target (h.base.not_free hl htarget)).1
  refine ⟨fun target htarget => ?_, ?_, ?_, hl'.leaving, hl'.carried, hbound l hl⟩
  · obtain ⟨howned, hentry, -, havail⟩ := hl'.targets target htarget
    have hnot := h.base.not_free hl htarget
    refine ⟨h.grows.owned _ howned, hentry, fun heq => hnot (heq ▸ hfree), fun v hv => ?_⟩
    rw [(h.frame target hnot).2] at hv
    exact hhere v (havail v hv)
  · rw [hparams (.inl rfl)]
    exact hl'.header.imp fun _ _ hp => h.grows.typeIn hp
  · rw [hparams (.inr rfl)]
    exact hl'.exit.imp fun _ _ hp => h.grows.typeIn hp

end Part

end ContractCompiler.Ssa
