import ContractCompiler.Proofs.Codegen.Jumps
import ContractCompiler.Proofs.Codegen.Linkage
import ContractCompiler.Proofs.Vm.Budget
import Mathlib.Data.List.TakeWhile

/-!
# Which way code goes

The positions of the code of a function belong to its blocks. From an instruction control goes
forward in the code of its block, or along an edge to another block; blocks without instructions are
passed at once. So where blocks lead to no block twice, control comes to no position twice.

- `FunctionContext.blockAt`: the block that a position belongs to;
- `FunctionContext.Behind`: blocks whose code ends that of others;
- `FunctionContext.Place`: an instruction in the code of a block;
- `FunctionContext.Goes`: forward in the code of a block, or along the edges between blocks;
- `FunctionContext.Closed`, `FunctionContext.Closed.goes_of_leads`: control goes so in the code of
  blocks.
-/

namespace ContractCompiler.Codegen

open Ssa (BlockId)
open Relation

/-! ## Splits of code -/

theorem exists_split_of_lt_instrCount {is : List Item} {k : Nat} (hk : k < instrCount is) :
    ∃ done i todo, is = done ++ i :: todo ∧ i.op?.isSome = true ∧ k = instrCount done := by
  induction is generalizing k with
  | nil => cases hk
  | cons i is ih =>
    cases hi : i.op?.isSome with
    | true =>
      rw [instrCount_cons_some hi] at hk
      cases k with
      | zero => exact ⟨[], i, is, rfl, hi, rfl⟩
      | succ k =>
        obtain ⟨done, j, todo, rfl, hj, rfl⟩ := ih (Nat.lt_of_succ_lt_succ hk)
        exact ⟨i :: done, j, todo, rfl, hj, (instrCount_cons_some hi done).symm⟩
    | false =>
      rw [instrCount_cons_none hi] at hk
      obtain ⟨done, j, todo, rfl, hj, rfl⟩ := ih hk
      exact ⟨i :: done, j, todo, rfl, hj, (instrCount_cons_none hi done).symm⟩

/-- A position of pieces is that of one of their instructions. -/
theorem exists_split_of_lt_codeSize {ps : List Piece} {k : Nat} (hk : k < codeSize ps) :
    ∃ pre p post done i todo, ps = pre ++ p :: post ∧ p.items = done ++ i :: todo ∧
      i.op?.isSome = true ∧
      k = codeSize pre + instrCount done := by
  induction ps generalizing k with
  | nil => cases hk
  | cons p ps ih =>
    by_cases hlt : k < instrCount p.items
    · obtain ⟨done, i, todo, hitems, hi, rfl⟩ := exists_split_of_lt_instrCount hlt
      exact ⟨[], p, ps, done, i, todo, rfl, hitems, hi, (Nat.zero_add _).symm⟩
    · rw [codeSize_cons] at hk
      obtain ⟨pre, q, post, done, i, todo, rfl, hitems, hi, hpos⟩ :=
        ih (k := k - instrCount p.items) (by omega)
      refine ⟨p :: pre, q, post, done, i, todo, rfl, hitems, hi, ?_⟩
      rw [codeSize_cons]
      omega

theorem labelPosition_le (ps : List Piece) (l : Label) :
    labelPosition (placed 0 ps) l ≤ codeSize ps := by
  rw [labelPosition]
  cases hfind : (placed 0 ps).reverse.find? fun x => x.2.label == some l with
  | none => exact Nat.zero_le _
  | some x =>
    obtain ⟨before, after, rfl, hpos⟩ :=
      exists_split_of_mem_placed (List.mem_reverse.mp (List.mem_of_find?_eq_some hfind))
    rw [codeSize_append, Option.map_some, Option.getD_some, hpos]
    omega

namespace FunctionContext

/-! ## The code of blocks -/

section Blocks

variable [Hashing] (cx : FunctionContext) (depths : Array Nat)

/-- The code of the first of some blocks. -/
def leading (b : BlockId) (bs : List BlockId) : List Piece :=
  cx.block b (cx.options.gas.loopWeight (depths.getD b 0)) bs.head?

/-- The block that a position of the code of blocks belongs to. -/
def blockAt : List BlockId → Nat → Option BlockId
  | [], _ => none
  | b :: bs, pc =>
    if pc < codeSize (cx.leading depths b bs) then some b
      else blockAt bs (pc - codeSize (cx.leading depths b bs))

/-- The code of blocks ends with that of others, which starts after given pieces. -/
structure Behind (bs : List BlockId) (before : List Piece) (bs' : List BlockId) : Prop where
  pieces : cx.blocks depths bs = before ++ cx.blocks depths bs'
  blockAt : ∀ k, cx.blockAt depths bs (codeSize before + k) = cx.blockAt depths bs' k

end Blocks

section Blocks

variable [Hashing] {cx : FunctionContext} {depths : Array Nat} {b c : BlockId}
  {bs bs' : List BlockId}
  {before after : List Piece} {pc : Nat}

theorem blocks_cons (b : BlockId) (bs : List BlockId) :
    cx.blocks depths (b :: bs) = cx.leading depths b bs ++ cx.blocks depths bs :=
  rfl

theorem blockAt_of_lt (h : pc < codeSize (cx.leading depths b bs)) :
    cx.blockAt depths (b :: bs) pc = some b :=
  if_pos h

theorem blockAt_add (b : BlockId) (bs : List BlockId) (k : Nat) :
    cx.blockAt depths (b :: bs) (codeSize (cx.leading depths b bs) + k) =
      cx.blockAt depths bs k := by
  rw [blockAt, if_neg (Nat.not_lt.mpr (Nat.le_add_right _ _)), Nat.add_sub_cancel_left]

theorem mem_of_blockAt (h : cx.blockAt depths bs pc = some b) : b ∈ bs := by
  induction bs generalizing pc with
  | nil => cases h
  | cons c bs ih =>
    rw [blockAt] at h
    split at h
    · exact Option.some.inj h ▸ List.mem_cons_self
    · exact List.mem_cons_of_mem c (ih h)

/-- Positions of the code of blocks belong to one of them. -/
theorem exists_blockAt (h : pc < codeSize (cx.blocks depths bs)) :
    ∃ b, cx.blockAt depths bs pc = some b := by
  induction bs generalizing pc with
  | nil => cases h
  | cons b bs ih =>
    by_cases hlt : pc < codeSize (cx.leading depths b bs)
    · exact ⟨b, blockAt_of_lt hlt⟩
    · rw [blocks_cons, codeSize_append] at h
      have hrest : pc - codeSize (cx.leading depths b bs) <
        codeSize (cx.blocks depths bs) := by omega
      obtain ⟨c, hat⟩ := ih hrest
      exact ⟨c, by rw [blockAt, if_neg hlt, hat]⟩

theorem Behind.refl (bs : List BlockId) : cx.Behind depths bs [] bs := by
  refine ⟨rfl, fun k => ?_⟩
  rw [show codeSize [] = 0 from rfl, Nat.zero_add]

theorem Behind.cons (h : cx.Behind depths bs before bs') (b : BlockId) :
    cx.Behind depths (b :: bs) (cx.leading depths b bs ++ before) bs' := by
  refine ⟨?_, fun k => ?_⟩
  · rw [blocks_cons, h.pieces, List.append_assoc]
  · rw [codeSize_append, Nat.add_assoc, blockAt_add, h.blockAt]

/-- The code of the block that a position belongs to. -/
theorem exists_behind (h : cx.blockAt depths bs pc = some b) : ∃ before bs' k,
    cx.Behind depths bs before (b :: bs') ∧ pc = codeSize before + k ∧
    k < codeSize (cx.leading depths b bs') := by
  induction bs generalizing pc with
  | nil => cases h
  | cons c bs ih =>
    by_cases hlt : pc < codeSize (cx.leading depths c bs)
    · rw [blockAt_of_lt hlt] at h
      obtain rfl := Option.some.inj h
      exact ⟨[], bs, pc, .refl _, (Nat.zero_add pc).symm, hlt⟩
    · rw [blockAt, if_neg hlt] at h
      obtain ⟨before, bs', k, hbehind, hpc, hk⟩ := ih h
      refine ⟨_, bs', k, hbehind.cons c, ?_, hk⟩
      rw [codeSize_append]
      omega

/-- Only the start of a block has a label. -/
theorem exists_leading (cx : FunctionContext) (depths : Array Nat) (b : BlockId)
    (bs : List BlockId) :
    ∃ rest, cx.leading depths b bs = { label := some (.block b) } :: rest ∧
      ∀ q ∈ rest, q.label = none := by
  refine ⟨_, block_eq .., fun q hq => ?_⟩
  rcases List.mem_append.mp hq with hq | hq
  · obtain ⟨i, -, rfl⟩ := List.mem_map.mp hq
    rfl
  · obtain rfl := List.mem_singleton.mp hq
    rfl

/-- At a label the code of its block starts. -/
theorem behind_of_label {q : Piece} {l : Label}
    (hsplit : cx.blocks depths bs = before ++ q :: after) (hl : q.label = some l) :
    ∃ b bs', l = .block b ∧ cx.Behind depths bs before (b :: bs') := by
  induction bs generalizing before with
  | nil => simp [blocks] at hsplit
  | cons b bs ih =>
    obtain ⟨rest, hleading, hrest⟩ := cx.exists_leading depths b bs
    rw [blocks_cons, hleading, List.cons_append] at hsplit
    cases before with
    | nil =>
      obtain ⟨rfl, -⟩ := List.cons.inj hsplit
      exact ⟨b, bs, (Option.some.inj hl).symm, .refl _⟩
    | cons p before =>
      obtain ⟨rfl, htail⟩ := List.cons.inj hsplit
      rcases List.append_eq_append_iff.mp htail with ⟨before', rfl, hbs⟩ | ⟨rest', hmem, hbs⟩
      · obtain ⟨c, bs', hc, hbehind⟩ := ih hbs
        have hcons := hbehind.cons b
        rw [hleading] at hcons
        exact ⟨c, bs', hc, hcons⟩
      · cases rest' with
        | nil =>
          rw [List.append_nil] at hmem
          subst hmem
          obtain ⟨c, bs', hc, hbehind⟩ :=
            ih (show cx.blocks depths bs = [] ++ q :: after from hbs.symm)
          have hcons := hbehind.cons b
          rw [hleading, List.append_nil] at hcons
          exact ⟨c, bs', hc, hcons⟩
        | cons q' rest' =>
          obtain ⟨rfl, -⟩ := List.cons.inj hbs
          rw [hrest q (hmem ▸ by simp)] at hl
          cases hl

/-! ## Edges -/

/-- A block leads to another. -/
def Edge (cx : FunctionContext) (b c : BlockId) : Prop := c ∈ (cx.module.block b).successors

/-- Where the code of a block starts, control is in that block, or in one that it leads to through
blocks without instructions. -/
theorem reach_of_start (h : cx.blockAt depths (b :: bs) 0 = some c) : ReflTransGen cx.Edge b c := by
  induction bs generalizing b with
  | nil =>
    rw [blockAt] at h
    split at h
    · exact Option.some.inj h ▸ .refl
    · cases h
  | cons b' bs ih =>
    rw [blockAt] at h
    split at h
    · exact Option.some.inj h ▸ .refl
    · rename_i hempty
      have hcloses := cx.closes_block b (cx.options.gas.loopWeight (depths.getD b 0)) (some b')
      obtain ⟨target, htarget, heq⟩ := hcloses.exists_next (Nat.eq_zero_of_not_pos hempty)
      obtain rfl := Option.some.inj heq
      rw [Nat.zero_sub] at h
      exact .head htarget (ih h)

/-- From a position of the code of a block on, control is in that block, or in one that it leads
to. -/
theorem reach_of_rest {done rest : List Item}
    (hitems : (cx.leading depths b bs).flatMap (·.items) = done ++ rest)
    (hcloses : Closes bs.head? (cx.module.block b).successors rest)
    (h : cx.blockAt depths (b :: bs) (instrCount done) = some c) : ReflTransGen cx.Edge b c := by
  have hsize : codeSize (cx.leading depths b bs) = instrCount done + instrCount rest := by
    rw [codeSize, hitems, instrCount_append]
  by_cases hrest : instrCount rest = 0
  · obtain ⟨target, htarget, hnext⟩ := hcloses.exists_next hrest
    obtain ⟨bs', rfl⟩ : ∃ bs', bs = target :: bs' := List.head?_eq_some_iff.mp hnext
    have hdone : instrCount done = codeSize (cx.leading depths b (target :: bs')) + 0 := by omega
    rw [hdone, blockAt_add] at h
    exact .head htarget (reach_of_start h)
  · rw [blockAt_of_lt (by omega)] at h
    exact Option.some.inj h ▸ .refl

/-! ## Places -/

/-- An instruction in the code of a block. -/
structure Place (cx : FunctionContext) (depths : Array Nat) (bs : List BlockId) (pc : Nat)
    (b : BlockId) (before : List Piece) (bs' : List BlockId) (pre : List Piece) (p : Piece)
    (post : List Piece) (done : List Item) (i : Item) (todo : List Item) : Prop where
  behind : cx.Behind depths bs before (b :: bs')
  leading : cx.leading depths b bs' = pre ++ p :: post
  items : p.items = done ++ i :: todo
  instr : i.op?.isSome = true
  position : pc = codeSize before + (codeSize pre + instrCount done)

theorem exists_place (h : cx.blockAt depths bs pc = some b) : ∃ before bs' pre p post done i todo,
    cx.Place depths bs pc b before bs' pre p post done i todo := by
  obtain ⟨before, bs', k, hbehind, hpc, hk⟩ := exists_behind h
  obtain ⟨pre, p, post, done, i, todo, hleading, hitems, hi, hpos⟩ := exists_split_of_lt_codeSize hk
  exact ⟨before, bs', pre, p, post, done, i, todo, hbehind, hleading, hitems, hi, hpos ▸ hpc⟩

namespace Place

variable {pre post : List Piece} {p : Piece} {done todo : List Item} {i : Item}

/-- The instruction jumps to marks after it, to failures, and to blocks that its block leads to. -/
theorem element (h : cx.Place depths bs pc b before bs' pre p post done i todo) :
    i.LeadsTo (cx.module.block b).successors ∧ ∀ n, i.markJump? = some n → n ∈ marks todo ∧
      n ∉ marks done := by
  have hp : p ∈ cx.leading depths b bs' := by simp [h.leading]
  have hstraight := straight_block hp
  rw [h.items] at hstraight
  exact hstraight.element

/-- Control leaves the rest of the code of the block, or goes on to a block after it. -/
theorem closes (h : cx.Place depths bs pc b before bs' pre p post done i todo) :
    Closes bs'.head? (cx.module.block b).successors (i :: (todo ++ post.flatMap (·.items))) := by
  have hcloses := cx.closes_block b (cx.options.gas.loopWeight (depths.getD b 0)) bs'.head?
  have hflat : (cx.leading depths b bs').flatMap (·.items) =
      (pre.flatMap (·.items) ++ done) ++ (i :: (todo ++ post.flatMap (·.items))) := by
    rw [h.leading, List.flatMap_append, List.flatMap_cons, h.items]
    simp
  exact Closes.suffix (hflat ▸ hcloses) (List.cons_ne_nil _ _)

/-- From a position in the code of the piece on, control is in the block, or in one that it leads
to. -/
theorem reach {done' rest : List Item}
    (h : cx.Place depths bs pc b before bs' pre p post done i todo)
    (hitems : p.items = done' ++ rest)
    (hcloses : Closes bs'.head? (cx.module.block b).successors (rest ++ post.flatMap (·.items)))
    (hat : cx.blockAt depths bs (codeSize before + (codeSize pre + instrCount done')) = some c) :
    ReflTransGen cx.Edge b c := by
  have hflat : (cx.leading depths b bs').flatMap (·.items) =
      (pre.flatMap (·.items) ++ done') ++ (rest ++ post.flatMap (·.items)) := by
    rw [h.leading, List.flatMap_append, List.flatMap_cons, hitems]
    simp
  refine reach_of_rest hflat hcloses ?_
  rw [h.behind.blockAt] at hat
  rwa [instrCount_append]

/-- Where control goes on to the next position, it is in the block, or in one that it leads to. -/
theorem reach_next (h : cx.Place depths bs pc b before bs' pre p post done i todo)
    (hi : i.stops = false) (hat : cx.blockAt depths bs (pc + 1) = some c) :
    ReflTransGen cx.Edge b c := by
  have hitems : p.items = (done ++ [i]) ++ todo := by simp [h.items]
  refine h.reach hitems (h.closes.tail hi) ?_
  rw [instrCount_append, instrCount_cons_some h.instr]
  rw [h.position] at hat
  exact hat

/-- A jump to a mark goes forward, and leaves control in the block or in one that it leads to. -/
theorem reach_mark {o : Vm.Op} {n : Nat}
    (h : cx.Place depths bs pc b before bs' pre p post done (.jump o (.mark n)) todo) :
    pc < codeSize before + (codeSize pre + markOffset n p.items) ∧
      (cx.blockAt depths bs (codeSize before + (codeSize pre + markOffset n p.items)) = some c →
        ReflTransGen cx.Edge b c) := by
  obtain ⟨htodo, hdone⟩ := h.element.2 n rfl
  obtain ⟨rest, hsplit⟩ := exists_split_of_mem_marks htodo
  have hskipped : ∀ i ∈ todo.takeWhile (· ≠ .mark n), i ≠ .mark n :=
    fun i hi => by simpa using List.mem_takeWhile_imp hi
  generalize todo.takeWhile (· ≠ .mark n) = skipped at hsplit hskipped
  subst hsplit
  have hpassed : ∀ i ∈ done ++ .jump o (.mark n) :: skipped, i ≠ .mark n := by
    rintro i hi rfl
    rcases List.mem_append.mp hi with hi | hi
    · exact hdone (List.mem_filterMap.mpr ⟨_, hi, rfl⟩)
    · exact hskipped (.mark n) (by simpa using hi) rfl
  have hitems : p.items = (done ++ .jump o (.mark n) :: skipped) ++ .mark n :: rest := by
    simp [h.items]
  have hoffset : markOffset n p.items = instrCount (done ++ .jump o (.mark n) :: skipped) := by
    rw [markOffset, hitems, List.takeWhile_append_of_pos (by simpa using hpassed)]
    simp
  rw [hoffset]
  refine ⟨?_, fun hat => ?_⟩
  · rw [h.position, instrCount_append, instrCount_cons_some rfl]
    omega
  · refine h.reach hitems ?_ hat
    have hcloses := h.closes
    rw [List.append_assoc, ← List.cons_append] at hcloses
    exact hcloses.suffix (by simp)

end Place

/-! ## Assembled code -/

/-- Code that goes forward in a block, or along the edges between blocks. -/
def Goes (cx : FunctionContext) (depths : Array Nat) (bs : List BlockId) (pc pc' : Nat) : Prop :=
  ∃ b c, cx.blockAt depths bs pc = some b ∧ cx.blockAt depths bs pc' = some c ∧
    (b = c ∧ pc < pc' ∨ TransGen cx.Edge b c)

theorem Goes.trans {pc' pc'' : Nat} (h : cx.Goes depths bs pc pc')
    (h' : cx.Goes depths bs pc' pc'') :
    cx.Goes depths bs pc pc'' := by
  obtain ⟨b, c, hb, hc, hgoes⟩ := h
  obtain ⟨c', d, hc', hd, hgoes'⟩ := h'
  obtain rfl := Option.some.inj (hc.symm.trans hc')
  refine ⟨b, d, hb, hd, ?_⟩
  rcases hgoes with ⟨rfl, hlt⟩ | hedges
  · exact hgoes'.imp_left fun ⟨heq, hlt'⟩ => ⟨heq, hlt.trans hlt'⟩
  · rcases hgoes' with ⟨rfl, -⟩ | hedges'
    · exact .inr hedges
    · exact .inr (hedges.trans hedges')

/-- Where blocks lead to no block twice, control comes to no position twice. -/
theorem Goes.irrefl (hacyclic : ∀ b ∈ bs, ¬TransGen cx.Edge b b)
    (h : cx.Goes depths bs pc pc) : False := by
  obtain ⟨b, c, hb, hc, hgoes⟩ := h
  obtain rfl := Option.some.inj (hb.symm.trans hc)
  rcases hgoes with ⟨-, hlt⟩ | hedges
  · exact Nat.lt_irrefl _ hlt
  · exact hacyclic b (mem_of_blockAt hb) hedges

/-- Control that goes on to a block, or to one that it leads to, goes forward or along edges. -/
theorem goes_of_reach {pc' : Nat} (hb : cx.blockAt depths bs pc = some b)
    (hc : cx.blockAt depths bs pc' = some c) (hreach : ReflTransGen cx.Edge b c) (hlt : pc < pc') :
    cx.Goes depths bs pc pc' := by
  refine ⟨b, c, hb, hc, ?_⟩
  exact (reflTransGen_iff_eq_or_transGen.mp hreach).imp (fun heq => ⟨heq.symm, hlt⟩) id

variable {link : Linkage} {fails : List Piece}

/-- The code of blocks that lead only to one another, with that of the failures which it jumps
to. -/
structure Closed (cx : FunctionContext) (depths : Array Nat) (bs : List BlockId)
    (fails : List Piece) : Prop where
  edges : ∀ b ∈ bs, ∀ c, cx.Edge b c → c ∈ bs
  labels : ∀ q ∈ fails, ∃ f, q.label = some (.failure f)
  failures : ∀ p ∈ cx.blocks depths bs, ∀ o f, .jump o (.label (.failure f)) ∈ p.items →
    ∃ q ∈ fails, q.label = some (.failure f)
  small : codeSize (cx.blocks depths bs ++ fails) < 2 ^ 64

/-- The code of a block starts at its label. -/
theorem Closed.behind (h : cx.Closed depths bs fails) (hb : b ∈ bs) : ∃ before bs',
    cx.Behind depths bs before (b :: bs') ∧
      labelPosition (placed 0 (cx.blocks depths bs ++ fails)) (.block b) = codeSize before := by
  obtain ⟨p, hp, hl⟩ := cx.exists_label_of_mem depths hb
  obtain ⟨before, q, after, hsplit, hq, hpos⟩ :=
    exists_split_of_label (List.mem_append_left fails hp) hl
  rw [hpos]
  rcases List.append_eq_append_iff.mp hsplit with ⟨before', rfl, hfails⟩ | ⟨rest, hblocks, hrest⟩
  · obtain ⟨f, hf⟩ := h.labels q (by simp [hfails])
    rw [hq] at hf
    cases hf
  · cases rest with
    | nil =>
      obtain ⟨f, hf⟩ := h.labels q (by simp [show fails = q :: after from hrest.symm])
      rw [hq] at hf
      cases hf
    | cons q' rest =>
      obtain ⟨rfl, -⟩ := List.cons.inj hrest
      obtain ⟨b', bs', hb', hbehind⟩ := behind_of_label hblocks hq
      obtain rfl := Label.block.inj hb'
      exact ⟨before, bs', hbehind, rfl⟩

/-- The code of a failure is not part of that of the blocks. -/
theorem le_labelPosition (cx : FunctionContext) (depths : Array Nat) (bs : List BlockId) {q : Piece}
    (hq : q ∈ fails) {f : Failure} (hl : q.label = some (.failure f)) :
    codeSize (cx.blocks depths bs) ≤ labelPosition (placed 0 (cx.blocks depths bs ++ fails))
      (.failure f) := by
  obtain ⟨before, q, after, hsplit, hq, hpos⟩ :=
    exists_split_of_label (List.mem_append_right (cx.blocks depths bs) hq) hl
  rw [hpos]
  rcases List.append_eq_append_iff.mp hsplit with ⟨before', rfl, -⟩ | ⟨rest, hblocks, hrest⟩
  · rw [codeSize_append]
    exact Nat.le_add_right _ _
  · cases rest with
    | nil => rw [hblocks, List.append_nil]
    | cons q' rest =>
      obtain ⟨rfl, -⟩ := List.cons.inj hrest
      obtain ⟨b, bs', hb, -⟩ := behind_of_label hblocks hq
      cases hb

/-- In the code of blocks control goes forward in a block, or along the edges between blocks. -/
theorem Closed.goes_of_leads (h : cx.Closed depths bs fails) {pc' : Nat}
    (hleads : Vm.Leads (assemble link (cx.blocks depths bs ++ fails)).toArray pc pc')
    (hpc : pc < codeSize (cx.blocks depths bs)) (hpc' : pc' < codeSize (cx.blocks depths bs)) :
    cx.Goes depths bs pc pc' := by
  obtain ⟨b, hb⟩ := exists_blockAt hpc
  obtain ⟨c, hc⟩ := exists_blockAt hpc'
  obtain ⟨before, bs', pre, p, post, done, i, todo, hplace⟩ := exists_place hb
  have hpieces : cx.blocks depths bs ++ fails =
      (before ++ pre) ++ p :: (post ++ (cx.blocks depths bs' ++ fails)) := by
    rw [hplace.behind.pieces, blocks_cons, hplace.leading]
    simp
  have hget :
      (assemble link ((before ++ pre) ++ p :: (post ++ (cx.blocks depths bs' ++ fails))))[_]? = _ :=
    getElem?_assemble hplace.items hplace.instr
  rw [← hpieces, codeSize_append, Nat.add_assoc, ← hplace.position, ← List.getElem?_toArray] at hget
  cases hleads with
  | @next ins hi hop =>
    -- behind an instruction control is at the next one of the block
    rw [hi] at hget
    refine goes_of_reach hb hc (hplace.reach_next ?_ hc) (Nat.lt_succ_self pc)
    cases i with
    | instr i => obtain rfl := Option.some.inj hget; simp [Item.stops, hop]
    | jump o t => obtain rfl := Option.some.inj hget; simpa [Item.stops] using hop.1
    | _ => rfl
  | @jump ins hi hop =>
    rw [hi] at hget
    -- a jump goes to a mark of its own piece, to a failure behind the blocks, or along an edge
    have hp : p ∈ cx.blocks depths bs := by simp [hplace.behind.pieces, blocks_cons, hplace.leading]
    have hword {n : Nat} (hn : n ≤ codeSize (cx.blocks depths bs ++ fails)) :
        (UInt64.ofNat n).toNat = n :=
      UInt64.toNat_ofNat_of_lt' (Nat.lt_of_le_of_lt hn h.small)
    have hleads := hplace.element.1
    cases i with
    | instr i =>
      obtain rfl := Option.some.inj hget
      rcases hleads with hplain | hret | htrap
      · rcases hop with hop | hop | hop <;> rw [hop] at hplain <;> cases hplain
      · simp [hret] at hop
      · simp [htrap] at hop
    | address | call | callHost =>
      obtain rfl := Option.some.inj hget
      simp at hop
    | mark | reserve | needs | fault => cases hplace.instr
    | jump o t =>
      obtain rfl := Option.some.inj hget
      cases t with
      | mark n =>
        obtain ⟨hlt, hreach⟩ := hplace.reach_mark (c := c)
        have hoffset : markOffset n p.items ≤ instrCount p.items :=
          (List.takeWhile_sublist _).countP_le
        have hpos : (UInt64.ofNat (codeSize before + codeSize pre + markOffset n p.items)).toNat =
            codeSize before + (codeSize pre + markOffset n p.items) := by
          rw [hword, Nat.add_assoc]
          rw [hpieces, codeSize_append, codeSize_append, codeSize_cons]
          omega
        have hat : cx.blockAt depths bs (codeSize before + (codeSize pre + markOffset n p.items)) =
            some c := by
          rw [← hpos]
          exact hc
        exact goes_of_reach hb hc (hreach hat) (Nat.lt_of_lt_of_eq hlt hpos.symm)
      | label l =>
        cases l with
        | failure f =>
          obtain ⟨q, hq, hl⟩ := h.failures p hp o f (by simp [hplace.items])
          have hle := cx.le_labelPosition depths bs hq hl
          have hpos := hword (labelPosition_le (cx.blocks depths bs ++ fails) (.failure f))
          exact absurd hpc' (Nat.not_lt.mpr (hpos ▸ hle))
        | block target =>
          have htarget := hleads.2 target rfl
          obtain ⟨before', bs'', hbehind, hstart⟩ :=
            h.behind (h.edges b (mem_of_blockAt hb) target htarget)
          have hpos := hword (labelPosition_le (cx.blocks depths bs ++ fails) (.block target))
          have hat : cx.blockAt depths bs (codeSize before' + 0) = some c := by
            rw [Nat.add_zero, ← hstart, ← hpos]
            exact hc
          rw [hbehind.blockAt] at hat
          exact ⟨b, c, hb, hc, .inr (.head' htarget (reach_of_start hat))⟩

end Blocks

end FunctionContext

end ContractCompiler.Codegen
