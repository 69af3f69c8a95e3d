import ContractCompiler.Proofs.Codegen.Flow
import Mathlib.Algebra.Ring.Nat

/-!
# Assembled code

Code that flows is safe once it is assembled. A position of the assembled code stands for a spot in
the pieces; control only gets to spots where the stack has the height that the flow gives, for jumps
lead to labels and marks, whose heights are known.

- `Piece.Carries`, `CodeFlows`: flow through pieces;
- `Spot`: a position with a number of words on the stack from where code flows to its end;
- `Assembles`: a function is made from pieces, and what they refer to is there;
- `Assembles.spot_of_reached`: control only gets to spots;
- `Assembles.safe`: the function is safe.
-/

namespace ContractCompiler.Codegen

open Ssa (BlockId FuncId)

/-! ## Pieces -/

/-- How many words are on the stack where a piece starts; none at a label. -/
def Piece.enter (p : Piece) (h : Option Nat) : Option Nat := if p.label.isSome then some 0 else h

/-- A piece has what it needs, and the marks that it jumps to are in it. -/
structure Piece.Carries (E : FlowContext) (h : Option Nat) (p : Piece) (k : Option Nat) : Prop where
  /-- Nothing is on the stack where control comes to a label from above. -/
  label : p.label.isSome = true → h.all (· == 0) = true
  flows : Flows E (p.enter h) p.items k
  marks : markJumps p.items ⊆ marks p.items

/-- A piece without a label has what it needs if its code has. -/
theorem Carries.piece {E : FlowContext} {h : Nat} {p : Piece} {k : Option Nat}
    (hp : Carries E h p.items k) (hl : p.label = none) :
    p.Carries E (some h) k := by
  refine ⟨fun hlabel => ?_, ?_, hp.marks⟩
  · rw [hl] at hlabel
    cases hlabel
  · rw [Piece.enter, hl]
    exact hp.flows

/-- Every piece has what it needs, and after the last there are as many words on the stack as
said. -/
def CodeFlows (E : FlowContext) : Option Nat → List Piece → Option Nat → Prop
  | h, [], k => h = k
  | h, p :: ps, k => ∃ j, p.Carries E h j ∧ CodeFlows E j ps k

theorem codeFlows_append {E : FlowContext} {h k : Option Nat} {ps ps' : List Piece} :
    CodeFlows E h (ps ++ ps') k ↔ ∃ j, CodeFlows E h ps j ∧ CodeFlows E j ps' k := by
  induction ps generalizing h with
  | nil => simp [CodeFlows]
  | cons p ps ih =>
    simp only [List.cons_append, CodeFlows, ih]
    constructor
    · rintro ⟨i, hp, j, hps, hps'⟩
      exact ⟨j, ⟨i, hp, hps⟩, hps'⟩
    · rintro ⟨j, ⟨i, hp, hps⟩, hps'⟩
      exact ⟨i, hp, j, hps, hps'⟩

/-- How many instructions pieces have. -/
def codeSize (ps : List Piece) : Nat := instrCount (ps.flatMap (·.items))

theorem instrCount_append (is is' : List Item) :
    instrCount (is ++ is') = instrCount is + instrCount is' :=
  List.countP_append

theorem instrCount_cons_some {i : Item} (hi : i.op?.isSome = true) (is : List Item) :
    instrCount (i :: is) = instrCount is + 1 :=
  List.countP_cons_of_pos hi

theorem instrCount_cons_none {i : Item} (hi : i.op?.isSome = false) (is : List Item) :
    instrCount (i :: is) = instrCount is :=
  List.countP_cons_of_neg (by simp [hi])

theorem codeSize_cons (p : Piece) (ps : List Piece) :
    codeSize (p :: ps) = instrCount p.items + codeSize ps := by
  rw [codeSize, List.flatMap_cons, instrCount_append, codeSize]

theorem codeSize_append (ps ps' : List Piece) :
    codeSize (ps ++ ps') = codeSize ps + codeSize ps' := by
  rw [codeSize, List.flatMap_append, instrCount_append, codeSize, codeSize]

/-- Pieces stand after those before them. -/
theorem placed_append (n : Nat) (ps ps' : List Piece) :
    placed n (ps ++ ps') = placed n ps ++ placed (n + codeSize ps) ps' := by
  induction ps generalizing n with
  | nil => rfl
  | cons p ps ih =>
    rw [List.cons_append, placed, placed, ih, codeSize_cons, Nat.add_assoc, List.cons_append]

/-- Where a piece stands. -/
theorem exists_split_of_mem_placed {n start : Nat} {p : Piece} {ps : List Piece}
    (h : (start, p) ∈ placed n ps) :
    ∃ before after, ps = before ++ p :: after ∧ start = n + codeSize before := by
  induction ps generalizing n with
  | nil => cases h
  | cons q ps ih =>
    rcases List.mem_cons.mp h with heq | h
    · cases heq
      exact ⟨[], ps, rfl, rfl⟩
    · obtain ⟨before, after, rfl, rfl⟩ := ih h
      exact ⟨q :: before, after, rfl, by rw [codeSize_cons, Nat.add_assoc]⟩

theorem exists_mem_placed {p : Piece} {ps : List Piece} (h : p ∈ ps) (n : Nat) :
    ∃ start, (start, p) ∈ placed n ps := by
  induction ps generalizing n with
  | nil => cases h
  | cons q ps ih =>
    rcases List.mem_cons.mp h with rfl | h
    · exact ⟨n, List.mem_cons_self⟩
    · obtain ⟨start, hstart⟩ := ih h (n + instrCount q.items)
      exact ⟨start, List.mem_cons_of_mem _ hstart⟩

/-- The position of a label is that of a piece that has it. -/
theorem exists_split_of_label {ps : List Piece} {p : Piece} {l : Label} (hp : p ∈ ps)
    (hl : p.label = some l) :
    ∃ before q after, ps = before ++ q :: after ∧ q.label = some l ∧
      labelPosition (placed 0 ps) l = codeSize before := by
  obtain ⟨start, hstart⟩ := exists_mem_placed hp 0
  obtain ⟨⟨start', q⟩, hfind⟩ : ∃ x, (placed 0 ps).reverse.find? (fun x => x.2.label == some l) =
      some x := by
    rw [← Option.isSome_iff_exists, List.find?_isSome]
    exact ⟨(start, p), List.mem_reverse.mpr hstart, by simp [hl]⟩
  obtain ⟨before, after, hsplit, hpos⟩ :=
    exists_split_of_mem_placed (List.mem_reverse.mp (List.mem_of_find?_eq_some hfind))
  refine ⟨before, q, after, hsplit, by simpa using List.find?_some hfind, ?_⟩
  rw [labelPosition, hfind, hpos]
  exact Nat.zero_add _

/-! ## Instructions -/

section Encode

variable {link : Linkage}

theorem isSome_encode (link : Linkage) (position : Target → Nat) (i : Item) :
    (i.encode link position).isSome = i.op?.isSome := by
  cases i <;> rfl

theorem length_encode (link : Linkage) (position : Target → Nat) (is : List Item) :
    (is.filterMap (·.encode link position)).length = instrCount is := by
  induction is with
  | nil => rfl
  | cons i is ih =>
    have hi := isSome_encode link position i
    cases hencode : i.encode link position with
    | none =>
      rw [List.filterMap_cons_none hencode, ih, instrCount_cons_none (by rw [← hi, hencode]; rfl)]
    | some instr =>
      rw [List.filterMap_cons_some hencode, List.length_cons, ih,
        instrCount_cons_some (by rw [← hi, hencode]; rfl)]

/-- The instructions of pieces, given where labels are. -/
def encodePieces (link : Linkage) (labels : Label → Nat) (code : List (Nat × Piece)) :
    List Vm.Instr :=
  code.flatMap fun x => x.2.items.filterMap (·.encode link (x.2.position labels x.1))

theorem length_encodePieces (link : Linkage) (labels : Label → Nat) (n : Nat) (ps : List Piece) :
    (encodePieces link labels (placed n ps)).length = codeSize ps := by
  induction ps generalizing n with
  | nil => rfl
  | cons p ps ih =>
    rw [placed, encodePieces, List.flatMap_cons, List.length_append, length_encode, codeSize_cons]
    exact congrArg (instrCount p.items + ·) (ih _)

theorem length_assemble (ps : List Piece) : (assemble link ps).length = codeSize ps :=
  length_encodePieces link _ 0 ps

/-- The instruction of an element is at the position after those before it. -/
theorem getElem?_assemble {before after : List Piece} {p : Piece} {done todo : List Item} {i : Item}
    (hitems : p.items = done ++ i :: todo) (hi : i.op?.isSome = true) :
    (assemble link (before ++ p :: after))[codeSize before + instrCount done]? =
      i.encode link (p.position (labelPosition (placed 0 (before ++ p :: after)))
        (codeSize before)) := by
  have hencode := isSome_encode link
    (p.position (labelPosition (placed 0 (before ++ p :: after))) (codeSize before)) i
  obtain ⟨instr, hinstr⟩ := Option.isSome_iff_exists.mp (hencode.trans hi)
  show (encodePieces link _ (placed 0 (before ++ p :: after)))[_]? = _
  generalize labelPosition (placed 0 (before ++ p :: after)) = labels at hinstr ⊢
  have hbefore := length_encodePieces link labels 0 before
  have hdone := length_encode link (p.position labels (codeSize before)) done
  have hcode : encodePieces link labels (placed 0 (before ++ p :: after)) =
      encodePieces link labels (placed 0 before) ++
        (done.filterMap (·.encode link (p.position labels (codeSize before))) ++
          instr :: (todo.filterMap (·.encode link (p.position labels (codeSize before))) ++
            encodePieces link labels (placed (codeSize before + instrCount p.items) after))) := by
    rw [placed_append, encodePieces, List.flatMap_append, placed, List.flatMap_cons,
      Nat.zero_add, hitems, List.filterMap_append, List.filterMap_cons_some hinstr,
      List.append_assoc]
    rfl
  rw [hcode, hinstr, List.getElem?_append_right (by omega), hbefore, Nat.add_sub_cancel_left,
    List.getElem?_append_right (by omega), hdone, Nat.sub_self]
  rfl

end Encode

/-! ## Spots -/

section Spots

variable {E : FlowContext} {pieces before after : List Piece} {p : Piece}
  {done todo : List Item} {i : Item}
  {pc h : Nat}

/-- Control is before the rest of a piece, with a number of words on the stack. -/
structure Stands (E : FlowContext) (pieces : List Piece) (pc h : Nat)
    (before : List Piece) (p : Piece) (after : List Piece) (done todo : List Item) : Prop where
  split : pieces = before ++ p :: after
  items : p.items = done ++ todo
  position : pc = codeSize before + instrCount done
  flows : ∃ j k, CodeFlows E (some 0) before j ∧ p.Carries E j k ∧
      Flows E (p.enter j) done (some h) ∧
    CodeFlows E k after none

/-- A position that stands for a place in the pieces, with the number of words on the stack
there. -/
def Spot (E : FlowContext) (pieces : List Piece) (pc h : Nat) : Prop :=
  ∃ before p after done todo, Stands E pieces pc h before p after done todo

theorem Stands.rest (hspot : Stands E pieces pc h before p after done todo) :
    ∃ k, Flows E (some h) todo k ∧ CodeFlows E k after none := by
  obtain ⟨j, k, -, hp, hdone, hafter⟩ := hspot.flows
  exact ⟨k, (hdone.append_iff).mp (hspot.items ▸ hp.flows), hafter⟩

/-- An element that is no instruction leaves the stack as it is. -/
theorem after_of_not_instr (hi : i.op?.isSome = false) (hfits : i.Fits E (some h)) :
    i.after E (some h) = some h := by
  cases i with
  | mark n =>
    have hh : h = markHeight n := by simpa [Item.Fits] using hfits
    rw [hh]
    rfl
  | reserve use bytes span => rfl
  | needs f => rfl
  | fault f => rfl
  | _ => cases hi

/-- Elements have an instruction, before which the stack is as it was, or leave the stack as it
is. -/
theorem Flows.exists_instr {k : Option Nat} (hflows : Flows E (some h) todo k) :
    (∃ skipped i rest, todo = skipped ++ i :: rest ∧ instrCount skipped = 0 ∧ i.op?.isSome = true ∧
      Flows E (some h) skipped (some h)) ∨ (instrCount todo = 0 ∧ k = some h) := by
  induction todo with
  | nil => exact .inr ⟨rfl, hflows.symm⟩
  | cons i todo ih =>
    obtain ⟨hfits, hflows⟩ := hflows
    cases hi : i.op?.isSome with
    | true => exact .inl ⟨[], i, todo, rfl, rfl, hi, rfl⟩
    | false =>
      have hafter := after_of_not_instr hi hfits
      rw [hafter] at hflows
      rcases ih hflows with ⟨skipped, j, rest, rfl, hskipped, hj, hflow⟩ | ⟨hcount, hk⟩
      · refine .inl ⟨i :: skipped, j, rest, rfl, (instrCount_cons_none hi _).trans hskipped,
          hj, hfits, ?_⟩
        rwa [hafter]
      · exact .inr ⟨(instrCount_cons_none hi _).trans hcount, hk⟩

/-- Elements that are no instructions may be passed. -/
theorem Stands.skip {skipped : List Item}
    (hspot : Stands E pieces pc h before p after done (skipped ++ todo))
    (hcount : instrCount skipped = 0) (hflows : Flows E (some h) skipped (some h)) :
    Stands E pieces pc h before p after (done ++ skipped) todo := by
  obtain ⟨j, k, hbefore, hp, hdone, hafter⟩ := hspot.flows
  refine ⟨hspot.split, ?_, ?_, j, k, hbefore, hp, ?_, hafter⟩
  · rw [hspot.items, List.append_assoc]
  · rw [instrCount_append, hcount, Nat.add_zero, hspot.position]
  · exact flows_append.mpr ⟨some h, hdone, hflows⟩

/-- Where a piece has no more instructions, the next one starts. -/
theorem Stands.nextPiece {q : Piece} (hspot : Stands E pieces pc h before p (q :: after) done todo)
    (hcount : instrCount todo = 0) (hflows : Flows E (some h) todo (some h)) :
    Stands E pieces pc h (before ++ [p]) q after [] q.items := by
  obtain ⟨j, k, hbefore, hp, hdone, i, hq, hafter⟩ := hspot.flows
  obtain rfl : k = some h := hflows.unique ((hdone.append_iff).mp (hspot.items ▸ hp.flows))
  have henter : q.enter (some h) = some h := by
    unfold Piece.enter
    split
    · rename_i hlabel
      have hzero : h = 0 := by simpa using hq.label hlabel
      rw [hzero]
    · rfl
  refine ⟨by simp [hspot.split], rfl, ?_, some h, i, ?_, hq, henter, hafter⟩
  · rw [codeSize_append, codeSize_cons, hspot.items, instrCount_append, hcount, hspot.position]
    simp [codeSize, instrCount]
  · exact codeFlows_append.mpr ⟨j, hbefore, some h, hp, rfl⟩

/-- Code that control has got to does not end without an instruction. -/
theorem Spot.exists_instr (hspot : Spot E pieces pc h) :
    ∃ before p after done i todo, Stands E pieces pc h before p after done (i :: todo) ∧
      i.op?.isSome = true := by
  obtain ⟨before, p, after, done, todo, hspot⟩ := hspot
  -- If the piece has no more instructions, the next piece starts where it ends.
  induction after generalizing before p done todo with
  | nil =>
    obtain ⟨k, hflows, rfl⟩ := hspot.rest
    rcases hflows.exists_instr with ⟨skipped, i, rest, rfl, hcount, hi, hskipped⟩ | ⟨-, hk⟩
    · exact ⟨before, p, [], done ++ skipped, i, rest, hspot.skip hcount hskipped, hi⟩
    · cases hk
  | cons q after ih =>
    obtain ⟨k, hflows, -⟩ := hspot.rest
    rcases hflows.exists_instr with ⟨skipped, i, rest, rfl, hcount, hi, hskipped⟩ | ⟨hcount, rfl⟩
    · exact ⟨before, p, q :: after, done ++ skipped, i, rest, hspot.skip hcount hskipped, hi⟩
    · exact ih (before ++ [p]) q [] q.items (hspot.nextPiece hcount hflows)

/-- The spot after an instruction that control passes. -/
theorem Stands.next (hspot : Stands E pieces pc h before p after done (i :: todo))
    (hi : i.op?.isSome = true) {h' : Nat} (hafter : i.after E (some h) = some h') :
    Spot E pieces (pc + 1) h' := by
  obtain ⟨j, k, hbefore, hp, hdone, hrest⟩ := hspot.flows
  have hflows := (hdone.append_iff).mp (hspot.items ▸ hp.flows)
  refine ⟨before, p, after, done ++ [i], todo, hspot.split, ?_, ?_, j, k, hbefore, hp, ?_, hrest⟩
  · rw [hspot.items, List.append_assoc, List.singleton_append]
  · rw [instrCount_append, instrCount_cons_some hi, hspot.position]
    rfl
  · exact flows_append.mpr ⟨some h, hdone, hflows.1, hafter⟩

/-! ## Heights -/

theorem CodeFlows.unique {h₀ j j' : Option Nat} (hj : CodeFlows E h₀ pieces j)
    (hj' : CodeFlows E h₀ pieces j') : j' = j := by
  induction pieces generalizing h₀ with
  | nil => exact hj'.symm.trans hj
  | cons p ps ih =>
    obtain ⟨k, hp, hj⟩ := hj
    obtain ⟨k', hp', hj'⟩ := hj'
    obtain rfl := hp.flows.unique hp'.flows
    exact ih hj hj'

/-- The parts of a list are told by how much weighs what stands before. -/
theorem eq_of_split {α : Type} {w : α → Nat} {xs ys xs' ys' : List α} {x x' : α} {n : Nat}
    (heq : xs ++ x :: ys = xs' ++ x' :: ys') (hxs : (xs.map w).sum ≤ n)
    (hx : n < (xs.map w).sum + w x) (hxs' : (xs'.map w).sum ≤ n)
    (hx' : n < (xs'.map w).sum + w x') : xs = xs' ∧ x = x' ∧ ys = ys' := by
  induction xs generalizing xs' n with
  | nil =>
    cases xs' with
    | nil => simpa using heq
    | cons a xs' =>
      obtain ⟨rfl, -⟩ := List.cons.inj heq
      simp only [List.map_cons, List.sum_cons, List.map_nil, List.sum_nil] at hxs' hx
      omega
  | cons a xs ih =>
    cases xs' with
    | nil =>
      obtain ⟨rfl, -⟩ := List.cons.inj heq
      simp only [List.map_cons, List.sum_cons, List.map_nil, List.sum_nil] at hxs hx'
      omega
    | cons a' xs' =>
      obtain ⟨rfl, htail⟩ := List.cons.inj heq
      simp only [List.map_cons, List.sum_cons] at hxs hx hxs' hx'
      obtain ⟨rfl, hrest⟩ := ih (n := n - w a) htail (by omega) (by omega) (by omega) (by omega)
      exact ⟨rfl, hrest⟩

theorem countP_eq_sum {α : Type} (p : α → Bool) (xs : List α) :
    xs.countP p = (xs.map fun x => (p x).toNat).sum := by
  induction xs with
  | nil => rfl
  | cons x xs ih => cases hx : p x <;> simp [hx, ih, Nat.add_comm]

theorem instrCount_eq_sum (is : List Item) :
    instrCount is = (is.map fun i => i.op?.isSome.toNat).sum :=
  countP_eq_sum _ is

theorem codeSize_eq_sum (ps : List Piece) :
    codeSize ps = (ps.map fun p => instrCount p.items).sum := by
  induction ps with
  | nil => rfl
  | cons p ps ih => rw [codeSize_cons, ih, List.map_cons, List.sum_cons]

/-- The stack has one height at a position. -/
theorem Spot.height_unique {h' : Nat} (hspot : Spot E pieces pc h) (hspot' : Spot E pieces pc h') :
    h = h' := by
  obtain ⟨before, p, after, done, i, todo, hspot, hi⟩ := hspot.exists_instr
  obtain ⟨before', p', after', done', i', todo', hspot', hi'⟩ := hspot'.exists_instr
  have hpos := hspot.position
  have hpos' := hspot'.position
  have hitems : instrCount p.items = instrCount done + (instrCount todo + 1) := by
    rw [hspot.items, instrCount_append, instrCount_cons_some hi]
  have hitems' : instrCount p'.items = instrCount done' + (instrCount todo' + 1) := by
    rw [hspot'.items, instrCount_append, instrCount_cons_some hi']
  -- The same number of instructions stands before both, so they are in the same piece.
  obtain ⟨rfl, rfl, rfl⟩ := eq_of_split (w := fun p => instrCount p.items) (n := pc)
    (hspot.split.symm.trans hspot'.split) (by rw [← codeSize_eq_sum]; omega)
      (by rw [← codeSize_eq_sum]; omega)
    (by rw [← codeSize_eq_sum]; omega) (by rw [← codeSize_eq_sum]; omega)
  have hone : i'.op?.isSome.toNat = 1 := congrArg Bool.toNat hi'
  have hlast : instrCount done < instrCount done' + i'.op?.isSome.toNat := by omega
  obtain ⟨rfl, -, -⟩ := eq_of_split (w := fun i => i.op?.isSome.toNat) (n := instrCount done)
    (hspot.items.symm.trans hspot'.items) (Nat.le_of_eq (instrCount_eq_sum done).symm)
      (by rw [← instrCount_eq_sum, hi]; simp)
    (by rw [← instrCount_eq_sum]; omega) (by rw [← instrCount_eq_sum]; exact hlast)
  obtain ⟨j, k, hbefore, -, hdone, -⟩ := hspot.flows
  obtain ⟨j', k', hbefore', -, hdone', -⟩ := hspot'.flows
  obtain rfl := hbefore.unique hbefore'
  exact (Option.some.inj (hdone.unique hdone')).symm

/-! ## Targets -/

/-- A piece of code that flows. -/
theorem CodeFlows.piece (hcode : CodeFlows E (some 0) (before ++ p :: after) none) :
    ∃ j k, CodeFlows E (some 0) before j ∧ p.Carries E j k ∧ CodeFlows E k after none := by
  obtain ⟨j, hbefore, k, hp, hafter⟩ := codeFlows_append.mp hcode
  exact ⟨j, k, hbefore, hp, hafter⟩

/-- Control comes to a label with nothing on the stack. -/
theorem CodeFlows.spot_label (hcode : CodeFlows E (some 0) pieces none) (hp : p ∈ pieces)
    {l : Label} (hl : p.label = some l) : Spot E pieces (labelPosition (placed 0 pieces) l) 0 := by
  obtain ⟨before, q, after, hsplit, hq, hpos⟩ := exists_split_of_label hp hl
  obtain ⟨j, k, hbefore, hcarries, hafter⟩ := CodeFlows.piece (hsplit ▸ hcode)
  have henter : q.enter j = some 0 := by simp [Piece.enter, hq]
  exact ⟨before, q, after, [], q.items, hsplit, rfl, hpos, j, k, hbefore, hcarries, henter, hafter⟩

theorem exists_split_of_mem_marks {n : Nat} {is : List Item} (hn : n ∈ marks is) :
    ∃ rest, is = is.takeWhile (· ≠ .mark n) ++ .mark n :: rest := by
  induction is with
  | nil => cases hn
  | cons i is ih =>
    by_cases hi : i = .mark n
    · exact ⟨is, by simp [hi]⟩
    · have hn : n ∈ marks is := by
        rw [marks_cons] at hn
        rcases List.mem_append.mp hn with hn | hn
        · cases i with
          | mark n' =>
            have heq : n = n' := by simpa [Item.mark?] using hn
            exact absurd (congrArg Item.mark heq.symm) hi
          | _ => simp [Item.mark?] at hn
        · exact hn
      obtain ⟨rest, hrest⟩ := ih hn
      exact ⟨rest, by rw [List.takeWhile_cons_of_pos (by simpa using hi),
        List.cons_append, ← hrest]⟩

/-- Control comes to a mark with as many words on the stack as its number tells. -/
theorem CodeFlows.spot_mark (hcode : CodeFlows E (some 0) pieces none)
    (hsplit : pieces = before ++ p :: after) {n : Nat} (hn : n ∈ markJumps p.items) :
    Spot E pieces (codeSize before + markOffset n p.items) (markHeight n) := by
  obtain ⟨j, k, hbefore, hcarries, hafter⟩ := CodeFlows.piece (hsplit ▸ hcode)
  obtain ⟨rest, hitems⟩ := exists_split_of_mem_marks (hcarries.marks hn)
  have hflows := hcarries.flows
  rw [hitems] at hflows
  obtain ⟨j', hdone, hfits, -⟩ := flows_append.mp hflows
  have hmark : Item.after E j' (.mark n) = some (markHeight n) := by cases j' <;> rfl
  have hthere : Flows E (p.enter j) (p.items.takeWhile (· ≠ .mark n) ++ [.mark n])
      (some (markHeight n)) :=
    flows_append.mpr ⟨j', hdone, hfits, hmark⟩
  refine ⟨before, p, after, p.items.takeWhile (· ≠ .mark n) ++ [.mark n], rest, hsplit, ?_, ?_,
    j, k, hbefore,
    hcarries, hthere, hafter⟩
  · rw [List.append_assoc, List.singleton_append, ← hitems]
  · rw [instrCount_append]
    rfl

end Spots

/-! ## Safety -/

/-- A function is made from pieces that flow, and what they refer to is there. -/
structure Assembles (E : FlowContext) (link : Linkage) (m : Vm.Module) (f : Vm.Function)
    (pieces : List Piece) : Prop where
  code : f.code = (assemble link pieces).toArray
  /-- The positions of the code are words. -/
  small : f.code.size < 2 ^ 64
  locals : f.numLocals = E.slots
  result : f.hasResult = E.hasResult
  flows : CodeFlows E (some 0) pieces none
  functions : ∀ p ∈ pieces, ∀ callee, .call callee ∈ p.items → ∀ takes leaves,
    E.signature callee = some (takes, leaves) →
    ∃ g, m.functions[(link.function callee).toNat]? = some g ∧
      g.numParams = takes ∧ g.hasResult.toNat = leaves
  imports : ∀ p ∈ pieces, ∀ op, .callHost op ∈ p.items → ∃ im ref,
    m.imports[(link.host op).toUInt32.toNat]? = some im ∧ im.hostRef? = some ref ∧
      im.numArgs = hostTakes op ∧ im.hasResult.toNat = hostLeaves op
  blocks : ∀ b ∈ E.blocks, ∃ p ∈ pieces, p.label = some (.block b)
  failures : ∀ p ∈ pieces, ∀ op fl, .jump op (.label (.failure fl)) ∈ p.items →
    ∃ q ∈ pieces, q.label = some (.failure fl)

namespace Assembles

variable {E : FlowContext} {link : Linkage} {m : Vm.Module} {f : Vm.Function}
  {pieces before after : List Piece}
  {p : Piece} {done todo : List Item} {i : Item} {pc h : Nat}

theorem size_code (hf : Assembles E link m f pieces) : f.code.size = codeSize pieces := by
  rw [hf.code, List.size_toArray, length_assemble]

/-- Spots are within the code. -/
theorem lt_of_spot (hf : Assembles E link m f pieces) (hspot : Spot E pieces pc h) :
    pc < 2 ^ 64 := by
  obtain ⟨before, p, after, done, todo, hspot⟩ := hspot
  have hpos := hspot.position
  have hsize := hf.size_code
  rw [hspot.split, codeSize_append, codeSize_cons, hspot.items, instrCount_append] at hsize
  have := hf.small
  omega

/-- Control comes to a target with as many words on the stack as it tells. -/
theorem spot_target (hf : Assembles E link m f pieces)
    (hsplit : pieces = before ++ p :: after) {o : Vm.Op} {t : Target} (hjump : .jump o t ∈ p.items)
    (hset : t.IsSet E) :
    Spot E pieces (p.position (labelPosition (placed 0 pieces)) (codeSize before) t) t.height := by
  have hp : p ∈ pieces := by simp [hsplit]
  cases t with
  | mark n =>
    have hn : n ∈ markJumps p.items := List.mem_filterMap.mpr ⟨_, hjump, rfl⟩
    exact hf.flows.spot_mark hsplit hn
  | label l =>
    cases l with
    | block b =>
      obtain ⟨q, hq, hl⟩ := hf.blocks b hset
      exact hf.flows.spot_label hq hl
    | failure fl =>
      obtain ⟨q, hq, hl⟩ := hf.failures p hp o fl hjump
      exact hf.flows.spot_label hq hl

section Steps

variable (hspot : Stands E pieces pc h before p after done (i :: todo)) (hi : i.op?.isSome = true)

include hspot hi

theorem plain {instr : Vm.Instr} (hplain : instr.op.isPlain = true) (htakes : instr.op.takes ≤ h)
    (hlocal : instr.op.isLocal = true → instr.imm.toNat < f.numLocals)
    (hafter : i.after E (some h) = some (h - instr.op.takes + instr.op.leaves)) :
    instr.Ready m f h ∧ ∀ pc' h', (pc', h') ∈ instr.next m pc h → Spot E pieces pc' h' := by
  refine ⟨Vm.Instr.ready_of_isPlain hplain htakes hlocal m, fun pc' h' hnext => ?_⟩
  rw [Vm.Instr.next_of_isPlain hplain] at hnext
  cases List.mem_singleton.mp hnext
  exact hspot.next hi hafter

theorem jump {o : Vm.Op} {t : Target} (hjump : i = .jump o t) (hfits : i.Fits E (some h)) {n : Nat}
    (htarget : Spot E pieces n t.height) (hn : n < 2 ^ 64) :
    Vm.Instr.Ready m f h ⟨o, UInt64.ofNat n⟩ ∧
      ∀ pc' h', (pc', h') ∈ Vm.Instr.next m pc h ⟨o, UInt64.ofNat n⟩ → Spot E pieces pc' h' := by
  subst hjump
  have hword : (UInt64.ofNat n).toNat = n := UInt64.toNat_ofNat_of_lt' hn
  obtain ⟨-, hheight⟩ := hfits
  by_cases ho : o = .jmp
  · rw [if_pos ho] at hheight
    subst ho hheight
    simp [Vm.Instr.Ready, Vm.Instr.next, Vm.Op.takes, hword, htarget]
  · rw [if_neg ho] at hheight
    have hnext : Spot E pieces (pc + 1) t.height :=
      hspot.next hi (by simp [Item.after, ho, hheight.2])
    obtain ⟨hop, rfl⟩ := hheight
    refine ⟨by rcases hop with rfl | rfl <;> exact Nat.le_add_left 1 _, fun pc' h' hmem => ?_⟩
    have hmem : (pc' = n ∧ h' = t.height) ∨ (pc' = pc + 1 ∧ h' = t.height) := by
      rcases hop with rfl | rfl <;> simpa [Vm.Instr.next, hword] using hmem
    rcases hmem with ⟨rfl, rfl⟩ | ⟨rfl, rfl⟩
    · exact htarget
    · exact hnext

/-- What an instruction at a spot needs is there, and after it control comes to spots. -/
theorem step (hf : Assembles E link m f pieces) :
    ∃ instr, f.code[pc]? = some instr ∧ instr.Ready m f h ∧
      ∀ pc' h', (pc', h') ∈ instr.next m pc h → Spot E pieces pc' h' := by
  have hp : p ∈ pieces := by simp [hspot.split]
  have hmem : i ∈ p.items := by simp [hspot.items]
  have hcode : f.code[pc]? =
      i.encode link (p.position (labelPosition (placed 0 pieces)) (codeSize before)) := by
    rw [hf.code, List.getElem?_toArray, hspot.position, hspot.split,
      getElem?_assemble hspot.items hi]
  obtain ⟨k, ⟨hfits, -⟩, -⟩ := hspot.rest
  cases i with
  | instr instr =>
    refine ⟨instr, hcode, ?_⟩
    by_cases hplain : instr.op.isPlain = true
    · simp only [Item.Fits, hplain, if_true] at hfits
      exact plain hspot hi hplain hfits.1 (hf.locals ▸ hfits.2) (by simp [Item.after, hplain])
    · simp only [Item.Fits, hplain, if_false, Bool.false_eq_true] at hfits
      by_cases hret : instr.op = .ret
      · rw [if_pos hret] at hfits
        simpa [Vm.Instr.Ready, Vm.Instr.next, hret, hf.result] using hfits
      · rw [if_neg hret] at hfits
        simp [Vm.Instr.Ready, Vm.Instr.next, hfits, Vm.Op.takes]
  | jump o t =>
    have htarget := hf.spot_target hspot.split hmem hfits.1
    exact ⟨_, hcode, jump hspot hi rfl hfits htarget (hf.lt_of_spot htarget)⟩
  | address bytes =>
    exact ⟨_, hcode, plain hspot hi rfl (Nat.zero_le h) (fun hlocal => (by cases hlocal)) rfl⟩
  | call callee =>
    obtain ⟨takes, leaves, hsig, htakes⟩ := hfits
    obtain ⟨g, hg, hparams, hresult⟩ := hf.functions p hp callee hmem takes leaves hsig
    have hnext : Spot E pieces (pc + 1) (h - g.numParams + g.hasResult.toNat) :=
      hspot.next hi (by simp [Item.after, hsig, hparams, hresult])
    refine ⟨_, hcode, ⟨g, hg, hparams ▸ htakes⟩, ?_⟩
    simp [Vm.Instr.next, hg, hnext]
  | callHost o =>
    obtain ⟨im, ref, him, href, hargs, hresult⟩ := hf.imports p hp o hmem
    have hnext : Spot E pieces (pc + 1) (h - im.numArgs + im.hasResult.toNat) :=
      hspot.next hi (by simp [Item.after, hargs, hresult])
    refine ⟨_, hcode, ⟨im, ref, him, href, hargs ▸ hfits⟩, ?_⟩
    simp only [Vm.Instr.next, him, Option.map_some, Option.toList_some, List.mem_singleton]
    rintro pc' h' heq
    cases heq
    exact hnext
  | _ => cases hi

end Steps

/-- Control only gets to spots. -/
theorem spot_of_reached (hf : Assembles E link m f pieces) (hreached : Vm.Reached m f pc h) :
    Spot E pieces pc h := by
  induction hreached with
  | start =>
    -- Code that flows from the start on has a first piece.
    have hflows := hf.flows
    cases hpieces : pieces with
    | nil =>
      rw [hpieces] at hflows
      cases hflows
    | cons p ps =>
      rw [hpieces] at hflows
      obtain ⟨k, hp, hps⟩ := hflows
      have henter : p.enter (some 0) = some 0 := by simp [Piece.enter]
      exact ⟨[], p, ps, [], p.items, rfl, rfl, rfl, some 0, k, rfl, hp, henter, hps⟩
  | next _ hinstr hnext ih =>
    obtain ⟨before, p, after, done, i, todo, hspot, hi⟩ := ih.exists_instr
    obtain ⟨instr, hcode, -, hsteps⟩ := step hspot hi hf
    obtain rfl := Option.some.inj (hinstr.symm.trans hcode)
    exact hsteps _ _ hnext

/-- The function is safe. -/
theorem safe (hf : Assembles E link m f pieces) : f.Safe m := by
  intro pc h hreached
  obtain ⟨before, p, after, done, i, todo, hspot, hi⟩ := (hf.spot_of_reached hreached).exists_instr
  obtain ⟨instr, hcode, hready, -⟩ := step hspot hi hf
  exact ⟨instr, hcode, hready⟩

/-- Where a block starts nothing is on the stack. -/
theorem height_of_reached_block (hf : Assembles E link m f pieces) {b : BlockId} (hb : b ∈ E.blocks)
    (hreached : Vm.Reached m f (labelPosition (placed 0 pieces) (.block b)) h) : h = 0 := by
  obtain ⟨p, hp, hl⟩ := hf.blocks b hb
  exact (hf.spot_of_reached hreached).height_unique (hf.flows.spot_label hp hl)

end Assembles

end ContractCompiler.Codegen
