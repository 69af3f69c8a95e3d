import ContractCompiler.Proofs.Codegen.Overflow
import ContractCompiler.Proofs.Codegen.Stretch
import ContractCompiler.Proofs.Vm.Memory

/-!
# Walking through fragments

What walking through the fragments does that arithmetic is made of. Operands are code that pushes a
word whatever is on the stack, as long as the slots of values are as they were.

- `HasSlot`, `Holds`, `Keeps`: slots, and the slots of values;
- `walk_lit`, `walk_get`, ...: one lemma for each element;
- `walk_skip`: passing over code on the way to a mark;
- `PushesWord`: code that pushes a word;
- `walk_normalize`, `walk_select`, `walk_allocateInto`: fragments.
-/

namespace ContractCompiler.Codegen

/-! ## Slots -/

/-- There is a slot of a number, and an instruction can name it. -/
structure SlotIn (locals : Array UInt64) (slot : Nat) : Prop where
  lt_size : slot < locals.size
  small : slot < 2 ^ 64

/-- A slot holds a word. -/
structure Holds (locals : Array UInt64) (slot : Nat) (w : UInt64) : Prop where
  get : locals[slot]? = some w
  small : slot < 2 ^ 64

/-- The first slots are as they were. -/
structure Keeps (n : Nat) (before locals : Array UInt64) : Prop where
  size : locals.size = before.size
  get : ∀ slot < n, locals[slot]? = before[slot]?

section Slots

variable {locals before : Array UInt64} {slot other n : Nat} {w w' : UInt64}

theorem SlotIn.set (h : SlotIn locals slot) : SlotIn (locals.setIfInBounds other w) slot :=
  ⟨by rw [Array.size_setIfInBounds]; exact h.lt_size, h.small⟩

theorem SlotIn.holds (h : SlotIn locals slot) : Holds (locals.setIfInBounds slot w) slot w :=
  ⟨Array.getElem?_setIfInBounds_self_of_lt h.lt_size, h.small⟩

theorem Holds.set (h : Holds locals slot w) (hne : slot ≠ other) :
    Holds (locals.setIfInBounds other w') slot w :=
  ⟨(Array.getElem?_setIfInBounds_ne hne.symm).trans h.get, h.small⟩

theorem Keeps.refl (n : Nat) (locals : Array UInt64) : Keeps n locals locals :=
  ⟨rfl, fun _ _ => rfl⟩

theorem Keeps.set (h : Keeps n before locals) (hle : n ≤ slot) :
    Keeps n before (locals.setIfInBounds slot w) := by
  refine ⟨Array.size_setIfInBounds.trans h.size, fun i hi => ?_⟩
  rw [Array.getElem?_setIfInBounds_ne (by omega)]
  exact h.get i hi

theorem Keeps.slotIn (h : Keeps n before locals) (hslot : SlotIn before slot) :
    SlotIn locals slot :=
  ⟨h.size ▸ hslot.lt_size, hslot.small⟩

theorem Keeps.holds (h : Keeps n before locals) (hlt : slot < n) (hslot : Holds before slot w) :
    Holds locals slot w :=
  ⟨(h.get slot hlt).trans hslot.get, hslot.small⟩

end Slots

/-! ## Elements -/

section Elements

variable {link : Linkage} {seen : List Nat} {items rest : List Item} {ws : List UInt64}
  {locals : Array UInt64}
  {memory : Vm.Memory} {a b w : UInt64} {slot n : Nat} {s : Work}

theorem walk_instr {i : Vm.Instr} {s s' : Work} (hroom : s.words.length ≤ depth)
    (hplain : s.plain i = some (.ok s')) :
    walk link seen (.instr i :: rest) none s = walk link seen rest none s' := by
  refine (if_pos hroom).trans ?_
  rw [hplain]

theorem walk_lit (w : UInt64) (hws : ws.length ≤ depth) :
    walk link seen (lit w :: rest) none ⟨ws, locals, memory⟩ =
      walk link seen rest none ⟨w :: ws, locals, memory⟩ :=
  if_pos hws

theorem walk_get (hslot : Holds locals slot w) (hws : ws.length ≤ depth) :
    walk link seen (get slot :: rest) none ⟨ws, locals, memory⟩ =
      walk link seen rest none ⟨w :: ws, locals, memory⟩ := by
  have hplain : Work.plain { op := .localGet, imm := UInt64.ofNat slot } ⟨ws, locals, memory⟩ =
      some (.ok ⟨w :: ws, locals, memory⟩) := by
    show (locals[(UInt64.ofNat slot).toNat]?.map _) = _
    rw [UInt64.toNat_ofNat_of_lt' hslot.small, hslot.get]
    rfl
  exact walk_instr hws hplain

theorem walk_set (hslot : SlotIn locals slot) (hws : ws.length < depth) :
    walk link seen (set slot :: rest) none ⟨w :: ws, locals, memory⟩ =
      walk link seen rest none ⟨ws, locals.setIfInBounds slot w, memory⟩ := by
  have hplain : Work.plain { op := .localSet, imm := UInt64.ofNat slot } ⟨w :: ws, locals, memory⟩ =
      some (.ok ⟨ws, locals.setIfInBounds slot w, memory⟩) := by
    show (if (UInt64.ofNat slot).toNat < locals.size then _ else _) = _
    rw [UInt64.toNat_ofNat_of_lt' hslot.small, if_pos hslot.lt_size]
  exact walk_instr hws hplain

theorem walk_tee (hslot : SlotIn locals slot) (hws : ws.length < depth) :
    walk link seen (tee slot :: rest) none ⟨w :: ws, locals, memory⟩ =
      walk link seen rest none ⟨w :: ws, locals.setIfInBounds slot w, memory⟩ := by
  have hplain : Work.plain { op := .localTee, imm := UInt64.ofNat slot } ⟨w :: ws, locals, memory⟩ =
      some (.ok ⟨w :: ws, locals.setIfInBounds slot w, memory⟩) := by
    show (if (UInt64.ofNat slot).toNat < locals.size then _ else _) = _
    rw [UInt64.toNat_ofNat_of_lt' hslot.small, if_pos hslot.lt_size]
  exact walk_instr hws hplain

theorem walk_drop (hws : ws.length < depth) :
    walk link seen (op .drop :: rest) none ⟨w :: ws, locals, memory⟩ =
      walk link seen rest none ⟨ws, locals, memory⟩ :=
  if_pos hws

theorem walk_eqz (hws : ws.length < depth) :
    walk link seen (op .eqz :: rest) none ⟨w :: ws, locals, memory⟩ =
      walk link seen rest none ⟨Vm.flagWord (w == 0) :: ws, locals, memory⟩ :=
  if_pos hws

theorem walk_load {addr : UInt64}
    (hread : (memory.read? addr.toNat 8).map Bytes.wordOfBytes = some w) (hws : ws.length < depth) :
    walk link seen (op .load :: rest) none ⟨addr :: ws, locals, memory⟩ =
      walk link seen rest none ⟨w :: ws, locals, memory⟩ := by
  obtain ⟨bs, hbs, rfl⟩ := Option.map_eq_some_iff.mp hread
  refine walk_instr hws ?_
  show (memory.read? addr.toNat 8).map _ = _
  rw [hbs]
  rfl

theorem walk_store {addr : UInt64} (hroom : memory.inBounds addr.toNat 8 = true)
    (hws : ws.length + 2 ≤ depth) :
    walk link seen (op .store :: rest) none ⟨w :: addr :: ws, locals, memory⟩ =
      walk link seen rest none ⟨ws, locals, memory.set addr.toNat (Bytes.littleEndian w)⟩ :=
  walk_instr hws (if_pos hroom)

/-- An operation on two words, given what it leads to. -/
theorem walk_binary {o : Vm.Op} {f : UInt64 → UInt64 → Except TrapCode UInt64}
    (ho : o.binary? = some f) (hws : ws.length + 2 ≤ depth) :
    walk link seen (op o :: rest) none ⟨b :: a :: ws, locals, memory⟩ =
      match f a b with
      | .ok w => walk link seen rest none ⟨w :: ws, locals, memory⟩
      | .error code => some (.trap code) := by
  refine (if_pos (show (b :: a :: ws).length ≤ depth from hws)).trans ?_
  rw [Site.plain_of_binary ho rfl]
  cases f a b <;> rfl

/-- An operation on two words that has a result. -/
theorem walk_op {o : Vm.Op} {f : UInt64 → UInt64 → Except TrapCode UInt64} (ho : o.binary? = some f)
    (hf : f a b = .ok w) (hws : ws.length + 2 ≤ depth) :
    walk link seen (op o :: rest) none ⟨b :: a :: ws, locals, memory⟩ =
      walk link seen rest none ⟨w :: ws, locals, memory⟩ := by
  rw [walk_binary ho hws, hf]

theorem walk_passes {o : Vm.Op} {t : Target} (hroom : s.words.length ≤ depth)
    (htaken : taken? o s.words = some (false, ws)) :
    walk link seen (.jump o t :: rest) none s =
      walk link seen rest none { s with words := ws } := by
  refine (if_pos hroom).trans ?_
  rw [htaken]

theorem walk_takes {o : Vm.Op} (hroom : s.words.length ≤ depth)
    (htaken : taken? o s.words = some (true, ws)) (hn : n ∉ seen) :
    walk link seen (.jump o (.mark n) :: rest) none s =
      walk link seen rest (some n) { s with words := ws } := by
  refine (if_pos hroom).trans ?_
  rw [htaken]
  exact if_neg hn

theorem walk_leaves {o : Vm.Op} {l : Label} (hroom : s.words.length ≤ depth)
    (htaken : taken? o s.words = some (true, ws)) :
    walk link seen (.jump o (.label l) :: rest) none s = some (.goes l { s with words := ws }) := by
  refine (if_pos hroom).trans ?_
  rw [htaken]

theorem walk_jump (hn : n ∉ seen) (hws : ws.length ≤ depth) :
    walk link seen (jump n :: rest) none ⟨ws, locals, memory⟩ =
      walk link seen rest (some n) ⟨ws, locals, memory⟩ := by
  cases ws with
  | nil => exact walk_takes hws rfl hn
  | cons w ws => exact walk_takes hws rfl hn

theorem walk_jumpIf (hn : n ∉ seen) (c : Bool) (hws : ws.length < depth) :
    walk link seen (jumpIf n :: rest) none ⟨Vm.flagWord c :: ws, locals, memory⟩ =
      walk link seen rest (if c then some n else none) ⟨ws, locals, memory⟩ := by
  cases c
  · exact walk_passes hws rfl
  · exact walk_takes hws rfl hn

theorem walk_jumpIfNot (hn : n ∉ seen) (c : Bool) (hws : ws.length < depth) :
    walk link seen (jumpIfNot n :: rest) none ⟨Vm.flagWord c :: ws, locals, memory⟩ =
      walk link seen rest (if c then none else some n) ⟨ws, locals, memory⟩ := by
  cases c
  · exact walk_takes hws rfl hn
  · exact walk_passes hws rfl

theorem walk_failIf (f : Failure) (c : Bool) (hws : ws.length < depth) :
    walk link seen (failIf f :: rest) none ⟨Vm.flagWord c :: ws, locals, memory⟩ =
      if c then some (.goes (.failure f) ⟨ws, locals, memory⟩)
      else walk link seen rest none ⟨ws, locals, memory⟩ := by
  cases c
  · exact walk_passes hws rfl
  · exact walk_leaves hws rfl

theorem walk_needs (f : Failure) :
    walk link seen (.needs f :: rest) none s = walk link seen rest none s := rfl

/-! ### Marks -/

theorem walk_mark (n : Nat) :
    walk link seen (.mark n :: rest) none s = walk link (n :: seen) rest none s := rfl

theorem walk_mark_self (n : Nat) :
    walk link seen (.mark n :: rest) (some n) s = walk link (n :: seen) rest none s :=
  congrArg (walk link (n :: seen) rest · s) (if_pos rfl)

theorem walk_mark_other {k : Nat} (hne : n ≠ k) :
    walk link seen (.mark k :: rest) (some n) s = walk link (k :: seen) rest (some n) s :=
  congrArg (walk link (k :: seen) rest · s) (if_neg fun heq => hne (Option.some.inj heq))

/-- On the way to a mark, code without it is passed. -/
theorem walk_skip_past (hitems : n ∉ marks items) :
    walk link seen (items ++ rest) (some n) s =
      walk link ((marks items).reverse ++ seen) rest (some n) s := by
  induction items generalizing seen with
  | nil => rfl
  | cons it items ih =>
    rw [marks_cons, List.mem_append, not_or] at hitems
    cases it with
    | mark k =>
      have hne : n ≠ k := by simpa [Item.mark?] using hitems.1
      rw [List.cons_append, walk_mark_other hne, ih hitems.2, marks_cons]
      simp [Item.mark?]
    | _ => exact ih hitems.2

theorem walk_skip (hitems : marks items = []) :
    walk link seen (items ++ rest) (some n) s = walk link seen rest (some n) s := by
  rw [walk_skip_past (by simp [hitems]), hitems]
  rfl

end Elements

/-! ## Operands -/

/-- Code that pushes a word as long as the first slots are as they were. -/
structure PushesWord (link : Linkage) (n : Nat) (before : Array UInt64) (code : List Item)
    (w : UInt64) : Prop where
  push : ∀ {seen rest ws locals memory}, Keeps n before locals → ws.length ≤ depth →
    walk link seen (code ++ rest) none ⟨ws, locals, memory⟩ =
      walk link seen rest none ⟨w :: ws, locals, memory⟩
  marks : marks code = []

theorem pushesWord_lit (link : Linkage) (n : Nat) (before : Array UInt64) (w : UInt64) :
    PushesWord link n before [lit w] w :=
  ⟨fun _ hws => walk_lit w hws, rfl⟩

theorem pushesWord_get (link : Linkage) {n slot : Nat} {before : Array UInt64} {w : UInt64}
    (hlt : slot < n) (hslot : Holds before slot w) : PushesWord link n before [get slot] w :=
  ⟨fun hkeeps hws => walk_get (hkeeps.holds hlt hslot) hws, rfl⟩

/-! ## Fragments -/

section Fragments

variable {link : Linkage} {seen : List Nat} {rest : List Item} {ws : List UInt64}
  {locals : Array UInt64}
  {memory : Vm.Memory} {a b w : UInt64} {slot n : Nat} {k : IntKind}

theorem signExtend_eq (hs : k.signed = true) (hbits : ¬(k.bits = 0 ∨ 64 ≤ k.bits)) (w : UInt64) :
    Vm.signExtend (UInt64.ofNat k.bits) w = k.normalize w := by
  have hword := IntKind.toNat_ofNat_bits (n := k.bits) (by omega)
  unfold Vm.signExtend IntKind.normalize
  rw [if_pos, if_neg hbits, if_pos hs]
  constructor
  · rw [UInt64.lt_iff_toNat_lt, hword]
    show 0 < k.bits
    omega
  · rw [UInt64.lt_iff_toNat_lt, hword]
    show k.bits < 64
    omega

theorem zeroExtend_eq (hs : k.signed = false) (hbits : ¬(k.bits = 0 ∨ 64 ≤ k.bits)) (w : UInt64) :
    Vm.zeroExtend (UInt64.ofNat k.bits) w = k.normalize w := by
  have hword := IntKind.toNat_ofNat_bits (n := k.bits) (by omega)
  unfold Vm.zeroExtend IntKind.normalize
  rw [if_pos, if_neg hbits, hs, if_neg Bool.false_ne_true]
  constructor
  · rw [UInt64.lt_iff_toNat_lt, hword]
    show 0 < k.bits
    omega
  · rw [UInt64.lt_iff_toNat_lt, hword]
    show k.bits < 64
    omega

/-- The machine normalises as the type does. -/
theorem walk_normalize (k : IntKind) (hws : ws.length < depth) :
    walk link seen (normalize k ++ rest) none ⟨w :: ws, locals, memory⟩ =
      walk link seen rest none ⟨k.normalize w :: ws, locals, memory⟩ := by
  unfold normalize
  split
  next hbits =>
    unfold IntKind.normalize
    rw [if_pos hbits]
    rfl
  next hbits =>
    rw [List.singleton_append, walk, if_pos (show (w :: ws).length ≤ depth from hws)]
    cases hs : k.signed
    · rw [if_neg Bool.false_ne_true, ← zeroExtend_eq hs hbits]
      rfl
    · rw [if_pos rfl, ← signExtend_eq hs hbits]
      rfl

/-- One of two words is chosen. -/
theorem walk_select (hn : n ∉ seen) (hn' : n + 1 ∉ seen) (c : Bool) (hws : ws.length < depth) :
    walk link seen (select n a b ++ rest) none ⟨Vm.flagWord c :: ws, locals, memory⟩ =
      walk link ((n + 1) :: n :: seen) rest none ⟨(if c then a else b) :: ws, locals, memory⟩ := by
  have hws' : ws.length ≤ depth := hws.le
  show walk link seen (jumpIfNot n :: ([lit a, jump (n + 1)] ++
    .mark n :: ([lit b] ++ .mark (n + 1) :: rest))) none _ = _
  rw [walk_jumpIfNot hn c hws]
  cases c
  · rw [if_neg Bool.false_ne_true, if_neg Bool.false_ne_true, walk_skip rfl, walk_mark_self,
      List.singleton_append, walk_lit b hws', walk_mark]
  · rw [if_pos rfl, if_pos rfl, List.cons_append, walk_lit a hws', List.singleton_append,
      walk_jump hn' (show (a :: ws).length ≤ depth from hws),
      walk_mark_other (by omega), walk_skip rfl, walk_mark_self]

/-- The end of the heap, as memory has it. -/
def heapEnd? (memory : Vm.Memory) : Option UInt64 := (memory.read? 0 8).map Bytes.wordOfBytes

/-- New memory is taken from the end of the heap. -/
theorem walk_allocateInto {size : Nat} {p : UInt64} (hslot : SlotIn locals slot)
    (hnext : SlotIn locals (slot + 1)) (hheap : heapEnd? memory = some p) :
    walk link seen (allocateInto slot size ++ rest) none ⟨[], locals, memory⟩ =
      walk link seen rest none ⟨[], (locals.setIfInBounds (slot + 1) p).setIfInBounds slot p,
        memory.set 0 (Bytes.littleEndian (p + UInt64.ofNat
          (align8 (if size = 0 then 8 else size))))⟩ := by
  have hzero : memory.inBounds (0 : UInt64).toNat 8 = true := by
    obtain ⟨bs, hbs, -⟩ := Option.map_eq_some_iff.mp hheap
    exact (Option.ite_none_right_eq_some.mp hbs).1
  have hread : (memory.read? (0 : UInt64).toNat 8).map Bytes.wordOfBytes = some p := hheap
  have hholds : Holds (locals.setIfInBounds (slot + 1) p) (slot + 1) p := hnext.holds
  rw [allocateInto, allocate, List.append_assoc]
  simp only [List.cons_append, List.nil_append]
  rw [walk_lit 0 (by simp [depth]), walk_load hread (by simp [depth]),
    walk_set hnext (by simp [depth]), walk_lit 0 (by simp [depth]),
    walk_get hholds (by simp [depth]), walk_lit _ (by simp [depth]),
    walk_op (o := .add) rfl rfl (by simp [depth]), walk_store hzero (by simp [depth]),
    walk_get hholds (by simp [depth]), walk_set hslot.set (by simp [depth])]
  rfl

end Fragments

end ContractCompiler.Codegen
