import ContractCompiler.Types

/-!
# Growing pools of types

A pool of types only grows while bodies are read and built: the numbers in use keep what they stand
for.

- `TypePool.Extends`: a pool that has at least the types of another, under the same numbers;
- `TypePool.Extends.isInteger` and its like: what is known of a type stays known;
- `TypePool.extends_intern`: numbering a type extends the pool;
- `TypePool.Standard`: the built-in types have their numbers;
- `TypePool.Sound`: so they have, and neither `unit` nor a reference type has a second one.
-/

namespace ContractCompiler.TypePool

/-- A pool that has the types of another under the same numbers, and the same structs. -/
structure Extends (p p' : TypePool) : Prop where
  shapes : ∀ (t : TypeId) s, p.shapes[t]? = some s → p'.shapes[t]? = some s
  structs : p'.structs = p.structs
  /-- No further number stands for a struct. -/
  declared : ∀ (t : TypeId) i, p'.shapes[t]? = some (.struct i) → p.shapes[t]? = some (.struct i)

variable {p p' p'' : TypePool}

namespace Extends

theorem refl (p : TypePool) : Extends p p := ⟨fun _ _ h => h, rfl, fun _ _ h => h⟩

theorem trans (h : Extends p p') (h' : Extends p' p'') : Extends p p'' :=
  ⟨fun t s hs => h'.shapes t s (h.shapes t s hs), h'.structs.trans h.structs,
    fun t i hi => h.declared t i (h'.declared t i hi)⟩

variable {t e : TypeId} {b : Builtin} {d : StructDecl}

theorem builtin? (h : Extends p p') (ht : p.builtin? t = some b) : p'.builtin? t = some b := by
  unfold TypePool.builtin? at ht ⊢
  cases hs : p.shapes[t]? with
  | none => simp [hs] at ht
  | some s =>
    rw [h.shapes t s hs]
    rw [hs] at ht
    exact ht

theorem isBuiltin (h : Extends p p') (ht : p.isBuiltin t b = true) : p'.isBuiltin t b = true := by
  unfold TypePool.isBuiltin at ht ⊢
  rw [beq_iff_eq] at ht ⊢
  exact h.builtin? ht

theorem isUnit (h : Extends p p') (ht : p.isUnit t = true) : p'.isUnit t = true := h.isBuiltin ht

theorem isBool (h : Extends p p') (ht : p.isBool t = true) : p'.isBool t = true := h.isBuiltin ht

theorem isBytes (h : Extends p p') (ht : p.isBytes t = true) : p'.isBytes t = true := h.isBuiltin ht

theorem isInteger (h : Extends p p') (ht : p.isInteger t = true) : p'.isInteger t = true := by
  unfold TypePool.isInteger at ht ⊢
  cases hb : p.builtin? t with
  | none => simp [hb] at ht
  | some b =>
    rw [h.builtin? hb]
    rw [hb] at ht
    exact ht

theorem isStateValue (h : Extends p p') (ht : p.isStateValue t = true) :
    p'.isStateValue t = true := by
  unfold TypePool.isStateValue at ht ⊢
  simp only [Bool.or_eq_true] at ht ⊢
  rcases ht with (hi | hb) | hs
  · exact .inl (.inl (h.isInteger hi))
  · exact .inl (.inr (h.isBool hb))
  · exact .inr (h.isBytes hs)

theorem resultElem? (h : Extends p p') (ht : p.resultElem? t = some e) :
    p'.resultElem? t = some e := by
  unfold TypePool.resultElem? at ht ⊢
  cases hs : p.shapes[t]? with
  | none => simp [hs] at ht
  | some s =>
    rw [h.shapes t s hs]
    rw [hs] at ht
    exact ht

theorem refElem? (h : Extends p p') (ht : p.refElem? t = some e) : p'.refElem? t = some e := by
  unfold TypePool.refElem? at ht ⊢
  cases hs : p.shapes[t]? with
  | none => simp [hs] at ht
  | some s =>
    rw [h.shapes t s hs]
    rw [hs] at ht
    exact ht

theorem structDecl? (h : Extends p p') (ht : p.structDecl? t = some d) :
    p'.structDecl? t = some d := by
  unfold TypePool.structDecl? at ht ⊢
  cases hs : p.shapes[t]? with
  | none => simp [hs] at ht
  | some s =>
    rw [h.shapes t s hs, h.structs]
    rw [hs] at ht
    exact ht

end Extends

/-! ## Numbering types -/

theorem shapes_push {t : TypeId} {s' : TypeShape} (hs : p.shapes[t]? = some s') (s : TypeShape) :
    (p.push s).2.shapes[t]? = some s' := by
  obtain ⟨hlt, hget⟩ := Array.getElem?_eq_some_iff.mp hs
  show (p.shapes.push s)[t]? = some s'
  rw [Array.getElem?_push_lt hlt, hget]

theorem extends_push (p : TypePool) {s : TypeShape} (hs : ∀ i, s ≠ .struct i) :
    Extends p (p.push s).2 := by
  refine ⟨fun t s' hs' => shapes_push hs' s, rfl, fun t i hi => ?_⟩
  have hi : (p.shapes.push s)[t]? = some (.struct i) := hi
  rw [Array.getElem?_push] at hi
  split at hi
  · exact absurd (Option.some.inj hi) (hs i)
  · exact hi

theorem extends_intern (p : TypePool) {s : TypeShape} (hs : ∀ i, s ≠ .struct i) :
    Extends p (p.intern s).2 := by
  unfold intern
  split
  · exact .refl p
  · exact extends_push p hs

theorem shapes_intern (p : TypePool) (s : TypeShape) :
    (p.intern s).2.shapes[(p.intern s).1]? = some s := by
  unfold intern
  split
  · rename_i i hi
    have hget := (Array.finIdxOf?_eq_some_iff.mp hi).1
    show p.shapes[i.val]? = some s
    rw [Array.getElem?_eq_getElem i.isLt]
    exact congrArg some hget
  · show (p.shapes.push s)[p.shapes.size]? = some s
    exact Array.getElem?_push_size

theorem extends_result (p : TypePool) (e : TypeId) : Extends p (p.result e).2 :=
  extends_intern p nofun

theorem resultElem?_result (p : TypePool) (e : TypeId) :
    (p.result e).2.resultElem? (p.result e).1 = some e := by
  unfold resultElem? result
  rw [shapes_intern]

theorem extends_ref (p : TypePool) (e : TypeId) : Extends p (p.ref e).2 := extends_intern p nofun

theorem refElem?_ref (p : TypePool) (e : TypeId) : (p.ref e).2.refElem? (p.ref e).1 = some e := by
  unfold refElem? ref
  rw [shapes_intern]

theorem extends_parseChars {text : List Char} {t : TypeId} (h : p.parseChars? text = some (t, p')) :
    Extends p p' := by
  fun_induction parseChars? p text generalizing t p' with
  | case1 =>
    cases h
    exact .refl p
  | case2 text _ inner _ _ elem p₁ hinner ih =>
    have heq : (p₁.result elem).2 = p' := congrArg Prod.snd (Option.some.inj h)
    exact heq ▸ (ih hinner).trans (extends_result p₁ elem)
  | case3 => cases h
  | case4 text =>
    simp only [Option.map_eq_some_iff] at h
    obtain ⟨t', _, heq⟩ := h
    cases heq
    exact .refl p

/-- The types that a text can name extend the pool. -/
theorem extends_parse {text : String} {t : TypeId} (h : p.parse? text = some (t, p')) :
    Extends p p' :=
  extends_parseChars h

/-! ## Built-in types -/

/-- The built-in types have their numbers. -/
def Standard (p : TypePool) : Prop := ∀ b : Builtin, p.builtin? b.id = some b

theorem standard_default : Standard {} := by
  intro b
  cases b <;> rfl

theorem Standard.push (h : Standard p) (s : TypeShape) : Standard (p.push s).2 := by
  intro b
  have hb := h b
  unfold TypePool.builtin? at hb ⊢
  cases hs : p.shapes[b.id]? with
  | none => simp [hs] at hb
  | some s' =>
    rw [shapes_push hs]
    rw [hs] at hb
    exact hb

theorem Standard.isBuiltin (h : Standard p) (b : Builtin) : p.isBuiltin b.id b = true := by
  unfold TypePool.isBuiltin
  rw [h b]
  exact beq_self_eq_true _

theorem Standard.isInteger (h : Standard p) {b : Builtin} (hb : b.isInteger = true) :
    p.isInteger b.id = true := by
  unfold TypePool.isInteger
  rw [h b]
  exact hb

/-! ## Classes exclude each other -/

variable {t : TypeId}

theorem builtin?_of_isBuiltin {b : Builtin} (h : p.isBuiltin t b = true) :
    p.builtin? t = some b := by
  unfold isBuiltin at h
  exact beq_iff_eq.mp h

theorem resultElem?_of_builtin? {b : Builtin} (h : p.builtin? t = some b) :
    p.resultElem? t = none := by
  unfold builtin? at h
  unfold resultElem?
  split at h
  · rename_i hs
    rw [hs]
  · cases h

theorem exists_builtin?_of_isInteger (h : p.isInteger t = true) :
    ∃ b, p.builtin? t = some b ∧ b.isInteger = true := by
  unfold isInteger at h
  cases hb : p.builtin? t with
  | none => simp [hb] at h
  | some b =>
    rw [hb] at h
    exact ⟨b, rfl, h⟩

theorem isBool_of_isInteger (h : p.isInteger t = true) : p.isBool t = false := by
  obtain ⟨b, hb, hint⟩ := exists_builtin?_of_isInteger h
  unfold isBool isBuiltin
  rw [hb]
  cases b with
  | bool => cases hint
  | _ => rfl

/-- A type with a width is built in. -/
theorem exists_builtin?_of_bits (h : (p.intKind t).bits ≠ 0) : ∃ b, p.builtin? t = some b := by
  unfold intKind at h
  split at h
  · rename_i hb
    exact ⟨.bool, builtin?_of_isBuiltin hb⟩
  · cases hb : p.builtin? t with
    | none => simp [hb] at h
    | some b => exact ⟨b, rfl⟩

/-! ## Sound pools -/

/-- A pool in which the built-in types have their numbers, and `unit` and every reference type have
one number only. -/
structure Sound (p : TypePool) : Prop where
  standard : Standard p
  unit_unique : ∀ t, p.isUnit t = true → t = Builtin.unit.id
  ref_unique : ∀ t t' a, p.refElem? t = some a → p.refElem? t' = some a → t = t'

theorem shapes_of_isUnit (h : p.isUnit t = true) : p.shapes[t]? = some (.builtin .unit) := by
  have hb := builtin?_of_isBuiltin h
  unfold builtin? at hb
  split at hb
  · rename_i hs
    rw [hs, Option.some.inj hb]
  · cases hb

theorem sound_default : Sound {} := by
  refine ⟨standard_default, fun t ht => ?_, fun t t' a ht => ?_⟩
  · have hs := shapes_of_isUnit ht
    rw [List.getElem?_toArray] at hs
    obtain ⟨hlt, hget⟩ := List.getElem?_eq_some_iff.mp hs
    have hall : ∀ i : Fin (TypeShape.error :: Builtin.all.map TypeShape.builtin).length,
        (TypeShape.error :: Builtin.all.map TypeShape.builtin).get i = .builtin .unit →
          i.val = Builtin.unit.id := by decide
    exact hall ⟨t, hlt⟩ hget
  have hnone : ∀ s ∈ (TypeShape.error :: Builtin.all.map .builtin), ∀ a, s ≠ .ref a := by
    intro s hs a
    rcases List.mem_cons.mp hs with rfl | hs
    · exact nofun
    · obtain ⟨b, -, rfl⟩ := List.mem_map.mp hs
      exact nofun
  unfold refElem? at ht
  split at ht
  · rename_i e hs
    rw [List.getElem?_toArray] at hs
    exact absurd rfl (hnone _ (List.mem_of_getElem? hs) e)
  · cases ht

/-- Soundness is about the shapes only. -/
theorem Sound.of_shapes (h : Sound p) (hs : p'.shapes = p.shapes) : Sound p' := by
  refine ⟨fun b => ?_, fun t ht => ?_, fun t t' a ht ht' => ?_⟩
  · have := h.standard b
    unfold builtin? at this ⊢
    rw [hs]
    exact this
  · refine h.unit_unique t ?_
    unfold isUnit isBuiltin builtin? at ht ⊢
    rw [hs] at ht
    exact ht
  · refine h.ref_unique t t' a ?_ ?_
    · unfold refElem? at ht ⊢
      rw [hs] at ht
      exact ht
    · unfold refElem? at ht' ⊢
      rw [hs] at ht'
      exact ht'

theorem refElem?_push {p : TypePool} {s : TypeShape} {t a : TypeId}
    (h : (p.push s).2.refElem? t = some a) :
    p.refElem? t = some a ∨ (t = p.shapes.size ∧ s = .ref a) := by
  unfold refElem? push at h
  simp only [Array.getElem?_push] at h
  split at h
  · rename_i e hs
    cases h
    split at hs
    · rename_i heq
      exact .inr ⟨heq, Option.some.inj hs⟩
    · refine .inl ?_
      unfold refElem?
      rw [hs]
  · cases h

theorem isUnit_push {p : TypePool} {s : TypeShape} {t : TypeId} (h : (p.push s).2.isUnit t = true) :
    p.isUnit t = true ∨ s = .builtin .unit := by
  have hs : (p.shapes.push s)[t]? = some (.builtin .unit) := shapes_of_isUnit h
  rw [Array.getElem?_push] at hs
  split at hs
  · exact .inr (Option.some.inj hs)
  · refine .inl ?_
    unfold isUnit isBuiltin builtin?
    rw [hs]
    rfl

/-- Numbering a type that is neither built in nor there yet. -/
theorem Sound.push (h : Sound p) {s : TypeShape} (hunit : s ≠ .builtin .unit)
    (hnew : ∀ a, s = .ref a → ∀ t, p.refElem? t ≠ some a) : Sound (p.push s).2 := by
  refine ⟨h.standard.push s, fun t ht => ?_, fun t t' a ht ht' => ?_⟩
  · exact (isUnit_push ht).elim (h.unit_unique t) fun heq => absurd heq hunit
  rcases refElem?_push ht with hold | ⟨rfl, rfl⟩
  · rcases refElem?_push ht' with hold' | ⟨rfl, rfl⟩
    · exact h.ref_unique t t' a hold hold'
    · exact absurd hold (hnew a rfl t)
  · rcases refElem?_push ht' with ht' | ⟨rfl, -⟩
    · exact absurd ht' (hnew a rfl t')
    · rfl

theorem shapes_of_refElem? {t a : TypeId} (h : p.refElem? t = some a) :
    p.shapes[t]? = some (.ref a) := by
  unfold refElem? at h
  split at h
  · rename_i hs
    rw [hs, Option.some.inj h]
  · cases h

theorem Sound.intern (h : Sound p) {s : TypeShape} (hunit : s ≠ .builtin .unit) :
    Sound (p.intern s).2 := by
  unfold TypePool.intern
  split
  · exact h
  · rename_i hnone
    refine h.push hunit ?_
    rintro a rfl t ht
    exact Array.finIdxOf?_eq_none_iff.mp hnone (Array.mem_of_getElem? (shapes_of_refElem? ht))

theorem Sound.result (h : Sound p) (e : TypeId) : Sound (p.result e).2 := h.intern nofun

theorem Sound.ref (h : Sound p) (e : TypeId) : Sound (p.ref e).2 := h.intern nofun

theorem Sound.parseChars (h : Sound p) {text : List Char} (hp : p.parseChars? text = some (t, p')) :
    Sound p' := by
  fun_induction parseChars? p text generalizing t p' with
  | case1 =>
    cases hp
    exact h
  | case2 text _ inner _ _ elem p₁ hinner ih =>
    have heq : (p₁.result elem).2 = p' := congrArg Prod.snd (Option.some.inj hp)
    exact heq ▸ (ih hinner).result elem
  | case3 => cases hp
  | case4 text =>
    simp only [Option.map_eq_some_iff] at hp
    obtain ⟨t', _, heq⟩ := hp
    cases heq
    exact h

theorem Sound.parse (h : Sound p) {text : String} (hp : p.parse? text = some (t, p')) : Sound p' :=
  h.parseChars hp

theorem Sound.declareStruct (h : Sound p) {name : String}
    (hd : p.declareStruct? name = some (t, p')) :
    Sound p' := by
  unfold declareStruct? at hd
  split at hd
  · cases hd
  · have hstructs : Sound { p with structs := p.structs.push { name } } := h.of_shapes rfl
    have hpush := hstructs.push (s := .struct p.structs.size) nofun nofun
    rw [Option.some.inj hd] at hpush
    exact hpush

theorem Sound.setFields (h : Sound p) (t : TypeId) (fields : List (String × TypeId)) :
    Sound (p.setFields t fields) := by
  unfold TypePool.setFields
  split
  · exact h.of_shapes rfl
  · exact h

end ContractCompiler.TypePool
