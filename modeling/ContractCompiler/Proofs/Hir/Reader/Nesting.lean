import ContractCompiler.Proofs.Hir.Reader.Module
import ContractCompiler.Proofs.TypeNesting

/-!
# How the structs of a document nest

A struct has its name while its fields are read. A field of the struct itself is turned down, but
not one of a result of it.

- `Read.Nests`: a step of reading leaves the structs nested;
- `ensures_placedFields`: the fields that are read for a struct;
- `nested_readDocument`: the structs of a document are nested;
- `ends_readDocument`: following the fields of its structs comes to an end exactly if none contains
  itself.
-/

namespace ContractCompiler.Hir

open Read

/-- A state in which the structs are nested. -/
structure ReadState.Nested (s : ReadState) : Prop where
  sound : s.Sound
  nested : s.types.Nested

namespace Read

variable {α β : Type} {s : ReadState}

/-- A step leads to a state in which the structs are nested, and what it yields has a property
there. -/
def Nests (r : Read α) (s : ReadState) (Q : α → ReadState → Prop) : Prop :=
  (r.run s).2.Nested ∧ ∀ a, (r.run s).1 = some a → Q a (r.run s).2

theorem Nests.bind {r : Read α} {k : α → Read β} {Q : α → ReadState → Prop}
    {Q' : β → ReadState → Prop} (h : r.Nests s Q)
    (hk : ∀ a s', s'.Nested → Q a s' → (k a).Nests s' Q') : (r >>= k).Nests s Q' := by
  obtain ⟨hnested, hQ⟩ := h
  unfold Nests
  rw [run_bind]
  cases hr : r.run s with
  | mk a? s' =>
    rw [hr] at hnested hQ
    cases a? with
    | none => exact ⟨hnested, nofun⟩
    | some a => exact hk a s' hnested (hQ a rfl)

theorem nests_types_bind {k : TypePool → Read α} {Q : α → ReadState → Prop}
    (h : (k s.types).Nests s Q) :
    (types >>= k).Nests s Q := h

/-- A step that keeps what is known of types leaves the structs nested. -/
theorem Ensures.nests {r : Read α} {Q : α → ReadState → Prop} (hs : s.types.Nested)
    (h : r.Ensures s Q) :
    r.Nests s Q :=
  ⟨⟨h.1.sound, hs.mono h.1.types⟩, h.2⟩

end Read

variable {s : ReadState}

/-! ## Structs -/

/-- The number of the struct declared last. -/
structure ReadState.Declaring (s : ReadState) (st : TypeId) (i : Nat) : Prop where
  nested : s.types.Nested
  size_eq : s.types.structs.size = i + 1
  number : ∀ t, s.types.shapes[t]? = some (.struct i) ↔ t = st

variable {st : TypeId} {i : Nat}

theorem ReadState.Declaring.mono {s' : ReadState} (h : s.Declaring st i) (hadv : s.Advances s') :
    s'.Declaring st i where
  nested := h.nested.mono hadv.types
  size_eq := by rw [hadv.types.structs, h.size_eq]
  number t := by
    rw [← h.number]
    exact ⟨hadv.types.declared t i, hadv.types.shapes t _⟩

/-- A type that is read for a field, and is not the struct itself, has a place in it. -/
theorem places_of_ne (h : s.Declaring st i) {t : TypeId} (ht : s.types.Named t) (hne : t ≠ st) :
    s.types.Places i t := by
  obtain ⟨n, base, hwraps, hbase⟩ := ht
  refine ⟨n, base, hwraps, ?_⟩
  rcases hbase with hb | ⟨j, hj⟩
  · exact .inl hb
  · have hlt := h.nested.declared base j hj
    rw [h.size_eq] at hlt
    rcases Nat.lt_succ_iff_lt_or_eq.mp hlt with hlt | rfl
    · exact .inr ⟨j, hj, .inl hlt⟩
    · -- the struct itself, so its field must be a result of it
      refine .inr ⟨j, hj, .inr ⟨rfl, Nat.pos_of_ne_zero fun hzero => hne ?_⟩⟩
      subst hzero
      cases hwraps
      exact (h.number _).mp hj

/-- The fields that are read for the struct declared last. -/
theorem ensures_placedFields (span : Span) (items : List Json) {s : ReadState} (h : s.Sound)
    (hst : s.Declaring st i) :
    (readFields st span items).Ensures s fun fields s' => s'.Declaring st i ∧
      ∀ field ∈ fields, s'.types.Places i field.2 := by
  induction items generalizing s with
  | nil => exact ensures_pure h ⟨hst, nofun⟩
  | cons v items ih =>
    unfold readFields
    split
    · rename_i heq
      cases heq
    · rename_i name text rest heq
      obtain ⟨rfl, rfl⟩ := List.cons.inj heq
      have hread : (parseType text span).Ensures s fun t s' => s'.types.Named t :=
        ensures_parseType_of h text span fun t pool hparse =>
          TypePool.named_parseChars h.types.standard hparse
      refine hread.bind fun t s₁ h₁ hnamed => ?_
      have hst₁ := hst.mono h₁
      refine (ensures_types h₁.sound).bind ?_
      rintro _ s₂ h₂ rfl
      split
      · exact ensures_failMalformed h₂.sound
      · rename_i hne
        have hplaces := (places_of_ne hst₁ hnamed fun heq => hne (by simp [heq])).mono
          h₂.types.shapes
        refine (ih h₂.sound (hst₁.mono h₂)).bind ?_
        intro fields s₃ h₃ hplaced
        obtain ⟨hst₃, hfields⟩ := hplaced
        refine ensures_pure h₃.sound ⟨hst₃, fun field hfield => ?_⟩
        rcases List.mem_cons.mp hfield with rfl | hfield
        · exact hplaces.mono h₃.types.shapes
        · exact hfields field hfield
    · exact ensures_failMalformed h

theorem nests_readStruct [Json.Library] (file : UInt32) (v : Json) (h : s.Nested) :
    (readStruct file v).Nests s fun _ _ => True := by
  unfold readStruct
  extract_lets span
  split
  · split
    · rename_i name items _ _
      refine nests_types_bind ?_
      split
      · exact (ensures_failWith h.sound).nests h.nested
      · rename_i st pool hdeclare
        obtain ⟨hnested, hsize, hnumber⟩ := h.nested.declareStruct hdeclare
        have hsound : ({ s with types := pool } : ReadState).Sound :=
          ⟨h.sound.types.declareStruct hdeclare, h.sound.scope, h.sound.symbols⟩
        have hset : Nests (modify fun s => { s with types := pool }) s fun _ s' =>
            s'.Declaring st s.types.structs.size :=
              ⟨⟨hsound, hnested⟩, fun _ _ => ⟨hnested, hsize, hnumber⟩⟩
        refine hset.bind fun _ s₁ h₁ hst₁ => ?_
        refine ((ensures_placedFields span items h₁.sound hst₁).nests h₁.nested).bind ?_
        intro fields s₂ h₂ hplaced
        obtain ⟨hst₂, hfields⟩ := hplaced
        refine ⟨⟨⟨h₂.sound.types.setFields st fields, h₂.sound.scope, h₂.sound.symbols⟩,
          h₂.nested.setFields fun i' hi' => ?_⟩, fun _ _ => trivial⟩
        cases hi'.symm.trans ((hst₂.number st).mpr rfl)
        exact hfields
    · exact (ensures_failMalformed h.sound).nests h.nested
  · exact (ensures_failMalformed h.sound).nests h.nested

theorem nests_readEach {read : Json → Read Unit}
    (hread : ∀ v s, s.Nested → (read v).Nests s fun _ _ => True) (items : List Json) {s : ReadState}
    (h : s.Nested) : (readEach read items).Nests s fun _ _ => True := by
  induction items generalizing s with
  | nil => exact (ensures_pure h.sound trivial).nests h.nested
  | cons v items ih =>
    have hfirst : (attempt (read v)).Nests s fun _ _ => True :=
      ⟨(hread v s h).1, fun _ _ => trivial⟩
    exact hfirst.bind fun _ s₁ h₁ _ => ih h₁

/-! ## Documents -/

theorem nests_readModule [Json.Library] (file : UInt32) (root : Json) (h : s.Nested) :
    (readModule file root).Nests s fun _ _ => True := by
  unfold readModule
  split
  · refine ((ensures_malformed h.sound _ _).nests h.nested).bind fun _ s₁ h₁ _ => ?_
    exact ⟨h₁, fun _ _ => trivial⟩
  · refine (nests_readEach (fun v s h => nests_readStruct file v h) _ h).bind fun _ s₁ h₁ _ => ?_
    split
    · refine ((ensures_malformed h₁.sound _ _).nests h₁.nested).bind fun _ s₂ h₂ _ => ?_
      exact ⟨h₂, fun _ _ => trivial⟩
    · refine ((typed_readFunctions h₁.sound file root _).nests h₁.nested).bind fun fs s₂ h₂ _ => ?_
      exact ⟨h₂, fun _ _ => trivial⟩

/-- The structs of a document contain only earlier ones, or themselves in a result. -/
theorem nested_readDocument [Json.Library] (text docName : String) (sources : Sources) :
    (readDocument text docName {} sources).types.Nested := by
  unfold readDocument
  split
  · exact TypePool.nested_default
  · split
    · rename_i fields _
      obtain ⟨name, content⟩ := sourceOf docName (.object fields)
      dsimp only
      obtain ⟨file, sources⟩ := sources.add name content
      have hstart : ReadState.Nested {} :=
        ⟨⟨TypePool.sound_default, nofun, fun _ => nofun⟩, TypePool.nested_default⟩
      exact (nests_readModule file (.object fields) hstart).1.nested
    · exact TypePool.nested_default

/-- Following the fields of the structs of a document comes to an end exactly if none contains
itself in a result; then containing is well-founded. -/
theorem ends_readDocument [Json.Library] (text docName : String) (sources : Sources) :
    let types := (readDocument text docName {} sources).types
    ((∀ t i, types.shapes[t]? = some (.struct i) → types.Ends t) ↔ ∀ i, ¬ types.Contains i i) ∧
      ((∀ i, ¬ types.Contains i i) → WellFounded fun j i => types.Contains i j) :=
  ⟨(nested_readDocument text docName sources).ends_iff,
    (nested_readDocument text docName sources).wellFounded⟩

end ContractCompiler.Hir
