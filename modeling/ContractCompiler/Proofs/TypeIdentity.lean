import ContractCompiler.Proofs.Types
import Mathlib.Data.Finset.Card
import Mathlib.Data.Finset.Range

/-!
# One number for each type

Two types are the same exactly if they have the same number, whatever has been asked of the pool
before and in whatever order structs were declared, wrapped and read.

- `TypePool.Request`, `TypePool.after`: what a pool can be asked for, and the pool afterwards;
- `TypePool.Keeps`: numbers keep what they stand for;
- `TypePool.Canonical`: what holds of every pool; `canonical_after`;
- `TypeTerm`, `TypePool.Denotes`: types written out, down to built-in types and structs;
- `TypePool.typeName_of_denotes`: the text of a type is that of what it denotes;
- `TypePool.denotes_parseChars`, `TypePool.parseChars_again`: what a text names, then and later;
- `typeIds_canonical`: all of it together.

A type whose parts lead back to it, or to a number that is not given yet, denotes nothing. No text
names one.
-/

namespace ContractCompiler

/-- A type written out. -/
inductive TypeTerm where
  | error
  | builtin (b : Builtin)
  | struct (name : String)
  | result (elem : TypeTerm)
  | ref (elem : TypeTerm)
deriving DecidableEq, Repr

namespace TypeTerm

/-- The text of a type. -/
def text : TypeTerm → String
  | error => "<error>"
  | builtin b => b.name
  | struct name => name
  | result elem => "result<" ++ elem.text ++ ">"
  | ref elem => "mut " ++ elem.text

/-- How many types are needed to write a type out. -/
def depth : TypeTerm → Nat
  | error | builtin _ | struct _ => 1
  | result elem | ref elem => elem.depth + 1

end TypeTerm

namespace TypePool

/-! ## What a pool can be asked for -/

/-- What a pool can be asked for. -/
inductive Request where
  | declare (name : String)
  | setFields (t : TypeId) (fields : List (String × TypeId))
  | result (elem : TypeId)
  | ref (elem : TypeId)
  | parse (text : String)
deriving DecidableEq, Repr

/-- A pool after a request. One that is refused leaves it as it is. -/
def Request.apply (p : TypePool) : Request → TypePool
  | declare name => ((p.declareStruct? name).map (·.2)).getD p
  | setFields t fields => p.setFields t fields
  | result elem => (p.result elem).2
  | ref elem => (p.ref elem).2
  | parse text => ((p.parse? text).map (·.2)).getD p

/-- A pool after requests. -/
def after (p : TypePool) (requests : List Request) : TypePool := requests.foldl Request.apply p

variable {p p' q : TypePool} {t t' e : TypeId} {s : TypeShape} {name : String}

theorem shapes_of_structDecl? {d : StructDecl} (h : p.structDecl? t = some d) :
    ∃ i, p.shapes[t]? = some (.struct i) ∧ p.structs[i]? = some d := by
  unfold structDecl? at h
  split at h
  · exact ⟨_, ‹_›, h⟩
  · cases h

theorem structDecl?_of_shapes {i : Nat} (h : p.shapes[t]? = some (.struct i)) :
    p.structDecl? t = p.structs[i]? := by
  unfold structDecl?
  rw [h]

/-! ## Pools without doubles -/

/-- What holds of every pool: no shape has two numbers, structs are declared once, under different
names, and have numbers, and the built-in types have theirs. -/
structure Canonical (p : TypePool) : Prop where
  shape_unique : ∀ (t t' : TypeId) s, p.shapes[t]? = some s → p.shapes[t']? = some s → t = t'
  declared : ∀ (t : TypeId) i, p.shapes[t]? = some (.struct i) → i < p.structs.size
  numbered : ∀ i < p.structs.size, ∃ t : TypeId, p.shapes[t]? = some (.struct i)
  name_unique : ∀ (i j : Nat) d d', p.structs[i]? = some d → p.structs[j]? = some d' →
      d.name = d'.name → i = j
  standard : p.Standard

theorem canonical_default : Canonical {} where
  shape_unique t t' s ht ht' := by
    have hnodup : (TypeShape.error :: Builtin.all.map .builtin).Nodup := by decide
    rw [List.getElem?_toArray] at ht ht'
    exact (List.getElem?_inj (List.getElem?_eq_some_iff.mp ht).1 hnodup).mp (ht.trans ht'.symm)
  declared t i hi := by
    have hall : ∀ s ∈ ({} : TypePool).shapes, ∀ i, s ≠ .struct i := by
      simp [Builtin.all]
    exact absurd rfl (hall _ (Array.mem_of_getElem? hi) i)
  numbered i hi := absurd hi (Nat.not_lt_zero i)
  name_unique i j d d' hd := by cases hd
  standard := standard_default

/-- A shape that is new can be numbered. -/
theorem shape_unique_push
    (h : ∀ (t t' : TypeId) s, p.shapes[t]? = some s → p.shapes[t']? = some s → t = t')
    (hnew : s ∉ p.shapes) (t t' : TypeId) (s' : TypeShape) (ht : (p.shapes.push s)[t]? = some s')
    (ht' : (p.shapes.push s)[t']? = some s') : t = t' := by
  rw [Array.getElem?_push] at ht ht'
  split at ht <;> split at ht'
  · exact ‹t = _›.trans ‹t' = _›.symm
  · cases ht
    exact absurd (Array.mem_of_getElem? ht') hnew
  · cases ht'
    exact absurd (Array.mem_of_getElem? ht) hnew
  · exact h t t' s' ht ht'

namespace Canonical

/-- Two structs of one name are one. -/
theorem structDecl?_unique (h : p.Canonical) {d d' : StructDecl} (ht : p.structDecl? t = some d)
    (ht' : p.structDecl? t' = some d') (hname : d.name = d'.name) : t = t' := by
  obtain ⟨i, hi, hd⟩ := shapes_of_structDecl? ht
  obtain ⟨j, hj, hd'⟩ := shapes_of_structDecl? ht'
  obtain rfl := h.name_unique i j d d' hd hd' hname
  exact h.shape_unique t t' _ hi hj

/-- The struct of a name is found. -/
theorem findStruct?_eq_some_iff (h : p.Canonical) :
    p.findStruct? name = some t ↔ ∃ d, p.structDecl? t = some d ∧ d.name = name := by
  have hnamed (x : TypeId) : ((p.structDecl? x).any (·.name == name)) = true ↔
      ∃ d, p.structDecl? x = some d ∧ d.name = name := by
    cases p.structDecl? x <;> simp
  unfold findStruct?
  constructor
  · intro hfind
    exact (hnamed t).mp (List.find?_some (p := fun x => (p.structDecl? x).any (·.name == name))
      hfind)
  · rintro ⟨d, hd, hname⟩
    obtain ⟨i, hi, -⟩ := shapes_of_structDecl? hd
    have hlt : t < p.shapes.size := (Array.getElem?_eq_some_iff.mp hi).1
    cases hfind : (List.range p.shapes.size).find?
        fun x => (p.structDecl? x).any (·.name == name) with
    | none =>
      exact absurd ((hnamed t).mpr ⟨d, hd, hname⟩)
        (List.find?_eq_none.mp hfind t (List.mem_range.mpr hlt))
    | some t' =>
      obtain ⟨d', hd', hname'⟩ :=
        (hnamed t').mp (List.find?_some (p := fun x => (p.structDecl? x).any (·.name == name))
          hfind)
      rw [h.structDecl?_unique hd hd' (hname.trans hname'.symm)]

theorem intern (h : p.Canonical) (hs : ∀ i, s ≠ .struct i) : (p.intern s).2.Canonical := by
  unfold TypePool.intern
  split
  · exact h
  · rename_i hnew
    refine ⟨shape_unique_push h.shape_unique (Array.finIdxOf?_eq_none_iff.mp hnew),
      fun t i hi => ?_,
      fun i hi => ?_, h.name_unique, h.standard.push s⟩
    · have hi : (p.shapes.push s)[t]? = some (.struct i) := hi
      rw [Array.getElem?_push] at hi
      split at hi
      · exact absurd (Option.some.inj hi) (hs i)
      · exact h.declared t i hi
    · obtain ⟨t, ht⟩ := h.numbered i hi
      exact ⟨t, shapes_push ht s⟩

theorem declareStruct (h : p.Canonical) (hd : p.declareStruct? name = some (t, p')) :
    p'.Canonical := by
  unfold declareStruct? at hd
  split at hd
  · cases hd
  · rename_i hfree
    obtain ⟨rfl, rfl⟩ := Prod.mk.inj (Option.some.inj hd)
    have hnew (i : Nat) (d : StructDecl) (hi : p.structs[i]? = some d) : d.name ≠ name := by
      intro hname
      obtain ⟨t, ht⟩ := h.numbered i (Array.getElem?_eq_some_iff.mp hi).1
      have hdecl : p.structDecl? t = some d := (structDecl?_of_shapes ht).trans hi
      rw [h.findStruct?_eq_some_iff.mpr ⟨d, hdecl, hname⟩] at hfree
      cases hfree
    refine ⟨shape_unique_push h.shape_unique ?_, fun t i hi => ?_, fun i hi => ?_,
      fun i j d d' hd hd' hname => ?_,
      h.standard.push _⟩
    · intro hmem
      obtain ⟨t, ht⟩ := Array.mem_iff_getElem?.mp hmem
      exact Nat.lt_irrefl _ (h.declared t _ ht)
    · have hi : (p.shapes.push (.struct p.structs.size))[t]? = some (.struct i) := hi
      show i < (p.structs.push { name }).size
      rw [Array.size_push]
      rw [Array.getElem?_push] at hi
      split at hi
      · cases hi
        exact Nat.lt_succ_self _
      · exact Nat.lt_succ_of_lt (h.declared t i hi)
    · have hi : i < (p.structs.push { name }).size := hi
      rw [Array.size_push] at hi
      rcases Nat.lt_succ_iff_lt_or_eq.mp hi with hlt | rfl
      · obtain ⟨t, ht⟩ := h.numbered i hlt
        exact ⟨t, shapes_push (p := { p with structs := p.structs.push { name } }) ht _⟩
      · exact ⟨p.shapes.size, Array.getElem?_push_size⟩
    · have hd : (p.structs.push { name })[i]? = some d := hd
      have hd' : (p.structs.push { name })[j]? = some d' := hd'
      rw [Array.getElem?_push] at hd hd'
      split at hd <;> split at hd'
      · omega
      · cases hd
        exact absurd hname.symm (hnew j d' hd')
      · cases hd'
        exact absurd hname (hnew i d hd)
      · exact h.name_unique i j d d' hd hd' hname

end Canonical

/-- Giving a struct fields leaves the names. -/
theorem name_structs_setFields (p : TypePool) (t : TypeId)
    (fields : List (String × TypeId)) (i : Nat) :
    ((p.setFields t fields).structs[i]?).map (·.name) = (p.structs[i]?).map (·.name) := by
  unfold setFields
  split
  · show ((p.structs.modify _ _)[i]?).map _ = _
    rw [Array.getElem?_modify]
    split
    · cases p.structs[i]? <;> rfl
    · rfl
  · rfl

theorem shapes_setFields (p : TypePool) (t : TypeId) (fields : List (String × TypeId)) :
    (p.setFields t fields).shapes = p.shapes := by
  unfold setFields
  split <;> rfl

theorem size_structs_setFields (p : TypePool) (t : TypeId) (fields : List (String × TypeId)) :
    (p.setFields t fields).structs.size = p.structs.size := by
  unfold setFields
  split
  · exact Array.size_modify
  · rfl

namespace Canonical

theorem setFields (h : p.Canonical) (t : TypeId) (fields : List (String × TypeId)) :
    (p.setFields t fields).Canonical where
  shape_unique := by
    rw [shapes_setFields]
    exact h.shape_unique
  declared := by
    rw [shapes_setFields, size_structs_setFields]
    exact h.declared
  numbered := by
    rw [shapes_setFields, size_structs_setFields]
    exact h.numbered
  name_unique i j d d' hd hd' hname := by
    have hi := name_structs_setFields p t fields i
    have hj := name_structs_setFields p t fields j
    rw [hd, Option.map_some] at hi
    rw [hd', Option.map_some] at hj
    obtain ⟨e, he, hename⟩ := Option.map_eq_some_iff.mp hi.symm
    obtain ⟨e', he', hename'⟩ := Option.map_eq_some_iff.mp hj.symm
    exact h.name_unique i j e e' he he' (hename.trans (hname.trans hename'.symm))
  standard b := by
    have hb := h.standard b
    unfold builtin? at hb ⊢
    rwa [shapes_setFields]

theorem result (h : p.Canonical) (e : TypeId) : (p.result e).2.Canonical := h.intern nofun

theorem ref (h : p.Canonical) (e : TypeId) : (p.ref e).2.Canonical := h.intern nofun

theorem parseChars (h : p.Canonical) {text : List Char} (hp : p.parseChars? text = some (t, p')) :
    p'.Canonical := by
  fun_induction parseChars? p text generalizing t p' with
  | case1 =>
    cases hp
    exact h
  | case2 text _ inner _ _ elem p₁ hinner ih =>
    have heq : (p₁.result elem).2 = p' := congrArg Prod.snd (Option.some.inj hp)
    exact heq ▸ (ih hinner).result elem
  | case3 => cases hp
  | case4 text =>
    obtain ⟨_, _, heq⟩ := Option.map_eq_some_iff.mp hp
    cases heq
    exact h

/-- Every request keeps a pool free of doubles. -/
theorem apply (h : p.Canonical) (r : Request) : (r.apply p).Canonical := by
  cases r with
  | declare name =>
    cases hd : p.declareStruct? name with
    | none => simpa [Request.apply, hd] using h
    | some found => simpa [Request.apply, hd] using h.declareStruct hd
  | setFields t fields => exact h.setFields t fields
  | result elem => exact h.result elem
  | ref elem => exact h.ref elem
  | parse text =>
    cases hp : p.parse? text with
    | none => simpa [Request.apply, hp] using h
    | some found => simpa [Request.apply, hp] using h.parseChars hp

theorem after (h : p.Canonical) (requests : List Request) : (p.after requests).Canonical := by
  induction requests generalizing p with
  | nil => exact h
  | cons r requests ih => exact ih (h.apply r)

end Canonical

/-! ## Numbers keep what they stand for -/

/-- The numbers of a pool stand for the same in another: they have the same shape, and structs have
the same names. -/
structure Keeps (p p' : TypePool) : Prop where
  shape : ∀ (t : TypeId) s, p.shapes[t]? = some s → p'.shapes[t]? = some s
  name : ∀ (t : TypeId) d, p.structDecl? t = some d → ∃ d', p'.structDecl? t = some d' ∧
      d'.name = d.name

namespace Keeps

theorem refl (p : TypePool) : p.Keeps p := ⟨fun _ _ h => h, fun _ d h => ⟨d, h, rfl⟩⟩

theorem trans (h : p.Keeps p') (h' : p'.Keeps q) : p.Keeps q where
  shape t s hs := h'.shape t s (h.shape t s hs)
  name t d hd := by
    obtain ⟨d', hd', hname⟩ := h.name t d hd
    obtain ⟨d'', hd'', hname'⟩ := h'.name t d' hd'
    exact ⟨d'', hd'', hname'.trans hname⟩

theorem of_extends (h : Extends p p') : p.Keeps p' :=
  ⟨h.shapes, fun _ d hd => ⟨d, h.structDecl? hd, rfl⟩⟩

theorem setFields (p : TypePool) (t : TypeId) (fields : List (String × TypeId)) :
    p.Keeps (p.setFields t fields) where
  shape := by
    rw [shapes_setFields]
    exact fun _ _ h => h
  name t' d hd := by
    obtain ⟨i, hi, hdecl⟩ := shapes_of_structDecl? hd
    have hname := name_structs_setFields p t fields i
    rw [hdecl, Option.map_some] at hname
    obtain ⟨d', hd', hname⟩ := Option.map_eq_some_iff.mp hname
    refine ⟨d', ?_, hname⟩
    rw [structDecl?_of_shapes (i := i) (by rwa [shapes_setFields]), hd']

theorem declareStruct (hd : p.declareStruct? name = some (t, p')) : p.Keeps p' := by
  unfold declareStruct? at hd
  split at hd
  · cases hd
  · obtain ⟨-, rfl⟩ := Prod.mk.inj (Option.some.inj hd)
    have hshape (x : TypeId) (s : TypeShape) (hs : p.shapes[x]? = some s) :
        (p.shapes.push (.struct p.structs.size))[x]? = some s :=
      shapes_push hs (.struct p.structs.size)
    refine ⟨hshape, fun x d hdecl => ⟨d, ?_, rfl⟩⟩
    obtain ⟨i, hi, hd⟩ := shapes_of_structDecl? hdecl
    rw [structDecl?_of_shapes (hshape x _ hi)]
    show (p.structs.push { name })[i]? = some d
    obtain ⟨hlt, rfl⟩ := Array.getElem?_eq_some_iff.mp hd
    exact Array.getElem?_push_lt hlt

theorem apply (p : TypePool) (r : Request) : p.Keeps (r.apply p) := by
  cases r with
  | declare name =>
    cases hd : p.declareStruct? name with
    | none => simpa [Request.apply, hd] using refl p
    | some found => simpa [Request.apply, hd] using declareStruct hd
  | setFields t fields => exact setFields p t fields
  | result elem => exact of_extends (extends_result p elem)
  | ref elem => exact of_extends (extends_ref p elem)
  | parse text =>
    cases hp : p.parse? text with
    | none => simpa [Request.apply, hp] using refl p
    | some found => simpa [Request.apply, hp] using of_extends (extends_parse hp)

theorem after (p : TypePool) (requests : List Request) : p.Keeps (p.after requests) := by
  induction requests generalizing p with
  | nil => exact refl p
  | cons r requests ih => exact (apply p r).trans (ih (r.apply p))

end Keeps

/-! ## Types written out -/

/-- What a number stands for, written out. -/
inductive Denotes (p : TypePool) : TypeId → TypeTerm → Prop where
  | error {t : TypeId} (h : p.shapes[t]? = some .error) : Denotes p t .error
  | builtin {t : TypeId} {b : Builtin} (h : p.shapes[t]? = some (.builtin b)) :
      Denotes p t (.builtin b)
  | struct {t : TypeId} {d : StructDecl} (h : p.structDecl? t = some d) :
      Denotes p t (.struct d.name)
  | result {t elem : TypeId} {τ : TypeTerm} (h : p.shapes[t]? = some (.result elem))
      (helem : Denotes p elem τ) :
      Denotes p t (.result τ)
  | ref {t elem : TypeId} {τ : TypeTerm} (h : p.shapes[t]? = some (.ref elem))
      (helem : Denotes p elem τ) :
      Denotes p t (.ref τ)

namespace Denotes

variable {τ τ' : TypeTerm}

theorem lt_size (h : p.Denotes t τ) : t < p.shapes.size := by
  cases h with
  | error h | builtin h | result h | ref h => exact (Array.getElem?_eq_some_iff.mp h).1
  | struct h =>
    obtain ⟨i, hi, -⟩ := shapes_of_structDecl? h
    exact (Array.getElem?_eq_some_iff.mp hi).1

/-- A number denotes one type only. -/
theorem unique (h : p.Denotes t τ) (h' : p.Denotes t τ') : τ = τ' := by
  induction h generalizing τ' with
  | error h =>
    cases h' with
    | struct h' => obtain ⟨i, hi, -⟩ := shapes_of_structDecl? h'; cases h.symm.trans hi
    | error h' => rfl
    | builtin h' | result h' | ref h' => cases h.symm.trans h'
  | builtin h =>
    cases h' with
    | struct h' => obtain ⟨i, hi, -⟩ := shapes_of_structDecl? h'; cases h.symm.trans hi
    | builtin h' => cases h.symm.trans h'; rfl
    | error h' | result h' | ref h' => cases h.symm.trans h'
  | struct h =>
    obtain ⟨i, hi, -⟩ := shapes_of_structDecl? h
    cases h' with
    | struct h' => cases h.symm.trans h'; rfl
    | error h' | builtin h' | result h' | ref h' => cases hi.symm.trans h'
  | result h _ ih =>
    cases h' with
    | struct h' => obtain ⟨i, hi, -⟩ := shapes_of_structDecl? h'; cases h.symm.trans hi
    | result h' helem' => cases h.symm.trans h'; rw [ih helem']
    | error h' | builtin h' | ref h' => cases h.symm.trans h'
  | ref h _ ih =>
    cases h' with
    | struct h' => obtain ⟨i, hi, -⟩ := shapes_of_structDecl? h'; cases h.symm.trans hi
    | ref h' helem' => cases h.symm.trans h'; rw [ih helem']
    | error h' | builtin h' | result h' => cases h.symm.trans h'

/-- A type has one number only. -/
theorem number_unique (hp : p.Canonical) (h : p.Denotes t τ) (h' : p.Denotes t' τ) : t = t' := by
  induction h generalizing t' with
  | error h | builtin h =>
    cases h'
    exact hp.shape_unique _ _ _ h ‹_›
  | struct h =>
    generalize hn : TypeTerm.struct _ = σ at h'
    cases h' with
    | struct h' => exact hp.structDecl?_unique h h' (TypeTerm.struct.inj hn)
    | error | builtin | result | ref => cases hn
  | result h _ ih | ref h _ ih =>
    cases h'
    obtain rfl := ih ‹_›
    exact hp.shape_unique _ _ _ h ‹_›

theorem keeps (hk : p.Keeps p') (h : p.Denotes t τ) : p'.Denotes t τ := by
  induction h with
  | error h => exact .error (hk.shape _ _ h)
  | builtin h => exact .builtin (hk.shape _ _ h)
  | @struct t d h =>
    obtain ⟨d', hd', hname⟩ := hk.name t d h
    exact hname ▸ .struct hd'
  | result h _ ih => exact .result (hk.shape _ _ h) ih
  | ref h _ ih => exact .ref (hk.shape _ _ h) ih

/-- A type whose part is written out with some numbers is written out with one more. -/
theorem insert_parts {σ : TypeTerm} (h : p.Denotes t σ) (hdepth : σ.depth = τ.depth + 1)
    (hparts : ∃ parts : Finset TypeId, parts.card = τ.depth ∧ ∀ x ∈ parts, ∃ υ, p.Denotes x υ ∧
      υ.depth ≤ τ.depth) :
    ∃ parts : Finset TypeId, parts.card = σ.depth ∧ ∀ x ∈ parts, ∃ υ, p.Denotes x υ ∧
      υ.depth ≤ σ.depth := by
  obtain ⟨parts, hcard, hall⟩ := hparts
  have hnew : t ∉ parts := by
    intro hmem
    obtain ⟨υ, hυ, hle⟩ := hall t hmem
    obtain rfl := h.unique hυ
    omega
  refine ⟨insert t parts, by rw [Finset.card_insert_of_notMem hnew, hcard, hdepth], fun x hx => ?_⟩
  rcases Finset.mem_insert.mp hx with rfl | hx
  · exact ⟨σ, h, Nat.le_refl _⟩
  · obtain ⟨υ, hυ, hle⟩ := hall x hx
    exact ⟨υ, hυ, by omega⟩

/-- The numbers that a type is written out with are different from one another, for what one of them
denotes is deeper than what the next does. -/
theorem exists_parts (h : p.Denotes t τ) :
    ∃ parts : Finset TypeId, parts.card = τ.depth ∧ ∀ x ∈ parts, ∃ υ, p.Denotes x υ ∧
      υ.depth ≤ τ.depth := by
  have hself {t : TypeId} {σ : TypeTerm} (h : p.Denotes t σ) (hdepth : σ.depth = 1) :
      ∃ parts : Finset TypeId, parts.card = σ.depth ∧ ∀ x ∈ parts, ∃ υ, p.Denotes x υ ∧
        υ.depth ≤ σ.depth := by
    refine ⟨{t}, by rw [Finset.card_singleton, hdepth], fun x hx => ?_⟩
    rw [Finset.mem_singleton.mp hx]
    exact ⟨σ, h, Nat.le_refl _⟩
  induction h with
  | error h => exact hself (.error h) rfl
  | builtin h => exact hself (.builtin h) rfl
  | struct h => exact hself (.struct h) rfl
  | result h helem ih => exact insert_parts (.result h helem) rfl ih
  | ref h helem ih => exact insert_parts (.ref h helem) rfl ih

/-- A type is written out with the types that there are. -/
theorem depth_le (h : p.Denotes t τ) : τ.depth ≤ p.shapes.size := by
  obtain ⟨parts, hcard, hall⟩ := h.exists_parts
  have hsub : parts ⊆ Finset.range p.shapes.size := fun x hx => by
    obtain ⟨υ, hυ, -⟩ := hall x hx
    exact Finset.mem_range.mpr hυ.lt_size
  have hle := Finset.card_le_card hsub
  rwa [hcard, Finset.card_range] at hle

theorem typeNameWithin (h : p.Denotes t τ) {depth : Nat} (hdepth : τ.depth ≤ depth) :
    p.typeNameWithin depth t = τ.text := by
  induction h generalizing depth with
  | error h | builtin h =>
    obtain ⟨depth, rfl⟩ := Nat.exists_eq_add_of_le' hdepth
    simp only [TypePool.typeNameWithin, TypeTerm.depth, h, TypeTerm.text]
  | struct h =>
    obtain ⟨i, hi, hd⟩ := shapes_of_structDecl? h
    obtain ⟨depth, rfl⟩ := Nat.exists_eq_add_of_le' hdepth
    simp only [TypePool.typeNameWithin, TypeTerm.depth, hi, hd, TypeTerm.text, Option.map_some,
      Option.getD_some]
  | result h _ ih | ref h _ ih =>
    obtain ⟨depth, rfl⟩ := Nat.exists_eq_add_of_le' (Nat.le_trans (Nat.le_add_left 1 _) hdepth)
    simp only [TypePool.typeNameWithin, h, ih (Nat.le_of_succ_le_succ hdepth), TypeTerm.text]

end Denotes

/-- The text of a type is that of what it denotes. -/
theorem typeName_of_denotes {τ : TypeTerm} (h : p.Denotes t τ) : p.typeName t = τ.text :=
  h.typeNameWithin (Nat.le_succ_of_le h.depth_le)

/-! ## What texts name -/

/-- The text of a result type is that of its payload in brackets. -/
theorem eq_of_resultBody? {text inner : List Char} (h : resultBody? text = some inner) :
    text = "result<".toList ++ inner ++ ">".toList := by
  unfold resultBody? at h
  dsimp only at h
  split at h
  · rename_i hform
    obtain ⟨hopen, hlast⟩ := Bool.and_eq_true_iff.mp hform
    obtain ⟨rest, rfl⟩ := List.isPrefixOf_iff_prefix.mp hopen
    rw [beq_iff_eq] at hlast
    -- the bracket that closes is not the one that opens
    have hrest : rest.getLast? = some '>' := by
      cases rest with
      | nil => exact absurd hlast (by decide)
      | cons c rest => rwa [List.getLast?_append_of_ne_nil _ (List.cons_ne_nil c rest)] at hlast
    rw [List.drop_left, Option.some.injEq] at h
    rw [← h, List.append_assoc]
    exact congrArg _ (List.dropLast_append_getLast? '>' hrest).symm
  · cases h

/-- What a text names has that text. -/
theorem denotes_parseChars (h : p.Canonical) {text : List Char}
    (hp : p.parseChars? text = some (t, p')) :
    ∃ τ, p'.Denotes t τ ∧ τ.text.toList = text := by
  fun_induction parseChars? p text generalizing t p' with
  | case1 text b hb =>
    cases hp
    have hname := List.find?_some hb
    have hid := h.standard b
    unfold builtin? at hid
    split at hid
    · cases hid
      exact ⟨.builtin b, .builtin ‹_›, beq_iff_eq.mp hname⟩
    · cases hid
  | case2 text _ inner hinner _ elem p₁ hparse ih =>
    obtain ⟨rfl, rfl⟩ := Prod.mk.inj (Option.some.inj hp)
    obtain ⟨τ, hτ, htext⟩ := ih hparse
    refine ⟨.result τ, .result (shapes_intern p₁ _)
      (hτ.keeps (.of_extends (extends_result p₁ elem))), ?_⟩
    rw [TypeTerm.text, String.toList_append, String.toList_append, htext, eq_of_resultBody? hinner]
  | case3 => cases hp
  | case4 text =>
    obtain ⟨t', hfind, heq⟩ := Option.map_eq_some_iff.mp hp
    cases heq
    obtain ⟨d, hd, hname⟩ := h.findStruct?_eq_some_iff.mp hfind
    refine ⟨.struct d.name, .struct hd, ?_⟩
    rw [TypeTerm.text, hname, String.toList_ofList]

/-- A shape that is there keeps its number. -/
theorem Canonical.intern_eq (h : p.Canonical) (ht : p.shapes[t]? = some s) :
    p.intern s = (t, p) := by
  unfold TypePool.intern
  split
  · rename_i i hi
    have hget : p.shapes[i.val]? = some s := by
      rw [Array.getElem?_eq_getElem i.isLt]
      exact congrArg some (Array.finIdxOf?_eq_some_iff.mp hi).1
    rw [h.shape_unique _ _ s hget ht]
  · rename_i hnone
    exact absurd (Array.mem_of_getElem? ht) (Array.finIdxOf?_eq_none_iff.mp hnone)

section Texts

variable {text : List Char} (hname : Builtin.all.find? (·.name.toList == text) = none)

include hname

theorem parseChars?_of_resultBody? {inner : List Char} (hbody : resultBody? text = some inner) :
    p.parseChars? text = (p.parseChars? inner).map fun found => found.2.result found.1 := by
  rw [parseChars?]
  split
  · cases hname.symm.trans ‹_›
  · split
    · cases hbody.symm.trans ‹_›
      cases p.parseChars? inner <;> rfl
    · cases hbody.symm.trans ‹_›

theorem parseChars?_of_struct (hbody : resultBody? text = none) :
    p.parseChars? text = (p.findStruct? (String.ofList text)).map (·, p) := by
  rw [parseChars?]
  split
  · cases hname.symm.trans ‹_›
  · split
    · cases hbody.symm.trans ‹_›
    · rfl

end Texts

/-- What a text named once it names ever after, and nothing is added. -/
theorem parseChars_again {text : List Char} (h : p.Canonical)
    (hp : p.parseChars? text = some (t, p')) (hq : q.Canonical) (hk : p'.Keeps q) :
    q.parseChars? text = some (t, q) := by
  fun_induction parseChars? p text generalizing t p' with
  | case1 text b hb =>
    cases hp
    unfold parseChars?
    rw [hb]
  | case2 text hnone inner hinner _ elem p₁ hparse ih =>
    obtain ⟨rfl, rfl⟩ := Prod.mk.inj (Option.some.inj hp)
    have helem := ih hparse ((Keeps.of_extends (extends_result p₁ elem)).trans hk)
    rw [parseChars?_of_resultBody? hnone hinner, helem]
    exact congrArg some (hq.intern_eq (hk.shape _ _ (shapes_intern p₁ (.result elem))))
  | case3 => cases hp
  | case4 text hnone hbody =>
    obtain ⟨t', hfind, heq⟩ := Option.map_eq_some_iff.mp hp
    cases heq
    obtain ⟨d, hd, hname⟩ := h.findStruct?_eq_some_iff.mp hfind
    obtain ⟨d', hd', hname'⟩ := hk.name t d hd
    rw [parseChars?_of_struct hnone hbody, hq.findStruct?_eq_some_iff.mpr
      ⟨d', hd', hname'.trans hname⟩]
    rfl

end TypePool

open TypePool (Request)

/-- Whatever a pool has been asked for: its numbers keep what they stand for; a shape or the name of
a struct has one number only, so that two numbers are equal exactly if they denote the same type;
and the number that a text names has that text, and is named by it, and by no other text, ever
after. -/
theorem typeIds_canonical (before : List Request) :
    let p := TypePool.after {} before
    (∀ behind, p.Keeps (p.after behind)) ∧
    (∀ (t t' : TypeId) s, p.shapes[t]? = some s → p.shapes[t']? = some s → t = t') ∧
    (∀ (t t' : TypeId) d d', p.structDecl? t = some d → p.structDecl? t' = some d' →
      d.name = d'.name → t = t') ∧
    (∀ (t t' : TypeId) τ τ', p.Denotes t τ → p.Denotes t' τ' → (t = t' ↔ τ = τ')) ∧
    ∀ text t p', p.parse? text = some (t, p') →
      p'.typeName t = text ∧ (∃ τ, p'.Denotes t τ) ∧ ∀ behind,
        (p'.after behind).parse? text = some (t, p'.after behind) ∧
        (p'.after behind).typeName t = text ∧
        ∀ text' t' q, (p'.after behind).parse? text' = some (t', q) → (t' = t ↔ text' = text) := by
  intro p
  have hp : p.Canonical := TypePool.canonical_default.after before
  refine ⟨TypePool.Keeps.after p, hp.shape_unique,
    fun t t' d d' hd hd' hname => hp.structDecl?_unique hd hd' hname,
    fun t t' τ τ' hτ hτ' => ⟨?_, ?_⟩, fun text t p' hparse => ?_⟩
  · rintro rfl
    exact hτ.unique hτ'
  · rintro rfl
    exact hτ.number_unique hp hτ'
  · have hp' : p'.Canonical := hp.parseChars hparse
    obtain ⟨τ, hτ, htext⟩ := TypePool.denotes_parseChars hp hparse
    have htext : τ.text = text := String.toList_inj.mp htext
    refine ⟨(TypePool.typeName_of_denotes hτ).trans htext, ⟨τ, hτ⟩, fun behind => ?_⟩
    have hq := hp'.after behind
    have hk := TypePool.Keeps.after p' behind
    have hagain : (p'.after behind).parse? text = some (t, p'.after behind) :=
      TypePool.parseChars_again hp hparse hq hk
    refine ⟨hagain, (TypePool.typeName_of_denotes (hτ.keeps hk)).trans htext,
      fun text' t' q hparse' => ⟨?_, ?_⟩⟩
    · -- one number has one text
      rintro rfl
      obtain ⟨τ', hτ', htext'⟩ := TypePool.denotes_parseChars hq hparse'
      have hkq : (p'.after behind).Keeps q := .of_extends (TypePool.extends_parse hparse')
      rw [← htext, ((hτ.keeps hk).keeps hkq).unique hτ']
      exact (String.toList_inj.mp htext').symm
    · rintro rfl
      exact (Prod.mk.inj (Option.some.inj (hparse'.symm.trans hagain))).1

/-- A pool in which structs have the names of other types, and with a result whose payload has no
number. -/
def confusingPool : TypePool :=
  .after {} [.declare "u32", .result 99, .declare "result<point>", .parse "result<u32>",
    .declare "point", .ref 16]

/-- The text of a result is not taken for the struct of that name, now or later. -/
theorem typeIds_canonical_confusing :
    confusingPool.findStruct? "result<point>" = some 14 ∧
      ∃ p', confusingPool.parse? "result<point>" = some (18, p') ∧
        p'.typeName 18 = "result<point>" ∧
        (p'.after [.declare "result<point>"]).parse? "result<point>" =
          some (18, p'.after [.declare "result<point>"]) := by
  have hfind : confusingPool.findStruct? "result<point>" = some 14 := by decide +kernel
  have hfirst : (confusingPool.parse? "result<point>").map (·.1) = some 18 := by decide +kernel
  obtain ⟨⟨t, p'⟩, hparse, rfl⟩ := Option.map_eq_some_iff.mp hfirst
  obtain ⟨-, -, -, -, hread⟩ := typeIds_canonical
    [.declare "u32", .result 99, .declare "result<point>", .parse "result<u32>",
      .declare "point", .ref 16]
  obtain ⟨hname, -, hlater⟩ := hread _ _ _ hparse
  exact ⟨hfind, p', hparse, hname, (hlater [.declare "result<point>"]).1⟩

end ContractCompiler
