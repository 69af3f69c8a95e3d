import ContractCompiler.BitSet
import Mathlib.Algebra.Order.BigOperators.Group.List
import Mathlib.Algebra.Order.Ring.Nat
import Mathlib.Logic.Function.Iterate

/-!
# Tables of sets

How `BitSet.settle` comes to an end.

- `BitSet.InRow`: a number is a member of a set of a table;
- `BitSet.extent`: how many members the sets of a table have, which tells tables apart where one
  holds the other;
- `BitSet.settle_spec`: the table that is left when no step makes the rest of the way shorter.
-/

namespace ContractCompiler

/-- A list has fewer members of a property than of a weaker one that a member more has. -/
theorem countP_lt_countP {α : Type} {p q : α → Bool} {l : List α}
    (hpq : ∀ a ∈ l, q a = true → p a = true) {a : α} (ha : a ∈ l) (hp : p a = true)
    (hq : ¬q a = true) : l.countP q < l.countP p := by
  obtain ⟨front, back, rfl⟩ := List.append_of_mem ha
  have hfront := List.countP_mono_left (p := q) (q := p) (l := front) fun x hx =>
    hpq x (List.mem_append_left _ hx)
  have hback := List.countP_mono_left (p := q) (q := p) (l := back) fun x hx =>
    hpq x (List.mem_append_right _ (List.mem_cons_of_mem a hx))
  rw [List.countP_append, List.countP_append, List.countP_cons_of_neg hq,
    List.countP_cons_of_pos hp]
  omega

namespace BitSet

variable {sets sets' : Array BitSet}

/-! ## Members -/

/-- A number is a member of a set of a table; a set that is not there has none. -/
def InRow (sets : Array BitSet) (row x : Nat) : Prop := (sets.getD row .empty).contains x = true

theorem InRow.lt_size {row x : Nat} (h : InRow sets row x) : row < sets.size := by
  by_contra hge
  rw [InRow, Array.getD_eq_getD_getElem?, Array.getElem?_eq_none (Nat.le_of_not_lt hge)] at h
  exact absurd h (by simp)

theorem getD_setIfInBounds_self {row : Nat} (hlt : row < sets.size) (s : BitSet) :
    (sets.setIfInBounds row s).getD row .empty = s := by
  simp [Array.getD_eq_getD_getElem?, hlt]

theorem getD_setIfInBounds_of_ne {row row' : Nat} (hne : row' ≠ row) (s : BitSet) :
    (sets.setIfInBounds row s).getD row' .empty = sets.getD row' .empty := by
  simp [Array.getD_eq_getD_getElem?, hne.symm]

/-- Tables of one size with the same members are the same. -/
theorem ext_inRow (hsize : sets.size = sets'.size)
    (h : ∀ row x, InRow sets row x ↔ InRow sets' row x) :
    sets = sets' := by
  refine Array.ext hsize fun row hlt hlt' => ext_contains fun x => ?_
  have hrow := h row x
  simp only [InRow, Array.getD_eq_getD_getElem?, Array.getElem?_eq_getElem hlt,
    Array.getElem?_eq_getElem hlt', Option.getD_some] at hrow
  exact Bool.eq_iff_iff.mpr hrow

/-! ## Counting -/

/-- How many of some numbers are members of some sets of a table. -/
def extent (rows columns : List Nat) (sets : Array BitSet) : Nat :=
  (rows.map fun row => columns.countP fun x => (sets.getD row .empty).contains x).sum

theorem extent_le (rows columns : List Nat) (sets : Array BitSet) :
    extent rows columns sets ≤ rows.length * columns.length := by
  have hle := List.sum_le_card_nsmul
    (rows.map fun row => columns.countP fun x => (sets.getD row .empty).contains x) columns.length
    (fun n hn => by
      obtain ⟨row, -, rfl⟩ := List.mem_map.mp hn
      exact List.countP_le_length)
  rwa [List.length_map, Nat.nsmul_eq_mul] at hle

/-- A table that holds another one and has a member more has a greater extent. -/
theorem extent_lt {rows columns : List Nat} (hsub : ∀ row x, InRow sets row x → InRow sets' row x)
    {row x : Nat} (hrow : row ∈ rows) (hx : x ∈ columns) (hnew : InRow sets' row x)
    (hold : ¬InRow sets row x) :
    extent rows columns sets < extent rows columns sets' := by
  refine List.sum_lt_sum _ _ (fun r _ => ?_) ⟨row, hrow, ?_⟩
  · exact List.countP_mono_left fun x _ => hsub r x
  · exact countP_lt_countP (fun x _ => hsub row x) hx hnew hold

/-! ## Rounds -/

/-- Where every step that changes something makes the rest of the way shorter, the steps end with a
table that another step leaves as it is. -/
theorem settle_spec {step : Array BitSet → Array BitSet} {P : Array BitSet → Prop}
    {rest : Array BitSet → Nat} (hP : ∀ sets, P sets → P (step sets))
    (hrest : ∀ sets, P sets → step sets ≠ sets → rest (step sets) < rest sets) (rounds : Nat) :
    ∀ sets, P sets → rest sets < rounds →
      P (settle step rounds sets) ∧ step (settle step rounds sets) = settle step rounds sets ∧
        ∃ n ≤ rest sets, settle step rounds sets = step^[n] sets := by
  induction rounds with
  | zero => exact fun _ _ hlt => absurd hlt (Nat.not_lt_zero _)
  | succ rounds ih =>
    intro sets h hlt
    unfold settle
    by_cases hfixed : step sets = sets
    · simp only [hfixed, if_true]
      exact ⟨h, trivial, 0, Nat.zero_le _, rfl⟩
    · simp only [hfixed, if_false]
      have hshorter := hrest sets h hfixed
      obtain ⟨hend, hstable, n, hn, heq⟩ := ih (step sets) (hP sets h) (by omega)
      exact ⟨hend, hstable, n + 1, by omega, heq⟩

end BitSet

end ContractCompiler
