import ContractCompiler.ExportName
import Mathlib.Data.List.Nodup
import Std.Data.String.ToNat

/-!
# Names read back from export names

The number of bytes before a text says where the text ends, as long as it can be told from the text.
So the name of a function can be read back from its export name unless it starts with a digit, and
then two functions may be exported under one name: the codes of types hold names too.

- `eq_of_lengthTagged_append`: a tagged text is read back from what it starts;
- `name_eq_of_exportName_eq`: names are told apart by export names;
- `exportNames_nodup`: the functions of a unit have export names of their own;
- `exportName_collision`: two functions with one export name.
-/

namespace ContractCompiler

/-- The first character of a text is a decimal digit. -/
def StartsWithDigit (s : String) : Prop := ∃ c ∈ s.toList.head?, c.isDigit

instance (s : String) : Decidable (StartsWithDigit s) := inferInstanceAs (Decidable (∃ c ∈ _, _))

/-- Digits up to the first character that is none are found in one way only. -/
theorem eq_of_digits_append {ds ds' rest rest' : List Char} (hds : ∀ c ∈ ds, c.isDigit)
    (hds' : ∀ c ∈ ds', c.isDigit) (hrest : ∀ c ∈ rest.head?, ¬c.isDigit)
    (hrest' : ∀ c ∈ rest'.head?, ¬c.isDigit) (h : ds ++ rest = ds' ++ rest') :
    ds = ds' ∧ rest = rest' := by
  induction ds generalizing ds' with
  | nil =>
    cases ds' with
    | nil => exact ⟨rfl, h⟩
    | cons d ds' =>
      obtain rfl : rest = d :: (ds' ++ rest') := h
      exact absurd (hds' d (by simp)) (hrest d (by simp))
  | cons d ds ih =>
    cases ds' with
    | nil =>
      obtain rfl : d :: (ds ++ rest) = rest' := h
      exact absurd (hds d (by simp)) (hrest' d (by simp))
    | cons d' ds' =>
      rw [List.cons_append, List.cons_append, List.cons.injEq] at h
      obtain ⟨rfl, h⟩ := h
      obtain ⟨rfl, hrest⟩ := ih (fun c hc => hds c (.tail _ hc)) (fun c hc => hds' c (.tail _ hc)) h
      exact ⟨rfl, hrest⟩

/-- Texts of the same size that start the same text are the same. -/
theorem eq_of_append_eq_append {s s' t t' : String} (hsize : s.utf8ByteSize = s'.utf8ByteSize)
    (h : s ++ t = s' ++ t') : s = s' := by
  have hbytes := congrArg String.toByteArray h
  rw [String.toByteArray_append, String.toByteArray_append] at hbytes
  have hdata := congrArg ByteArray.data hbytes
  rw [ByteArray.data_append, ByteArray.data_append] at hdata
  exact String.toByteArray_inj.mp (ByteArray.ext (Array.append_inj_left hdata hsize))

/-- A text after its size is read back from what it starts. -/
theorem eq_of_lengthTagged_append {s s' t t' : String} (hs : ¬StartsWithDigit (s ++ t))
    (hs' : ¬StartsWithDigit (s' ++ t')) (h : lengthTagged s ++ t = lengthTagged s' ++ t') :
    s = s' := by
  have hdigits (n : Nat) : ∀ c ∈ (toString n).toList, c.isDigit := by
    intro c hc
    rw [Nat.toString_eq_repr, Nat.toList_repr] at hc
    exact Nat.isDigit_of_mem_toDigits (by decide) (by decide) hc
  have hnone {u : String} (hu : ¬StartsWithDigit u) : ∀ c ∈ u.toList.head?, ¬c.isDigit :=
    fun c hc hdigit => hu ⟨c, hc, hdigit⟩
  unfold lengthTagged at h
  rw [String.append_assoc, String.append_assoc] at h
  have hlist := congrArg String.toList h
  rw [String.toList_append, String.toList_append (s := toString s'.utf8ByteSize)] at hlist
  obtain ⟨hsize, hrest⟩ := eq_of_digits_append (hdigits _) (hdigits _) (hnone hs) (hnone hs') hlist
  have hsize' : s.utf8ByteSize = s'.utf8ByteSize := by
    rw [String.toList_inj, Nat.toString_eq_repr, Nat.toString_eq_repr, Nat.repr_inj] at hsize
    exact hsize
  exact eq_of_append_eq_append hsize' (String.toList_inj.mp hrest)

variable {types : TypePool} {unit : String} {f g : Ssa.Function}

/-- The export name says what a function is called if it is not called by a digit and more. -/
theorem name_eq_of_exportName_eq (hf : ¬StartsWithDigit f.name) (hg : ¬StartsWithDigit g.name)
    (h : exportName types unit f = exportName types unit g) : f.name = g.name := by
  have hstart {u : String} (hu : ¬StartsWithDigit u) (v : String) :
      ¬StartsWithDigit (u ++ ("_" ++ v)) := by
    unfold StartsWithDigit at hu ⊢
    rw [String.toList_append, String.toList_append]
    cases hlist : u.toList with
    | nil => simp
    | cons c cs =>
      rw [hlist] at hu
      exact hu
  unfold exportName at h
  simp only [String.append_assoc, String.append_right_inj] at h
  exact eq_of_lengthTagged_append (hstart hf _) (hstart hg _) h

/-- Functions of a unit with names of their own have export names of their own, if no name starts
with a digit. -/
theorem exportNames_nodup {fs : List Ssa.Function} (hnames : (fs.map (·.name)).Nodup)
    (hdigit : ∀ f ∈ fs, ¬StartsWithDigit f.name) : (fs.map (exportName types unit)).Nodup := by
  refine (List.nodup_map_iff_inj_on hnames.of_map).mpr fun f hf g hg h => ?_
  exact List.inj_on_of_nodup_map hnames hf hg
    (name_eq_of_exportName_eq (hdigit f hf) (hdigit g hg) h)

/-- The name of a struct that ends like a length, and functions that share the digits of their
export name: the export names of functions of different names and parameters are the same. -/
theorem exportName_collision :
    (({} : TypePool).declareStruct? "aaaaaaaa_").any fun (struct, types) =>
      exportName types "t" { name := "1", paramTypes := [struct, Builtin.u64.id] } =
        exportName types "t" { name := "_S9aaaaaaaa", paramTypes := [Builtin.u64.id] } := by
  decide +kernel

end ContractCompiler
