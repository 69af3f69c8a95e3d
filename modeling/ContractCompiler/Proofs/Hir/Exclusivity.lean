import ContractCompiler.Json.Reader
import ContractCompiler.Proofs.Hir.Borrows
import ContractCompiler.Proofs.Hir.Equality
import ContractCompiler.Proofs.Hir.Reader.Module

/-!
# Exclusive borrows within a call

In a function that passes the check, a binding that a call passes exclusively is not passed to read
in the same call, whichever comes first, and nothing is taken out of it for a later argument that is
passed to read. The check does not say so of calls that control does not get to. Nor does it say so
of what is taken out of a binding for an earlier argument, which reads the binding only for the
moment.

- `later_lends_apart`: the calls that control gets to;
- `not_lends_apart_chosen`: a function that passes the check, with a call that takes an earlier
  argument out of the binding, and a call after its end.
-/

namespace ContractCompiler.Hir

/-- In a function of a document that passes the check, a binding that a call passes exclusively is
not passed to read, and no later argument that is passed to read lends it. -/
theorem later_lends_apart [Json.Library] {text docName : String} {sources : Sources}
    {doc : ReadOutcome} (hdoc : readDocument text docName {} sources = doc) (hok : doc.ok = true)
    {counting : Bool} {id : FuncId} {f : Function} (hf : doc.module.functions[id]? = some f)
    (hcheck : (checkOwnership doc.module doc.types counting).functionOk[id]? = some true) :
    ∀ call ∈ callsOfBlock f.body, LaterLendsApart doc.module.functions call := by
  have htyped : doc.module.Typed doc.types := by
    subst hdoc
    exact (typed_readDocument text docName TypePool.sound_default sources).2 hok
  exact fun call hcall => (apart_of_checkOwnership htyped hf hcheck call hcall).laterLendsApart

/-! ### A function with a call that chooses what it lends, and another call after its end -/

/-- The function as a document. -/
def chosenText : String :=
  "\x7b\"unit\":\"t\",\"fns\":[\x7b\"name\":\"g\"," ++
  "\"params\":[[\"a\",\"bool\",\"ref\"],[\"b\",\"bool\",\"mut\"]],\"body\":[]\x7d," ++
  "\x7b\"name\":\"f\",\"params\":[[\"v\",\"bool\",\"var\"]],\"body\":[" ++
  "\x7b\"do\":\x7b\"call\":\"g\"," ++
  "\"args\":[\x7b\"select\":\"v\",\"then\":\"v\",\"else\":\"v\"\x7d,\"v\"]\x7d\x7d," ++
  "\x7b\"return\":null\x7d,\x7b\"do\":\x7b\"call\":\"g\",\"args\":[\"v\",\"v\"]\x7d\x7d]\x7d]\x7d"

/-- What the document says. -/
def chosenJson : Json := .object
  [("fns", .array [
      .object [("body", .array []), ("name", .string "g"),
        ("params", .array [.array [.string "a", .string "bool", .string "ref"],
          .array [.string "b", .string "bool", .string "mut"]])],
      .object [("body", .array [
          .object [("do", .object [("args", .array [
              .object [("else", .string "v"), ("select", .string "v"), ("then", .string "v")],
              .string "v"]),
            ("call", .string "g")])],
          .object [("return", .null)],
          .object [("do", .object [
            ("args", .array [.string "v", .string "v"]), ("call", .string "g")])]]),
        ("name", .string "f"),
        ("params", .array [.array [.string "v", .string "bool", .string "var"]])]]),
    ("unit", .string "t")]

/-- The arguments of the call that chooses what it lends. -/
def chosenArgs : List Expr :=
  [.select ⟨3, {}, Builtin.bool.id⟩ (.local ⟨0, {}, Builtin.bool.id⟩ 2)
      (.local ⟨1, {}, Builtin.bool.id⟩ 2) (.local ⟨2, {}, Builtin.bool.id⟩ 2),
    .local ⟨4, {}, Builtin.bool.id⟩ 2]

/-- The arguments of the call after the end. -/
def afterArgs : List Expr := [.local ⟨6, {}, Builtin.bool.id⟩ 2, .local ⟨7, {}, Builtin.bool.id⟩ 2]

/-- The function that is read. -/
def chosenFunction : Function where
  name := "f"
  ret := Builtin.unit.id
  params := [{ name := "v", type := Builtin.bool.id, mutable := true, sym := 2 }]
  body := [.expr {} (.call ⟨5, {}, Builtin.unit.id⟩ 0 chosenArgs), .ret {} none,
    .expr {} (.call ⟨8, {}, Builtin.unit.id⟩ 0 afterArgs)]

/-- The program that is read. -/
def chosenHir : Module where
  unit := "t"
  functions := #[
    { name := "g", ret := Builtin.unit.id
      params := [{ name := "a", type := Builtin.bool.id, pass := .shared, sym := 0 },
        { name := "b", type := Builtin.bool.id, pass := .exclusive, mutable := true, sym := 1 }] },
    chosenFunction]
  symbols := #[{ name := "a", type := Builtin.bool.id, pass := some .shared },
    { name := "b", type := Builtin.bool.id, mutable := true, pass := some .exclusive },
    { name := "v", type := Builtin.bool.id, mutable := true, pass := some .owned }]
  stmtCount := 3
  exprCount := 9

set_option maxRecDepth 100000 in
theorem parse_chosenText : @Json.Library.parse? .standard chosenText = some chosenJson := by
  apply Json.parse?_eq_of_value?
  · unfold chosenText
    iterate 5 apply Json.toList_append_eq
    all_goals exact Json.toList_eq_of_ofList rfl
  · unfold chosenJson
    dsimp only [List.cons_append, List.nil_append]
    with_unfolding_all rfl

/-- What is read of the document. -/
def chosenDoc : ReadOutcome := @readDocument .standard chosenText "t" {} {}

theorem read_chosenText :
    (chosenDoc.module, chosenDoc.types, chosenDoc.ok) = (chosenHir, {}, true) := by
  unfold chosenDoc readDocument
  rw [parse_chosenText]
  decide +kernel

theorem functionOk_chosenHir : (checkOwnership chosenHir {} true).functionOk = #[true, true] := by
  unfold chosenHir chosenFunction chosenArgs afterArgs
  simp -zeta only [checkOwnership, checkFunctions, Checker.checkFunction, Checker.checkBlock,
    Checker.checkStmts, Checker.checkStmt]
  decide +kernel

theorem mem_callsOfBlock_chosen : (0, chosenArgs) ∈ callsOfBlock chosenFunction.body := by
  unfold chosenFunction callsOfBlock Stmt.calls Expr.calls
  exact List.mem_append_left _ List.mem_cons_self

/-- What the function passes exclusively in the first call is not passed to read, and nothing is
taken out of it later. -/
theorem later_lends_apart_chosen : LaterLendsApart chosenHir.functions (0, chosenArgs) := by
  obtain ⟨hmodule, hrest⟩ := Prod.mk.inj read_chosenText
  obtain ⟨htypes, hok⟩ := Prod.mk.inj hrest
  have hf : chosenDoc.module.functions[1]? = some chosenFunction := by
    rw [hmodule]
    rfl
  have hcheck : (checkOwnership chosenDoc.module chosenDoc.types true).functionOk[1]? =
      some true := by
    rw [hmodule, htypes, functionOk_chosenHir]
    rfl
  rw [← hmodule]
  exact @later_lends_apart .standard chosenText "t" {} chosenDoc rfl hok _ _ _ hf hcheck _
    mem_callsOfBlock_chosen

/-- The function passes the check, although its first call takes an argument out of the binding that
it passes exclusively, and the call after its end passes the binding to read. -/
theorem not_lends_apart_chosen : chosenDoc.ok = true ∧
    (checkOwnership chosenDoc.module chosenDoc.types true).functionOk[1]? = some true ∧
      ∃ f, chosenDoc.module.functions[1]? = some f ∧
        (∃ call ∈ callsOfBlock f.body, ¬ LendsApart chosenDoc.module.functions call) ∧
          ∃ s ∈ f.body, ∃ call ∈ s.calls, ¬ LaterLendsApart chosenDoc.module.functions call := by
  obtain ⟨hmodule, hrest⟩ := Prod.mk.inj read_chosenText
  obtain ⟨htypes, hok⟩ := Prod.mk.inj hrest
  refine ⟨hok, ?_⟩
  rw [hmodule, htypes, functionOk_chosenHir]
  refine ⟨rfl, chosenFunction, rfl, ⟨_, mem_callsOfBlock_chosen, fun h => ?_⟩,
    .expr {} (.call ⟨8, {}, Builtin.unit.id⟩ 0 afterArgs),
    by simp [chosenFunction], (0, afterArgs), ?_, fun h => ?_⟩
  · refine h _ rfl 1 0 _ _ _ _ 2 rfl rfl rfl rfl rfl rfl rfl ?_
    unfold Expr.lends Expr.lends
    exact List.mem_cons_self
  · unfold Stmt.calls Expr.calls
    exact List.mem_cons_self
  · exact (h _ rfl 1 0 _ _ _ _ 2 rfl rfl rfl rfl rfl rfl rfl).1 rfl

end ContractCompiler.Hir
