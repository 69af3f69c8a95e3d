import ContractCompiler.Proofs.Hir.Reader.Scope
import Mathlib.Data.List.Forall2

/-!
# What expressions are read from

An expression spells the document value that it was read from: its form is the one that the value's
keys tell, its names stand for the innermost bindings, and each of its parts spells the part of the
value at the same place. A reader that yields no expression has reported a fault.

- `exprForm?`, `partsOf`, `Expr.parts`: the form of a value, its parts and those of an expression;
- `Expr.Spells`: what an expression spells;
- `Read.Answers`, `Read.Fails`: a step that keeps names, bindings and faults and yields something
  unless there is a fault, and one that yields nothing;
- `answers_readExpr`: expressions spell what they are read from.
-/

namespace ContractCompiler.Hir

open Read

/-! ## Expressions and values -/

/-- The key that tells the form of an object, with its value. -/
def exprForm? [Json.Library] (o : Json) : Option (String × Json) :=
  ExprForm.rules.findSome? fun r => (r.value? o).map fun v => (r.key, v)

/-- The values of which an object is made, given the key that tells its form and that key's
value. -/
def partsOf (key : String) (o v : Json) : List Json :=
  match key with
  | "bin" => (o.field? "l").toList ++ (o.field? "r").toList
  | "call" | "emit" => (arrayField? o "args").getD []
  | "struct" => (arrayField? o "fields").getD []
  | "select" => v :: ((o.field? "then").toList ++ (o.field? "else").toList)
  | "get" | "has" => (o.field? "key").toList
  | "put" => (o.field? "key").toList ++ (o.field? "value").toList
  | "int" | "bytes" | "unit" | "local" | "ctx" => []
  | _ => [v]

/-- The expressions of which an expression is made. -/
def Expr.parts : Expr → List Expr
  | .int .. | .bool .. | .bytes .. | .unit _ | .local .. | .context .. => []
  | .unary _ _ _ a | .cast _ _ a | .field _ _ _ a | .ok _ a | .err _ a | .result _ _ a | .length _ a
  | .stateGet _ _ a | .stateHas _ _ a | .digest _ a => [a]
  | .binary _ _ _ a b | .logical _ _ a b | .statePut _ _ a b => [a, b]
  | .select _ c t e => [c, t, e]
  | .call _ _ args | .struct _ args | .emit _ _ args => args

/-- A word is the value of an integer literal in some type. -/
def IsLiteral [Json.Library] (v : Json) (bits : UInt64) : Prop :=
  ∃ n k, ExprForm.literalValue v = .ok n ∧ ExprForm.wordInKind? k n = some bits

/-- The word for an arithmetic mode in documents. -/
def modeWord : ArithMode → String
  | .trap => "trap"
  | .wrapping => "wrap"
  | .saturating => "sat"
  | .checked => "checked"

/-- An object asks for an arithmetic mode, by default that which stops the execution. -/
def AsksMode (o : Json) (mode : ArithMode) : Prop :=
  (textField? o "mode").getD "trap" = modeWord mode

/-- The key of the forms that take a result. -/
def resultKey : ResultOp → String
  | .isOk => "is_ok"
  | .unwrap => "unwrap"
  | .code => "code"

/-- An expression is of the form that an object tells, apart from its parts. Names stand for the
innermost binding in sight, calls for the first function of a name. -/
def Expr.IsForm [Json.Library] (callees : String → Option FuncId) (scope : Names) (key : String)
    (o v : Json) : Expr → Prop
  | .int _ bits => key = "int" ∧ IsLiteral v bits
  | .bool .. => False
  | .bytes _ text => key = "bytes" ∧ v = .string text
  | .unit _ => key = "unit"
  | .local _ sym => key = "local" ∧ ∃ name, v = .string name ∧ scope.lookup name = some sym
  | .unary _ op mode _ => if op = .neg then key = "neg" ∧ AsksMode o mode else key = "not"
  | .binary _ op mode _ _ =>
    key = "bin" ∧ (∃ text, v = .string text ∧ ExprForm.binarySpellings.lookup text = some op) ∧
      AsksMode o mode
  | .logical _ isAnd _ _ => key = "bin" ∧ v = .string (if isAnd then "&&" else "||")
  | .cast _ mode _ =>
    key = "cast" ∧ AsksMode o (match mode with | .trap => .trap | .wrapping => .wrapping)
  | .call _ callee _ => key = "call" ∧ ∃ name, v = .string name ∧ callees name = some callee
  | .field _ name _ _ => key = "field" ∧ textField? o "name" = some name
  | .struct .. => key = "struct"
  | .select .. => key = "select"
  | .ok .. => key = "ok"
  | .err .. => key = "err"
  | .result _ op _ => key = resultKey op
  | .length .. => key = "len"
  | .stateGet _ ns _ => key = "get" ∧ v = .string ns
  | .statePut _ ns _ _ => key = "put" ∧ v = .string ns
  | .stateHas _ ns _ => key = "has" ∧ v = .string ns
  | .context i query =>
    key = "ctx" ∧ ∃ name type, v = .string name ∧
      ExprForm.contextQueries.lookup name = some (query, type) ∧ i.type = type.id
  | .digest .. => key = "digest"
  | .emit _ topic _ => key = "emit" ∧ v = .string topic

/-- An expression spells a value: it is of the value's form, and its parts spell the value's parts,
one for one. -/
inductive Expr.Spells [Json.Library] (callees : String → Option FuncId) (scope : Names) :
    Json → Expr → Prop where
  | number {n : Json.Number} {i : ExprInfo} {bits : UInt64} (h : IsLiteral (.number n) bits) :
      Spells callees scope (.number n) (.int i bits)
  | bool {b : Bool} {i : ExprInfo} : Spells callees scope (.bool b) (.bool i b)
  | name {name : String} {i : ExprInfo} {sym : SymbolId} (h : scope.lookup name = some sym) :
      Spells callees scope (.string name) (.local i sym)
  | object {o v : Json} {key : String} {e : Expr} (hkey : exprForm? o = some (key, v))
      (hform : e.IsForm callees scope key o v)
      (hparts : List.Forall₂ (Spells callees scope) (partsOf key o v) e.parts) :
      Spells callees scope o e

/-! ## Steps -/

/-- A later state with the same names and bindings, which has no fault forgotten. -/
structure ReadState.Kept (s s' : ReadState) : Prop where
  scope : s'.scope = s.scope
  symbols : s'.symbols = s.symbols
  clean : s'.faults = #[] → s.faults = #[]

theorem ReadState.Kept.refl (s : ReadState) : s.Kept s := ⟨rfl, rfl, id⟩

theorem ReadState.Kept.trans {s s' s'' : ReadState} (h : s.Kept s') (h' : s'.Kept s'') :
    s.Kept s'' :=
  ⟨h'.scope.trans h.scope, h'.symbols.trans h.symbols, fun hclean => h.clean (h'.clean hclean)⟩

namespace Read

variable {α β γ : Type} {scope : Names}

/-- A step that, from names in sight, leaves them and the bindings as they are and yields something
with a property unless there is a fault. -/
def Answers (r : Read α) (scope : Names) (Q : α → Prop) : Prop :=
  ∀ s : ReadState, s.scope = scope → s.Kept (r.run s).2 ∧
    ((r.run s).2.faults = #[] → (r.run s).1.isSome = true) ∧ ∀ a, (r.run s).1 = some a → Q a

theorem Answers.imp {r : Read α} {Q Q' : α → Prop} (h : r.Answers scope Q) (hQ : ∀ a, Q a → Q' a) :
    r.Answers scope Q' := by
  intro s hs
  obtain ⟨hkept, hsome, hvalue⟩ := h s hs
  exact ⟨hkept, hsome, fun a ha => hQ a (hvalue a ha)⟩

theorem Answers.bind {r : Read α} {k : α → Read β} {Q : α → Prop} {Q' : β → Prop}
    (h : r.Answers scope Q) (hk : ∀ a, Q a → (k a).Answers scope Q') :
    (r >>= k).Answers scope Q' := by
  intro s hs
  obtain ⟨hkept, hsome, hvalue⟩ := h s hs
  rw [run_bind]
  cases hr : r.run s with
  | mk a? s' =>
    rw [hr] at hkept hsome hvalue
    cases a? with
    | none => exact ⟨hkept, fun hclean => absurd (hsome hclean) nofun, nofun⟩
    | some a =>
      obtain ⟨hkept', hrest⟩ := hk a (hvalue a rfl) s' (hkept.scope.trans hs)
      exact ⟨hkept.trans hkept', hrest⟩

theorem answers_pure {Q : α → Prop} {a : α} (hQ : Q a) : (pure a : Read α).Answers scope Q :=
  fun s _ => ⟨.refl s, fun _ => rfl, fun _ ha => Option.some.inj ha ▸ hQ⟩

/-- A step that yields nothing and only has to keep what is known. -/
def Fails (r : Read α) (scope : Names) : Prop :=
  ∀ s : ReadState, s.scope = scope → s.Kept (r.run s).2 ∧ (r.run s).1 = none

theorem fails_failure : (failure : Read α).Fails scope := fun s _ => ⟨.refl s, rfl⟩

theorem run_attempt_bind (r : Read α) (k : Option α → Read β) (s : ReadState) :
    (attempt r >>= k).run s = (k (r.run s).1).run (r.run s).2 := rfl

theorem Answers.attemptFails {r : Read α} {k : Option α → Read β} {Q : α → Prop}
    (h : r.Answers scope Q) (hk : ∀ a?, (k a?).Fails scope) : (attempt r >>= k).Fails scope := by
  intro s hs
  have hkept := (h s hs).1
  obtain ⟨hkept', hnone⟩ := hk (r.run s).1 (r.run s).2 (hkept.scope.trans hs)
  exact ⟨hkept.trans hkept', hnone⟩

theorem Answers.bindFails {r : Read α} {k : α → Read β} {Q : α → Prop} (h : r.Answers scope Q)
    (hk : ∀ a, (k a).Fails scope) : (r >>= k).Fails scope := by
  intro s hs
  have hkept := (h s hs).1
  rw [run_bind]
  cases hr : r.run s with
  | mk a? s' =>
    rw [hr] at hkept
    cases a? with
    | none => exact ⟨hkept, rfl⟩
    | some a =>
      obtain ⟨hkept', hnone⟩ := hk a s' (hkept.scope.trans hs)
      exact ⟨hkept.trans hkept', hnone⟩

/-- A step that may yield nothing. If it does there is a fault, so the rest may fail. -/
theorem Answers.attemptBind {r : Read α} {k : Option α → Read β} {Q : α → Prop} {Q' : β → Prop}
    (h : r.Answers scope Q) (hsome : ∀ a, Q a → (k (some a)).Answers scope Q')
    (hnone : (k none).Fails scope) :
    (attempt r >>= k).Answers scope Q' := by
  intro s hs
  obtain ⟨hkept, hanswer, hvalue⟩ := h s hs
  rw [run_attempt_bind]
  cases hr : r.run s with
  | mk a? s' =>
    rw [hr] at hkept hanswer hvalue
    cases a? with
    | none =>
      obtain ⟨hkept', hfails⟩ := hnone s' (hkept.scope.trans hs)
      refine ⟨hkept.trans hkept', fun hclean => ?_, fun b hb => ?_⟩
      · exact absurd (hanswer (hkept'.clean hclean)) nofun
      · cases hfails.symm.trans hb
    | some a =>
      obtain ⟨hkept', hrest⟩ := hsome a (hvalue a rfl) s' (hkept.scope.trans hs)
      exact ⟨hkept.trans hkept', hrest⟩

/-! ## Faults -/

theorem answers_failWith {cause : Cause} {span : Span} {args : List String} {Q : α → Prop} :
    (failWith cause span args : Read α).Answers scope Q :=
  fun _ _ => ⟨⟨rfl, rfl, fun hclean => absurd hclean Array.push_ne_empty⟩,
    fun hclean => absurd hclean Array.push_ne_empty, nofun⟩

theorem answers_failMalformed {span : Span} {what : Malformation} {Q : α → Prop} :
    (failMalformed span what : Read α).Answers scope Q := answers_failWith

/-! ## Types and bindings -/

theorem answers_types : types.Answers scope fun _ => True :=
  fun s _ => ⟨.refl s, fun _ => rfl, fun _ _ => trivial⟩

theorem answers_withTypes (f : TypePool → α × TypePool) :
    (withTypes f).Answers scope fun _ => True :=
  fun _ _ => ⟨⟨rfl, rfl, id⟩, fun _ => rfl, fun _ _ => trivial⟩

theorem answers_parseType (text : String) (span : Span) :
    (parseType text span).Answers scope fun _ => True := by
  unfold parseType
  refine answers_types.bind fun pool _ => ?_
  split
  · rename_i t pool' _
    have hmod : Answers (modify fun s : ReadState => { s with types := pool' }) scope
        fun _ => True :=
      fun _ _ => ⟨⟨rfl, rfl, id⟩, fun _ => rfl, fun _ _ => trivial⟩
    exact hmod.bind fun _ _ => answers_pure trivial
  · exact answers_failWith

theorem answers_mismatch {Q : α → Prop} {span : Span} {want got : TypeId} :
    (mismatch span want got : Read α).Answers scope Q :=
  answers_types.bind fun _ _ => answers_failWith

theorem answers_expectType (e : Expr) (want : TypeId) (span : Span) :
    (expectType e want span).Answers scope fun _ => True := by
  unfold expectType
  split
  · exact answers_pure trivial
  · exact answers_mismatch

theorem answers_symbol (sym : SymbolId) : (symbol sym).Answers scope fun _ => True :=
  fun s _ => ⟨.refl s, fun _ => rfl, fun _ _ => trivial⟩

theorem answers_complete (span : Span) (type : TypeId) {make : ExprInfo → Expr} {Q : Expr → Prop}
    (hQ : ∀ i : ExprInfo, i.type = type → Q (make i)) : (complete span type make).Answers scope Q :=
  fun _ _ => ⟨⟨rfl, rfl, id⟩, fun _ => rfl, fun _ he => Option.some.inj he ▸ hQ _ rfl⟩

/-- A name stands for its innermost binding. -/
theorem answers_lookup [Json.Library] (name : String) (span : Span) :
    (lookup name span).Answers scope fun sym => scope.lookup name = some sym := by
  intro s hs
  rw [run_lookup, hs]
  split
  · rename_i sym hsym
    exact answers_pure (Q := fun sym => scope.lookup name = some sym) hsym s hs
  · exact answers_failWith s hs

end Read

/-! ## Parts of forms -/

/-- A reader of sub-expressions that spell what they are read from, if values do not nest too
deep. -/
def SubReader.Spells [Json.Library] (sub : SubReader) (callees : String → Option FuncId)
    (fuel : Nat) (scope : Names) : Prop :=
  ∀ v hint, nesting v ≤ fuel → (sub v hint).Answers scope (·.Spells callees scope v)

theorem nesting_object (fields : List (String × Json)) :
    nesting (.object fields) = nestingOfFields fields + 1 := by
  rw [nesting]

theorem nesting_array (items : List Json) : nesting (.array items) = nestingOfItems items + 1 := by
  rw [nesting]

theorem nesting_lt_of_field? {o v : Json} {key : String} (h : o.field? key = some v) :
    nesting v < nesting o := by
  cases o with
  | object fields =>
    have hfields (fields : List (String × Json)) (h : fields.lookup key = some v) :
        nesting v ≤ nestingOfFields fields := by
      induction fields with
      | nil => cases h
      | cons entry rest ih =>
        obtain ⟨k, v'⟩ := entry
        rw [List.lookup_cons] at h
        unfold nestingOfFields
        split at h
        · rw [Option.some.inj h]
          exact Nat.le_max_left _ _
        · exact (ih h).trans (Nat.le_max_right _ _)
    rw [nesting_object]
    exact Nat.lt_succ_of_le (hfields fields h)
  | _ => cases h

theorem nesting_lt_of_mem {o v : Json} {items : List Json} {key : String}
    (h : arrayField? o key = some items) (hv : v ∈ items) : nesting v < nesting o := by
  obtain ⟨array, harray, hitems⟩ := Option.bind_eq_some_iff.mp h
  cases array with
  | array items' =>
    obtain rfl := Option.some.inj hitems
    have hmem (items : List Json) (hv : v ∈ items) : nesting v ≤ nestingOfItems items := by
      induction items with
      | nil => cases hv
      | cons v' items ih =>
        unfold nestingOfItems
        rcases List.mem_cons.mp hv with rfl | hv
        · exact Nat.le_max_left _ _
        · exact (ih hv).trans (Nat.le_max_right _ _)
    have harray := nesting_lt_of_field? harray
    have hitem := hmem items' hv
    rw [nesting_array] at harray
    omega
  | _ => cases hitems

namespace ExprForm

/-- A form as it is told by the keys of an object that does not nest too deep. -/
structure Told [Json.Library] (f : ExprForm) (key : String) (fuel : Nat) : Prop where
  form : exprForm? f.object = some (key, f.value)
  nesting : nesting f.object ≤ fuel + 1

variable {f : ExprForm} {sub : SubReader} {ctx : ReadContext} {callees : String → Option FuncId}
  {scope : Names}
  {key : String} {fuel : Nat}

theorem Told.nesting_field [Json.Library] (h : f.Told key fuel) {v : Json} {key' : String}
    (hv : f.object.field? key' = some v) :
    Hir.nesting v ≤ fuel := by
  have hlt := nesting_lt_of_field? hv
  have hle := h.nesting
  omega

theorem Told.nesting_item [Json.Library] (h : f.Told key fuel) {v : Json} {key' : String}
    (hv : v ∈ (arrayField? f.object key').getD []) : Hir.nesting v ≤ fuel := by
  cases hitems : arrayField? f.object key' with
  | none =>
    rw [hitems] at hv
    cases hv
  | some items =>
    rw [hitems] at hv
    have hlt := nesting_lt_of_mem hitems hv
    have hle := h.nesting
    omega

theorem Told.nesting_value [Json.Library] (h : f.Told key fuel) : Hir.nesting f.value ≤ fuel := by
  obtain ⟨r, -, hr⟩ := List.exists_of_findSome?_eq_some h.form
  obtain ⟨v, hv, heq⟩ := Option.map_eq_some_iff.mp hr
  obtain ⟨rfl, rfl⟩ := Prod.mk.inj heq
  exact h.nesting_field (Option.mem_filter_iff.mp hv).1

theorem answers_need (key : String) :
    (f.need key).Answers scope fun v => f.object.field? key = some v := by
  unfold need
  split
  · rename_i v hv
    exact answers_pure hv
  · exact answers_failMalformed

theorem answers_need2 (key₁ key₂ : String) : (f.need2 key₁ key₂).Answers scope fun v =>
    f.object.field? key₁ = some v.1 ∧ f.object.field? key₂ = some v.2 := by
  unfold need2
  refine (answers_need key₁).attemptBind (fun v₁ h₁ => ?_)
    ((answers_need key₂).attemptFails fun v₂ => fails_failure)
  exact (answers_need key₂).attemptBind (fun v₂ h₂ => answers_pure ⟨h₁, h₂⟩) fails_failure

theorem answers_mode : f.mode.Answers scope (AsksMode f.object) := by
  unfold mode AsksMode
  split
  · rename_i hmode
    exact answers_pure (by rw [hmode]; rfl)
  · rename_i hmode
    exact answers_pure (by rw [hmode]; rfl)
  · rename_i hmode
    exact answers_pure (by rw [hmode]; rfl)
  · rename_i hmode
    exact answers_pure (by rw [hmode]; rfl)
  · rename_i hmode
    exact answers_pure (by rw [hmode]; rfl)
  · exact answers_failMalformed

theorem answers_hintElem : f.hintElem.Answers scope fun _ => True :=
  answers_types.bind fun _ _ => answers_pure trivial

theorem answers_operandHint (mode : ArithMode) (otherwise : Hint) :
    (f.operandHint mode otherwise).Answers scope fun _ => True := by
  unfold operandHint
  refine answers_hintElem.bind fun hint _ => ?_
  split <;> exact answers_pure trivial

theorem answers_modeType (mode : ArithMode) (t : TypeId) :
    (modeType mode t).Answers scope fun _ => True := by
  unfold modeType
  split
  · exact answers_withTypes _
  · exact answers_pure trivial

theorem answers_stateNamespace : f.stateNamespace.Answers scope fun ns => f.value = .string ns := by
  unfold stateNamespace
  split
  · exact answers_failMalformed
  · rename_i ns hns
    split
    · exact answers_failMalformed
    · split
      · exact answers_failMalformed
      · refine answers_pure ?_
        cases hv : f.value <;> rw [hv] at hns <;> cases hns
        rfl

theorem answers_stateKey [Json.Library] (hf : f.Told key fuel)
    (hsub : sub.Spells callees fuel scope) :
    (f.stateKey sub).Answers scope fun e => ∃ v, f.object.field? "key" = some v ∧
      e.Spells callees scope v := by
  unfold stateKey
  refine (answers_need "key").bind fun v hv => (hsub v _ (hf.nesting_field hv)).bind fun e he => ?_
  refine answers_types.bind fun pool _ => ?_
  split
  · exact answers_pure ⟨v, hv, he⟩
  · exact answers_failMalformed

theorem answers_pair [Json.Library] (hsub : sub.Spells callees fuel scope) {l r : Json}
    (hl : nesting l ≤ fuel) (hr : nesting r ≤ fuel) (hint : Hint) :
    (pair sub l r hint).Answers scope fun p =>
      p.1.Spells callees scope l ∧ p.2.Spells callees scope r := by
  unfold pair
  split
  · refine (hsub r _ hr).attemptBind (fun b hb => ?_) ((hsub l _ hl).attemptFails fun a => ?_)
    · exact (hsub l _ hl).attemptBind (fun a ha => answers_pure ⟨ha, hb⟩) fails_failure
    · cases a <;> exact fails_failure
  · refine (hsub l _ hl).attemptBind (fun a ha => ?_)
      ((hsub r _ hr).attemptFails fun b => fails_failure)
    exact (hsub r _ hr).attemptBind (fun b hb => answers_pure ⟨ha, hb⟩) fails_failure

theorem answers_each [Json.Library] (hsub : sub.Spells callees fuel scope) {vs : List Json}
    (hvs : ∀ v ∈ vs, nesting v ≤ fuel) (hints : List TypeId) :
    (each sub vs hints).Answers scope fun es => List.Forall₂ (Expr.Spells callees scope) vs es := by
  induction vs generalizing hints with
  | nil => exact answers_pure .nil
  | cons v vs ih =>
    unfold each
    have hv := hsub v hints.head? (hvs v List.mem_cons_self)
    have hrest := ih (fun v hv => hvs v (List.mem_cons_of_mem _ hv)) hints.tail
    refine hv.attemptBind (fun e he => ?_) (hrest.attemptFails fun es => fails_failure)
    exact hrest.attemptBind (fun es hes => answers_pure (.cons he hes)) fails_failure

/-! ## Forms -/

/-- An expression is of the form that a key tells, with the parts of that form. -/
def Makes [Json.Library] (f : ExprForm) (callees : String → Option FuncId) (scope : Names)
    (key : String) (e : Expr) : Prop :=
  e.IsForm callees scope key f.object f.value ∧
    List.Forall₂ (Expr.Spells callees scope) (partsOf key f.object f.value) e.parts

/-- The value of a key that has to be a text is one. -/
theorem Told.exists_text [Json.Library] (h : f.Told key fuel)
    (hkey : ∀ r ∈ rules, r.key = key → r.needsText = true) :
    ∃ text, f.value = .string text := by
  obtain ⟨r, hr, hvalue⟩ := List.exists_of_findSome?_eq_some h.form
  obtain ⟨v, hv, heq⟩ := Option.map_eq_some_iff.mp hvalue
  obtain ⟨hrkey, rfl⟩ := Prod.mk.inj heq
  have htext := (Option.mem_filter_iff.mp hv).2
  rw [hkey r hr hrkey] at htext
  cases hval : f.value with
  | string text => exact ⟨text, rfl⟩
  | _ =>
    rw [hval] at htext
    cases htext

theorem answers_readIntValue [Json.Library] (v : Json) (hint : Hint) (span : Span) :
    (readIntValue v hint span).Answers scope fun e => ∃ i bits, e = .int i bits ∧
      IsLiteral v bits := by
  unfold readIntValue
  refine answers_types.bind fun pool _ => ?_
  extract_lets type
  split
  · exact answers_failMalformed
  · rename_i n hn
    split
    · rename_i bits hbits
      exact answers_complete _ _ fun i _ => ⟨i, bits, rfl, n, _, hn, hbits⟩
    · exact answers_failMalformed

theorem answers_int [Json.Library] : f.int.Answers scope (f.Makes callees scope "int") := by
  have hmakes : ∀ e, (∃ i bits, e = .int i bits ∧ IsLiteral f.value bits) →
      f.Makes callees scope "int" e := by
    rintro _ ⟨i, bits, rfl, hbits⟩
    exact ⟨⟨rfl, hbits⟩, .nil⟩
  unfold int
  split
  · exact (answers_parseType _ _).bind fun t _ => (answers_readIntValue _ _ _).imp hmakes
  · exact (answers_readIntValue _ _ _).imp hmakes

theorem answers_bytes [Json.Library] (hf : f.Told "bytes" fuel) :
    f.bytes.Answers scope (f.Makes callees scope "bytes") := by
  obtain ⟨text, htext⟩ := hf.exists_text (by simp [rules])
  refine answers_complete _ _ fun i _ => ⟨⟨rfl, ?_⟩, .nil⟩
  rw [htext]
  rfl

theorem answers_unit [Json.Library] : f.unit.Answers scope (f.Makes callees scope "unit") :=
  answers_complete _ _ fun _ _ => ⟨rfl, .nil⟩

theorem answers_useOf [Json.Library] (name : String) (span : Span) :
    (useOf name span).Answers scope fun e => ∃ i sym, e = .local i sym ∧
      scope.lookup name = some sym := by
  refine (answers_lookup name span).bind fun sym hsym => (answers_symbol sym).bind fun s _ => ?_
  exact answers_complete _ _ fun i _ => ⟨i, sym, rfl, hsym⟩

theorem answers_local [Json.Library] (hf : f.Told "local" fuel) :
    f.local.Answers scope (f.Makes callees scope "local") := by
  obtain ⟨text, htext⟩ := hf.exists_text (by simp [rules])
  refine (answers_useOf _ _).imp ?_
  rintro _ ⟨i, sym, rfl, hsym⟩
  rw [htext] at hsym
  exact ⟨⟨rfl, text, htext, hsym⟩, .nil⟩

/-- The parts of a binary operation. -/
theorem forall₂_operands [Json.Library] {l r : Json} {a b : Expr}
    (hl : f.object.field? "l" = some l) (hr : f.object.field? "r" = some r)
    (ha : a.Spells callees scope l) (hb : b.Spells callees scope r) :
    List.Forall₂ (Expr.Spells callees scope) (partsOf "bin" f.object f.value) [a, b] := by
  unfold partsOf
  rw [hl, hr]
  exact .cons ha (.cons hb .nil)

theorem answers_logical [Json.Library] (hf : f.Told "bin" fuel)
    (hsub : sub.Spells callees fuel scope) (isAnd : Bool)
    (hvalue : f.value = .string (if isAnd then "&&" else "||")) :
    (f.logical sub isAnd).Answers scope (f.Makes callees scope "bin") := by
  unfold logical
  refine (answers_need2 _ _).bind ?_
  rintro ⟨l, r⟩ ⟨hl, hr⟩
  refine answers_mode.bind fun _ _ => ?_
  have hleft := hsub l (some Builtin.bool.id) (hf.nesting_field hl)
  have hright := hsub r (some Builtin.bool.id) (hf.nesting_field hr)
  refine hleft.attemptBind (fun a ha => ?_) (hright.attemptFails fun b => fails_failure)
  refine hright.attemptBind (fun b hb => ?_)
    ((answers_expectType _ _ _).bindFails fun _ => fails_failure)
  refine (answers_expectType _ _ _).bind fun _ _ => (answers_expectType _ _ _).bind fun _ _ => ?_
  exact answers_complete _ _ fun i _ => ⟨⟨rfl, hvalue⟩, forall₂_operands hl hr ha hb⟩

theorem answers_checkCompare (op : BinOp) (mode : ArithMode) (t : TypeId) :
    (f.checkCompare op mode t).Answers scope fun _ => True := by
  unfold checkCompare
  refine answers_types.bind fun pool _ => ?_
  extract_lets onBool
  split
  · exact answers_failMalformed
  · split
    · exact answers_failMalformed
    · exact answers_pure trivial

theorem answers_checkArith (op : BinOp) (mode : ArithMode) (t : TypeId) :
    (f.checkArith op mode t).Answers scope fun _ => True := by
  unfold checkArith
  refine answers_types.bind fun pool _ => ?_
  split
  · exact answers_failMalformed
  · split
    · exact answers_failMalformed
    · exact answers_pure trivial

theorem answers_arithmetic [Json.Library] (hf : f.Told "bin" fuel)
    (hsub : sub.Spells callees fuel scope) {op : BinOp}
    (hop : ∃ text, f.value = .string text ∧ binarySpellings.lookup text = some op) :
    (f.arithmetic sub op).Answers scope (f.Makes callees scope "bin") := by
  unfold arithmetic
  refine (answers_need2 _ _).bind ?_
  rintro ⟨l, r⟩ ⟨hl, hr⟩
  refine answers_mode.bind fun mode hmode => (answers_operandHint mode _).bind fun hint _ => ?_
  refine (answers_pair hsub (hf.nesting_field hl) (hf.nesting_field hr) hint).bind ?_
  rintro ⟨a, b⟩ ⟨ha, hb⟩
  refine (answers_expectType b _ _).bind fun _ _ => ?_
  have hmakes : ∀ i, f.Makes callees scope "bin" (.binary i op mode a b) :=
    fun i => ⟨⟨rfl, hop, hmode⟩, forall₂_operands hl hr ha hb⟩
  split
  · exact (answers_checkCompare op mode _).bind fun _ _ => answers_complete _ _ fun i _ => hmakes i
  · refine (answers_checkArith op mode _).bind
      fun _ _ => (answers_modeType mode _).bind fun t _ => ?_
    exact answers_complete _ _ fun i _ => hmakes i

theorem answers_binary [Json.Library] (hf : f.Told "bin" fuel)
    (hsub : sub.Spells callees fuel scope) :
    (f.binary sub).Answers scope (f.Makes callees scope "bin") := by
  obtain ⟨text, htext⟩ := hf.exists_text (by simp [rules])
  have hop : f.value.string?.getD "" = text := by
    rw [htext]
    rfl
  unfold binary
  rw [hop]
  dsimp only
  split
  · rename_i hand
    exact answers_logical hf hsub true (by rw [htext, hand]; rfl)
  · split
    · rename_i hor
      exact answers_logical hf hsub false (by rw [htext, hor]; rfl)
    · split
      · rename_i op hop
        exact answers_arithmetic hf hsub ⟨text, htext, hop⟩
      · exact answers_failMalformed

theorem answers_neg [Json.Library] (hf : f.Told "neg" fuel) (hsub : sub.Spells callees fuel scope) :
    (f.neg sub).Answers scope (f.Makes callees scope "neg") := by
  unfold neg
  refine answers_mode.bind fun mode hmode => (answers_operandHint mode _).bind fun hint _ => ?_
  refine (hsub _ _ hf.nesting_value).bind fun a ha => answers_types.bind fun pool _ => ?_
  split
  · exact answers_failMalformed
  · refine (answers_modeType mode _).bind fun t _ => answers_complete _ _ fun i _ => ?_
    exact ⟨⟨rfl, hmode⟩, .cons ha .nil⟩

theorem answers_not [Json.Library] (hf : f.Told "not" fuel) (hsub : sub.Spells callees fuel scope) :
    (f.not sub).Answers scope (f.Makes callees scope "not") := by
  unfold ExprForm.not
  refine (hsub _ _ hf.nesting_value).bind fun a ha => answers_types.bind fun pool _ => ?_
  split
  · exact answers_complete _ _ fun i _ => ⟨rfl, .cons ha .nil⟩
  · split
    · exact answers_complete _ _ fun i _ => ⟨rfl, .cons ha .nil⟩
    · exact answers_failMalformed

theorem answers_cast [Json.Library] (hf : f.Told "cast" fuel)
    (hsub : sub.Spells callees fuel scope) :
    (f.cast sub).Answers scope (f.Makes callees scope "cast") := by
  unfold ExprForm.cast
  split
  · exact answers_failMalformed
  · refine (answers_parseType _ _).attemptBind (fun target _ => ?_)
      (answers_mode.attemptFails fun _ => fails_failure)
    refine answers_mode.attemptBind (fun mode hmode => ?_) fails_failure
    have hrest (castMode : CastMode)
        (hmode : AsksMode f.object
          (match castMode with | .trap => .trap | .wrapping => .wrapping)) : Answers (do
          let a ← sub f.value none
          let pool ← types
          if !pool.isInteger a.type || !pool.isInteger target then
            failMalformed f.span .castOperands
          else complete f.span target fun i => .cast i castMode a) scope
            (f.Makes callees scope "cast") := by
      refine (hsub _ _ hf.nesting_value).bind fun a ha => answers_types.bind fun pool _ => ?_
      split
      · exact answers_failMalformed
      · exact answers_complete _ _ fun i _ => ⟨⟨rfl, hmode⟩, .cons ha .nil⟩
    dsimp only
    split
    · exact hrest .trap hmode
    · exact hrest .wrapping hmode
    · exact answers_failMalformed.bind fun m (_ : False) => by contradiction

theorem answers_checkArgs (args : List Expr) (params : List Param) :
    (f.checkArgs args params).Answers scope fun _ => True := by
  induction args generalizing params with
  | nil =>
    unfold checkArgs
    exact answers_pure trivial
  | cons a args ih =>
    cases params with
    | nil => exact answers_pure trivial
    | cons p params =>
      unfold checkArgs
      refine (answers_expectType _ _ _).bind fun _ _ => ?_
      split
      · exact answers_failWith
      · exact ih params

theorem answers_call [Json.Library] (hf : f.Told "call" fuel)
    (hsub : sub.Spells (findFunction? ctx.functions) fuel scope) :
    (f.call sub ctx).Answers scope (f.Makes (findFunction? ctx.functions) scope "call") := by
  obtain ⟨text, htext⟩ := hf.exists_text (by simp [rules])
  have hname : f.value.string?.getD "" = text := by
    rw [htext]
    rfl
  unfold call
  rw [hname]
  dsimp only
  split
  · exact answers_failWith
  · rename_i fid hfid
    split
    · exact answers_failWith
    · refine (answers_each hsub (fun v hv => hf.nesting_item hv) _).bind fun args hargs => ?_
      refine (answers_checkArgs _ _).bind fun _ _ => answers_complete _ _ fun i _ => ?_
      exact ⟨⟨rfl, text, htext, hfid⟩, hargs⟩

theorem answers_field [Json.Library] (hf : f.Told "field" fuel)
    (hsub : sub.Spells callees fuel scope) :
    (f.field sub).Answers scope (f.Makes callees scope "field") := by
  unfold field
  split
  · exact answers_failMalformed
  · rename_i name hname
    refine (hsub _ _ hf.nesting_value).bind fun base hbase => answers_types.bind fun pool _ => ?_
    split
    · exact answers_failMalformed
    · split
      · exact answers_complete _ _ fun i _ => ⟨⟨rfl, hname⟩, .cons hbase .nil⟩
      · exact answers_failWith

theorem answers_checkTypes (es : List Expr) (ts : List TypeId) :
    (f.checkTypes es ts).Answers scope fun _ => True := by
  induction es generalizing ts with
  | nil =>
    unfold checkTypes
    exact answers_pure trivial
  | cons e es ih =>
    cases ts with
    | nil => exact answers_pure trivial
    | cons t ts => exact (answers_expectType _ _ _).bind fun _ _ => ih ts

theorem answers_struct [Json.Library] (hf : f.Told "struct" fuel)
    (hsub : sub.Spells callees fuel scope) :
    (f.struct sub).Answers scope (f.Makes callees scope "struct") := by
  unfold struct
  extract_lets name items
  refine answers_types.bind fun pool _ => ?_
  split
  · exact answers_failWith
  · extract_lets fields ts
    split
    · exact answers_failWith
    · refine (answers_each hsub (fun v hv => hf.nesting_item hv) _).bind fun es hes => ?_
      refine (answers_checkTypes _ _).bind fun _ _ => answers_complete _ _ fun i _ => ?_
      exact ⟨rfl, hes⟩

theorem answers_select [Json.Library] (hf : f.Told "select" fuel)
    (hsub : sub.Spells callees fuel scope) :
    (f.select sub).Answers scope (f.Makes callees scope "select") := by
  unfold select
  refine (answers_need2 _ _).bind ?_
  rintro ⟨t, e⟩ ⟨ht, he⟩
  refine (hsub _ _ hf.nesting_value).bind fun cond hcond => (answers_expectType _ _ _).bind
    fun _ _ => ?_
  refine (answers_pair hsub (hf.nesting_field ht) (hf.nesting_field he) _).bind ?_
  rintro ⟨a, b⟩ ⟨ha, hb⟩
  refine (answers_expectType _ _ _).bind fun _ _ => answers_complete _ _ fun i _ => ⟨rfl, ?_⟩
  unfold partsOf
  rw [ht, he]
  exact .cons hcond (.cons ha (.cons hb .nil))

theorem answers_storedType (type : Option TypeId) : Answers (do
    let pool ← types
    match type with
    | some t => if pool.isStateValue t then pure t else failMalformed f.span .stateValue
    | none => failMalformed f.span .stateValue) scope fun _ => True := by
  refine answers_types.bind fun pool _ => ?_
  split
  · split
    · exact answers_pure trivial
    · exact answers_failMalformed
  · exact answers_failMalformed

theorem answers_stateValueType : f.stateValueType.Answers scope fun _ => True := by
  unfold stateValueType
  split
  · exact (answers_parseType _ _).bind fun t _ => answers_storedType (some t)
  · exact answers_hintElem.bind fun hint _ => answers_storedType hint

theorem answers_stateGet [Json.Library] (hf : f.Told "get" fuel)
    (hsub : sub.Spells callees fuel scope) :
    (f.stateGet sub).Answers scope (f.Makes callees scope "get") := by
  unfold stateGet
  refine answers_stateNamespace.bind fun ns hns => answers_stateValueType.bind fun type _ => ?_
  refine (answers_stateKey hf hsub).bind ?_
  rintro key ⟨v, hv, hkey⟩
  refine (answers_withTypes _).bind fun t _ => answers_complete _ _ fun i _ => ⟨⟨rfl, hns⟩, ?_⟩
  unfold partsOf
  rw [hv]
  exact .cons hkey .nil

theorem answers_statePut [Json.Library] (hf : f.Told "put" fuel)
    (hsub : sub.Spells callees fuel scope) :
    (f.statePut sub).Answers scope (f.Makes callees scope "put") := by
  unfold statePut
  refine answers_stateNamespace.bind fun ns hns => (answers_need _).bind fun v hv => ?_
  refine (answers_stateKey hf hsub).bind ?_
  rintro key ⟨k, hk, hkey⟩
  refine (hsub _ _ (hf.nesting_field hv)).bind
    fun value hvalue => answers_types.bind fun pool _ => ?_
  split
  · exact answers_failMalformed
  · refine answers_complete _ _ fun i _ => ⟨⟨rfl, hns⟩, ?_⟩
    unfold partsOf
    rw [hk, hv]
    exact .cons hkey (.cons hvalue .nil)

theorem answers_stateHas [Json.Library] (hf : f.Told "has" fuel)
    (hsub : sub.Spells callees fuel scope) :
    (f.stateHas sub).Answers scope (f.Makes callees scope "has") := by
  unfold stateHas
  refine answers_stateNamespace.bind fun ns hns => (answers_stateKey hf hsub).bind ?_
  rintro key ⟨v, hv, hkey⟩
  refine answers_complete _ _ fun i _ => ⟨⟨rfl, hns⟩, ?_⟩
  unfold partsOf
  rw [hv]
  exact .cons hkey .nil

theorem answers_context [Json.Library] (hf : f.Told "ctx" fuel) :
    f.context.Answers scope (f.Makes callees scope "ctx") := by
  obtain ⟨text, htext⟩ := hf.exists_text (by simp [rules])
  have hname : f.value.string?.getD "" = text := by
    rw [htext]
    rfl
  unfold context
  rw [hname]
  dsimp only
  split
  · rename_i query type hquery
    exact answers_complete _ _ fun i hi => ⟨⟨rfl, text, type, htext, hquery, hi⟩, .nil⟩
  · exact answers_failMalformed

theorem answers_digest [Json.Library] (hf : f.Told "digest" fuel)
    (hsub : sub.Spells callees fuel scope) :
    (f.digest sub).Answers scope (f.Makes callees scope "digest") := by
  refine (hsub _ _ hf.nesting_value).bind fun a ha => (answers_expectType _ _ _).bind fun _ _ => ?_
  exact answers_complete _ _ fun i _ => ⟨rfl, .cons ha .nil⟩

theorem answers_length [Json.Library] (hf : f.Told "len" fuel)
    (hsub : sub.Spells callees fuel scope) :
    (f.length sub).Answers scope (f.Makes callees scope "len") := by
  refine (hsub _ _ hf.nesting_value).bind fun a ha => (answers_expectType _ _ _).bind fun _ _ => ?_
  exact answers_complete _ _ fun i _ => ⟨rfl, .cons ha .nil⟩

theorem answers_emit [Json.Library] (hf : f.Told "emit" fuel)
    (hsub : sub.Spells callees fuel scope) :
    (f.emit sub).Answers scope (f.Makes callees scope "emit") := by
  obtain ⟨text, htext⟩ := hf.exists_text (by simp [rules])
  unfold emit
  refine (answers_each hsub (fun v hv => hf.nesting_item hv) _).bind fun args hargs => ?_
  refine answers_types.bind fun pool _ => ?_
  split
  · exact answers_failMalformed
  · refine answers_complete _ _ fun i _ => ⟨⟨rfl, ?_⟩, hargs⟩
    rw [htext]
    rfl

theorem answers_result [Json.Library] (op : ResultOp) (hf : f.Told (resultKey op) fuel)
    (hsub : sub.Spells callees fuel scope) :
    (f.result sub op).Answers scope (f.Makes callees scope (resultKey op)) := by
  unfold result
  refine (hsub _ _ hf.nesting_value).bind fun a ha => answers_types.bind fun pool _ => ?_
  split
  · exact answers_failMalformed
  · refine answers_complete _ _ fun i _ => ⟨rfl, ?_⟩
    cases op <;> exact .cons ha .nil

theorem answers_ok [Json.Library] (hf : f.Told "ok" fuel) (hsub : sub.Spells callees fuel scope) :
    (f.ok sub).Answers scope (f.Makes callees scope "ok") := by
  unfold ok
  refine answers_hintElem.bind fun hint _ => (hsub _ _ hf.nesting_value).bind fun a ha => ?_
  exact (answers_withTypes _).bind fun t _ => answers_complete _ _ fun i _ => ⟨rfl, .cons ha .nil⟩

/-- An error result of a type that is given or expected. -/
theorem answers_errOf [Json.Library] (hf : f.Told "err" fuel) (hsub : sub.Spells callees fuel scope)
    (type : Option TypeId) :
    Answers (do
      let pool ← types
      match type with
      | none => failMalformed f.span .errType
      | some t =>
        if (pool.resultElem? t).isNone then failMalformed f.span .errType
        else
          let a ← sub f.value (some Builtin.i32.id)
          expectType a Builtin.i32.id f.span
          complete f.span t fun i => .err i a) scope (f.Makes callees scope "err") := by
  refine answers_types.bind fun pool _ => ?_
  split
  · exact answers_failMalformed
  · split
    · exact answers_failMalformed
    · refine (hsub _ _ hf.nesting_value).bind fun a ha => (answers_expectType _ _ _).bind
        fun _ _ => ?_
      exact answers_complete _ _ fun i _ => ⟨rfl, .cons ha .nil⟩

theorem answers_err [Json.Library] (hf : f.Told "err" fuel) (hsub : sub.Spells callees fuel scope) :
    (f.err sub).Answers scope (f.Makes callees scope "err") := by
  unfold err
  split
  · refine (answers_parseType _ _).bind fun t _ => (answers_withTypes _).bind fun r _ => ?_
    exact answers_errOf hf hsub (some r)
  · exact answers_errOf hf hsub f.hint

/-- What a form yields is of that form. -/
theorem answers_rule [Json.Library] {r : Rule} (hf : f.Told r.key fuel)
    (hsub : sub.Spells (findFunction? ctx.functions) fuel scope) (hr : r ∈ rules) :
    (r.read ctx sub f).Answers scope (f.Makes (findFunction? ctx.functions) scope r.key) := by
  simp only [rules, List.mem_cons, List.not_mem_nil, or_false] at hr
  rcases hr with rfl | rfl | rfl | rfl | rfl | rfl | rfl | rfl | rfl | rfl | rfl | rfl |
    rfl | rfl | rfl |
    rfl | rfl | rfl | rfl | rfl | rfl | rfl | rfl | rfl
  · exact answers_int
  · exact answers_bytes hf
  · exact answers_unit
  · exact answers_local hf
  · exact answers_binary hf hsub
  · exact answers_neg hf hsub
  · exact answers_not hf hsub
  · exact answers_cast hf hsub
  · exact answers_call hf hsub
  · exact answers_field hf hsub
  · exact answers_struct hf hsub
  · exact answers_select hf hsub
  · exact answers_stateGet hf hsub
  · exact answers_statePut hf hsub
  · exact answers_stateHas hf hsub
  · exact answers_context hf
  · exact answers_digest hf hsub
  · exact answers_length hf hsub
  · exact answers_emit hf hsub
  · exact answers_result .isOk hf hsub
  · exact answers_result .unwrap hf hsub
  · exact answers_result .code hf hsub
  · exact answers_ok hf hsub
  · exact answers_err hf hsub

theorem answers_readObject [Json.Library] {o : Json} (ho : nesting o ≤ fuel + 1)
    (hsub : sub.Spells (findFunction? ctx.functions) fuel scope) (hint : Hint) :
    (readObject ctx sub o hint).Answers scope (·.Spells (findFunction? ctx.functions) scope o) := by
  unfold readObject
  extract_lets span
  split
  · rename_i r value hfind
    have hkey : exprForm? o = some (r.key, value) := by
      have hmap : (fun r : Rule => (r.value? o).map fun v => (r.key, v)) =
          Option.map (fun x : Rule × Json => (x.1.key, x.2)) ∘ fun r => (r.value? o).map fun v =>
            (r, v) := by
        funext r
        cases h : r.value? o <;> simp [h]
      unfold exprForm?
      rw [hmap, ← List.map_findSome?, hfind]
      rfl
    obtain ⟨r', hr', hvalue⟩ := List.exists_of_findSome?_eq_some hfind
    obtain ⟨v, -, heq⟩ := Option.map_eq_some_iff.mp hvalue
    obtain ⟨rfl, rfl⟩ := Prod.mk.inj heq
    refine (answers_rule (f := { object := o, value := v, span, hint }) ⟨hkey, ho⟩ hsub hr').imp ?_
    rintro e ⟨hform, hparts⟩
    exact .object hkey hform hparts
  · exact answers_failMalformed

end ExprForm

/-- Expressions spell what they are read from. -/
theorem answers_readExpr [Json.Library] (ctx : ReadContext) (fuel : Nat) (scope : Names) :
    SubReader.Spells (readExpr ctx fuel) (findFunction? ctx.functions) fuel scope := by
  induction fuel with
  | zero =>
    intro v hint hv
    cases v <;> simp [nesting] at hv
  | succ fuel ih =>
    intro v hint hv
    unfold readExpr
    extract_lets start
    split
    · refine (ExprForm.answers_readIntValue _ _ _).imp ?_
      rintro _ ⟨i, bits, rfl, hbits⟩
      exact .number hbits
    · exact answers_complete _ _ fun i _ => .bool
    · refine (ExprForm.answers_useOf _ _).imp ?_
      rintro _ ⟨i, sym, rfl, hsym⟩
      exact .name hsym
    · exact ExprForm.answers_readObject hv ih hint
    · exact answers_failMalformed

end ContractCompiler.Hir
