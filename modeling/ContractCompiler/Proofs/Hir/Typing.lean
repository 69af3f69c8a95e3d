import ContractCompiler.Hir.Basic
import ContractCompiler.Proofs.Domain.Key
import ContractCompiler.Proofs.Types

/-!
# Typed programs

The typing rules of expressions and statements.

- `TypeContext`: the types, bindings and signatures that a program refers to;
- `Expr.Typed`: an expression obeys the rules, and so do its parts;
- `Stmt.Typed`: a statement of a function with a result type obeys the rules;
- `Expr.Typed.mono`, `Stmt.Typed.mono`: what is typed stays typed when more types and bindings are
  known;
- `Module.Typed`: a module all of whose functions are typed.
-/

namespace ContractCompiler.Hir

/-- The types and pass modes of the parameters of a function, and the type of its result. -/
abbrev Signature := List (TypeId × PassMode) × TypeId

/-- The signature of a function. -/
def Function.signature (f : Function) : Signature := (f.params.map fun p => (p.type, p.pass), f.ret)

/-- What is known where an expression stands. -/
structure TypeContext where
  types : TypePool
  symbols : Array Symbol
  signature : FuncId → Option Signature

namespace TypeContext

/-- A context that knows at least as much. -/
structure Extends (Γ Γ' : TypeContext) : Prop where
  types : Γ.types.Extends Γ'.types
  symbols : ∀ (s : SymbolId) symbol, Γ.symbols[s]? = some symbol → Γ'.symbols[s]? = some symbol
  signature : Γ'.signature = Γ.signature

/-- The type of an operation on a type in a mode: checked operations yield results. -/
def OfMode (Γ : TypeContext) (mode : ArithMode) (a t : TypeId) : Prop :=
  if mode = .checked then Γ.types.resultElem? t = some a else t = a

/-- A type of keys: integers and byte strings. -/
def IsKey (Γ : TypeContext) (t : TypeId) : Prop :=
  Γ.types.isInteger t = true ∨ Γ.types.isBytes t = true

variable {Γ Γ' : TypeContext}

theorem Extends.ofMode (h : Γ.Extends Γ') {mode : ArithMode} {a t : TypeId}
    (ht : Γ.OfMode mode a t) :
    Γ'.OfMode mode a t := by
  unfold OfMode at ht ⊢
  split
  · rename_i hmode
    rw [if_pos hmode] at ht
    exact h.types.resultElem? ht
  · rename_i hmode
    rw [if_neg hmode] at ht
    exact ht

theorem Extends.isKey (h : Γ.Extends Γ') {t : TypeId} (ht : Γ.IsKey t) : Γ'.IsKey t :=
  ht.imp h.types.isInteger h.types.isBytes

end TypeContext

/-! ## Expressions -/

/-- The type of the answer to a question about the call. -/
def answerType : ContextQuery → Builtin
  | .caller | .self => .bytes
  | .blockHeight | .timestamp | .callValue => .u64

/-- An expression obeys the typing rules, and so do its parts. -/
inductive Expr.Typed (Γ : TypeContext) : Expr → Prop where
  | int {i : ExprInfo} {bits : UInt64} (ht : Γ.types.isInteger i.type = true) :
      Typed Γ (.int i bits)
  | bool {i : ExprInfo} {value : Bool} (ht : Γ.types.isBool i.type = true) : Typed Γ (.bool i value)
  | bytes {i : ExprInfo} {value : String} (ht : Γ.types.isBytes i.type = true) :
      Typed Γ (.bytes i value)
  | unit {i : ExprInfo} (ht : Γ.types.isUnit i.type = true) : Typed Γ (.unit i)
  | «local» {i : ExprInfo} {sym : SymbolId} {s : Symbol} (hs : Γ.symbols[sym]? = some s)
      (ht : i.type = s.type) : Typed Γ (.local i sym)
  | neg {i : ExprInfo} {mode : ArithMode} {a : Expr} (ha : Typed Γ a)
      (hint : Γ.types.isInteger a.type = true) (ht : Γ.OfMode mode a.type i.type) :
      Typed Γ (.unary i .neg mode a)
  | not {i : ExprInfo} {a : Expr} (ha : Typed Γ a) (hbool : Γ.types.isBool a.type = true)
      (ht : i.type = a.type) : Typed Γ (.unary i .not .trap a)
  | bitNot {i : ExprInfo} {a : Expr} (ha : Typed Γ a) (hint : Γ.types.isInteger a.type = true)
      (ht : i.type = a.type) : Typed Γ (.unary i .bitNot .trap a)
  | compare {i : ExprInfo} {op : BinOp} {a b : Expr} (hop : op.isCompare = true) (ha : Typed Γ a)
      (hb : Typed Γ b) (hsame : b.type = a.type)
      (hopnd : Γ.types.isInteger a.type = true ∨
        (op = .eq ∨ op = .ne) ∧ Γ.types.isBool a.type = true)
      (ht : Γ.types.isBool i.type = true) : Typed Γ (.binary i op .trap a b)
  | arith {i : ExprInfo} {op : BinOp} {mode : ArithMode} {a b : Expr} (hop : op.isCompare = false)
      (ha : Typed Γ a) (hb : Typed Γ b) (hsame : b.type = a.type)
      (hint : Γ.types.isInteger a.type = true) (hmode : op.isBitwise = true → mode = .trap)
      (ht : Γ.OfMode mode a.type i.type) : Typed Γ (.binary i op mode a b)
  | logical {i : ExprInfo} {isAnd : Bool} {a b : Expr} (ha : Typed Γ a) (hb : Typed Γ b)
      (hsame : b.type = a.type) (hbool : Γ.types.isBool a.type = true) (ht : i.type = a.type) :
      Typed Γ (.logical i isAnd a b)
  | cast {i : ExprInfo} {mode : CastMode} {a : Expr} (ha : Typed Γ a)
      (hint : Γ.types.isInteger a.type = true) (ht : Γ.types.isInteger i.type = true) :
      Typed Γ (.cast i mode a)
  | call {i : ExprInfo} {callee : FuncId} {args : List Expr} {params : List (TypeId × PassMode)}
      (hcallee : Γ.signature callee = some (params, i.type)) (hargs : ∀ a ∈ args, Typed Γ a)
      (htypes : args.map (·.type) = params.map (·.1))
      (hplaces : ∀ (k : Nat) a t, args[k]? = some a → params[k]? = some (t, .exclusive) →
        a.local?.isSome = true) : Typed Γ (.call i callee args)
  | field {i : ExprInfo} {name : String} {index : Nat} {base : Expr} {decl : StructDecl}
      (hbase : Typed Γ base) (hdecl : Γ.types.structDecl? base.type = some decl)
      (ht : decl.fields[index]? = some (name, i.type)) : Typed Γ (.field i name index base)
  | struct {i : ExprInfo} {fields : List Expr} {decl : StructDecl}
      (hfields : ∀ a ∈ fields, Typed Γ a) (hdecl : Γ.types.structDecl? i.type = some decl)
      (htypes : fields.map (·.type) = decl.fields.map (·.2)) : Typed Γ (.struct i fields)
  | select {i : ExprInfo} {c a b : Expr} (hc : Typed Γ c) (hcond : Γ.types.isBool c.type = true)
      (ha : Typed Γ a) (hb : Typed Γ b) (hsame : b.type = a.type) (ht : i.type = a.type) :
      Typed Γ (.select i c a b)
  | ok {i : ExprInfo} {a : Expr} (ha : Typed Γ a) (ht : Γ.types.resultElem? i.type = some a.type) :
      Typed Γ (.ok i a)
  | err {i : ExprInfo} {a : Expr} {e : TypeId} (ha : Typed Γ a) (hcode : a.type = Builtin.i32.id)
      (ht : Γ.types.resultElem? i.type = some e) : Typed Γ (.err i a)
  | isOk {i : ExprInfo} {a : Expr} {e : TypeId} (ha : Typed Γ a)
      (he : Γ.types.resultElem? a.type = some e) (ht : Γ.types.isBool i.type = true) :
      Typed Γ (.result i .isOk a)
  | unwrap {i : ExprInfo} {a : Expr} (ha : Typed Γ a)
      (ht : Γ.types.resultElem? a.type = some i.type) :
      Typed Γ (.result i .unwrap a)
  | code {i : ExprInfo} {a : Expr} {e : TypeId} (ha : Typed Γ a)
      (he : Γ.types.resultElem? a.type = some e) (ht : i.type = Builtin.i32.id) :
      Typed Γ (.result i .code a)
  | length {i : ExprInfo} {a : Expr} (ha : Typed Γ a) (hbytes : Γ.types.isBytes a.type = true)
      (ht : Γ.types.isBuiltin i.type .u64 = true) : Typed Γ (.length i a)
  | stateGet {i : ExprInfo} {ns : String} {key : Expr} {e : TypeId} (hns : IsNamespace ns)
      (hkey : Typed Γ key) (hkind : Γ.IsKey key.type) (he : Γ.types.isStateValue e = true)
      (ht : Γ.types.resultElem? i.type = some e) : Typed Γ (.stateGet i ns key)
  | statePut {i : ExprInfo} {ns : String} {key value : Expr} (hns : IsNamespace ns)
      (hkey : Typed Γ key) (hkind : Γ.IsKey key.type) (hvalue : Typed Γ value)
      (hstored : Γ.types.isStateValue value.type = true) (ht : Γ.types.isUnit i.type = true) :
      Typed Γ (.statePut i ns key value)
  | stateHas {i : ExprInfo} {ns : String} {key : Expr} (hns : IsNamespace ns) (hkey : Typed Γ key)
      (hkind : Γ.IsKey key.type) (ht : Γ.types.isBool i.type = true) : Typed Γ (.stateHas i ns key)
  | context {i : ExprInfo} {query : ContextQuery}
      (ht : Γ.types.isBuiltin i.type (answerType query) = true) :
      Typed Γ (.context i query)
  | digest {i : ExprInfo} {a : Expr} (ha : Typed Γ a) (hbytes : Γ.types.isBytes a.type = true)
      (ht : Γ.types.isBytes i.type = true) : Typed Γ (.digest i a)
  | emit {i : ExprInfo} {topic : String} {args : List Expr} (hargs : ∀ a ∈ args, Typed Γ a)
      (hstored : ∀ a ∈ args, Γ.types.isStateValue a.type = true)
      (ht : Γ.types.isUnit i.type = true) : Typed Γ (.emit i topic args)

/-- What is typed stays typed when more types and bindings are known. -/
theorem Expr.Typed.mono {Γ Γ' : TypeContext} (h : Γ.Extends Γ') {e : Expr} (he : e.Typed Γ) :
    e.Typed Γ' := by
  have hext := h.types
  induction he with
  | int ht => exact .int (hext.isInteger ht)
  | bool ht => exact .bool (hext.isBool ht)
  | bytes ht => exact .bytes (hext.isBytes ht)
  | unit ht => exact .unit (hext.isUnit ht)
  | «local» hs ht => exact .local (h.symbols _ _ hs) ht
  | neg _ hint ht ih => exact .neg ih (hext.isInteger hint) (h.ofMode ht)
  | not _ hbool ht ih => exact .not ih (hext.isBool hbool) ht
  | bitNot _ hint ht ih => exact .bitNot ih (hext.isInteger hint) ht
  | compare hop _ _ hsame hopnd ht iha ihb =>
    exact .compare hop iha ihb hsame (hopnd.imp hext.isInteger (And.imp_right hext.isBool))
      (hext.isBool ht)
  | arith hop _ _ hsame hint hmode ht iha ihb =>
    exact .arith hop iha ihb hsame (hext.isInteger hint) hmode (h.ofMode ht)
  | logical _ _ hsame hbool ht iha ihb => exact .logical iha ihb hsame (hext.isBool hbool) ht
  | cast _ hint ht ih => exact .cast ih (hext.isInteger hint) (hext.isInteger ht)
  | call hcallee _ htypes hplaces ih =>
    refine .call ?_ ih htypes hplaces
    rw [h.signature]
    exact hcallee
  | field _ hdecl ht ih => exact .field ih (hext.structDecl? hdecl) ht
  | struct _ hdecl htypes ih => exact .struct ih (hext.structDecl? hdecl) htypes
  | select _ hcond _ _ hsame ht ihc iha ihb =>
    exact .select ihc (hext.isBool hcond) iha ihb hsame ht
  | ok _ ht ih => exact .ok ih (hext.resultElem? ht)
  | err _ hcode ht ih => exact .err ih hcode (hext.resultElem? ht)
  | isOk _ he ht ih => exact .isOk ih (hext.resultElem? he) (hext.isBool ht)
  | unwrap _ ht ih => exact .unwrap ih (hext.resultElem? ht)
  | code _ he ht ih => exact .code ih (hext.resultElem? he) ht
  | length _ hbytes ht ih => exact .length ih (hext.isBytes hbytes) (hext.isBuiltin ht)
  | stateGet hns _ hkind he ht ih =>
    exact .stateGet hns ih (h.isKey hkind) (hext.isStateValue he) (hext.resultElem? ht)
  | statePut hns _ hkind _ hstored ht ihk ihv =>
    exact .statePut hns ihk (h.isKey hkind) ihv (hext.isStateValue hstored) (hext.isUnit ht)
  | stateHas hns _ hkind ht ih => exact .stateHas hns ih (h.isKey hkind) (hext.isBool ht)
  | context ht => exact .context (hext.isBuiltin ht)
  | digest _ hbytes ht ih => exact .digest ih (hext.isBytes hbytes) (hext.isBytes ht)
  | emit _ hstored ht ih =>
    exact .emit ih (fun a ha => hext.isStateValue (hstored a ha)) (hext.isUnit ht)

/-! ## Statements -/

/-- The part of a binding that an assignment replaces has a type. -/
def TypeContext.Assigned (Γ : TypeContext) (s : Symbol) (field : Option Nat) (t : TypeId) : Prop :=
  match field with
  | none => t = s.type
  | some index => ∃ decl name, Γ.types.structDecl? s.type = some decl ∧
      decl.fields[index]? = some (name, t)

/-- A statement of a function with a result type obeys the typing rules; the flag says whether it
stands in a loop. -/
inductive Stmt.Typed (Γ : TypeContext) (ret : TypeId) : Bool → Stmt → Prop where
  | expr {inLoop : Bool} {span : Span} {e : Expr} (he : e.Typed Γ) :
      Typed Γ ret inLoop (.expr span e)
  | bind {inLoop : Bool} {span : Span} {sym : SymbolId} {s : Symbol} {e : Expr}
      (hs : Γ.symbols[sym]? = some s) (hpass : s.pass = none) (he : e.Typed Γ)
      (ht : e.type = s.type) : Typed Γ ret inLoop (.bind span sym e)
  | assign {inLoop : Bool} {span : Span} {sym : SymbolId} {s : Symbol}
      {field : Option Nat} {e : Expr} (hs : Γ.symbols[sym]? = some s) (he : e.Typed Γ)
      (ht : Γ.Assigned s field e.type) : Typed Γ ret inLoop (.assign span sym field e)
  | ite {inLoop : Bool} {span : Span} {c : Expr} {thenBody elseBody : List Stmt} {hasElse : Bool}
      (hc : c.Typed Γ) (hcond : Γ.types.isBool c.type = true)
      (hthen : ∀ s ∈ thenBody, Typed Γ ret inLoop s) (helse : ∀ s ∈ elseBody, Typed Γ ret inLoop s)
      (hempty : hasElse = false → elseBody = []) :
      Typed Γ ret inLoop (.ite span c thenBody hasElse elseBody)
  | loop {inLoop : Bool} {span : Span} {c : Expr} {body : List Stmt} (hc : c.Typed Γ)
      (hcond : Γ.types.isBool c.type = true) (hbody : ∀ s ∈ body, Typed Γ ret true s) :
      Typed Γ ret inLoop (.loop span c body)
  | retNone {inLoop : Bool} {span : Span} (hunit : Γ.types.isUnit ret = true) :
      Typed Γ ret inLoop (.ret span none)
  | ret {inLoop : Bool} {span : Span} {e : Expr} (he : e.Typed Γ) (ht : e.type = ret) :
      Typed Γ ret inLoop (.ret span (some e))
  | stop {span : Span} : Typed Γ ret true (.stop span)
  | next {span : Span} : Typed Γ ret true (.next span)
  | require {inLoop : Bool} {span : Span} {c : Expr} {message : String} (hc : c.Typed Γ)
      (hcond : Γ.types.isBool c.type = true) : Typed Γ ret inLoop (.require span c message)
  | revert {inLoop : Bool} {span : Span} {message : String} :
      Typed Γ ret inLoop (.revert span message)
  | panic {inLoop : Bool} {span : Span} {message : String} :
      Typed Γ ret inLoop (.panic span message)

theorem TypeContext.Extends.assigned {Γ Γ' : TypeContext} (h : Γ.Extends Γ') {s : Symbol}
    {field : Option Nat} {t : TypeId} (ht : Γ.Assigned s field t) : Γ'.Assigned s field t := by
  cases field with
  | none => exact ht
  | some index =>
    obtain ⟨decl, name, hdecl, hfield⟩ := ht
    exact ⟨decl, name, h.types.structDecl? hdecl, hfield⟩

/-- What is typed stays typed when more types and bindings are known. -/
theorem Stmt.Typed.mono {Γ Γ' : TypeContext} (h : Γ.Extends Γ') {ret : TypeId}
    {inLoop : Bool} {s : Stmt} (hs : s.Typed Γ ret inLoop) : s.Typed Γ' ret inLoop := by
  induction hs with
  | expr he => exact .expr (he.mono h)
  | bind hs hpass he ht => exact .bind (h.symbols _ _ hs) hpass (he.mono h) ht
  | assign hs he ht => exact .assign (h.symbols _ _ hs) (he.mono h) (h.assigned ht)
  | ite hc hcond _ _ hempty ihthen ihelse =>
    exact .ite (hc.mono h) (h.types.isBool hcond) ihthen ihelse hempty
  | loop hc hcond _ ih => exact .loop (hc.mono h) (h.types.isBool hcond) ih
  | retNone hunit => exact .retNone (h.types.isUnit hunit)
  | ret he ht => exact .ret (he.mono h) ht
  | stop => exact .stop
  | next => exact .next
  | require hc hcond => exact .require (hc.mono h) (h.types.isBool hcond)
  | revert => exact .revert
  | panic => exact .panic

/-! ## Modules -/

/-- Parameters are bound with their types and pass modes. -/
def TypeContext.Bound (Γ : TypeContext) (p : Param) : Prop :=
  ∃ s, Γ.symbols[p.sym]? = some s ∧ s.type = p.type ∧ s.pass = some p.pass

/-- A function whose parameters are bound and whose statements are typed. -/
structure Function.Typed (Γ : TypeContext) (f : Function) : Prop where
  params : ∀ p ∈ f.params, Γ.Bound p
  body : ∀ s ∈ f.body, s.Typed Γ f.ret false

theorem Function.Typed.mono {Γ Γ' : TypeContext} (h : Γ.Extends Γ') {f : Function}
    (hf : f.Typed Γ) :
    f.Typed Γ' := by
  refine ⟨fun p hp => ?_, fun s hs => (hf.body s hs).mono h⟩
  obtain ⟨s, hs, htype, hpass⟩ := hf.params p hp
  exact ⟨s, h.symbols _ _ hs, htype, hpass⟩

/-- What a module knows. -/
def Module.typeContext (m : Module) (types : TypePool) : TypeContext where
  types
  symbols := m.symbols
  signature f := (m.functions[f]?).map (·.signature)

/-- A module all of whose functions are typed, without bindings of type unit. -/
structure Module.Typed (m : Module) (types : TypePool) : Prop where
  functions : ∀ f ∈ m.functions, f.Typed (m.typeContext types)
  symbols : ∀ symbol ∈ m.symbols, symbol.type ≠ Builtin.unit.id

end ContractCompiler.Hir
