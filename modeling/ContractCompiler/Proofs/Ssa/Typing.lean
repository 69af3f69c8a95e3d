import ContractCompiler.Proofs.Domain.Key
import ContractCompiler.Proofs.Types
import ContractCompiler.Ssa.Basic
import Mathlib.Data.List.Forall2

/-!
# Typed instructions

The types of the values that an instruction may take and of its result.

- `TypeContext`: the types of values and the signatures of functions;
- `InstType`: an instruction has a result of a type;
- `InstType.mapOperands`: renaming operands to ones of the same types keeps an instruction typed;
- `TablesTyped`: tables of typed instructions and of values that know where they are defined;
- `Module.Typed`: a module with such tables, whose functions take and return what they declare.
-/

namespace ContractCompiler.Ssa

/-- What is known of types where an instruction stands. -/
structure TypeContext where
  types : TypePool
  /-- The types of the parameters of a function and of its result. -/
  signature : FuncId → Option (List TypeId × TypeId)
  /-- The types of the values that there are. -/
  valueType : ValueId → Option TypeId

namespace TypeContext

/-- A value used at a type. An operand that is missing fits everywhere. -/
def Operand (Γ : TypeContext) (v : ValueId) (t : TypeId) : Prop :=
  v = invalidId ∨ Γ.valueType v = some t

/-- A value used as a reference to cells of a type. -/
def Reference (Γ : TypeContext) (v : ValueId) (t : TypeId) : Prop :=
  v = invalidId ∨ ∃ a, Γ.valueType v = some a ∧ Γ.types.refElem? a = some t

/-- The type of an operation on a type in a mode: checked operations yield results. -/
def OfMode (Γ : TypeContext) (mode : ArithMode) (a t : TypeId) : Prop :=
  if mode = .checked then Γ.types.resultElem? t = some a else t = a

/-- A key is an integer or a byte string. -/
def Key (Γ : TypeContext) (v : ValueId) : Prop :=
  ∃ a, Γ.Operand v a ∧ (Γ.types.isInteger a = true ∨ Γ.types.isBytes a = true)

/-- What is stored or emitted is an integer, a truth value or a byte string. -/
def Stored (Γ : TypeContext) (v : ValueId) : Prop :=
  ∃ a, Γ.Operand v a ∧ Γ.types.isStateValue a = true

/-- A context that knows at least as much. -/
structure Extends (Γ Γ' : TypeContext) : Prop where
  types : Γ.types.Extends Γ'.types
  signature : ∀ f sig, Γ.signature f = some sig → Γ'.signature f = some sig
  valueType : ∀ v t, Γ.valueType v = some t → Γ'.valueType v = some t

end TypeContext

/-- An instruction has a result of a type; one without a result has type unit. -/
inductive InstType (Γ : TypeContext) : InstData → TypeId → Prop where
  | constInt {bits : UInt64} {t : TypeId} (ht : Γ.types.isInteger t = true) :
      InstType Γ (.constInt bits) t
  | constBool {value : Bool} {t : TypeId} (ht : Γ.types.isBool t = true) :
      InstType Γ (.constBool value) t
  | constBytes {bytes : Bytes} {t : TypeId} (ht : Γ.types.isBytes t = true) :
      InstType Γ (.constBytes bytes) t
  | not {mode : ArithMode} {src : ValueId} {t : TypeId} (hsrc : Γ.Operand src t)
      (ht : Γ.types.isBool t = true) : InstType Γ (.unary .not mode src) t
  | bitNot {mode : ArithMode} {src : ValueId} {t : TypeId} (hsrc : Γ.Operand src t)
      (ht : Γ.types.isInteger t = true) : InstType Γ (.unary .bitNot mode src) t
  | neg {mode : ArithMode} {src : ValueId} {a t : TypeId} (hsrc : Γ.Operand src a)
      (ha : Γ.types.isInteger a = true) (ht : Γ.OfMode mode a t) :
        InstType Γ (.unary .neg mode src) t
  | compare {op : BinOp} {mode : ArithMode} {left right : ValueId} {a t : TypeId}
      (hop : op.isCompare = true) (hleft : Γ.Operand left a) (hright : Γ.Operand right a)
      (ha : Γ.types.isInteger a = true ∨ Γ.types.isBool a = true) (hmode : mode = .trap)
      (ht : Γ.types.isBool t = true) : InstType Γ (.binary op mode left right) t
  | arith {op : BinOp} {mode : ArithMode} {left right : ValueId} {a t : TypeId}
      (hop : op.isCompare = false) (hleft : Γ.Operand left a) (hright : Γ.Operand right a)
      (ha : Γ.types.isInteger a = true) (hmode : op.isBitwise = true → mode = .trap)
      (ht : Γ.OfMode mode a t) : InstType Γ (.binary op mode left right) t
  | cast {mode : CastMode} {src : ValueId} {a t : TypeId} (hsrc : Γ.Operand src a)
      (ha : Γ.types.isInteger a = true) (ht : Γ.types.isInteger t = true) :
      InstType Γ (.cast mode t src) t
  | call {callee : FuncId} {args : List ValueId} {params : List TypeId} {t : TypeId}
      (hcallee : Γ.signature callee = some (params, t))
      (hargs : List.Forall₂ Γ.Operand args params) :
      InstType Γ (.call callee args) t
  | makeStruct {fields : List ValueId} {decl : StructDecl} {t : TypeId}
      (ht : Γ.types.structDecl? t = some decl)
      (hfields : List.Forall₂ Γ.Operand fields (decl.fields.map (·.2))) :
      InstType Γ (.makeStruct fields) t
  | extract {base : ValueId} {index : Nat} {decl : StructDecl} {name : String} {s t : TypeId}
      (hbase : Γ.Operand base s) (hs : Γ.types.structDecl? s = some decl)
      (ht : decl.fields[index]? = some (name, t)) : InstType Γ (.extract base index) t
  | insert {base value : ValueId} {index : Nat} {decl : StructDecl} {name : String} {a t : TypeId}
      (hbase : Γ.Operand base t) (ht : Γ.types.structDecl? t = some decl)
      (ha : decl.fields[index]? = some (name, a)) (hvalue : Γ.Operand value a) :
      InstType Γ (.insert base index value) t
  | ok {value : Option ValueId} {e t : TypeId} (ht : Γ.types.resultElem? t = some e)
      (hvalue : ∀ v, value = some v → Γ.Operand v e) : InstType Γ (.makeResult true value) t
  | err {value : Option ValueId} {e t : TypeId} (ht : Γ.types.resultElem? t = some e)
      (hvalue : ∀ v, value = some v → Γ.Operand v Builtin.i32.id) :
        InstType Γ (.makeResult false value) t
  | resultIsOk {src : ValueId} {a e t : TypeId} (hsrc : Γ.Operand src a)
      (ha : Γ.types.resultElem? a = some e) (ht : Γ.types.isBool t = true) :
      InstType Γ (.resultIsOk src) t
  | resultValue {src : ValueId} {a t : TypeId} (hsrc : Γ.Operand src a)
      (ha : Γ.types.resultElem? a = some t) : InstType Γ (.resultValue src) t
  | resultCode {src : ValueId} {a e t : TypeId} (hsrc : Γ.Operand src a)
      (ha : Γ.types.resultElem? a = some e) (ht : t = Builtin.i32.id) :
        InstType Γ (.resultCode src) t
  | refNew {init : ValueId} {a t : TypeId} (hinit : Γ.Operand init a)
      (ht : Γ.types.refElem? t = some a) : InstType Γ (.refNew init) t
  | refLoad {ref : ValueId} {t : TypeId} (href : Γ.Reference ref t) (ht : t ≠ Builtin.unit.id) :
      InstType Γ (.refLoad ref) t
  | refStore {ref value : ValueId} {e t : TypeId} (href : Γ.Reference ref e)
      (hvalue : Γ.Operand value e) (ht : Γ.types.isUnit t = true) :
        InstType Γ (.refStore ref value) t
  | stateRead {ns : String} {key : ValueId} {e t : TypeId} (hns : IsNamespace ns) (hkey : Γ.Key key)
      (he : Γ.types.isStateValue e = true) (ht : Γ.types.resultElem? t = some e) :
      InstType Γ (.stateRead ns key e) t
  | stateWrite {ns : String} {key value : ValueId} {t : TypeId} (hns : IsNamespace ns)
      (hkey : Γ.Key key) (hvalue : Γ.Stored value) (ht : Γ.types.isUnit t = true) :
      InstType Γ (.stateWrite ns key value) t
  | stateHas {ns : String} {key : ValueId} {t : TypeId} (hns : IsNamespace ns) (hkey : Γ.Key key)
      (ht : Γ.types.isBool t = true) : InstType Γ (.stateHas ns key) t
  | context {query : Nat} {t : TypeId}
      (ht : Γ.types.isBytes t = true ∨ Γ.types.isBuiltin t .u64 = true) :
        InstType Γ (.context query) t
  | digest {src : ValueId} {a t : TypeId} (hsrc : Γ.Operand src a)
      (ha : Γ.types.isBytes a = true) (ht : Γ.types.isBytes t = true) : InstType Γ (.digest src) t
  | emit {topic : String} {args : List ValueId} {t : TypeId} (hargs : ∀ v ∈ args, Γ.Stored v)
      (ht : Γ.types.isUnit t = true) : InstType Γ (.emit topic args) t
  | bytesLength {src : ValueId} {a t : TypeId} (hsrc : Γ.Operand src a)
      (ha : Γ.types.isBytes a = true) (ht : Γ.types.isBuiltin t .u64 = true) :
      InstType Γ (.bytesLength src) t

/-! ## Renamed operands -/

section Rename

variable {Γ Γ' : TypeContext} {σ : ValueId → ValueId}

/-- A renaming that takes the operands of a context to operands of the same types of another one. -/
structure TypeContext.Renames (Γ Γ' : TypeContext) (σ : ValueId → ValueId) : Prop where
  types : Γ.types.Extends Γ'.types
  signature : ∀ f sig, Γ.signature f = some sig → Γ'.signature f = some sig
  operand : ∀ v t, Γ.Operand v t → Γ'.Operand (σ v) t

theorem TypeContext.Renames.key (h : Γ.Renames Γ' σ) {v : ValueId} (hv : Γ.Key v) :
    Γ'.Key (σ v) := by
  obtain ⟨a, hv, ha⟩ := hv
  exact ⟨a, h.operand v a hv, ha.imp h.types.isInteger h.types.isBytes⟩

theorem TypeContext.Renames.stored (h : Γ.Renames Γ' σ) {v : ValueId} (hv : Γ.Stored v) :
    Γ'.Stored (σ v) := by
  obtain ⟨a, hv, ha⟩ := hv
  exact ⟨a, h.operand v a hv, h.types.isStateValue ha⟩

theorem TypeContext.Renames.invalid (h : Γ.Renames Γ' σ) : σ invalidId = invalidId := by
  rcases h.operand invalidId 0 (.inl rfl) with heq | h₀
  · exact heq
  · rcases h.operand invalidId 1 (.inl rfl) with heq | h₁
    · exact heq
    · cases h₀.symm.trans h₁

theorem TypeContext.Renames.reference (h : Γ.Renames Γ' σ) {v : ValueId} {t : TypeId}
    (hv : Γ.Reference v t) : Γ'.Reference (σ v) t := by
  rcases hv with rfl | ⟨a, hv, ha⟩
  · exact .inl h.invalid
  · exact (h.operand v a (.inr hv)).imp_right fun hv => ⟨a, hv, h.types.refElem? ha⟩

theorem TypeContext.Renames.operands (h : Γ.Renames Γ' σ) {vs : List ValueId} {ts : List TypeId}
    (hvs : List.Forall₂ Γ.Operand vs ts) : List.Forall₂ Γ'.Operand (vs.map σ) ts := by
  rw [List.forall₂_map_left_iff]
  exact hvs.imp h.operand

theorem TypeContext.Renames.ofMode (h : Γ.Renames Γ' σ) {mode : ArithMode} {a t : TypeId}
    (ht : Γ.OfMode mode a t) : Γ'.OfMode mode a t := by
  unfold TypeContext.OfMode at ht ⊢
  split
  · rename_i hmode
    rw [if_pos hmode] at ht
    exact h.types.resultElem? ht
  · rename_i hmode
    rw [if_neg hmode] at ht
    exact ht

/-- An instruction keeps its type when its operands are renamed to ones of the same types. -/
theorem InstType.mapOperands (h : Γ.Renames Γ' σ) {d : InstData} {t : TypeId}
    (hd : InstType Γ d t) :
    InstType Γ' (d.mapOperands σ) t := by
  have hext := h.types
  cases hd with
  | constInt ht => exact .constInt (hext.isInteger ht)
  | constBool ht => exact .constBool (hext.isBool ht)
  | constBytes ht => exact .constBytes (hext.isBytes ht)
  | not hsrc ht => exact .not (h.operand _ _ hsrc) (hext.isBool ht)
  | bitNot hsrc ht => exact .bitNot (h.operand _ _ hsrc) (hext.isInteger ht)
  | neg hsrc ha ht => exact .neg (h.operand _ _ hsrc) (hext.isInteger ha) (h.ofMode ht)
  | compare hop hleft hright ha hmode ht =>
    exact .compare hop (h.operand _ _ hleft) (h.operand _ _ hright)
      (ha.imp hext.isInteger hext.isBool) hmode (hext.isBool ht)
  | arith hop hleft hright ha hmode ht =>
    exact .arith hop (h.operand _ _ hleft) (h.operand _ _ hright) (hext.isInteger ha) hmode
      (h.ofMode ht)
  | cast hsrc ha ht => exact .cast (h.operand _ _ hsrc) (hext.isInteger ha) (hext.isInteger ht)
  | call hcallee hargs => exact .call (h.signature _ _ hcallee) (h.operands hargs)
  | makeStruct ht hfields => exact .makeStruct (hext.structDecl? ht) (h.operands hfields)
  | extract hbase hs ht => exact .extract (h.operand _ _ hbase) (hext.structDecl? hs) ht
  | insert hbase ht ha hvalue =>
    exact .insert (h.operand _ _ hbase) (hext.structDecl? ht) ha (h.operand _ _ hvalue)
  | ok ht hvalue =>
    refine .ok (hext.resultElem? ht) fun v hv => ?_
    obtain ⟨w, hw, rfl⟩ := Option.map_eq_some_iff.mp hv
    exact h.operand _ _ (hvalue w hw)
  | err ht hvalue =>
    refine .err (hext.resultElem? ht) fun v hv => ?_
    obtain ⟨w, hw, rfl⟩ := Option.map_eq_some_iff.mp hv
    exact h.operand _ _ (hvalue w hw)
  | resultIsOk hsrc ha ht =>
    exact .resultIsOk (h.operand _ _ hsrc) (hext.resultElem? ha) (hext.isBool ht)
  | resultValue hsrc ha => exact .resultValue (h.operand _ _ hsrc) (hext.resultElem? ha)
  | resultCode hsrc ha ht => exact .resultCode (h.operand _ _ hsrc) (hext.resultElem? ha) ht
  | refNew hinit ht => exact .refNew (h.operand _ _ hinit) (hext.refElem? ht)
  | refLoad href ht => exact .refLoad (h.reference href) ht
  | refStore href hvalue ht =>
    exact .refStore (h.reference href) (h.operand _ _ hvalue) (hext.isUnit ht)
  | stateRead hns hkey he ht =>
    exact .stateRead hns (h.key hkey) (hext.isStateValue he) (hext.resultElem? ht)
  | stateWrite hns hkey hvalue ht =>
    exact .stateWrite hns (h.key hkey) (h.stored hvalue) (hext.isUnit ht)
  | stateHas hns hkey ht => exact .stateHas hns (h.key hkey) (hext.isBool ht)
  | context ht => exact .context (ht.imp hext.isBytes hext.isBuiltin)
  | digest hsrc ha ht => exact .digest (h.operand _ _ hsrc) (hext.isBytes ha) (hext.isBytes ht)
  | emit hargs ht =>
    refine .emit (fun v hv => ?_) (hext.isUnit ht)
    obtain ⟨w, hw, rfl⟩ := List.mem_map.mp hv
    exact h.stored (hargs w hw)
  | bytesLength hsrc ha ht =>
    exact .bytesLength (h.operand _ _ hsrc) (hext.isBytes ha) (hext.isBuiltin ht)

theorem mapOperands_id (d : InstData) : d.mapOperands id = d := by
  cases d <;> simp [InstData.mapOperands]

theorem TypeContext.Extends.renames (h : Γ.Extends Γ') : Γ.Renames Γ' id :=
  ⟨h.types, h.signature, fun v t hv => hv.imp_right (h.valueType v t)⟩

/-- An instruction keeps its type when more is known. -/
theorem InstType.mono (h : Γ.Extends Γ') {d : InstData} {t : TypeId} (hd : InstType Γ d t) :
    InstType Γ' d t :=
  mapOperands_id d ▸ hd.mapOperands h.renames

end Rename

/-! ## Tables -/

/-- The types of values in a table. -/
def typeIn (values : Array Value) (v : ValueId) : Option TypeId := (values[v]?).map (·.type)

theorem getElem?_push_of_some {α : Type} {xs : Array α} {i : Nat} {x y : α} (h : xs[i]? = some x) :
    (xs.push y)[i]? = some x := by
  obtain ⟨hlt, -⟩ := Array.getElem?_eq_some_iff.mp h
  rw [Array.getElem?_push_lt hlt, ← Array.getElem?_eq_getElem hlt, h]

/-- What stands in a table that was added to stood there before or was added. -/
theorem getElem?_push_cases {α : Type} {xs : Array α} {i : Nat} {x y : α}
    (h : (xs.push y)[i]? = some x) :
    xs[i]? = some x ∨ (i = xs.size ∧ x = y) := by
  rw [Array.getElem?_push] at h
  split at h
  · rename_i heq
    exact .inr ⟨heq, (Option.some.inj h).symm⟩
  · exact .inl h

theorem getElem?_of_forall₂ {α β : Type} {R : α → β → Prop} {xs : List α} {ys : List β}
    (h : List.Forall₂ R xs ys) {i : Nat} {x : α} (hx : xs[i]? = some x) :
    ∃ y, ys[i]? = some y ∧ R x y := by
  obtain ⟨hlength, hget⟩ := List.forall₂_iff_get.mp h
  obtain ⟨hlt, rfl⟩ := List.getElem?_eq_some_iff.mp hx
  exact ⟨_, List.getElem?_eq_getElem (hlength ▸ hlt), hget i hlt (hlength ▸ hlt)⟩

/-- A block of a table in which one was changed is as before or the changed one. -/
theorem getD_modify_cases (blocks : Array Block) (k : BlockId) (f : Block → Block) (j : BlockId) :
    (blocks.modify k f).getD j {} = blocks.getD j {} ∨
      (j = k ∧ (blocks.modify k f).getD j {} = f (blocks.getD j {})) := by
  simp only [Array.getD_eq_getD_getElem?, Array.getElem?_modify]
  split
  · rename_i heq
    subst heq
    cases blocks[k]? with
    | none => exact .inl rfl
    | some block => exact .inr ⟨rfl, rfl⟩
  · exact .inl rfl

theorem typeIn_push_of_some {values : Array Value} {v : ValueId} {t : TypeId} {value : Value}
    (h : typeIn values v = some t) : typeIn (values.push value) v = some t := by
  obtain ⟨value', hvalue, ht⟩ := Option.map_eq_some_iff.mp h
  unfold typeIn
  rw [getElem?_push_of_some hvalue, Option.map_some, ht]

theorem typeIn_push_size (values : Array Value) (value : Value) :
    typeIn (values.push value) values.size = some value.type := by
  unfold typeIn
  rw [Array.getElem?_push_size]
  rfl

/-- A value of a type that is the result of an instruction. -/
def ResultOf (values : Array Value) (i : InstId) (t : TypeId) (r : ValueId) : Prop :=
  ∃ value : Value, values[r]? = some value ∧ value.site = .inst i ∧ value.type = t

theorem ResultOf.typeIn {values : Array Value} {i : InstId} {t : TypeId} {r : ValueId}
    (h : ResultOf values i t r) : typeIn values r = some t := by
  obtain ⟨value, hvalue, -, ht⟩ := h
  unfold Ssa.typeIn
  rw [hvalue, Option.map_some, ht]

/-- An instruction is typed, and its result is known to be defined by it. -/
def InstTyped (Γ : TypeContext) (values : Array Value) (i : InstId) (inst : Inst) : Prop :=
  ∃ t, InstType Γ inst.data t ∧ (∀ r, inst.result = some r → ResultOf values i t r) ∧
    (inst.result = none → Γ.types.isUnit t = true)

/-- Tables in which instructions are typed and values know where they are defined. -/
structure TablesTyped (Γ : TypeContext) (insts : Array Inst) (values : Array Value) : Prop where
  inst : ∀ (i : InstId) inst, insts[i]? = some inst → InstTyped Γ values i inst
  /-- A value that is said to be the result of an instruction is. -/
  site : ∀ (v : ValueId) (value : Value) i, values[v]? = some value → value.site = .inst i →
    ∃ inst : Inst, insts[i]? = some inst ∧ inst.result = some v
  /-- Results are of types of values. -/
  valued : ∀ (v : ValueId) (value : Value) i, values[v]? = some value → value.site = .inst i →
    value.type ≠ Builtin.unit.id

namespace TablesTyped

variable {Γ Γ' : TypeContext} {insts : Array Inst} {values : Array Value}

/-- Tables stay typed when more is known. -/
theorem mono (h : TablesTyped Γ insts values) (hext : Γ.Extends Γ') :
    TablesTyped Γ' insts values := by
  refine ⟨fun i inst hinst => ?_, h.site, h.valued⟩
  obtain ⟨t, hd, hr, hunit⟩ := h.inst i inst hinst
  exact ⟨t, hd.mono hext, hr, fun hnone => hext.types.isUnit (hunit hnone)⟩

/-- Values that are no results may be added. -/
theorem pushValue (h : TablesTyped Γ insts values) {value : Value}
    (hvalue : ∀ i, value.site ≠ .inst i) :
    TablesTyped Γ insts (values.push value) := by
  refine ⟨fun i inst hinst => ?_, fun v value' i hv hsite => ?_, fun v value' i hv hsite => ?_⟩
  · obtain ⟨t, hd, hr, hunit⟩ := h.inst i inst hinst
    refine ⟨t, hd, fun r hresult => ?_, hunit⟩
    obtain ⟨value', hget, hrest⟩ := hr r hresult
    exact ⟨value', getElem?_push_of_some hget, hrest⟩
  · rcases getElem?_push_cases hv with hv | ⟨-, rfl⟩
    · exact h.site v value' i hv hsite
    · exact absurd hsite (hvalue i)
  · rcases getElem?_push_cases hv with hv | ⟨-, rfl⟩
    · exact h.valued v value' i hv hsite
    · exact absurd hsite (hvalue i)

/-- An instruction without a result may be added. -/
theorem pushInst (h : TablesTyped Γ insts values) {inst : Inst} {t : TypeId}
    (hd : InstType Γ inst.data t) (hnone : inst.result = none) (hunit : Γ.types.isUnit t = true) :
    TablesTyped Γ (insts.push inst) values := by
  refine ⟨fun i inst' hinst => ?_, fun v value i hv hsite => ?_, h.valued⟩
  · rcases getElem?_push_cases hinst with hinst | ⟨-, rfl⟩
    · exact h.inst i inst' hinst
    · exact ⟨t, hd, fun r hr => absurd (hnone.symm.trans hr) nofun, fun _ => hunit⟩
  · obtain ⟨inst', hinst, hresult⟩ := h.site v value i hv hsite
    exact ⟨inst', getElem?_push_of_some hinst, hresult⟩

/-- An instruction may be added together with its result. -/
theorem pushResult (h : TablesTyped Γ insts values) {inst : Inst} {value : Value}
    (hd : InstType Γ inst.data value.type) (hr : inst.result = some values.size)
    (hsite : value.site = .inst insts.size) (hvalued : value.type ≠ Builtin.unit.id) :
    TablesTyped Γ (insts.push inst) (values.push value) := by
  refine ⟨fun i inst' hinst => ?_, fun v value' i hv hsite' => ?_, fun v value' i hv hsite' => ?_⟩
  · rcases getElem?_push_cases hinst with hinst | ⟨rfl, rfl⟩
    · obtain ⟨t, hd', hr', hunit⟩ := h.inst i inst' hinst
      refine ⟨t, hd', fun r hresult => ?_, hunit⟩
      obtain ⟨value', hget, hrest⟩ := hr' r hresult
      exact ⟨value', getElem?_push_of_some hget, hrest⟩
    · refine ⟨value.type, hd, fun r hresult => ?_, fun hnone => absurd (hr.symm.trans hnone) nofun⟩
      obtain rfl := Option.some.inj (hr.symm.trans hresult)
      exact ⟨value, Array.getElem?_push_size, hsite, rfl⟩
  · rcases getElem?_push_cases hv with hv | ⟨rfl, rfl⟩
    · obtain ⟨inst', hinst, hresult⟩ := h.site v value' i hv hsite'
      exact ⟨inst', getElem?_push_of_some hinst, hresult⟩
    · rw [hsite] at hsite'
      obtain rfl := DefSite.inst.inj hsite'
      exact ⟨inst, Array.getElem?_push_size, hr⟩
  · rcases getElem?_push_cases hv with hv | ⟨-, rfl⟩
    · exact h.valued v value' i hv hsite'
    · exact hvalued

end TablesTyped

/-! ## Modules -/

/-- The types that a module gives to its values and functions. -/
def Module.typeContext (m : Module) (types : TypePool) : TypeContext where
  types
  signature f := (m.functions[f]?).map fun f => (f.paramTypes, f.ret)
  valueType := typeIn m.values

/-- A module whose instructions are typed. -/
structure Module.Typed (m : Module) (types : TypePool) : Prop extends
    TablesTyped (m.typeContext types) m.insts m.values where
  /-- Parameters of the entry have the types that the function declares. -/
  entry : ∀ f ∈ m.functions, ∀ e, f.entry = some e →
    List.Forall₂ (fun p t => typeIn m.values p = some t) (m.block e).params f.paramTypes
  /-- A function returns values of the type that it declares. -/
  ret : ∀ f ∈ m.functions, ∀ b, b ∈ f.blocks ∨ f.entry = some b → ∀ v,
    (m.block b).term = some (.ret (some v)) → (m.typeContext types).Operand v f.ret

/-! ## Definitions -/

section Definition

variable {m : Module} {types : TypePool}

theorem valueType_eq {v : ValueId} {t : TypeId} (h : typeIn m.values v = some t) :
    m.valueType v = t := by
  unfold Module.valueType
  rw [show (m.values[v]?).map (·.type) = some t from h]
  rfl

theorem definition?_of_site {v : ValueId} {value : Value} {i : InstId}
    (hvalue : m.values[v]? = some value) (hsite : value.site = .inst i) :
    m.definition? v = m.insts[i]? := by
  unfold Module.definition?
  obtain ⟨type, effect, site, span⟩ := value
  obtain rfl : site = .inst i := hsite
  rw [hvalue]

theorem exists_site_of_definition? {v : ValueId} {inst : Inst}
    (h : m.definition? v = some inst) :
    ∃ value i, m.values[v]? = some value ∧ value.site = .inst i ∧ m.insts[i]? = some inst := by
  unfold Module.definition? at h
  split at h
  · rename_i i _ hvalue
    exact ⟨_, i, hvalue, rfl, h⟩
  · cases h

/-- The instruction that defines a value has its type. -/
theorem Module.Typed.definition (h : m.Typed types) {v : ValueId} {inst : Inst}
    (hdef : m.definition? v = some inst) :
    ∃ t, InstType (m.typeContext types) inst.data t ∧ typeIn m.values v = some t := by
  obtain ⟨value, i, hvalue, hsite, hinst⟩ := exists_site_of_definition? hdef
  obtain ⟨inst', hinst', hresult⟩ := h.site v value i hvalue hsite
  obtain rfl := Option.some.inj (hinst.symm.trans hinst')
  obtain ⟨t, hd, hr, -⟩ := h.inst i inst hinst
  exact ⟨t, hd, (hr v hresult).typeIn⟩

end Definition

end ContractCompiler.Ssa
