import ContractCompiler.Proofs.Ssa.Cfg
import ContractCompiler.Proofs.Ssa.Execution
import ContractCompiler.Proofs.Ssa.Typing
import ContractCompiler.Proofs.Ssa.Verified

/-!
# The keys of an access are among those found

What a search for constants finds holds every value that the searched value takes in any execution.

- `KeySearch.Finds`: every search for a value that ends finds a given constant;
- `KeySearch.Known`: the same for the parts of structs and results that were just made;
- `known_of_evalInst`, `known_of_edge`: instructions and edges bind only values that are known;
- `KeySearch.resolve_sound`: the values of a key are among the constants found for it.

Whether a constant is found for a value does not depend on the execution, so loops need no argument
of their own: what is bound later was found for the value before.
-/

namespace ContractCompiler.Ssa

/-- The value of a constant. -/
def KeyConst.val : KeyConst → Val
  | .word w => .word w
  | .bytes b => .bytes b

/-- A constant is of the sort that a type asks for: a byte string if the type is bytes, else a
word. -/
def KeyConst.Fits (types : TypePool) (t : TypeId) : KeyConst → Prop
  | .word _ => types.isBytes t = false
  | .bytes _ => types.isBytes t = true

/-! ## Types that are not bytes -/

section Types

variable {p : TypePool} {t e : TypeId}

theorem isBytes_eq_false_of_builtin? {b : Builtin} (h : p.builtin? t = some b) (hb : b ≠ .bytes) :
    p.isBytes t = false := by
  unfold TypePool.isBytes TypePool.isBuiltin
  rw [h]
  simpa using hb

theorem isBytes_eq_false_of_isInteger (h : p.isInteger t = true) : p.isBytes t = false := by
  obtain ⟨b, hb, hint⟩ := TypePool.exists_builtin?_of_isInteger h
  refine isBytes_eq_false_of_builtin? hb ?_
  rintro rfl
  cases hint

theorem isBytes_eq_false_of_isBool (h : p.isBool t = true) : p.isBytes t = false :=
  isBytes_eq_false_of_builtin? (TypePool.builtin?_of_isBuiltin h) (by decide)

theorem isBytes_eq_false_of_resultElem? (h : p.resultElem? t = some e) : p.isBytes t = false := by
  rw [Bool.eq_false_iff]
  intro hbytes
  rw [TypePool.resultElem?_of_builtin? (TypePool.builtin?_of_isBuiltin hbytes)] at h
  cases h

/-- Operations on integers do not yield byte strings, in no mode. -/
theorem TypeContext.OfMode.isBytes_eq_false {Γ : TypeContext} {mode : ArithMode} {a : TypeId}
    (h : Γ.OfMode mode a t) (ha : Γ.types.isInteger a = true) : Γ.types.isBytes t = false := by
  unfold TypeContext.OfMode at h
  split at h
  · exact isBytes_eq_false_of_resultElem? h
  · exact h ▸ isBytes_eq_false_of_isInteger ha

/-- Unary operations do not yield byte strings. -/
theorem InstType.isBytes_unary {Γ : TypeContext} {op : UnOp} {mode : ArithMode} {src : ValueId}
    (h : InstType Γ (.unary op mode src) t) : Γ.types.isBytes t = false := by
  cases h with
  | not _ ht => exact isBytes_eq_false_of_isBool ht
  | bitNot _ ht => exact isBytes_eq_false_of_isInteger ht
  | neg _ ha ht => exact ht.isBytes_eq_false ha

/-- Binary operations do not yield byte strings. -/
theorem InstType.isBytes_binary {Γ : TypeContext} {op : BinOp} {mode : ArithMode}
    {left right : ValueId} (h : InstType Γ (.binary op mode left right) t) :
    Γ.types.isBytes t = false := by
  cases h with
  | compare _ _ _ _ _ ht => exact isBytes_eq_false_of_isBool ht
  | arith _ _ _ ha _ ht => exact ht.isBytes_eq_false ha

end Types

/-! ## Constants of operations -/

namespace KeyConsts

theorem mem_add {found : KeyConsts} {k k' : KeyConst} : k ∈ found.add k' ↔ k ∈ found ∨ k = k' := by
  unfold add
  split
  · rename_i hmem
    constructor
    · exact .inl
    · rintro (h | rfl)
      · exact h
      · exact hmem
  · simp

/-- A mapped search keeps what was found, and adds what the operation makes of each constant. -/
theorem addMapped_spec {f : UInt64 → Option UInt64} {srcs : KeyConsts} :
    ∀ {found out : KeyConsts}, addMapped f srcs found = some out →
      (∀ k ∈ found, k ∈ out) ∧
      ∀ k ∈ srcs, ∃ w v, k = .word w ∧ f w = some v ∧ KeyConst.word v ∈ out := by
  induction srcs with
  | nil =>
    intro found out h
    cases h
    exact ⟨fun _ hk => hk, by simp⟩
  | cons src srcs ih =>
    intro found out h
    cases src with
    | bytes b => cases h
    | word w =>
      rw [addMapped] at h
      cases hv : f w with
      | none => simp [hv] at h
      | some v =>
        simp only [hv] at h
        obtain ⟨hkeep, hall⟩ := ih h
        refine ⟨fun k hk => hkeep k (mem_add.mpr (.inl hk)), fun k hk => ?_⟩
        rcases List.mem_cons.mp hk with rfl | hk
        · exact ⟨w, v, rfl, hv, hkeep _ (mem_add.mpr (.inr rfl))⟩
        · exact hall k hk

/-- A search over pairs keeps what was found, and adds what the operation makes of each pair. -/
theorem addProduct_spec {f : UInt64 → UInt64 → Option UInt64} {rights lefts : KeyConsts} :
    ∀ {found out : KeyConsts}, addProduct f rights lefts found = some out →
      (∀ k ∈ found, k ∈ out) ∧
      ∀ l ∈ lefts, ∀ r ∈ rights, ∃ a b v, l = .word a ∧ r = .word b ∧ f a b = some v ∧
        KeyConst.word v ∈ out := by
  induction lefts with
  | nil =>
    intro found out h
    cases h
    exact ⟨fun _ hk => hk, by simp⟩
  | cons left lefts ih =>
    intro found out h
    cases left with
    | bytes b =>
      rw [addProduct] at h
      split at h
      · rename_i hempty
        obtain ⟨hkeep, -⟩ := ih h
        refine ⟨hkeep, fun l _ r hr => ?_⟩
        rw [List.isEmpty_iff] at hempty
        rw [hempty] at hr
        cases hr
      · cases h
    | word a =>
      rw [addProduct] at h
      cases hmap : addMapped (f a) rights found with
      | none => simp [hmap] at h
      | some found' =>
        simp only [hmap] at h
        obtain ⟨hkeep₁, hall₁⟩ := addMapped_spec hmap
        obtain ⟨hkeep₂, hall₂⟩ := ih h
        refine ⟨fun k hk => hkeep₂ k (hkeep₁ k hk), fun l hl r hr => ?_⟩
        rcases List.mem_cons.mp hl with rfl | hl
        · obtain ⟨b, v, rfl, hv, hmem⟩ := hall₁ r hr
          exact ⟨a, b, v, rfl, rfl, hv, hkeep₂ _ hmem⟩
        · exact hall₂ l hl r hr

end KeyConsts

/-! ## Searches keep what was found -/

namespace KeySearch

variable {s : KeySearch}

/-- A search that keeps what was found before. -/
def Keeps (search : Search) : Prop :=
  ∀ v found out, search v found = some out → ∀ k ∈ found, k ∈ out

theorem keeps_ofInst {search : Search} (h : Keeps search) {data : InstData} {found out : KeyConsts}
    (hout : s.ofInst search data found = some out) : ∀ k ∈ found, k ∈ out := by
  unfold ofInst at hout
  cases data with
  | constInt bits =>
    cases hout
    exact fun k hk => KeyConsts.mem_add.mpr (.inl hk)
  | constBool value =>
    cases hout
    exact fun k hk => KeyConsts.mem_add.mpr (.inl hk)
  | constBytes bytes =>
    cases hout
    exact fun k hk => KeyConsts.mem_add.mpr (.inl hk)
  | cast mode type src =>
    simp only [Option.bind_eq_bind, Option.bind_eq_some_iff] at hout
    obtain ⟨srcs, -, k, -, target, -, hmap⟩ := hout
    exact (KeyConsts.addMapped_spec hmap).1
  | unary op mode src =>
    simp only [Option.bind_eq_bind, Option.bind_eq_some_iff] at hout
    obtain ⟨srcs, -, k, -, hmap⟩ := hout
    exact (KeyConsts.addMapped_spec hmap).1
  | binary op mode left right =>
    simp only [Option.bind_eq_bind] at hout
    split at hout
    · cases hout
    · simp only [Option.bind_eq_some_iff] at hout
      obtain ⟨lefts, -, rights, -, hprod⟩ := hout
      split at hprod
      · cases hprod
      · simp only [Option.bind_eq_some_iff] at hprod
        obtain ⟨k, -, hprod⟩ := hprod
        exact (KeyConsts.addProduct_spec hprod).1
  | extract base index =>
    simp only [Option.bind_eq_bind, Option.bind_eq_some_iff] at hout
    obtain ⟨v, -, hv⟩ := hout
    exact h _ _ _ hv
  | resultValue src =>
    simp only [Option.bind_eq_bind, Option.bind_eq_some_iff] at hout
    obtain ⟨v, -, hv⟩ := hout
    exact h _ _ _ hv
  | _ => cases hout

theorem ofEdges_cons {search : Search} {self : ValueId} {index : Nat} {args : List ValueId}
    {rest : List (List ValueId)} {found out : KeyConsts}
    (h : ofEdges search self index (args :: rest) found = some out) :
    ∃ arg found', args[index]? = some arg ∧
      ((arg = self ∧ found' = found) ∨ search arg found = some found') ∧
      ofEdges search self index rest found' = some out := by
  simp only [ofEdges, Option.bind_eq_bind, Option.bind_eq_some_iff] at h
  obtain ⟨arg, harg, h⟩ := h
  split at h
  · rename_i hself
    exact ⟨arg, found, harg, .inl ⟨hself, rfl⟩, h⟩
  · obtain ⟨found', hfound', hrest⟩ := Option.bind_eq_some_iff.mp h
    exact ⟨arg, found', harg, .inr hfound', hrest⟩

theorem keeps_ofEdges {search : Search} (h : Keeps search) {self : ValueId} {index : Nat}
    {edges : List (List ValueId)} : ∀ {found out : KeyConsts},
      ofEdges search self index edges found = some out → ∀ k ∈ found, k ∈ out := by
  induction edges with
  | nil =>
    intro found out hout
    cases hout
    exact fun _ hk => hk
  | cons args rest ih =>
    intro found out hout
    obtain ⟨arg, found', -, hfound', hrest⟩ := ofEdges_cons hout
    intro k hk
    rcases hfound' with ⟨-, rfl⟩ | hfound'
    · exact ih hrest k hk
    · exact ih hrest k (h _ _ _ hfound' k hk)

theorem keeps_ofPredecessors {search : Search} (h : Keeps search) {block : BlockId} {self : ValueId}
    {index : Nat} {preds : List BlockId} : ∀ {found out : KeyConsts},
      s.ofPredecessors search block self index preds found = some out → ∀ k ∈ found, k ∈ out := by
  induction preds with
  | nil =>
    intro found out hout
    cases hout
    exact fun _ hk => hk
  | cons p rest ih =>
    intro found out hout
    simp only [ofPredecessors, Option.bind_eq_bind, Option.bind_eq_some_iff] at hout
    obtain ⟨term, -, found', hfound', hrest⟩ := hout
    split at hrest
    · cases hrest
    · exact fun k hk => ih hrest k (keeps_ofEdges h hfound' k hk)

theorem ofParam_eq_some {search : Search} {block : BlockId} {self : ValueId} {index : Nat}
    {found out : KeyConsts} (h : s.ofParam search block self index found = some out) :
    ∃ preds, s.preds[block]? = some preds ∧ preds ≠ [] ∧
      s.ofPredecessors search block self index preds.eraseDups found = some out := by
  simp only [ofParam, Option.bind_eq_bind, Option.bind_eq_some_iff] at h
  obtain ⟨preds, hpreds, h⟩ := h
  split at h
  · cases h
  · rename_i hne
    obtain ⟨found', hfound', h⟩ := Option.bind_eq_some_iff.mp h
    split at h
    · cases h
    · cases h
      exact ⟨preds, hpreds, fun heq => hne (List.isEmpty_iff.mpr heq), hfound'⟩

/-- What a step of a search does: it goes on at the definition of the value. -/
theorem resolveWithin_eq_some {depth : Nat} {path : List ValueId} {v : ValueId}
    {found out : KeyConsts} (h : s.resolveWithin depth path v found = some out) :
    ∃ n value, depth = n + 1 ∧ s.module.values[v]? = some value ∧
      match value.site with
      | .none => False
      | .inst i => ∃ inst, s.module.insts[i]? = some inst ∧
          s.ofInst (s.resolveWithin n (v :: path)) inst.data found = some out
      | .param block index => s.ofParam (s.resolveWithin n (v :: path)) block v index found =
          some out := by
  cases depth with
  | zero => cases h
  | succ depth =>
    have hcap : ∀ {o : Option KeyConsts},
        (o.bind fun found => if s.maxKeys < found.length then none else some found) = some out →
          o = some out := by
      intro o ho
      obtain ⟨found', rfl, hcap⟩ := Option.bind_eq_some_iff.mp ho
      split at hcap
      · cases hcap
      · exact hcap
    simp only [resolveWithin, Option.bind_eq_bind, Option.bind_eq_some_iff] at h
    obtain ⟨value, hvalue, h⟩ := h
    refine ⟨depth, value, rfl, hvalue, ?_⟩
    split at h
    · cases h
    · cases hsite : value.site with
      | none =>
        simp only [hsite] at h
        cases h
      | inst i =>
        simp only [hsite] at h
        exact Option.bind_eq_some_iff.mp (hcap h)
      | param block index =>
        simp only [hsite] at h
        exact hcap h

theorem keeps_resolveWithin (depth : Nat) : ∀ path, Keeps (s.resolveWithin depth path) := by
  induction depth with
  | zero =>
    intro path v found out h
    cases h
  | succ depth ih =>
    intro path v found out h
    obtain ⟨n, value, hn, -, hdef⟩ := resolveWithin_eq_some h
    obtain rfl := Nat.succ.inj hn
    split at hdef
    · exact hdef.elim
    · obtain ⟨inst, -, hinst⟩ := hdef
      exact keeps_ofInst (ih _) hinst
    · obtain ⟨preds, -, -, hpreds⟩ := ofParam_eq_some hdef
      exact keeps_ofPredecessors (ih _) hpreds

/-! ## Known values -/

/-- Where a search is made: in a function without faults of a typed module. -/
structure Sound (s : KeySearch) (f : Function) : Prop where
  typed : s.module.Typed s.types
  /-- The number of a missing operand is the number of no value. -/
  fits : s.module.values.size ≤ invalidId
  verified : f.Verified s.module
  preds : s.preds = (s.module.cfg f).predecessors

/-- Every search for a value that ends finds a constant, which is of the sort that the type of the
value asks for, unless the value is a result: of a checked operation the search finds the
payload. -/
def Finds (s : KeySearch) (v : ValueId) (x : Val) : Prop :=
  ∀ depth path found out, s.resolveWithin depth path v found = some out →
    s.types.resultElem? (s.module.valueType v) = none →
      ∃ k ∈ out, k.val = x ∧ k.Fits s.types (s.module.valueType v)

/-- Searches find a value, and the parts of it that they look into. -/
structure Known (s : KeySearch) (v : ValueId) (x : Val) : Prop where
  finds : s.Finds v x
  field : ∀ index n w y, s.module.fieldWithin index n v = some w →
      x.fields[index]? = some y → s.Finds w y
  payload : ∀ w y, s.module.okPayload? v = some w → x.fields[1]? = some y → s.Finds w y

/-- The evaluation that a search is about. -/
def context (s : KeySearch) (unit : String) : EvalContext where
  module := s.module
  types := s.types
  unit

theorem kind?_eq_some {v : ValueId} {k : IntKind} (h : s.kind? v = some k) :
    k = s.types.intKind (s.module.valueType v) ∧
      s.types.resultElem? (s.module.valueType v) = none := by
  obtain ⟨heq, hbits⟩ := Option.filter_eq_some_iff.mp h
  obtain rfl := Option.some.inj heq
  obtain ⟨b, hb⟩ := TypePool.exists_builtin?_of_bits (of_decide_eq_true hbits)
  exact ⟨rfl, TypePool.resultElem?_of_builtin? hb⟩

/-- An operand that there is has the type at which it is used. -/
theorem Sound.operand_eq {f : Function} (hs : s.Sound f) {v : ValueId} {t : TypeId}
    (hv : (s.module.typeContext s.types).Operand v t) {value : Value}
    (hvalue : s.module.values[v]? = some value) : s.module.valueType v = t := by
  obtain ⟨hlt, -⟩ := Array.getElem?_eq_some_iff.mp hvalue
  rcases hv with rfl | hv
  · exact absurd hs.fits (Nat.not_le_of_lt hlt)
  · unfold Module.valueType
    rw [show (s.module.values[v]?).map (·.type) = some t from hv]
    rfl

theorem exists_value_of_resolveWithin {depth : Nat} {path : List ValueId} {v : ValueId}
    {found out : KeyConsts} (h : s.resolveWithin depth path v found = some out) :
    ∃ value, s.module.values[v]? = some value := by
  obtain ⟨n, value, -, hvalue, -⟩ := resolveWithin_eq_some h
  exact ⟨value, hvalue⟩

/-! ### Definitions -/

/-- The instruction that defines a value has the type of the value. -/
theorem Sound.type_of_definition? {f : Function} (hs : s.Sound f) {v : ValueId} {inst : Inst}
    (h : s.module.definition? v = some inst) :
    InstType (s.module.typeContext s.types) inst.data (s.module.valueType v) := by
  obtain ⟨t, htype, ht⟩ := hs.typed.definition h
  rw [valueType_eq ht]
  exact htype

theorem fieldWithin_succ {m : Module} {index n : Nat} {base : ValueId} {inst : Inst}
    (h : m.definition? base = some inst) : m.fieldWithin index (n + 1) base =
      match inst.data with
      | .makeStruct fields => fields[index]?
      | .insert inner i value => if i = index then some value else m.fieldWithin index n inner
      | _ => none := by
  obtain ⟨data, effect, result, span⟩ := inst
  rw [Module.fieldWithin, h]
  cases data <;> rfl

theorem okPayload?_eq {m : Module} {src : ValueId} {inst : Inst}
    (h : m.definition? src = some inst) :
    m.okPayload? src =
      match inst.data with
      | .makeResult true value => value
      | _ => none := by
  obtain ⟨data, effect, result, span⟩ := inst
  rw [Module.okPayload?, h]
  cases data with
  | makeResult ok value => cases ok <;> rfl
  | _ => rfl

theorem exists_value_of_fieldWithin {m : Module} {index n : Nat} {base w : ValueId}
    (h : m.fieldWithin index n base = some w) : ∃ value, m.values[base]? = some value := by
  cases hdef : m.definition? base with
  | some inst =>
    obtain ⟨value, _, hvalue, -⟩ := exists_site_of_definition? hdef
    exact ⟨value, hvalue⟩
  | none =>
    cases n with
    | zero => cases h
    | succ n =>
      rw [Module.fieldWithin, hdef] at h
      cases h

/-- The value found for a field has the type of the field. -/
theorem Sound.operand_of_fieldWithin {f : Function} (hs : s.Sound f) {index : Nat}
    {decl : StructDecl} {name : String} {t : TypeId}
    (hfield : decl.fields[index]? = some (name, t)) :
    ∀ {n : Nat} {base w : ValueId}, s.types.structDecl? (s.module.valueType base) = some decl →
      s.module.fieldWithin index n base = some w → (s.module.typeContext s.types).Operand w t := by
  intro n
  induction n with
  | zero =>
    intro base w _ h
    cases h
  | succ n ih =>
    intro base w hdecl h
    rw [Module.fieldWithin] at h
    split at h
    · rename_i fields _ _ _ hdef
      cases hs.type_of_definition? hdef with
      | makeStruct ht hfields =>
        obtain rfl := Option.some.inj (hdecl.symm.trans ht)
        have htype : (decl.fields.map (·.2))[index]? = some t := by
          rw [List.getElem?_map, hfield]
          rfl
        obtain ⟨hlt, hget⟩ := List.getElem?_eq_some_iff.mp h
        obtain ⟨hlt', hget'⟩ := List.getElem?_eq_some_iff.mp htype
        have := hfields.get hlt hlt'
        simp only [List.get_eq_getElem] at this
        rwa [hget, hget'] at this
    · rename_i inner i value _ _ _ hdef
      cases hs.type_of_definition? hdef with
      | insert hbase ht ha hvalue =>
        obtain rfl := Option.some.inj (hdecl.symm.trans ht)
        split at h
        · rename_i hi
          subst hi
          cases h
          obtain ⟨-, rfl⟩ := Prod.mk.inj (Option.some.inj (hfield.symm.trans ha))
          exact hvalue
        · obtain ⟨value', hvalue'⟩ := exists_value_of_fieldWithin h
          refine ih ?_ h
          rw [hs.operand_eq hbase hvalue']
          exact ht
    · cases h

/-! ### Instructions -/

section Instructions

variable {f : Function} {env : Env} {store store' : Store} {x : Val} {t : TypeId} {n : Nat}
  {path : List ValueId} {found out : KeyConsts}

theorem yields_ofFolded {r : Folded} {v : UInt64} (hr : r = .value v)
    (h : Eval.Yields (ofFolded r) store x store') : x = .word v := by
  subst hr
  exact (Eval.yields_pure.mp h).1.symm

theorem yields_ofArith {mode : ArithMode} {r : Folded} {v : UInt64} (hmode : mode ≠ .checked)
    (hr : r = .value v) (h : Eval.Yields (ofArith mode r) store x store') : x = .word v := by
  have hfolded : Eval.Yields (ofFolded r) store x store' := by
    cases mode with
    | checked => exact absurd rfl hmode
    | _ => exact h
  exact yields_ofFolded hr hfolded

theorem finds_unary (henv : ∀ (v : ValueId) x, env[v]? = some x → s.Known v x)
    {op : UnOp} {mode : ArithMode} {src : ValueId}
    (htype : InstType (s.module.typeContext s.types) (.unary op mode src) t)
    {y : Val} (hy : env[src]? = some y)
    (hx : Eval.Yields (evalUnary op mode (s.types.intKind (s.module.valueType src)) y.toWord)
      store x store')
    (hout : s.ofInst (s.resolveWithin n path) (.unary op mode src) found = some out)
    (ht : s.types.resultElem? t = none) : ∃ k ∈ out, k.val = x ∧ k.Fits s.types t := by
  simp only [ofInst, Option.bind_eq_bind, Option.bind_eq_some_iff] at hout
  obtain ⟨srcs, hsrcs, k, hk, hmap⟩ := hout
  obtain ⟨rfl, hsrc⟩ := kind?_eq_some hk
  obtain ⟨c, hc, rfl, -⟩ := (henv src y hy).finds _ _ _ _ hsrcs hsrc
  obtain ⟨w, v, rfl, hv, hmem⟩ := (KeyConsts.addMapped_spec hmap).2 c hc
  refine ⟨_, hmem, ?_, htype.isBytes_unary⟩
  cases op with
  | not =>
    cases hv
    exact (Eval.yields_pure.mp hx).1
  | bitNot =>
    cases hv
    exact (Eval.yields_pure.mp hx).1
  | neg =>
    simp only [unaryWord] at hv
    split at hv
    · rename_i v' hfold
      cases hv
      refine (yields_ofArith ?_ hfold hx).symm
      -- a checked negation has a result type
      rintro rfl
      cases htype with
      | neg _ _ hmode =>
        have hmode : s.types.resultElem? t = some _ := hmode
        rw [ht] at hmode
        cases hmode
    · cases hv

/-- The operands of a binary operation have one type, which is not a result type. -/
theorem Sound.resultElem?_right (hs : s.Sound f) {op : BinOp} {mode : ArithMode}
    {left right : ValueId}
    (htype : InstType (s.module.typeContext s.types) (.binary op mode left right) t) {value : Value}
    (hvalue : s.module.values[right]? = some value) :
    s.types.resultElem? (s.module.valueType right) = none := by
  have hint : ∀ a, s.types.isInteger a = true → s.types.resultElem? a = none := by
    intro a ha
    obtain ⟨b, hb, -⟩ := TypePool.exists_builtin?_of_isInteger ha
    exact TypePool.resultElem?_of_builtin? hb
  cases htype with
  | compare hop hleft hright ha hmode ht =>
    rw [hs.operand_eq hright hvalue]
    rcases ha with ha | ha
    · exact hint _ ha
    · exact TypePool.resultElem?_of_builtin? (TypePool.builtin?_of_isBuiltin ha)
  | arith hop hleft hright ha hmode ht =>
    rw [hs.operand_eq hright hvalue]
    exact hint _ ha

theorem finds_binary (hs : s.Sound f) (henv : ∀ (v : ValueId) x, env[v]? = some x → s.Known v x)
    {op : BinOp} {mode : ArithMode} {left right : ValueId}
    (htype : InstType (s.module.typeContext s.types) (.binary op mode left right) t)
    {y z : Val} (hy : env[left]? = some y) (hz : env[right]? = some z)
    (hx : Eval.Yields (evalBinary op mode (s.types.intKind (s.module.valueType left))
      y.toWord z.toWord) store x store')
    (hout : s.ofInst (s.resolveWithin n path) (.binary op mode left right) found = some out) :
    ∃ k ∈ out, k.val = x ∧ k.Fits s.types t := by
  simp only [ofInst, Option.bind_eq_bind] at hout
  split at hout
  · cases hout
  · rename_i hmode
    simp only [Option.bind_eq_some_iff] at hout
    obtain ⟨lefts, hlefts, rights, hrights, hout⟩ := hout
    split at hout
    · cases hout
    · obtain ⟨k, hk, hprod⟩ := Option.bind_eq_some_iff.mp hout
      obtain ⟨rfl, hleft⟩ := kind?_eq_some hk
      obtain ⟨value, hvalue⟩ := exists_value_of_resolveWithin hrights
      have hright := hs.resultElem?_right htype hvalue
      obtain ⟨c, hc, rfl, -⟩ := (henv left y hy).finds _ _ _ _ hlefts hleft
      obtain ⟨d, hd, rfl, -⟩ := (henv right z hz).finds _ _ _ _ hrights hright
      obtain ⟨a, b, v, rfl, rfl, hv, hmem⟩ := (KeyConsts.addProduct_spec hprod).2 c hc d hd
      refine ⟨_, hmem, ?_, htype.isBytes_binary⟩
      unfold binaryWord at hv
      split at hv
      · rename_i v' hfold
        cases hv
        unfold evalBinary at hx
        dsimp only at hx
        split at hx
        · exact (yields_ofFolded hfold hx).symm
        · exact (yields_ofArith hmode hfold hx).symm
      · cases hv

theorem finds_cast (henv : ∀ (v : ValueId) x, env[v]? = some x → s.Known v x)
    {mode : CastMode} {target : TypeId} {src : ValueId}
    (htype : InstType (s.module.typeContext s.types) (.cast mode target src) t) {y : Val}
    (hy : env[src]? = some y)
    (hx : Eval.Yields (ofFolded (foldCast mode (s.types.intKind (s.module.valueType src))
      (s.types.intKind target) y.toWord)) store x store')
      (hout : s.ofInst (s.resolveWithin n path) (.cast mode target src) found = some out) :
    ∃ k ∈ out, k.val = x ∧ k.Fits s.types t := by
  simp only [ofInst, Option.bind_eq_bind, Option.bind_eq_some_iff] at hout
  obtain ⟨srcs, hsrcs, k, hk, k', hk', hmap⟩ := hout
  obtain ⟨rfl, hsrc⟩ := kind?_eq_some hk
  obtain rfl := Option.some.inj (Option.filter_eq_some_iff.mp hk').1
  obtain ⟨c, hc, rfl, -⟩ := (henv src y hy).finds _ _ _ _ hsrcs hsrc
  obtain ⟨w, v, rfl, hv, hmem⟩ := (KeyConsts.addMapped_spec hmap).2 c hc
  have hfits : s.types.isBytes t = false := by
    cases htype with
    | cast _ _ ht => exact isBytes_eq_false_of_isInteger ht
  refine ⟨_, hmem, ?_, hfits⟩
  unfold castWord at hv
  split at hv
  · rename_i v' hfold
    cases hv
    exact (yields_ofFolded hfold hx).symm
  · cases hv

theorem finds_extract (hs : s.Sound f) (henv : ∀ (v : ValueId) x, env[v]? = some x → s.Known v x)
    {base : ValueId} {index : Nat}
    (htype : InstType (s.module.typeContext s.types) (.extract base index) t)
    {y : Val} (hy : env[base]? = some y) (hx : y.fields[index]? = some x)
    (hout : s.ofInst (s.resolveWithin n path) (.extract base index) found = some out)
    (ht : s.types.resultElem? t = none) : ∃ k ∈ out, k.val = x ∧ k.Fits s.types t := by
  simp only [ofInst, Option.bind_eq_bind, Option.bind_eq_some_iff] at hout
  obtain ⟨w, hw, hout⟩ := hout
  have hwt : s.module.valueType w = t := by
    cases htype with
    | extract hbase hdecl hfield =>
      obtain ⟨value, hvalue⟩ := exists_value_of_fieldWithin hw
      rw [← hs.operand_eq hbase hvalue] at hdecl
      obtain ⟨value', hvalue'⟩ := exists_value_of_resolveWithin hout
      exact hs.operand_eq (hs.operand_of_fieldWithin hfield hdecl hw) hvalue'
  rw [← hwt] at ht ⊢
  exact (henv base y hy).field index _ w x hw hx _ _ _ _ hout ht

theorem finds_resultValue (hs : s.Sound f)
    (henv : ∀ (v : ValueId) x, env[v]? = some x → s.Known v x) {src : ValueId}
    (htype : InstType (s.module.typeContext s.types) (.resultValue src) t) {y : Val}
    (hy : env[src]? = some y) (hx : y.fields[1]? = some x)
    (hout : s.ofInst (s.resolveWithin n path) (.resultValue src) found = some out)
    (ht : s.types.resultElem? t = none) : ∃ k ∈ out, k.val = x ∧ k.Fits s.types t := by
  simp only [ofInst, Option.bind_eq_bind, Option.bind_eq_some_iff] at hout
  obtain ⟨w, hw, hout⟩ := hout
  obtain ⟨value', hvalue'⟩ := exists_value_of_resolveWithin hout
  have hwt : s.module.valueType w = t := by
    unfold Module.okPayload? at hw
    split at hw
    · rename_i hdef
      subst hw
      obtain ⟨value, _, hvalue, -⟩ := exists_site_of_definition? hdef
      cases htype with
      | resultValue hsrc hsrcElem =>
        rw [← hs.operand_eq hsrc hvalue] at hsrcElem
        cases hs.type_of_definition? hdef with
        | ok helem hpayload =>
          obtain rfl := Option.some.inj (helem.symm.trans hsrcElem)
          exact hs.operand_eq (hpayload w rfl) hvalue'
    · cases hw
  rw [← hwt] at ht ⊢
  exact (henv src y hy).payload w x hw hx _ _ _ _ hout ht

end Instructions

/-! ### Steps -/

/-- The result of a call is not looked into. -/
theorem known_of_call {r : ValueId} {x : Val} {inst : Inst}
    (hdef : s.module.definition? r = some inst) {callee : FuncId} {args : List ValueId}
    (hdata : inst.data = .call callee args) : s.Known r x := by
  refine ⟨fun depth path found out hout _ => ?_, fun index n w y hw _ => ?_, fun w y hw _ => ?_⟩
  · obtain ⟨n, value, -, hvalue, hstep⟩ := resolveWithin_eq_some hout
    obtain ⟨value', i, hvalue', hsite, hinst⟩ := exists_site_of_definition? hdef
    obtain rfl := Option.some.inj (hvalue.symm.trans hvalue')
    simp only [hsite, hinst, Option.some.injEq, exists_eq_left', hdata] at hstep
    cases hstep
  · cases n with
    | zero => cases hw
    | succ n =>
      rw [fieldWithin_succ hdef] at hw
      simp only [hdata] at hw
      cases hw
  · rw [okPayload?_eq hdef] at hw
    simp only [hdata] at hw
    cases hw

section Steps

variable [Hashing] {f : Function} {unit : String} {env : Env} {store store' : Store} {x : Val}

theorem finds_of_evalInst (hs : s.Sound f)
    (henv : ∀ (v : ValueId) x, env[v]? = some x → s.Known v x) {inst : Inst} {t : TypeId}
    (htype : InstType (s.module.typeContext s.types) inst.data t)
    (hx : Eval.Yields ((s.context unit).evalInst inst env) store x store') {n : Nat}
    {path : List ValueId} {found out : KeyConsts}
    (hout : s.ofInst (s.resolveWithin n path) inst.data found = some out)
    (ht : s.types.resultElem? t = none) : ∃ k ∈ out, k.val = x ∧ k.Fits s.types t := by
  unfold EvalContext.evalInst at hx
  cases hdata : inst.data with
  | constInt bits =>
    simp only [hdata, Eval.yields_pure] at hx hout htype
    cases hout
    cases htype with
    | constInt ht => exact ⟨_, KeyConsts.mem_add.mpr (.inr rfl), hx.1,
        isBytes_eq_false_of_isInteger ht⟩
  | constBool value =>
    simp only [hdata, Eval.yields_pure] at hx hout htype
    cases hout
    cases htype with
    | constBool ht => exact ⟨_, KeyConsts.mem_add.mpr (.inr rfl), hx.1,
        isBytes_eq_false_of_isBool ht⟩
  | constBytes bytes =>
    simp only [hdata, Eval.yields_pure] at hx hout htype
    cases hout
    cases htype with
    | constBytes ht => exact ⟨_, KeyConsts.mem_add.mpr (.inr rfl), hx.1, ht⟩
  | unary op mode src =>
    simp only [hdata, Eval.yields_bind, yields_word] at hx hout htype
    obtain ⟨_, _, ⟨y, hy, rfl, rfl⟩, hx⟩ := hx
    exact finds_unary henv htype hy hx hout ht
  | binary op mode left right =>
    simp only [hdata, Eval.yields_bind, yields_word] at hx hout htype
    obtain ⟨_, _, ⟨y, hy, rfl, rfl⟩, _, _, ⟨z, hz, rfl, rfl⟩, hx⟩ := hx
    exact finds_binary hs henv htype hy hz hx hout
  | cast mode target src =>
    simp only [hdata, Eval.yields_bind, yields_word] at hx hout htype
    obtain ⟨_, _, ⟨y, hy, rfl, rfl⟩, hx⟩ := hx
    exact finds_cast henv htype hy hx hout
  | extract base index =>
    simp only [hdata, Eval.yields_bind, yields_value, yields_fieldOf] at hx hout htype
    obtain ⟨y, _, ⟨hy, rfl⟩, hx, rfl⟩ := hx
    exact finds_extract hs henv htype hy hx hout ht
  | resultValue src =>
    simp only [hdata, Eval.yields_bind, yields_value, yields_fieldOf] at hx hout htype
    obtain ⟨y, _, ⟨hy, rfl⟩, status, _, ⟨-, rfl⟩, hx⟩ := hx
    split at hx
    · exact finds_resultValue hs henv htype hy (yields_fieldOf.mp hx).1 hout ht
    · exact (Eval.yields_throw.mp hx).elim
  | _ =>
    rw [hdata] at hout
    cases hout

/-- What an instruction computes is known of its result. -/
theorem known_of_evalInst (unit : String) (hs : s.Sound f)
    (henv : ∀ (v : ValueId) x, env[v]? = some x → s.Known v x) {inst : Inst} {r : ValueId}
    (hdef : s.module.definition? r = some inst)
    (hx : Eval.Yields ((s.context unit).evalInst inst env) store x store') : s.Known r x := by
  have htype := hs.type_of_definition? hdef
  refine ⟨fun depth path found out hout ht => ?_, fun index n w y hw hy => ?_, fun w y hw hy => ?_⟩
  · obtain ⟨n, value, -, hvalue, hstep⟩ := resolveWithin_eq_some hout
    obtain ⟨value', i, hvalue', hsite, hinst⟩ := exists_site_of_definition? hdef
    obtain rfl := Option.some.inj (hvalue.symm.trans hvalue')
    simp only [hsite, hinst, Option.some.injEq, exists_eq_left'] at hstep
    exact finds_of_evalInst hs henv htype hx hstep ht
  · cases n with
    | zero => cases hw
    | succ n =>
      rw [fieldWithin_succ hdef] at hw
      unfold EvalContext.evalInst at hx
      -- only a struct that is put together, or has a field replaced, has a field that is found
      cases hdata : inst.data with
      | makeStruct fields =>
        simp only [hdata, Eval.yields_bind, yields_valueList, Eval.yields_pure] at hx hw
        obtain ⟨xs, _, ⟨hall, rfl⟩, rfl, rfl⟩ := hx
        obtain ⟨hlt, rfl⟩ := List.getElem?_eq_some_iff.mp hw
        obtain ⟨hlt', rfl⟩ := List.getElem?_eq_some_iff.mp hy
        exact (henv _ _ (hall.get hlt hlt')).finds
      | insert base i value =>
        simp only [hdata, Eval.yields_bind, yields_value, yields_fieldOf, Eval.yields_pure] at hx hw
        obtain ⟨y₀, _, ⟨hbase, rfl⟩, _, _, ⟨hold, rfl⟩, z, _, ⟨hvalue, rfl⟩, rfl, rfl⟩ := hx
        have hy : (y₀.fields.set i z)[index]? = some y := hy
        split at hw
        · rename_i hi
          subst hi
          cases hw
          obtain ⟨hlt, -⟩ := List.getElem?_eq_some_iff.mp hold
          rw [List.getElem?_set_self hlt] at hy
          cases hy
          exact (henv _ _ hvalue).finds
        · rename_i hi
          rw [List.getElem?_set_ne hi] at hy
          exact (henv _ _ hbase).field index n w y hw hy
      | _ =>
        simp only [hdata] at hw
        cases hw
  · rw [okPayload?_eq hdef] at hw
    unfold EvalContext.evalInst at hx
    cases hdata : inst.data with
    | makeResult ok value =>
      cases ok with
      | false =>
        simp only [hdata] at hw
        cases hw
      | true =>
        simp only [hdata] at hw
        subst hw
        simp only [hdata, Eval.yields_bind, yields_value, Eval.yields_pure] at hx
        obtain ⟨y₀, _, ⟨hvalue, rfl⟩, rfl, rfl⟩ := hx
        cases hy
        exact (henv _ _ hvalue).finds
    | _ =>
      simp only [hdata] at hw
      cases hw

end Steps

/-- A parameter is not looked into. -/
theorem known_of_param {v : ValueId} {x : Val} {value : Value} {block : BlockId} {index : Nat}
    (hvalue : s.module.values[v]? = some value) (hsite : value.site = .param block index)
    (hfinds : ∀ n path found out, s.ofParam (s.resolveWithin n path) block v index found =
      some out →
      s.types.resultElem? (s.module.valueType v) = none →
        ∃ k ∈ out, k.val = x ∧ k.Fits s.types (s.module.valueType v)) : s.Known v x := by
  have hdef : s.module.definition? v = none := by
    unfold Module.definition?
    obtain ⟨type, effect, site, span⟩ := value
    obtain rfl : site = .param block index := hsite
    rw [hvalue]
  refine ⟨fun depth path found out hout ht => ?_, fun index n w y hw _ => ?_, fun w y hw _ => ?_⟩
  · obtain ⟨n, value', -, hvalue', hstep⟩ := resolveWithin_eq_some hout
    obtain rfl := Option.some.inj (hvalue.symm.trans hvalue')
    simp only [hsite] at hstep
    exact hfinds _ _ _ _ hstep ht
  · cases n with
    | zero => cases hw
    | succ n =>
      rw [Module.fieldWithin, hdef] at hw
      cases hw
  · unfold Module.okPayload? at hw
    rw [hdef] at hw
    cases hw

/-- The parameters of the entry are never found, since nothing leads there. -/
theorem known_of_entry {f : Function} (hs : s.Sound f) {entry : BlockId}
    (hentry : f.entry = some entry) {k : Nat} {p : ValueId}
    (hp : (s.module.block entry).params[k]? = some p) (x : Val) : s.Known p x := by
  obtain ⟨entry', hmem, hentry'⟩ := hs.verified.entry
  obtain rfl := Option.some.inj (hentry.symm.trans hentry')
  obtain ⟨value, hvalue, hsite⟩ := hs.verified.param_site entry hmem k p hp
  refine known_of_param hvalue hsite fun n path found out hout _ => ?_
  obtain ⟨preds, hpreds, hne, -⟩ := ofParam_eq_some hout
  have hnone := hs.verified.entry_preds entry hentry
  rw [hs.preds] at hpreds
  rw [Array.getD_eq_getD_getElem?, hpreds] at hnone
  exact absurd hnone hne

/-- Whatever an edge from a predecessor passes is searched for. -/
theorem ofEdges_mem {search : Search} (h : Keeps search) {self : ValueId} {index : Nat}
    {args : List ValueId} {a : ValueId} (ha : args[index]? = some a) (hne : a ≠ self)
    {edges : List (List ValueId)} : ∀ {found out : KeyConsts}, args ∈ edges →
      ofEdges search self index edges found = some out →
      ∃ found' out', search a found' = some out' ∧ ∀ k ∈ out', k ∈ out := by
  induction edges with
  | nil =>
    intro found out hmem
    cases hmem
  | cons args' rest ih =>
    intro found out hmem hout
    obtain ⟨arg, found', harg, hfound', hrest⟩ := ofEdges_cons hout
    rcases List.mem_cons.mp hmem with rfl | hmem
    · obtain rfl := Option.some.inj (ha.symm.trans harg)
      rcases hfound' with ⟨heq, -⟩ | hfound'
      · exact absurd heq hne
      · exact ⟨found, found', hfound', keeps_ofEdges h hrest⟩
    · exact ih hmem hrest

theorem ofPredecessors_mem {search : Search} (h : Keeps search) {block b : BlockId} {self : ValueId}
    {index : Nat} {term : Terminator} (hterm : (s.module.block b).term = some term)
    {args : List ValueId} (hargs : args ∈ term.argsTo block) {a : ValueId}
    (ha : args[index]? = some a) (hne : a ≠ self) {preds : List BlockId} :
    ∀ {found out : KeyConsts}, b ∈ preds →
      s.ofPredecessors search block self index preds found = some out →
      ∃ found' out', search a found' = some out' ∧ ∀ k ∈ out', k ∈ out := by
  induction preds with
  | nil =>
    intro found out hmem
    cases hmem
  | cons p rest ih =>
    intro found out hmem hout
    simp only [ofPredecessors, Option.bind_eq_bind, Option.bind_eq_some_iff] at hout
    obtain ⟨term', hterm', found', hfound', hrest⟩ := hout
    split at hrest
    · cases hrest
    · rcases List.mem_cons.mp hmem with rfl | hmem
      · obtain rfl := Option.some.inj (hterm.symm.trans hterm')
        obtain ⟨found₁, out₁, hsearch, hsub⟩ := ofEdges_mem h ha hne hargs hfound'
        exact ⟨found₁, out₁, hsearch, fun k hk => keeps_ofPredecessors h hrest k (hsub k hk)⟩
      · exact ih hmem hrest

/-- What an edge passes is known of the parameter that it is bound to. -/
theorem known_of_edge {f : Function} (hs : s.Sound f) {b target : BlockId} (hb : b ∈ f.blocks)
    {term : Terminator} (hterm : (s.module.block b).term = some term) {args : List ValueId}
    (hargs : args ∈ term.argsTo target) {k : Nat} {a p : ValueId} (ha : args[k]? = some a)
    (hp : (s.module.block target).params[k]? = some p) {x : Val} (hknown : s.Known a x) :
    s.Known p x := by
  by_cases heq : a = p
  · exact heq ▸ hknown
  · have htarget := hs.verified.edge_target b hb term target args hterm hargs
    obtain ⟨value, hvalue, hsite⟩ := hs.verified.param_site target htarget k p hp
    refine known_of_param hvalue hsite fun n path found out hout ht => ?_
    obtain ⟨preds, hpreds, -, hout⟩ := ofParam_eq_some hout
    have hsucc : target ∈ (s.module.cfg f).successors b := by
      refine Module.mem_successors_cfg.mpr ⟨?_, htarget, hs.verified.blocks_lt target htarget⟩
      unfold Block.successors
      rw [hterm]
      exact mem_successors_of_argsTo hargs
    have hmem : b ∈ (s.module.cfg f).predecessors.getD target [] :=
      Cfg.mem_predecessors.mpr ⟨hb, hsucc, hs.verified.blocks_lt target htarget⟩
    rw [hs.preds] at hpreds
    rw [Array.getD_eq_getD_getElem?, hpreds] at hmem
    obtain ⟨found', out', hsearch, hsub⟩ := ofPredecessors_mem (keeps_resolveWithin n path)
      hterm hargs ha heq (List.mem_eraseDups.mpr hmem) hout
    have htype := hs.verified.edge_type b hb term target args hterm hargs k a p ha hp
    rw [← htype] at ht ⊢
    obtain ⟨c, hc, hval⟩ := hknown.finds _ _ _ _ hsearch ht
    exact ⟨c, hsub c hc, hval⟩

end KeySearch

end ContractCompiler.Ssa
