import ContractCompiler.Proofs.Ssa.Execution

/-!
# Executions up to the numbers of cells

Cells are numbered in the order in which they are made. Two executions of which one makes more cells
than the other do the same if their values are alike, a cell standing for the one that corresponds
to it, and corresponding cells have like contents.

- `CellMatch`: which cells correspond;
- `Val.Like`, `Store.Like`: values and stores that are alike under it;
- `Eval.Agree`: computations that take like stores to like outcomes;
- `agree_evalInst`: an instruction does so if its operands are alike.
-/

namespace ContractCompiler.Ssa

/-- Which cells of two executions correspond. -/
abbrev CellMatch := Nat → Nat → Prop

/-- Cells that correspond still do. -/
def CellMatch.Within (ρ ρ' : CellMatch) : Prop := ∀ i j, ρ i j → ρ' i j

theorem CellMatch.Within.refl (ρ : CellMatch) : ρ.Within ρ := fun _ _ h => h

theorem CellMatch.Within.trans {ρ ρ' ρ'' : CellMatch} (h : ρ.Within ρ') (h' : ρ'.Within ρ'') :
    ρ.Within ρ'' :=
  fun i j hij => h' i j (h i j hij)

/-! ## Values -/

/-- Values that are the same up to the numbers of cells. -/
inductive Val.Like (ρ : CellMatch) : Val → Val → Prop where
  | word (w : UInt64) : Like ρ (.word w) (.word w)
  | bytes (b : Bytes) : Like ρ (.bytes b) (.bytes b)
  | cell {i j : Nat} (h : ρ i j) : Like ρ (.cell i) (.cell j)
  | nil : Like ρ (.tuple []) (.tuple [])
  | cons {x y : Val} {xs ys : List Val} (h : Like ρ x y) (hs : Like ρ (.tuple xs) (.tuple ys)) :
      Like ρ (.tuple (x :: xs)) (.tuple (y :: ys))

variable {ρ ρ' : CellMatch}

namespace Val.Like

variable {x y : Val}

theorem mono (hle : ρ.Within ρ') (h : Like ρ x y) : Like ρ' x y := by
  induction h with
  | word w => exact .word w
  | bytes b => exact .bytes b
  | cell h => exact .cell (hle _ _ h)
  | nil => exact .nil
  | cons _ _ ih ihs => exact .cons ih ihs

theorem toWord (h : Like ρ x y) : x.toWord = y.toWord := by
  cases h <;> rfl

theorem toBytes (h : Like ρ x y) : x.toBytes = y.toBytes := by
  cases h <;> rfl

end Val.Like

theorem like_tuple {xs ys : List Val} :
    Val.Like ρ (.tuple xs) (.tuple ys) ↔ List.Forall₂ (Val.Like ρ) xs ys := by
  constructor
  · intro h
    induction xs generalizing ys with
    | nil =>
      cases h
      exact .nil
    | cons x xs ih =>
      cases h with
      | cons h hs => exact .cons h (ih hs)
  · intro h
    induction h with
    | nil => exact .nil
    | cons h _ ih => exact .cons h ih

theorem Val.Like.fields {x y : Val} (h : Like ρ x y) : List.Forall₂ (Like ρ) x.fields y.fields := by
  cases h with
  | word | bytes | cell | nil => exact .nil
  | cons h hs => exact .cons h (like_tuple.mp hs)

theorem forall₂_set {α β : Type} {R : α → β → Prop} {xs : List α} {ys : List β}
    (h : List.Forall₂ R xs ys) (n : Nat) {a : α} {b : β} (hab : R a b) :
    List.Forall₂ R (xs.set n a) (ys.set n b) := by
  induction h generalizing n with
  | nil => exact .nil
  | cons hxy hrest ih =>
    cases n with
    | zero => exact .cons hab hrest
    | succ n => exact .cons hxy (ih n)

theorem forall₂_getElem? {α β : Type} {R : α → β → Prop} {xs : List α} {ys : List β}
    (h : List.Forall₂ R xs ys) (n : Nat) : Option.Rel R xs[n]? ys[n]? := by
  induction h generalizing n with
  | nil => exact .none
  | cons hxy _ ih =>
    cases n with
    | zero => exact .some hxy
    | succ n => exact ih n

/-! ## Stores -/

/-- Stores with the same host, in which corresponding cells have like contents. -/
structure Store.Like (ρ : CellMatch) (s t : Store) : Prop where
  ledger : s.ledger = t.ledger
  hostStatus : s.hostStatus = t.hostStatus
  cells : ∀ i j, ρ i j → ∃ x y, s.cells[i]? = some x ∧ t.cells[j]? = some y ∧ x.Like ρ y
  /-- No cell corresponds to two. -/
  right_unique : ∀ i j j', ρ i j → ρ i j' → j = j'
  left_unique : ∀ i i' j, ρ i j → ρ i' j → i = i'

namespace Store.Like

variable {s t : Store}

/-- The correspondence with a new cell on either side. -/
def extend (ρ : CellMatch) (s t : Store) : CellMatch :=
  fun i j => ρ i j ∨ i = s.cells.size ∧ j = t.cells.size

theorem lt_size (h : s.Like ρ t) {i j : Nat} (hij : ρ i j) :
    i < s.cells.size ∧ j < t.cells.size := by
  obtain ⟨x, y, hx, hy, -⟩ := h.cells i j hij
  exact ⟨(Array.getElem?_eq_some_iff.mp hx).1, (Array.getElem?_eq_some_iff.mp hy).1⟩

/-- Both executions make a cell. -/
theorem push (h : s.Like ρ t) {x y : Val} (hxy : x.Like ρ y) :
    Store.Like (extend ρ s t) { s with cells := s.cells.push x }
      { t with cells := t.cells.push y } := by
  have hle : ρ.Within (extend ρ s t) := fun _ _ hij => .inl hij
  refine ⟨h.ledger, h.hostStatus, fun i j hij => ?_, fun i j j' hij hij' => ?_,
    fun i i' j hij hij' => ?_⟩
  · rcases hij with hij | ⟨rfl, rfl⟩
    · obtain ⟨a, b, ha, hb, hab⟩ := h.cells i j hij
      obtain ⟨hi, hj⟩ := h.lt_size hij
      refine ⟨a, b, ?_, ?_, hab.mono hle⟩
      · rw [Array.getElem?_push, if_neg (Nat.ne_of_lt hi)]
        exact ha
      · rw [Array.getElem?_push, if_neg (Nat.ne_of_lt hj)]
        exact hb
    · exact ⟨x, y, Array.getElem?_push_size, Array.getElem?_push_size, hxy.mono hle⟩
  · rcases hij with hij | ⟨rfl, rfl⟩
    · rcases hij' with hij' | ⟨rfl, rfl⟩
      · exact h.right_unique i j j' hij hij'
      · exact absurd (h.lt_size hij).1 (Nat.lt_irrefl _)
    · rcases hij' with hij' | ⟨-, rfl⟩
      · exact absurd (h.lt_size hij').1 (Nat.lt_irrefl _)
      · rfl
  · rcases hij with hij | ⟨rfl, rfl⟩
    · rcases hij' with hij' | ⟨rfl, rfl⟩
      · exact h.left_unique i i' j hij hij'
      · exact absurd (h.lt_size hij).2 (Nat.lt_irrefl _)
    · rcases hij' with hij' | ⟨rfl, -⟩
      · exact absurd (h.lt_size hij').2 (Nat.lt_irrefl _)
      · rfl

/-- Both executions store to corresponding cells. -/
theorem set (h : s.Like ρ t) {i j : Nat} (hij : ρ i j) {x y : Val} (hxy : x.Like ρ y) :
    Store.Like ρ { s with cells := s.cells.setIfInBounds i x }
      { t with cells := t.cells.setIfInBounds j y } := by
  obtain ⟨hi, hj⟩ := h.lt_size hij
  refine ⟨h.ledger, h.hostStatus, fun i' j' hij' => ?_, h.right_unique, h.left_unique⟩
  by_cases heq : i = i'
  · subst heq
    obtain rfl := h.right_unique i j j' hij hij'
    exact ⟨x, y, by simp [hi], by simp [hj], hxy⟩
  · have hne : j ≠ j' := fun hjj => heq (h.left_unique i i' j hij (hjj ▸ hij'))
    obtain ⟨a, b, ha, hb, hab⟩ := h.cells i' j' hij'
    exact ⟨a, b, by simpa [heq] using ha, by simpa [hne] using hb, hab⟩

end Store.Like

/-! ## Computations -/

namespace Eval

variable {α β γ δ : Type}

/-- Computations that take like stores to like outcomes: both succeed, with values that are related,
or both stop for the same reason. -/
def Agree (ρ : CellMatch) (R : CellMatch → α → β → Prop) (x : Eval α) (y : Eval β) : Prop :=
  ∀ s t, s.Like ρ t →
    (∃ ρ', ρ.Within ρ' ∧ ∃ a b s' t', x.run s = (.ok a, s') ∧ y.run t = (.ok b, t') ∧
      s'.Like ρ' t' ∧ R ρ' a b) ∨
      ∃ ρ' h s' t', x.run s = (.error h, s') ∧ y.run t = (.error h, t') ∧ s'.Like ρ' t'

variable {R : CellMatch → α → β → Prop} {R' : CellMatch → γ → δ → Prop}

theorem agree_pure {a : α} {b : β} (h : R ρ a b) : Agree ρ R (pure a) (pure b) :=
  fun s t hst => .inl ⟨ρ, .refl ρ, a, b, s, t, rfl, rfl, hst, h⟩

theorem agree_throw (h : Halt) : Agree ρ R (throw h) (throw h) :=
  fun s t hst => .inr ⟨ρ, h, s, t, rfl, rfl, hst⟩

theorem Agree.bind {x : Eval α} {y : Eval β} {f : α → Eval γ} {g : β → Eval δ} (hxy : Agree ρ R x y)
    (hfg : ∀ ρ', ρ.Within ρ' → ∀ a b, R ρ' a b → Agree ρ' R' (f a) (g b)) :
    Agree ρ R' (x >>= f) (y >>= g) := by
  intro s t hst
  rw [run_bind, run_bind]
  rcases hxy s t hst with ⟨ρ₁, hle, a, b, s₁, t₁, hx, hy, hst₁, hab⟩ | ⟨ρ₁, h, s₁, t₁, hx, hy, hst₁⟩
  · rw [hx, hy]
    rcases hfg ρ₁ hle a b hab s₁ t₁ hst₁ with ⟨ρ₂, hle', hrest⟩ | hrest
    · exact .inl ⟨ρ₂, hle.trans hle', hrest⟩
    · exact .inr hrest
  · rw [hx, hy]
    exact .inr ⟨ρ₁, h, s₁, t₁, rfl, rfl, hst₁⟩

theorem agree_get : Agree ρ Store.Like get get :=
  fun s t hst => .inl ⟨ρ, .refl ρ, s, t, s, t, rfl, rfl, hst, hst⟩

theorem agree_modify {f : Store → Store} (h : ∀ s t, s.Like ρ t → (f s).Like ρ (f t)) :
    Agree ρ (fun _ _ _ => True) (modify f) (modify f) :=
  fun s t hst => .inl ⟨ρ, .refl ρ, (), (), f s, f t, rfl, rfl, h s t hst, trivial⟩

end Eval

open Eval (Agree agree_pure agree_throw agree_get agree_modify)

/-! ## Operands -/

/-- Two activations have like values for the values that do not belong to a set. -/
def Env.Like (D : ValueId → Prop) (ρ : CellMatch) (env env' : Env) : Prop :=
  ∀ v, ¬D v → Option.Rel (Val.Like ρ) env[v]? env'[v]?

section Operands

variable {D : ValueId → Prop} {env env' : Env} {v : ValueId}

theorem Env.Like.mono (hle : ρ.Within ρ') (h : env.Like D ρ env') : env.Like D ρ' env' := by
  intro v hv
  have hrel := h v hv
  revert hrel
  generalize env[v]? = a, env'[v]? = b
  intro hrel
  cases hrel with
  | none => exact .none
  | some hxy => exact .some (hxy.mono hle)

/-- Both activations define a value. -/
theorem Env.Like.insert (h : env.Like D ρ env') (v : ValueId) {x y : Val} (hxy : x.Like ρ y) :
    Env.Like D ρ (env.insert v x) (env'.insert v y) := by
  intro w hw
  rw [Std.HashMap.getElem?_insert, Std.HashMap.getElem?_insert]
  by_cases heq : (v == w) = true
  · rw [if_pos heq, if_pos heq]
    exact .some hxy
  · rw [if_neg heq, if_neg heq]
    exact h w hw

/-- One activation defines a value that nobody asks for. -/
theorem Env.Like.insert_left (h : env.Like D ρ env') (hv : D v) (x : Val) :
    Env.Like D ρ (env.insert v x) env' := by
  intro w hw
  have hne : ¬(v == w) = true := fun heq => hw (beq_iff_eq.mp heq ▸ hv)
  rw [Std.HashMap.getElem?_insert, if_neg hne]
  exact h w hw

theorem agree_value (h : env.Like D ρ env') (hv : ¬D v) :
    Agree ρ Val.Like (env.value v) (env'.value v) := by
  have hrel := h v hv
  unfold Env.value
  revert hrel
  generalize env[v]? = a, env'[v]? = b
  intro hrel
  cases hrel with
  | none => exact agree_throw _
  | some hxy => exact agree_pure hxy

theorem agree_word (h : env.Like D ρ env') (hv : ¬D v) :
    Agree ρ (fun _ a b => a = b) (env.word v) (env'.word v) :=
  (agree_value h hv).bind fun _ _ _ _ hxy => agree_pure hxy.toWord

theorem agree_valueList {vs : List ValueId} (h : env.Like D ρ env') (hvs : ∀ v ∈ vs, ¬D v) :
    Agree ρ (fun ρ xs ys => List.Forall₂ (Val.Like ρ) xs ys) (env.valueList vs)
      (env'.valueList vs) := by
  induction vs generalizing ρ with
  | nil => exact agree_pure .nil
  | cons v vs ih =>
    refine (agree_value h (hvs v List.mem_cons_self)).bind fun ρ₁ h₁ x y hxy => ?_
    refine (ih (h.mono h₁) fun w hw => hvs w (List.mem_cons_of_mem _ hw)).bind
      fun ρ₂ h₂ xs ys hrest => ?_
    exact agree_pure (.cons (hxy.mono h₂) hrest)

theorem agree_fieldOf {missing : Halt} {x y : Val} (h : x.Like ρ y) (index : Nat) :
    Agree ρ Val.Like (fieldOf missing x index) (fieldOf missing y index) := by
  have hrel := forall₂_getElem? h.fields index
  unfold fieldOf
  revert hrel
  generalize x.fields[index]? = a, y.fields[index]? = b
  intro hrel
  cases hrel with
  | none => exact agree_throw _
  | some hxy => exact agree_pure hxy

/-! ### Cells -/

theorem agree_newCell {x y : Val} (h : x.Like ρ y) : Agree ρ Val.Like (newCell x) (newCell y) := by
  intro s t hst
  refine .inl ⟨Store.Like.extend ρ s t, fun _ _ hij => .inl hij, _, _, _, _, rfl, rfl,
    hst.push h, ?_⟩
  exact .cell (.inr ⟨rfl, rfl⟩)

theorem agree_loadCell {x y : Val} (h : x.Like ρ y) :
    Agree ρ Val.Like (loadCell x) (loadCell y) := by
  cases h with
  | @cell i j hij =>
    refine agree_get.bind fun ρ₁ h₁ s t hst => ?_
    obtain ⟨a, b, ha, hb, hab⟩ := hst.cells i j (h₁ i j hij)
    rw [ha, hb]
    exact agree_pure hab
  | _ => exact agree_throw _

theorem agree_storeCell {x y a b : Val} (h : x.Like ρ y) (hab : a.Like ρ b) :
    Agree ρ (fun _ _ _ => True) (storeCell x a) (storeCell y b) := by
  cases h with
  | cell hij =>
    exact fun s t hst => .inl ⟨ρ, .refl ρ, (), (), _, _, rfl, rfl, hst.set hij hab, trivial⟩
  | _ => exact agree_throw _

/-! ### Arithmetic -/

theorem agree_ofFolded (r : Folded) : Agree ρ Val.Like (ofFolded r) (ofFolded r) := by
  cases r with
  | value w => exact agree_pure (.word w)
  | overflow => exact agree_throw _
  | divByZero => exact agree_throw _
  | checkedErr => exact agree_pure (.cons (.word _) (.cons (.word _) .nil))

theorem agree_ofArith (mode : ArithMode) (r : Folded) :
    Agree ρ Val.Like (ofArith mode r) (ofArith mode r) := by
  unfold ofArith
  split
  · exact agree_pure (.cons (.word _) (.cons (.word _) .nil))
  · exact agree_ofFolded r

theorem agree_evalUnary (op : UnOp) (mode : ArithMode) (k : IntKind) (a : UInt64) :
    Agree ρ Val.Like (evalUnary op mode k a) (evalUnary op mode k a) := by
  unfold evalUnary
  cases op with
  | not => exact agree_pure (.word _)
  | bitNot => exact agree_pure (.word _)
  | neg => exact agree_ofArith _ _

theorem agree_evalBinary (op : BinOp) (mode : ArithMode) (k : IntKind) (a b : UInt64) :
    Agree ρ Val.Like (evalBinary op mode k a b) (evalBinary op mode k a b) := by
  unfold evalBinary
  dsimp only
  split
  · exact agree_ofFolded _
  · exact agree_ofArith _ _

end Operands

/-! ## The host -/

section Host

theorem agree_hostFailure (op : HostOp) (status : HostStatus) :
    Agree ρ Val.Like (hostFailure op status) (hostFailure op status) := by
  refine (agree_modify fun s t hst => ?_).bind fun _ _ _ _ _ => ?_
  · exact ⟨hst.ledger, rfl, hst.cells, hst.right_unique, hst.left_unique⟩
  · split
    · exact agree_pure (.cons (.word _) (.cons (.word _) .nil))
    · exact agree_throw _

variable (c : EvalContext)

theorem buffer_eq {x y : Val} (h : x.Like ρ y) (v : ValueId) : c.buffer v x = c.buffer v y := by
  unfold EvalContext.buffer
  rw [h.toWord, h.toBytes]

theorem payload_eq {xs ys : List Val} (h : List.Forall₂ (Val.Like ρ) xs ys) (vs : List ValueId) :
    c.payload (vs.zip xs) = c.payload (vs.zip ys) := by
  induction h generalizing vs with
  | nil => rfl
  | cons hxy _ ih =>
    cases vs with
    | nil => rfl
    | cons v vs =>
      rw [List.zip_cons_cons, List.zip_cons_cons]
      unfold EvalContext.payload
      rw [hxy.toWord, hxy.toBytes, ih vs]

variable [Hashing]

theorem agree_readState (ns : String) (key : Bytes) (type : TypeId) :
    Agree ρ Val.Like (c.readState ns key type) (c.readState ns key type) := by
  unfold EvalContext.readState
  refine agree_get.bind fun _ _ s t hst => ?_
  rw [hst.ledger]
  split
  · exact agree_hostFailure _ _
  · split
    · exact agree_pure (.cons (.word _) (.cons (.bytes _) .nil))
    · exact agree_pure (.cons (.word _) (.cons (.word _) .nil))

theorem agree_writeState (ns : String) (key value : Bytes) :
    Agree ρ Val.Like (c.writeState ns key value) (c.writeState ns key value) := by
  unfold EvalContext.writeState
  refine (agree_modify fun s t hst => ?_).bind fun _ _ _ _ _ => agree_pure (.word _)
  exact ⟨by rw [hst.ledger], hst.hostStatus, hst.cells, hst.right_unique, hst.left_unique⟩

omit [Hashing] in
/-- Like ledgers admit the same writes. -/
theorem agree_guardWrite (descriptor : Bytes) {write write' : Eval Val}
    (h : ∀ ρ', ρ.Within ρ' → Agree ρ' Val.Like write write') :
    Agree ρ Val.Like (guardWrite descriptor write) (guardWrite descriptor write') := by
  unfold guardWrite
  refine agree_get.bind fun _ hle s t hst => ?_
  rw [hst.ledger]
  split
  · exact h _ hle
  · exact agree_hostFailure _ _

/-! ## Instructions -/

/-- An instruction computes like values, and does the same to the host, if its operands have like
values. -/
theorem agree_evalInst {D : ValueId → Prop} {env env' : Env} (inst : Inst)
    (henv : env.Like D ρ env') (hoperands : ∀ v ∈ inst.data.operands, ¬D v)
    (hinvalid : ¬D invalidId) : Agree ρ Val.Like (c.evalInst inst env) (c.evalInst inst env') := by
  unfold EvalContext.evalInst
  -- operands are read in order; what was read is still alike in the stores that come later
  cases hdata : inst.data with
  | constInt bits => exact agree_pure (.word _)
  | constBool value => exact agree_pure (.word _)
  | constBytes bytes => exact agree_pure (.bytes _)
  | unary op mode src =>
    have hsrc : ¬D src := hoperands src (by simp [hdata, InstData.operands])
    refine (agree_word henv hsrc).bind fun _ _ a b hab => ?_
    subst hab
    exact agree_evalUnary _ _ _ _
  | binary op mode left right =>
    have hleft : ¬D left := hoperands left (by simp [hdata, InstData.operands])
    have hright : ¬D right := hoperands right (by simp [hdata, InstData.operands])
    refine (agree_word henv hleft).bind fun _ h₁ a a' ha => ?_
    refine (agree_word (henv.mono h₁) hright).bind fun _ _ b b' hb => ?_
    subst ha hb
    exact agree_evalBinary _ _ _ _ _
  | cast mode target src =>
    have hsrc : ¬D src := hoperands src (by simp [hdata, InstData.operands])
    refine (agree_word henv hsrc).bind fun _ _ a b hab => ?_
    subst hab
    exact agree_ofFolded _
  | call callee args => exact agree_pure (.word _)
  | makeStruct fields =>
    have hfields : ∀ v ∈ fields, ¬D v := fun v hv =>
      hoperands v (by simpa [hdata, InstData.operands] using hv)
    exact (agree_valueList henv hfields).bind fun _ _ xs ys hxs => agree_pure (like_tuple.mpr hxs)
  | extract base index =>
    have hbase : ¬D base := hoperands base (by simp [hdata, InstData.operands])
    exact (agree_value henv hbase).bind fun _ _ x y hxy => agree_fieldOf hxy index
  | insert base index value =>
    have hbase : ¬D base := hoperands base (by simp [hdata, InstData.operands])
    have hvalue : ¬D value := hoperands value (by simp [hdata, InstData.operands])
    refine (agree_value henv hbase).bind fun _ h₁ x y hxy => ?_
    refine (agree_fieldOf hxy index).bind fun _ h₂ _ _ _ => ?_
    refine (agree_value (henv.mono (h₁.trans h₂)) hvalue).bind fun _ h₃ a b hab => ?_
    exact agree_pure (like_tuple.mpr (forall₂_set (hxy.mono (h₂.trans h₃)).fields index hab))
  | makeResult ok value =>
    cases ok with
    | false =>
      have hvalue : ¬D (value.getD invalidId) := by
        cases value with
        | none => exact hinvalid
        | some v => exact hoperands v (by simp [hdata, InstData.operands])
      refine (agree_word henv hvalue).bind fun _ _ a b hab => ?_
      subst hab
      exact agree_pure (.cons (.word _) (.cons (.word _) .nil))
    | true =>
      cases value with
      | none => exact agree_pure (.cons (.word _) (.cons (.word _) .nil))
      | some v =>
        have hv : ¬D v := hoperands v (by simp [hdata, InstData.operands])
        exact (agree_value henv hv).bind fun _ _ x y hxy =>
          agree_pure (.cons (.word _) (.cons hxy .nil))
  | resultIsOk src =>
    have hsrc : ¬D src := hoperands src (by simp [hdata, InstData.operands])
    refine (agree_value henv hsrc).bind fun _ _ x y hxy => (agree_fieldOf hxy 0).bind
      fun _ _ a b hab => ?_
    rw [hab.toWord]
    exact agree_pure (.word _)
  | resultValue src =>
    have hsrc : ¬D src := hoperands src (by simp [hdata, InstData.operands])
    refine (agree_value henv hsrc).bind fun _ _ x y hxy => (agree_fieldOf hxy 0).bind
      fun _ h₂ a b hab => ?_
    rw [hab.toWord]
    split
    · exact agree_fieldOf (hxy.mono h₂) 1
    · exact agree_throw _
  | resultCode src =>
    have hsrc : ¬D src := hoperands src (by simp [hdata, InstData.operands])
    exact (agree_value henv hsrc).bind fun _ _ x y hxy => agree_fieldOf hxy 0
  | refNew init =>
    have hinit : ¬D init := hoperands init (by simp [hdata, InstData.operands])
    exact (agree_value henv hinit).bind fun _ _ x y hxy => agree_newCell hxy
  | refLoad ref =>
    have href : ¬D ref := hoperands ref (by simp [hdata, InstData.operands])
    exact (agree_value henv href).bind fun _ _ x y hxy => agree_loadCell hxy
  | refStore ref value =>
    have href : ¬D ref := hoperands ref (by simp [hdata, InstData.operands])
    have hvalue : ¬D value := hoperands value (by simp [hdata, InstData.operands])
    refine (agree_value henv href).bind fun _ h₁ x y hxy => ?_
    refine (agree_value (henv.mono h₁) hvalue).bind fun _ h₂ a b hab => ?_
    exact (agree_storeCell (hxy.mono h₂) hab).bind fun _ _ _ _ _ => agree_pure (.word _)
  | stateRead ns key type =>
    have hkey : ¬D key := hoperands key (by simp [hdata, InstData.operands])
    refine (agree_value henv hkey).bind fun _ _ x y hxy => ?_
    rw [buffer_eq c hxy]
    exact agree_readState c _ _ _
  | stateWrite ns key value =>
    have hkey : ¬D key := hoperands key (by simp [hdata, InstData.operands])
    have hvalue : ¬D value := hoperands value (by simp [hdata, InstData.operands])
    refine agree_guardWrite _ fun _ h₀ => ?_
    refine (agree_value (henv.mono h₀) hkey).bind fun _ h₁ x y hxy => ?_
    refine (agree_value (henv.mono (h₀.trans h₁)) hvalue).bind fun _ _ a b hab => ?_
    rw [buffer_eq c hxy, buffer_eq c hab]
    exact agree_writeState c _ _ _
  | stateHas ns key =>
    have hkey : ¬D key := hoperands key (by simp [hdata, InstData.operands])
    refine (agree_value henv hkey).bind fun _ _ x y hxy => agree_get.bind fun _ _ s t hst => ?_
    rw [buffer_eq c hxy, hst.ledger]
    exact agree_pure (.word _)
  | context query =>
    refine agree_get.bind fun _ _ s t hst => ?_
    rw [hst.ledger]
    split
    · exact agree_pure (.bytes _)
    · exact agree_pure (.word _)
  | digest src =>
    have hsrc : ¬D src := hoperands src (by simp [hdata, InstData.operands])
    refine (agree_value henv hsrc).bind fun _ _ x y hxy => ?_
    rw [buffer_eq c hxy]
    exact agree_pure (.bytes _)
  | emit topic args =>
    have hargs :
      ∀ v ∈ args, ¬D v := fun v hv => hoperands v (by simpa [hdata, InstData.operands] using hv)
    refine (agree_valueList henv hargs).bind fun _ _ xs ys hxs => ?_
    rw [payload_eq c hxs]
    refine (agree_modify fun s t hst => ?_).bind fun _ _ _ _ _ => agree_pure (.word _)
    exact ⟨by rw [hst.ledger], hst.hostStatus, hst.cells, hst.right_unique, hst.left_unique⟩
  | bytesLength src =>
    have hsrc : ¬D src := hoperands src (by simp [hdata, InstData.operands])
    refine (agree_value henv hsrc).bind fun _ _ x y hxy => ?_
    rw [hxy.toBytes]
    exact agree_pure (.word _)

end Host

/-! ## Calls from outside -/

/-- The arguments of a call correspond to themselves. -/
theorem like_prepareArgs (args : List UInt64) (modes : List Hir.PassMode)
    {ρ : CellMatch} {s : Store} (h : s.Like ρ s) :
    ∃ ρ', ρ.Within ρ' ∧ (prepareArgs args modes s).2.Like ρ' (prepareArgs args modes s).2 ∧
      List.Forall₂ (Val.Like ρ') (prepareArgs args modes s).1 (prepareArgs args modes s).1 := by
  induction args generalizing modes ρ s with
  | nil => exact ⟨ρ, .refl ρ, h, .nil⟩
  | cons w ws ih =>
    have hword (modes : List Hir.PassMode) : ∃ ρ', ρ.Within ρ' ∧
        (prepareArgs ws modes s).2.Like ρ' (prepareArgs ws modes s).2 ∧
        List.Forall₂ (Val.Like ρ') (.word w :: (prepareArgs ws modes s).1)
          (.word w :: (prepareArgs ws modes s).1) := by
      obtain ⟨ρ', hle, hstore, hall⟩ := ih modes h
      exact ⟨ρ', hle, hstore, .cons (.word w) hall⟩
    cases modes with
    | nil => exact hword []
    | cons mode modes =>
      cases mode with
      | exclusive =>
        obtain ⟨ρ', hle, hstore, hall⟩ := ih modes (h.push (.word w))
        exact ⟨ρ', fun i j hij => hle i j (.inl hij), hstore,
          .cons (.cell (hle _ _ (.inr ⟨rfl, rfl⟩))) hall⟩
      | _ => exact hword modes

/-- Without cells, stores with the same host are alike. -/
theorem Store.like_empty (ledger : Ledger) : Store.Like (fun _ _ => False) { ledger } { ledger } :=
  ⟨rfl, rfl, fun _ _ h => h.elim, fun _ _ _ h => h.elim, fun _ _ _ h => h.elim⟩

/-- Executions that end in the same way, up to the numbers of cells in what they return. -/
inductive EndsAlike : Except Halt Val × Store → Except Halt Val × Store → Prop where
  | stopped (h : Halt) {s t : Store} (hledger : s.ledger = t.ledger)
      (hstatus : s.hostStatus = t.hostStatus) :
      EndsAlike (.error h, s) (.error h, t)
  | returned {x y : Val} (hword : x.toWord = y.toWord) {s t : Store} (hledger : s.ledger = t.ledger)
      (hstatus : s.hostStatus = t.hostStatus) : EndsAlike (.ok x, s) (.ok y, t)

theorem EndsAlike.refl (r : Except Halt Val × Store) : EndsAlike r r := by
  obtain ⟨e | x, s⟩ := r
  · exact .stopped e rfl rfl
  · exact .returned rfl rfl rfl

/-- Functions that differ at most in the blocks that they list. -/
def Function.SameHead (f g : Function) : Prop := ∃ blocks, g = { f with blocks }

theorem Function.SameHead.refl (f : Function) : f.SameHead f := ⟨f.blocks, rfl⟩

/-- Modules whose functions differ at most in the blocks that they list. -/
def Module.SameHeads (m m' : Module) : Prop :=
  ∀ id : FuncId, Option.Rel Function.SameHead m.functions[id]? m'.functions[id]?

/-- The configuration in which a call of a function that is not left out starts. -/
def startOf (m : Module) (f : Function) (entry : BlockId) (args : List UInt64) (ledger : Ledger) :
    Config where
  frame := activate m entry (prepareArgs args f.paramModes { ledger }).1
  store := (prepareArgs args f.paramModes { ledger }).2

/-- A call starts in both of two modules, or for the same reason in neither. -/
theorem startEval_congr {m m' : Module} (h : m.SameHeads m') (id : FuncId) (args : List UInt64)
    (ledger : Ledger) (limits : EvalLimits) :
    (∃ e, m.startEval id args ledger limits = .error e ∧
      m'.startEval id args ledger limits = .error e) ∨
      ∃ f entry blocks, m.functions[id]? = some f ∧ args.length = f.paramTypes.length ∧
        f.excluded = false ∧
        f.entry = some entry ∧
        m.startEval id args ledger limits = .ok (f, startOf m f entry args ledger) ∧
        m'.startEval id args ledger limits = .ok
          ({ f with blocks }, startOf m' f entry args ledger) := by
  have hhead := h id
  unfold Module.startEval
  cases hf : m.functions[id]? with
  | none =>
    rw [hf] at hhead
    generalize m'.functions[id]? = g at hhead
    cases hhead
    exact .inl ⟨_, rfl, rfl⟩
  | some f =>
    rw [hf] at hhead
    generalize m'.functions[id]? = g at hhead
    cases hhead with
    | some hsame =>
      obtain ⟨blocks, rfl⟩ := hsame
      dsimp only
      by_cases hlength : args.length = f.paramTypes.length
      · rw [if_neg (not_not.mpr hlength), if_neg (not_not.mpr hlength)]
        cases hexcl : f.excluded with
        | true => exact .inl ⟨_, rfl, rfl⟩
        | false =>
          cases hentry : f.entry with
          | none => exact .inl ⟨_, rfl, rfl⟩
          | some entry =>
            dsimp only
            by_cases hdepth : limits.maxDepth = 0
            · rw [if_pos hdepth, if_pos hdepth]
              exact .inl ⟨_, rfl, rfl⟩
            · rw [if_neg hdepth, if_neg hdepth]
              refine .inr ⟨f, entry, blocks, rfl, hlength, hexcl, hentry, rfl, ?_⟩
              rw [← hexcl, ← hentry]
              rfl
      · rw [if_pos hlength, if_pos hlength]
        exact .inl ⟨_, rfl, rfl⟩

/-- What a call from outside makes of the end of its execution. -/
def callResult (types : TypePool) (ret : TypeId) : Except Halt Val × Store → RunResult × Ledger
  | (.error h, s) => (h.toResult s.hostStatus, s.ledger)
  | (.ok x, s) =>
    ({ exit := .returned
       value := if types.isUnit ret then none else some x.toWord
       hostStatus := s.hostStatus }, s.ledger)

theorem EndsAlike.callResult_eq {r r' : Except Halt Val × Store} (h : EndsAlike r r')
    (types : TypePool) (ret : TypeId) : callResult types ret r' = callResult types ret r := by
  cases h with
  | stopped e hledger hstatus =>
    unfold callResult
    dsimp only
    rw [hledger, hstatus]
  | returned hword hledger hstatus =>
    unfold callResult
    dsimp only
    rw [hword, hledger, hstatus]

section Calls

variable [Hashing] {m m' : Module} {types : TypePool} {id : FuncId} {args : List UInt64}
  {ledger : Ledger}
  {unit : String} {limits : EvalLimits}

theorem evalFunction_of_error {e : Halt} (h : m.startEval id args ledger limits = .error e) :
    m.evalFunction types id args ledger unit limits = (e.toResult none, ledger) := by
  unfold Module.evalFunction
  rw [h]

theorem evalFunction_of_ok {f : Function} {c : Config}
    (h : m.startEval id args ledger limits = .ok (f, c)) :
    m.evalFunction types id args ledger unit limits =
      callResult types f.ret (run ⟨m, types, unit⟩ limits limits.fuel c) := by
  unfold Module.evalFunction
  -- nothing below is to unfold the run, which would count down from its limit
  obtain ⟨g, hg⟩ : ∃ g, run ⟨m, types, unit⟩ limits limits.fuel = g := ⟨_, rfl⟩
  rw [hg, h]
  dsimp only
  rcases g c with ⟨_ | x, s⟩
  · rfl
  · rfl

/-- A call has the same result, and leaves the host in the same state, in a module in which the
executions that do not give up end in the same way. -/
theorem evalFunction_congr (hheads : m.SameHeads m')
    (hexit : (m.evalFunction types id args ledger unit limits).1.exit.settled = true)
    (hruns : ∀ f entry, m.functions[id]? = some f → args.length = f.paramTypes.length →
      f.excluded = false →
      f.entry = some entry →
      (∀ e, (run ⟨m, types, unit⟩ limits limits.fuel (startOf m f entry args ledger)).1 = .error e →
        e.exit.settled = true) →
      EndsAlike (run ⟨m, types, unit⟩ limits limits.fuel (startOf m f entry args ledger))
        (run ⟨m', types, unit⟩ limits limits.fuel (startOf m' f entry args ledger))) :
    m'.evalFunction types id args ledger unit limits =
      m.evalFunction types id args ledger unit limits := by
  rcases startEval_congr hheads id args ledger limits with
    ⟨e, he, he'⟩ | ⟨f, entry, blocks, hf, hlength, hincl, hentry, hstart, hstart'⟩
  · rw [evalFunction_of_error he, evalFunction_of_error he']
  · rw [evalFunction_of_ok hstart] at hexit
    rw [evalFunction_of_ok hstart, evalFunction_of_ok hstart']
    refine EndsAlike.callResult_eq (hruns f entry hf hlength hincl hentry fun e he => ?_)
      types f.ret
    generalize run ⟨m, types, unit⟩ limits limits.fuel (startOf m f entry args ledger) =
      r at hexit he
    obtain ⟨r, s⟩ := r
    dsimp only at he
    subst he
    exact hexit

end Calls

end ContractCompiler.Ssa
