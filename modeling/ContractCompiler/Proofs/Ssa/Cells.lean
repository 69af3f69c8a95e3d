import ContractCompiler.Json.Reader
import ContractCompiler.Proofs.Hir.Borrows
import ContractCompiler.Proofs.Hir.Equality
import ContractCompiler.Proofs.Ssa.DefinedUses
import ContractCompiler.Proofs.Ssa.Faultless

/-!
# References of an activation

Whatever a module that passes the ownership check executes, the references of an activation stand
for different cells: those that it makes are new, and those that it is passed are different because
the calls of the program pass different bindings exclusively.

- `Function.IsCell`: a value of a function is a reference;
- `Function.PassesCells`: what the code of a function has to do with references;
- `FrameApart`: the references of an activation stand for different cells;
- `ConfigApart.step`: every step preserves this, for all activations;
- `exclusive_params_apart`: two parameters that are passed exclusively never stand for one cell.
-/

namespace ContractCompiler.Ssa

open Hir (PassMode)

/-! ## What instructions do to cells -/

namespace Eval

variable {α β : Type}

/-- A computation that succeeds takes no cells away. -/
def KeepsCells (x : Eval α) : Prop := ∀ s a s', Yields x s a s' → s.cells.size ≤ s'.cells.size

theorem keepsCells_of_store {x : Eval α} (h : ∀ s a s', Yields x s a s' → s = s') :
    KeepsCells x := by
  intro s a s' hx
  rw [h s a s' hx]

theorem KeepsCells.bind {x : Eval α} {f : α → Eval β} (hx : KeepsCells x)
    (hf : ∀ a, KeepsCells (f a)) :
    KeepsCells (x >>= f) := by
  intro s b s' h
  obtain ⟨a, s₁, ha, hb⟩ := yields_bind.mp h
  exact (hx s a s₁ ha).trans (hf a s₁ b s' hb)

@[simp] theorem keepsCells_pure (a : α) : KeepsCells (pure a) :=
  keepsCells_of_store fun _ _ _ h => (yields_pure.mp h).2

@[simp] theorem keepsCells_throw (h : Halt) : KeepsCells (throw h : Eval α) :=
  fun _ _ _ hx => (yields_throw.mp hx).elim

@[simp] theorem keepsCells_get : KeepsCells get :=
  keepsCells_of_store fun _ _ _ h => (yields_get.mp h).2

theorem keepsCells_modify {f : Store → Store} (hf : ∀ s, s.cells.size ≤ (f s).cells.size) :
    KeepsCells (modify f) := by
  intro s u s' h
  rw [← yields_modify.mp h]
  exact hf s

@[simp] theorem keepsCells_value (env : Env) (v : ValueId) : KeepsCells (env.value v) :=
  keepsCells_of_store fun _ _ _ h => (yields_value.mp h).2

@[simp] theorem keepsCells_word (env : Env) (v : ValueId) : KeepsCells (env.word v) :=
  (keepsCells_value env v).bind fun _ => keepsCells_pure _

@[simp] theorem keepsCells_valueList (env : Env) (vs : List ValueId) :
    KeepsCells (env.valueList vs) :=
  keepsCells_of_store fun _ _ _ h => (yields_valueList.mp h).2

@[simp] theorem keepsCells_fieldOf (missing : Halt) (x : Val) (index : Nat) :
    KeepsCells (fieldOf missing x index) :=
  keepsCells_of_store fun _ _ _ h => (yields_fieldOf.mp h).2

@[simp] theorem keepsCells_ofFolded (r : Folded) : KeepsCells (ofFolded r) := by
  cases r <;> simp [ofFolded]

@[simp] theorem keepsCells_ofArith (mode : ArithMode) (r : Folded) :
    KeepsCells (ofArith mode r) := by
  unfold ofArith
  split <;> simp

@[simp] theorem keepsCells_hostFailure (op : HostOp) (status : HostStatus) :
    KeepsCells (hostFailure op status) := by
  unfold hostFailure
  refine KeepsCells.bind (keepsCells_modify fun s => ?_) fun _ => ?_
  · exact Nat.le_refl s.cells.size
  · split <;> simp

end Eval

section References

open Eval

variable {s s' : Store} {x y : Val}

/-- A new cell has the next number. -/
@[simp] theorem yields_newCell : Yields (newCell x) s y s' ↔
    y = .cell s.cells.size ∧ s' = { s with cells := s.cells.push x } := by
  constructor
  · intro h
    cases h
    exact ⟨rfl, rfl⟩
  · rintro ⟨rfl, rfl⟩
    rfl

@[simp] theorem yields_loadCell {ref : Val} : Yields (loadCell ref) s y s' ↔
    ∃ id, ref = .cell id ∧ s.cells[id]? = some y ∧ s = s' := by
  unfold loadCell
  cases ref with
  | cell id => cases h : s.cells[id]? <;> simp [h]
  | _ => simp

@[simp] theorem yields_storeCell {ref : Val} {u : Unit} : Yields (storeCell ref x) s u s' ↔
    ∃ id, ref = .cell id ∧ s' = { s with cells := s.cells.setIfInBounds id x } := by
  unfold storeCell
  cases ref with
  | cell id => simp [eq_comm]
  | _ => simp

theorem run_loadCell (id : Nat) (s : Store) : (loadCell (.cell id)).run s =
    ((s.cells[id]?).elim (.error (.error "use of an undefined cell")) .ok, s) := by
  have hget {α : Type} (f : Store → Eval α) : (get >>= f).run s = (f s).run s := rfl
  unfold loadCell
  rw [hget]
  cases s.cells[id]? <;> rfl

end References

section Instructions

open Eval

variable [Hashing] (c : EvalContext) {inst : Inst} {env : Env} {s s' : Store} {x : Val}

theorem keepsCells_readState (ns : String) (key : Bytes) (type : TypeId) :
    KeepsCells (c.readState ns key type) := by
  unfold EvalContext.readState
  refine .bind keepsCells_get fun s => ?_
  split
  · exact keepsCells_hostFailure _ _
  · split <;> exact keepsCells_pure _

theorem keepsCells_writeState (ns : String) (key value : Bytes) :
    KeepsCells (c.writeState ns key value) :=
  .bind (keepsCells_modify fun s => Nat.le_refl s.cells.size) fun _ => keepsCells_pure _

omit [Hashing] in
theorem keepsCells_guardWrite (descriptor : Bytes) {write : Eval Val} (h : KeepsCells write) :
    KeepsCells (guardWrite descriptor write) := by
  unfold guardWrite
  refine .bind keepsCells_get fun s => ?_
  split
  · exact h
  · exact keepsCells_hostFailure _ _

/-- An instruction takes no cells away. -/
theorem keepsCells_evalInst (inst : Inst) (env : Env) : KeepsCells (c.evalInst inst env) := by
  have value {α : Type} (v : ValueId) {f : Val → Eval α} (hf : ∀ x, KeepsCells (f x)) :
      KeepsCells (env.value v >>= f) := .bind (keepsCells_value env v) hf
  unfold EvalContext.evalInst
  split
  · exact keepsCells_pure _
  · exact keepsCells_pure _
  · exact keepsCells_pure _
  · refine .bind (keepsCells_word _ _) fun a => ?_
    unfold evalUnary
    split <;> simp
  · refine .bind (keepsCells_word _ _) fun a => .bind (keepsCells_word _ _) fun b => ?_
    unfold evalBinary
    split <;> simp
  · exact .bind (keepsCells_word _ _) fun a => keepsCells_ofFolded _
  · exact keepsCells_pure _
  · exact .bind (keepsCells_valueList _ _) fun a => keepsCells_pure _
  · exact value _ fun a => keepsCells_fieldOf _ _ _
  · exact value _ fun a => .bind (keepsCells_fieldOf _ _ _) fun _ => value _ fun _ =>
      keepsCells_pure _
  · exact keepsCells_pure _
  · exact value _ fun a => keepsCells_pure _
  · exact .bind (keepsCells_word _ _) fun a => keepsCells_pure _
  · exact value _ fun a => .bind (keepsCells_fieldOf _ _ _) fun _ => keepsCells_pure _
  · refine value _ fun a => .bind (keepsCells_fieldOf _ _ _) fun _ => ?_
    split <;> simp
  · exact value _ fun a => keepsCells_fieldOf _ _ _
  · refine value _ fun a s y s' h => ?_
    obtain ⟨-, rfl⟩ := yields_newCell.mp h
    simp
  · refine value _ fun a => keepsCells_of_store fun s y s' h => ?_
    obtain ⟨_, -, -, rfl⟩ := yields_loadCell.mp h
    rfl
  · refine value _ fun r => value _ fun y => .bind (fun s u s' h => ?_) fun _ => keepsCells_pure _
    obtain ⟨_, -, rfl⟩ := yields_storeCell.mp h
    simp
  · exact value _ fun a => keepsCells_readState c _ _ _
  · exact keepsCells_guardWrite _ (value _ fun k => value _ fun y => keepsCells_writeState c _ _ _)
  · exact value _ fun k => .bind keepsCells_get fun _ => keepsCells_pure _
  · refine .bind keepsCells_get fun _ => ?_
    split <;> simp
  · exact value _ fun a => keepsCells_pure _
  · exact .bind (keepsCells_valueList _ _) fun a =>
      .bind (keepsCells_modify fun s => Nat.le_refl s.cells.size) fun _ => keepsCells_pure _
  · exact value _ fun a => keepsCells_pure _

/-- What makes a reference makes a new cell. -/
theorem yields_refNew {init : ValueId} (hdata : inst.data = .refNew init)
    (h : Yields (c.evalInst inst env) s x s') :
    x = .cell s.cells.size ∧ s.cells.size < s'.cells.size := by
  unfold EvalContext.evalInst at h
  rw [hdata] at h
  obtain ⟨y, _, hy, hnew⟩ := yields_bind.mp h
  obtain ⟨-, rfl⟩ := yields_value.mp hy
  obtain ⟨rfl, rfl⟩ := yields_newCell.mp hnew
  exact ⟨rfl, by simp⟩

theorem run_refLoad {q : ValueId} {b : Nat} (hq : env[q]? = some (.cell b))
    (hdata : inst.data = .refLoad q) :
    (c.evalInst inst env).run s = (loadCell (.cell b)).run s := by
  unfold EvalContext.evalInst Env.value
  rw [hdata]
  simp only [hq]
  rfl

/-- A store through one reference changes nothing about a load through another, to another cell. -/
theorem run_refLoad_of_refStore {p q value : ValueId} {a b : Nat} {store load : Inst}
    (hp : env[p]? = some (.cell a)) (hq : env[q]? = some (.cell b)) (hne : a ≠ b)
    (hstore : store.data = .refStore p value) (hload : load.data = .refLoad q)
    (h : Yields (c.evalInst store env) s x s') :
    ((c.evalInst load env).run s').1 = ((c.evalInst load env).run s).1 := by
  rw [run_refLoad c hq hload, run_refLoad c hq hload, run_loadCell, run_loadCell]
  unfold EvalContext.evalInst at h
  rw [hstore] at h
  simp only [yields_bind, yields_value, yields_storeCell, yields_pure] at h
  obtain ⟨r, _, ⟨hr, rfl⟩, y', _, ⟨-, rfl⟩, _, _, ⟨id, rfl, rfl⟩, -, rfl⟩ := h
  obtain rfl : id = a := by simpa [hr] using hp
  rw [Array.getElem?_setIfInBounds_ne hne]

end Instructions

/-! ## References of a function -/

/-- A value of a function is a reference: a parameter that is passed exclusively, or a cell that the
function makes. -/
def Function.IsCell (m : Module) (f : Function) (v : ValueId) : Prop :=
  ∃ entry t, f.entry = some entry ∧ kindIn entry f.paramModes m.insts m.values v = some (t, true)

/-- What the code of a function has to do with references. -/
structure Function.PassesCells (m : Module) (f : Function) : Prop where
  verified : f.Verified m
  /-- The parameters that are references are those that the function is passed exclusively. -/
  params : ∀ b ∈ f.blocks, ∀ (i : Nat) (p : ValueId), (m.block b).params[i]? = some p →
    (f.IsCell m p ↔ f.entry = some b ∧ f.paramModes[i]? = some .exclusive)
  /-- The results that are references are new cells. -/
  results : ∀ b ∈ f.blocks, ∀ i ∈ (m.block b).insts, ∀ (inst : Inst) (v : ValueId),
    m.insts[i]? = some inst → inst.result = some v → f.IsCell m v → ∃ init, inst.data = .refNew init
  /-- Nothing leads to the entry. -/
  edges : ∀ b ∈ f.blocks, ∀ term target args, (m.block b).term = some term →
      args ∈ term.argsTo target →
    f.entry ≠ some target
  /-- What a call passes exclusively are different references. -/
  calls : ∀ b ∈ f.blocks, ∀ i ∈ (m.block b).insts, ∀ (inst : Inst) callee args (g : Function),
    m.insts[i]? = some inst → inst.data = .call callee args → m.functions[callee]? = some g →
      (∀ (j : Nat) (v : ValueId), args[j]? = some v → g.paramModes[j]? = some .exclusive →
        f.IsCell m v) ∧
        (exclusiveOf g.paramModes args).Nodup

theorem mem_edges_of_argsTo {term : Terminator} {target : BlockId} {args : List ValueId}
    (h : args ∈ term.argsTo target) : (target, args) ∈ term.edges := by
  cases term with
  | jump t targs =>
    simp only [Terminator.argsTo, List.mem_ite_nil_right, List.mem_singleton] at h
    simp [Terminator.edges, h.1, h.2]
  | branch cond t targs e eargs =>
    simp only [Terminator.argsTo, List.mem_append, List.mem_ite_nil_right, List.mem_singleton] at h
    rcases h with ⟨rfl, rfl⟩ | ⟨rfl, rfl⟩
    · exact List.mem_cons_self
    · exact List.mem_cons_of_mem _ List.mem_cons_self
  | _ => simp [Terminator.argsTo] at h

/-- No argument is passed exclusively twice. -/
theorem index_eq_of_nodup_exclusiveOf {α : Type} {modes : List PassMode} {args : List α}
    (h : (exclusiveOf modes args).Nodup) {i j : Nat} {a : α} (hi : args[i]? = some a)
    (hj : args[j]? = some a) (hmi : modes[i]? = some .exclusive)
    (hmj : modes[j]? = some .exclusive) : i = j := by
  unfold exclusiveOf List.Nodup at h
  rw [List.pairwise_map, List.pairwise_filter] at h
  have hlt {i j : Nat} (hi : args[i]? = some a) (hj : args[j]? = some a)
      (hmi : modes[i]? = some .exclusive) (hmj : modes[j]? = some .exclusive) : ¬i < j := by
    intro hlt
    have hzi : (modes.zip args)[i]? = some (.exclusive, a) :=
      List.getElem?_zip_eq_some.mpr ⟨hmi, hi⟩
    have hzj : (modes.zip args)[j]? = some (.exclusive, a) :=
      List.getElem?_zip_eq_some.mpr ⟨hmj, hj⟩
    obtain ⟨hli, hvi⟩ := List.getElem?_eq_some_iff.mp hzi
    obtain ⟨hlj, hvj⟩ := List.getElem?_eq_some_iff.mp hzj
    have hne := List.pairwise_iff_getElem.mp h i j hli hlj hlt
    rw [hvi, hvj] at hne
    exact hne rfl rfl rfl
  have := hlt hi hj hmi hmj
  have := hlt hj hi hmj hmi
  omega

section Functions

variable {m : Module} {types : TypePool} {f : Function} {K : BodyContext}

theorem isCell_iff (h : f.Complete K m types) {v : ValueId} :
    f.IsCell m v ↔ ∃ t, (m.codeOf types f).kind? K v = some (t, true) := by
  unfold Function.IsCell
  rw [h.entry, h.modes]
  simp only [Option.some.injEq, exists_and_left, exists_eq_left']
  rfl

/-- The code that is built for a function handles references as it should. -/
theorem Function.Complete.passesCells (h : f.Complete K m types) (hverified : f.Verified m)
    (hdisjoint : K.disjoint)
    (hmodes : ∀ (id : FuncId) (g : Function), m.functions[id]? = some g →
      g.paramModes = passModes K.functions id) : f.PassesCells m := by
  obtain ⟨A, hcode⟩ := h.code
  have hblock {b : BlockId} (hb : b ∈ f.blocks) : (m.codeOf types f).BlockValid K A b :=
    hcode.valid.block b hb
  refine ⟨hverified, fun b hb i p hp => ?_, fun b hb i hi inst v hinst hv hcell => ?_,
    fun b hb term target args hterm hargs => ?_,
    fun b hb i hi inst callee args g hinst hdata hg => ?_⟩
  · obtain ⟨value, hvalue, hsite⟩ := (hblock hb).params i p hp
    have hvalue : m.values[p]? = some value := hvalue
    rw [isCell_iff h, h.entry, h.modes]
    show (∃ t, kindIn K.entry K.modes m.insts m.values p = some (t, true)) ↔ _
    unfold kindIn
    simp only [hvalue, Option.bind_some, hsite, Option.some.injEq, Prod.mk.injEq, exists_and_right,
      exists_eq', true_and, Bool.and_eq_true, decide_eq_true_eq, eq_comm (a := b)]
  · obtain ⟨inst', hinst', hvalid⟩ := (hblock hb).insts i hi
    obtain rfl : inst = inst' := Option.some.inj (hinst.symm.trans hinst')
    obtain ⟨value, hvalue, hsite⟩ := hvalid.result v hv
    obtain ⟨t, ht⟩ := (isCell_iff h).mp hcell
    obtain ⟨value', hvalue', -, hmakes⟩ := Code.exists_value_of_kind? ht
    obtain rfl := Option.some.inj (hvalue.symm.trans hvalue')
    obtain ⟨inst', hinst', hmakes⟩ := hmakes i hsite
    obtain rfl : inst = inst' := Option.some.inj (hinst.symm.trans hinst')
    cases hdata : inst.data with
    | refNew init => exact ⟨init, rfl⟩
    | _ => simp [hdata, InstData.makesCell] at hmakes
  · have hedge := ((hblock hb).term term hterm).edges (target, args) (mem_edges_of_argsTo hargs)
    rw [h.entry]
    exact fun heq => hedge.ne_entry (Option.some.inj heq).symm
  · obtain ⟨inst', hinst', hvalid⟩ := (hblock hb).insts i hi
    obtain rfl : inst = inst' := Option.some.inj (hinst.symm.trans hinst')
    have hfits := hvalid.fits
    rw [hdata] at hfits
    obtain ⟨-, hkinds, hnodup⟩ := hfits
    rw [hmodes callee g hg]
    refine ⟨fun j v hv hmode => ?_, hnodup hdisjoint⟩
    obtain ⟨mode, hmode', t, ht⟩ := getElem?_of_forall₂ hkinds hv
    obtain rfl := Option.some.inj (hmode.symm.trans hmode')
    exact (isCell_iff h).mpr ⟨t, ht⟩

end Functions

/-! ## References of an activation -/

/-- What is passed exclusively are different cells. -/
structure ArgsApart (modes : List PassMode) (size : Nat) (xs : List Val) : Prop where
  cells : ∀ (i : Nat) (x : Val), modes[i]? = some .exclusive → xs[i]? = some x →
      ∃ id < size, x = .cell id
  apart : ∀ (i j id : Nat), modes[i]? = some .exclusive → modes[j]? = some .exclusive →
    xs[i]? = some (.cell id) → xs[j]? = some (.cell id) → i = j

/-- The references of an activation stand for different cells. -/
structure FrameApart (m : Module) (f : Function) (size : Nat) (frame : Frame) : Prop where
  function : f.PassesCells m
  owned : frame.block ∈ f.blocks
  rest : ∀ i ∈ frame.rest, i ∈ (m.block frame.block).insts
  params : ∀ entry, f.entry = some entry → ∀ p ∈ (m.block entry).params, p ∈ frame.env
  cells : ∀ (v : ValueId) (x : Val), f.IsCell m v → frame.env[v]? = some x →
      ∃ id < size, x = .cell id
  apart : ∀ (v w : ValueId) (id : Nat), f.IsCell m v → f.IsCell m w →
      frame.env[v]? = some (.cell id) →
    frame.env[w]? = some (.cell id) → v = w

namespace FrameApart

variable {m : Module} {f : Function} {size size' : Nat} {frame : Frame}

theorem mono (h : FrameApart m f size frame) (hle : size ≤ size') : FrameApart m f size' frame := by
  refine ⟨h.function, h.owned, h.rest, h.params, fun v x hv hx => ?_, h.apart⟩
  obtain ⟨id, hid, rfl⟩ := h.cells v x hv hx
  exact ⟨id, by omega, rfl⟩

theorem tail {block : BlockId} {i : InstId} {rest : List InstId} {env : Env}
    (h : FrameApart m f size ⟨block, i :: rest, env⟩) : FrameApart m f size ⟨block, rest, env⟩ :=
  ⟨h.function, h.owned, fun j hj => h.rest j (List.mem_cons_of_mem _ hj), h.params,
    h.cells, h.apart⟩

/-- A result that is a reference is a cell that no other reference stands for. -/
theorem define (h : FrameApart m f size frame) {result : Option ValueId} {x : Val}
    (hle : size ≤ size')
    (hx : ∀ v, result = some v → f.IsCell m v → x = .cell size ∧ size < size') :
    FrameApart m f size' (frame.define result x) := by
  refine ⟨h.function, ?_, ?_, fun entry hentry p hp => ?_, fun v y hv hy => ?_,
    fun v w id hv hw hid hid' => ?_⟩
  · rw [block_define]
    exact h.owned
  · rw [block_define, rest_define]
    exact h.rest
  · exact mem_define.mpr (.inr (h.params entry hentry p hp))
  · rcases getElem?_define hy with ⟨hresult, rfl⟩ | hy
    · obtain ⟨rfl, hlt⟩ := hx v hresult hv
      exact ⟨size, hlt, rfl⟩
    · obtain ⟨id, hid, rfl⟩ := h.cells v y hv hy
      exact ⟨id, by omega, rfl⟩
  · -- the new cell has a number that no reference from before has
    have hfresh {u : ValueId} (hu : f.IsCell m u) (hold : frame.env[u]? = some (.cell id))
        (hnew : x = .cell size) (hid : x = .cell id) : False := by
      obtain ⟨id', hlt, heq⟩ := h.cells u _ hu hold
      rw [hnew] at hid
      cases hid
      cases heq
      exact Nat.lt_irrefl _ hlt
    rcases getElem?_define hid with ⟨hresult, hid⟩ | hid <;>
      rcases getElem?_define hid' with ⟨hresult', hid'⟩ | hid'
    · exact Option.some.inj (hresult.symm.trans hresult')
    · exact (hfresh hw hid' (hx v hresult hv).1 hid).elim
    · exact (hfresh hv hid (hx w hresult' hw).1 hid').elim
    · exact h.apart v w id hv hw hid hid'

/-- At another block, no reference is bound anew. -/
theorem goTo {block target : BlockId} {env : Env} (h : FrameApart m f size ⟨block, [], env⟩)
    {term : Terminator} (hterm : (m.block block).term = some term) {args : List ValueId}
    (hedge : args ∈ term.argsTo target) (xs : List Val) :
    FrameApart m f size ⟨target, (m.block target).insts,
      bindValues env ((((m.block target).params.zip args).map (·.1)).zip xs)⟩ := by
  have hf := h.function
  have htarget := hf.verified.edge_target block h.owned term target args hterm hedge
  have hold {v : ValueId} {x : Val} (hv : f.IsCell m v)
      (hx : (bindValues env ((((m.block target).params.zip args).map (·.1)).zip xs))[v]? = some x) :
      env[v]? = some x := by
    refine (getElem?_bindValues hx).resolve_left fun hmem => ?_
    obtain ⟨⟨p, _⟩, hp, rfl⟩ := List.mem_map.mp (List.of_mem_zip hmem).1
    obtain ⟨i, hi⟩ := List.getElem?_of_mem (List.of_mem_zip hp).1
    exact hf.edges block h.owned term target args hterm hedge
      ((hf.params target htarget i _ hi).mp hv).1
  exact ⟨hf, htarget, fun i hi => hi,
    fun entry hentry p hp => mem_bindValues.mpr (.inr (h.params entry hentry p hp)),
    fun v x hv hx => h.cells v x hv (hold hv hx),
    fun v w id hv hw hid hid' => h.apart v w id hv hw (hold hv hid) (hold hw hid')⟩

/-- An activation starts with the references that it is passed. -/
theorem activate (hf : f.PassesCells m) {entry : BlockId} (hentry : f.entry = some entry)
    {xs : List Val} (hlength : xs.length = f.paramTypes.length)
    (hxs : ArgsApart f.paramModes size xs) : FrameApart m f size (activate m entry xs) := by
  obtain ⟨entry', hmem, hentry'⟩ := hf.verified.entry
  obtain rfl := Option.some.inj (hentry.symm.trans hentry')
  have hparams := hf.verified.entry_params entry hentry
  have hbound {v : ValueId} {x : Val} (hv : f.IsCell m v)
      (hx : (bindValues {} ((m.block entry).params.zip xs))[v]? = some x) :
      ∃ i : Nat, (m.block entry).params[i]? = some v ∧ f.paramModes[i]? = some .exclusive ∧
        xs[i]? = some x := by
    obtain ⟨i, hi⟩ := List.getElem?_of_mem ((getElem?_bindValues hx).resolve_right (by simp))
    obtain ⟨hp, hx⟩ := List.getElem?_zip_eq_some.mp hi
    exact ⟨i, hp, ((hf.params entry hmem i v hp).mp hv).2, hx⟩
  refine ⟨hf, hmem, fun i hi => hi, fun entry' hentry' p hp => ?_, fun v x hv hx => ?_,
    fun v w id hv hw hid hid' => ?_⟩
  · obtain rfl := Option.some.inj (hentry.symm.trans hentry')
    refine mem_bindValues.mpr (.inl ?_)
    rw [List.map_fst_zip (by omega)]
    exact hp
  · obtain ⟨i, -, hmode, hx⟩ := hbound hv hx
    exact hxs.cells i x hmode hx
  · obtain ⟨i, hi, hmode, hx⟩ := hbound hv hid
    obtain ⟨j, hj, hmode', hx'⟩ := hbound hw hid'
    obtain rfl := hxs.apart i j id hmode hmode' hx hx'
    exact Option.some.inj (hi.symm.trans hj)

/-- What a call passes exclusively are different cells. -/
theorem argsApart {block : BlockId} {i : InstId} {rest : List InstId} {env : Env}
    (h : FrameApart m f size ⟨block, i :: rest, env⟩) {inst : Inst}
    (hinst : m.insts[i]? = some inst) {callee : FuncId} {args : List ValueId}
    (hdata : inst.data = .call callee args) {g : Function} (hg : m.functions[callee]? = some g)
    {xs : List Val} (hxs : List.Forall₂ (fun v x => env[v]? = some x) args xs) :
    ArgsApart g.paramModes size xs := by
  obtain ⟨hcells, hnodup⟩ :=
    h.function.calls block h.owned i (h.rest i List.mem_cons_self) inst callee args g hinst hdata hg
  have harg {j : Nat} {x : Val} (hmode : g.paramModes[j]? = some .exclusive)
      (hx : xs[j]? = some x) :
      ∃ v, args[j]? = some v ∧ f.IsCell m v ∧ env[v]? = some x := by
    obtain ⟨v, hv, hvx⟩ := getElem?_of_forall₂ hxs.flip hx
    exact ⟨v, hv, hcells j v hv hmode, hvx⟩
  refine ⟨fun j x hmode hx => ?_, fun j k id hmode hmode' hx hx' => ?_⟩
  · obtain ⟨v, -, hv, hvx⟩ := harg hmode hx
    exact h.cells v x hv hvx
  · obtain ⟨v, hj, hv, hvx⟩ := harg hmode hx
    obtain ⟨w, hk, hw, hwx⟩ := harg hmode' hx'
    obtain rfl := h.apart v w id hv hw hvx hwx
    exact index_eq_of_nodup_exclusiveOf hnodup hj hk hmode hmode'

/-- Two parameters that are passed exclusively are bound to different cells. -/
theorem params_apart (h : FrameApart m f size frame) {entry : BlockId}
    (hentry : f.entry = some entry) {i j : Nat} (hne : i ≠ j) {p q : ValueId}
    (hp : (m.block entry).params[i]? = some p) (hq : (m.block entry).params[j]? = some q)
    (hi : f.paramModes[i]? = some .exclusive) (hj : f.paramModes[j]? = some .exclusive) :
    ∃ a b, frame.env[p]? = some (.cell a) ∧ frame.env[q]? = some (.cell b) ∧ a ≠ b := by
  have hf := h.function
  obtain ⟨entry', hmem, hentry'⟩ := hf.verified.entry
  obtain rfl := Option.some.inj (hentry.symm.trans hentry')
  have hbound {k : Nat} {v : ValueId} (hv : (m.block entry).params[k]? = some v)
      (hk : f.paramModes[k]? = some .exclusive) : f.IsCell m v ∧
      ∃ id, frame.env[v]? = some (.cell id) := by
    have hcell := (hf.params entry hmem k v hv).mpr ⟨hentry, hk⟩
    obtain ⟨x, hx⟩ := Option.isSome_iff_exists.mp
      (Std.HashMap.mem_iff_isSome_getElem?.mp (h.params entry hentry v (List.mem_of_getElem? hv)))
    obtain ⟨id, -, rfl⟩ := h.cells v x hcell hx
    exact ⟨hcell, id, hx⟩
  obtain ⟨hcell, a, ha⟩ := hbound hp hi
  obtain ⟨hcell', b, hb⟩ := hbound hq hj
  refine ⟨a, b, ha, hb, ?_⟩
  rintro rfl
  obtain rfl := h.apart p q a hcell hcell' ha hb
  -- a parameter stands at one place only
  obtain ⟨value, hvalue, hsite⟩ := hf.verified.param_site entry hmem i p hp
  obtain ⟨value', hvalue', hsite'⟩ := hf.verified.param_site entry hmem j p hq
  obtain rfl := Option.some.inj (hvalue.symm.trans hvalue')
  exact hne (DefSite.param.inj (hsite.symm.trans hsite')).2

end FrameApart

/-! ## Arguments from outside -/

/-- An exclusive argument that is put in front of others. -/
theorem ArgsApart.cons {modes : List PassMode} {size id : Nat} {xs : List Val}
    (h : ArgsApart modes size xs) (hid : id < size)
    (hnew : ∀ i : Nat, modes[i]? = some .exclusive → xs[i]? ≠ some (.cell id)) :
    ArgsApart (.exclusive :: modes) size (.cell id :: xs) := by
  refine ⟨fun i x hmode hx => ?_, fun i j id' hi hj hxi hxj => ?_⟩
  · cases i with
    | zero =>
      obtain rfl := Option.some.inj hx
      exact ⟨id, hid, rfl⟩
    | succ i => exact h.cells i x hmode hx
  · cases i with
    | zero =>
      cases j with
      | zero => rfl
      | succ j =>
        cases Option.some.inj hxi
        exact absurd hxj (hnew j hj)
    | succ i =>
      cases j with
      | zero =>
        cases Option.some.inj hxj
        exact absurd hxi (hnew i hi)
      | succ j => exact congrArg (· + 1) (h.apart i j id' hi hj hxi hxj)

/-- An argument that is not exclusive does not matter. -/
theorem ArgsApart.cons_word {modes : List PassMode} {size : Nat} {xs : List Val}
    (h : ArgsApart modes.tail size xs) (hmode : modes[0]? ≠ some .exclusive) (w : UInt64) :
    ArgsApart modes size (.word w :: xs) := by
  have htail (i : Nat) (hi : modes[i + 1]? = some .exclusive) :
      modes.tail[i]? = some .exclusive := by
    rwa [List.getElem?_tail]
  refine ⟨fun i x hi hx => ?_, fun i j id hi hj hxi hxj => ?_⟩
  · cases i with
    | zero => exact absurd hi hmode
    | succ i => exact h.cells i x (htail i hi) hx
  · cases i with
    | zero => exact absurd hi hmode
    | succ i =>
      cases j with
      | zero => exact absurd hj hmode
      | succ j => exact congrArg (· + 1) (h.apart i j id (htail i hi) (htail j hj) hxi hxj)

/-- Words from outside that are passed exclusively are put into cells of their own, all of them
new. -/
theorem prepareArgs_apart (args : List UInt64) (modes : List PassMode) (s : Store) :
    s.cells.size ≤ (prepareArgs args modes s).2.cells.size ∧
      ArgsApart modes (prepareArgs args modes s).2.cells.size (prepareArgs args modes s).1 ∧
      ∀ id, .cell id ∈ (prepareArgs args modes s).1 → s.cells.size ≤ id := by
  fun_induction prepareArgs args modes s with
  | case1 modes s => exact ⟨Nat.le_refl _, ⟨by simp, by simp⟩, by simp⟩
  | case2 w ws modes s xs s' hrest ih =>
    rw [hrest] at ih
    obtain ⟨hle, hapart, hnew⟩ := ih
    rw [Array.size_push] at hle hnew
    have hfresh (i : Nat) : xs[i]? ≠ some (.cell s.cells.size) := by
      intro hi
      have := hnew s.cells.size (List.mem_of_getElem? hi)
      omega
    refine ⟨(Nat.le_succ _).trans hle, hapart.cons hle fun i _ => hfresh i, fun id hid => ?_⟩
    rcases List.mem_cons.mp hid with heq | hid
    · cases heq
      exact Nat.le_refl _
    · have := hnew id hid
      omega
  | case3 w ws modes s hmode xs s' hrest ih =>
    rw [hrest] at ih
    obtain ⟨hle, hapart, hnew⟩ := ih
    have hmode : modes[0]? ≠ some .exclusive := by
      cases modes with
      | nil => simp
      | cons mode modes => exact fun heq => hmode modes (by rw [Option.some.inj heq])
    refine ⟨hle, hapart.cons_word hmode w, fun id hid => ?_⟩
    rcases List.mem_cons.mp hid with heq | hid
    · cases heq
    · exact hnew id hid

/-! ## Runs -/

/-- The references of every activation stand for different cells. What a caller waits for is no
reference. -/
structure ConfigApart (m : Module) (c : Config) : Prop where
  frame : ∃ f ∈ m.functions, f.excluded = false ∧ FrameApart m f c.store.cells.size c.frame
  callers : ∀ caller ∈ c.callers, ∃ f ∈ m.functions, f.excluded = false ∧
    FrameApart m f c.store.cells.size caller.frame ∧ ∀ v, caller.result = some v → ¬f.IsCell m v

section Runs

variable [Hashing] {m : Module}

/-- Every step keeps the references of activations apart. -/
theorem ConfigApart.step (hm : ∀ f ∈ m.functions, f.excluded = false → f.PassesCells m)
    {types : TypePool} {unit : String} {limits : EvalLimits} {c c' : Config} (h : ConfigApart m c)
    (hstep : Step { module := m, types, unit } limits c c') : ConfigApart m c' := by
  obtain ⟨⟨f, hf, hincl, hframe⟩, hcallers⟩ := h
  cases hstep with
  | @inst block i rest env callers depth steps store store' inst x steps_lt inst_eq
      not_call yields =>
    have hle := keepsCells_evalInst _ inst env store x store' yields
    refine ⟨⟨f, hf, hincl, hframe.tail.define hle fun v hv hcell => ?_⟩, fun caller hcaller => ?_⟩
    · obtain ⟨init, hdata⟩ := hframe.function.results block hframe.owned i
        (hframe.rest i List.mem_cons_self) inst v inst_eq hv hcell
      exact yields_refNew _ hdata yields
    · obtain ⟨g, hg, hincl', hapart, hresult⟩ := hcallers caller hcaller
      exact ⟨g, hg, hincl', hapart.mono hle, hresult⟩
  | @call block i rest env callers depth steps store inst callee args xs g entry steps_lt
      inst_eq data_eq args_eq callee_eq included entry_eq depth_lt =>
    have hi := hframe.rest i List.mem_cons_self
    obtain ⟨g', hg', hlength⟩ := hframe.function.verified.call_args block hframe.owned i hi
      inst callee args inst_eq data_eq
    obtain rfl := Option.some.inj (callee_eq.symm.trans hg')
    have hg := Array.mem_of_getElem? callee_eq
    have hxs := hframe.argsApart inst_eq data_eq callee_eq args_eq
    refine ⟨⟨g, hg, included, .activate (hm g hg included) entry_eq
      (args_eq.length_eq ▸ hlength) hxs⟩,
      fun caller hcaller => ?_⟩
    rcases List.mem_cons.mp hcaller with rfl | hcaller
    · refine ⟨f, hf, hincl, hframe.tail, fun v hv hcell => ?_⟩
      obtain ⟨init, hdata⟩ := hframe.function.results block hframe.owned i hi inst v
        inst_eq hv hcell
      cases data_eq.symm.trans hdata
    · exact hcallers caller hcaller
  | @goTo block target env callers depth steps store term args xs term_eq edge args_eq =>
    exact ⟨⟨f, hf, hincl, hframe.goTo term_eq edge xs⟩, hcallers⟩
  | @leave block env caller callers depth steps store value x term_eq returns =>
    obtain ⟨g, hg, hincl', hapart, hresult⟩ := hcallers caller List.mem_cons_self
    exact ⟨⟨g, hg, hincl', hapart.define (Nat.le_refl _) fun v hv hcell =>
      absurd hcell (hresult v hv)⟩,
      fun caller hcaller => hcallers caller (List.mem_cons_of_mem _ hcaller)⟩

/-- The references of every activation of a call from outside stand for different cells,
throughout. -/
theorem configApart_after (hm : ∀ f ∈ m.functions, f.excluded = false → f.PassesCells m)
    {types : TypePool} {unit : String} {limits : EvalLimits} {id : FuncId} {args : List UInt64}
    {ledger : Ledger} {f : Function} {start c : Config}
    (hstart : m.startEval id args ledger limits = .ok (f, start)) {n : Nat}
    (hafter : configAfter { module := m, types, unit } limits n start = some c) :
    ConfigApart m c := by
  obtain ⟨hf, hlength, hincl, -, entry, hentry, rfl⟩ := startEval_eq_ok.mp hstart
  have hmem := Array.mem_of_getElem? hf
  have hframe : FrameApart m f (prepareArgs args f.paramModes { ledger }).2.cells.size
      (activate m entry (prepareArgs args f.paramModes { ledger }).1) :=
    .activate (hm f hmem hincl) hentry ((length_prepareArgs _ _ _).trans hlength)
      (prepareArgs_apart args f.paramModes { ledger }).2.1
  exact Runs.invariant (runs_of_configAfter n hafter)
    ⟨⟨f, hmem, hincl, hframe⟩, fun caller hcaller => (by cases hcaller)⟩ fun c c' hc hstep =>
      hc.step hm hstep

end Runs

/-! ## Modules of documents -/

/-- How the functions of a module are passed their parameters. -/
theorem paramModes_buildModule (hir : Hir.Module) {types : TypePool} (htypes : types.Sound)
    (skip : Hir.FuncId → Bool) {id : FuncId} {f : Function}
    (hf : (buildModule hir types skip).module.functions[id]? = some f) :
    f.paramModes = passModes hir.functions id := by
  obtain ⟨fs, types', hsigs, heq⟩ := buildModule_eq hir htypes skip
  rw [heq] at hf
  have hmap := hsigs.map_functions (·.paramModes) (fun _ _ _ => rfl) id
  rw [hf, Option.map_some] at hmap
  obtain ⟨g, hg, hmodes⟩ := Option.map_eq_some_iff.mp hmap.symm
  obtain ⟨source, hsource, -⟩ := getElem?_of_forall₂ hsigs.declares.flip hg
  rw [Array.getElem?_toList] at hsource
  unfold passModes
  rw [← hmodes, (hsigs.flags id source g hsource hg).1, hsource]
  rfl

/-- If the functions of a document that fail the ownership check are left out, then in every
activation of every call, whatever has been executed, two parameters that are passed exclusively
stand for different cells: no store through one changes what a load through the other yields. -/
theorem exclusive_params_apart [Json.Library] [Hashing] {text docName : String} {sources : Sources}
    {doc : Hir.ReadOutcome} (hdoc : Hir.readDocument text docName {} sources = doc)
    (hok : doc.ok = true) {counting : Bool} {skip : Hir.FuncId → Bool}
    (hskip : ∀ id, skip id = false →
      (Hir.checkOwnership doc.module doc.types counting).functionOk[id]? = some true)
    {m : Module} (hm : (buildModule doc.module doc.types skip).module = m) {types : TypePool}
    {unit : String} {limits : EvalLimits} {id : FuncId} {args : List UInt64} {ledger : Ledger}
    {callee : Function} {start c : Config}
    (hstart : m.startEval id args ledger limits = .ok (callee, start)) {n : Nat}
    (hafter : configAfter { module := m, types, unit } limits n start = some c) {frame : Frame}
    (hframe : frame = c.frame ∨ ∃ caller ∈ c.callers, frame = caller.frame) :
    ∃ f ∈ m.functions, ∃ entry, f.entry = some entry ∧ frame.block ∈ f.blocks ∧
      ∀ (i j : Nat) (p q : ValueId), i ≠ j →
        f.paramModes[i]? = some .exclusive → f.paramModes[j]? = some .exclusive →
        (m.block entry).params[i]? = some p → (m.block entry).params[j]? = some q →
        ∃ a b, frame.env[p]? = some (.cell a) ∧ frame.env[q]? = some (.cell b) ∧ a ≠ b ∧
          ∀ (store load : Inst) (value : ValueId) (s s' : Store) (x : Val),
            store.data = .refStore p value → load.data = .refLoad q →
            Eval.Yields (EvalContext.evalInst ⟨m, types, unit⟩ store frame.env) s x s' →
            ((EvalContext.evalInst ⟨m, types, unit⟩ load frame.env).run s').1 =
              ((EvalContext.evalInst ⟨m, types, unit⟩ load frame.env).run s).1 := by
  have hcells : ∀ f ∈ m.functions, f.excluded = false → f.PassesCells m := by
    subst hdoc hm
    obtain ⟨hsound, htyped⟩ := Hir.typed_readDocument text docName TypePool.sound_default sources
    obtain ⟨hscoped, hvalued⟩ := Hir.scoped_readDocument text docName sources
    have hcomplete := complete_buildModule (htyped hok) hsound hvalued hscoped skip
      fun id source hsource hincl (_ : True) =>
        Hir.separate_of_checkOwnership (htyped hok) hsource (hskip id hincl)
    have hverify := verify_of_complete (typed_buildModule (htyped hok) hsound skip) hcomplete
    intro f hf hincl
    obtain ⟨id, hid⟩ := Array.getElem?_of_mem hf
    obtain ⟨K, hK, hbody⟩ := hcomplete.body f hf hincl
    refine hbody.passesCells (Module.verified_of_verify hverify hid hincl)
      (hK.disjoint ▸ trivial) ?_
    rw [hK.functions]
    exact fun id g hg => paramModes_buildModule _ hsound skip hg
  have hapart := configApart_after hcells hstart hafter
  obtain ⟨f, hf, size, hframe⟩ : ∃ f ∈ m.functions, ∃ size, FrameApart m f size frame := by
    rcases hframe with rfl | ⟨caller, hcaller, rfl⟩
    · obtain ⟨f, hf, -, hframe⟩ := hapart.frame
      exact ⟨f, hf, _, hframe⟩
    · obtain ⟨f, hf, -, hframe, -⟩ := hapart.callers caller hcaller
      exact ⟨f, hf, _, hframe⟩
  obtain ⟨entry, -, hentry⟩ := hframe.function.verified.entry
  refine ⟨f, hf, entry, hentry, hframe.owned, fun i j p q hne hi hj hp hq => ?_⟩
  obtain ⟨a, b, ha, hb, hab⟩ := hframe.params_apart hentry hne hp hq hi hj
  exact ⟨a, b, ha, hb, hab, fun store load value s s' x hstore hload hyields =>
    run_refLoad_of_refStore _ ha hb hab hstore hload hyields⟩

/-! ### A function that copies one of its exclusive parameters to the other, and one that calls
it -/

/-- The functions as a document. The second one passes its parameters on in the other order. -/
def copyText : String :=
  "\x7b\"unit\":\"t\",\"fns\":[" ++
  "\x7b\"name\":\"f\",\"params\":[[\"a\",\"u64\",\"mut\"],[\"b\",\"u64\",\"mut\"]]," ++
  "\"body\":[\x7b\"set\":\"a\",\"value\":\"b\"\x7d]\x7d," ++
  "\x7b\"name\":\"g\",\"params\":[[\"x\",\"u64\",\"mut\"],[\"y\",\"u64\",\"mut\"]]," ++
  "\"body\":[\x7b\"call\":\"f\",\"args\":[\"y\",\"x\"]\x7d]\x7d]\x7d"

/-- What the document says. -/
def copyJson : Json := .object
  [("fns", .array [
      .object [("body", .array [.object [("set", .string "a"), ("value", .string "b")]]),
        ("name", .string "f"), ("params", .array
          [.array [.string "a", .string "u64", .string "mut"],
            .array [.string "b", .string "u64", .string "mut"]])],
            .object [("body", .array [.object [("args", .array [.string "y", .string "x"]),
              ("call", .string "f")]]), ("name", .string "g"),
              ("params", .array [.array [.string "x", .string "u64", .string "mut"],
          .array [.string "y", .string "u64", .string "mut"]])]]),
    ("unit", .string "t")]

/-- An exclusively passed number. -/
def copyParam (name : String) (sym : Hir.SymbolId) : Hir.Param :=
  { name, type := Builtin.u64.id, pass := .exclusive, mutable := true, sym }

/-- Its symbol. -/
def copySymbol (name : String) : Hir.Symbol :=
  { name, type := Builtin.u64.id, mutable := true, pass := some .exclusive }

/-- The program that is read. -/
def copyHir : Hir.Module where
  unit := "t"
  functions := #[
    { name := "f", ret := Builtin.unit.id, params := [copyParam "a" 0, copyParam "b" 1]
      body := [.assign {} 0 none (.local ⟨0, {}, Builtin.u64.id⟩ 1)] },
    { name := "g", ret := Builtin.unit.id, params := [copyParam "x" 2, copyParam "y" 3]
      body := [.expr {} (.call ⟨3, {}, Builtin.unit.id⟩ 0
        [.local ⟨1, {}, Builtin.u64.id⟩ 3, .local ⟨2, {}, Builtin.u64.id⟩ 2])] }]
  symbols := #[copySymbol "a", copySymbol "b", copySymbol "x", copySymbol "y"]
  stmtCount := 2
  exprCount := 4

/-- The module that is built. -/
def copyModule : Module where
  unit := "t"
  functions := #[
    { name := "f", ret := 1, paramTypes := [12, 12], paramModes := [.exclusive, .exclusive],
      blocks := [0]
      entry := some 0 },
    { name := "g", ret := 1, paramTypes := [12, 12], paramModes := [.exclusive, .exclusive],
      blocks := [1]
      entry := some 1 }]
  blocks := #[{ params := [0, 1], insts := [0, 1], term := some (.ret none) },
    { params := [3, 4], insts := [2], term := some (.ret none) }]
  insts := #[{ data := .refLoad 1, effect := .readsMemory, result := some 2 },
    { data := .refStore 0 2, effect := .writesMemory }, { data := .call 0 [4, 3], effect := .call }]
  values := #[{ type := 12, site := .param 0 0 }, { type := 12, site := .param 0 1 },
    { type := 10, effect := .readsMemory, site := .inst 0 }, { type := 12, site := .param 1 0 },
    { type := 12, site := .param 1 1 }]

set_option maxRecDepth 100000 in
theorem parse_copyText : @Json.Library.parse? .standard copyText = some copyJson := by
  apply Json.parse?_eq_of_value?
  · unfold copyText
    iterate 4 apply Json.toList_append_eq
    all_goals exact Json.toList_eq_of_ofList rfl
  · unfold copyJson
    dsimp only [List.cons_append, List.nil_append]
    with_unfolding_all rfl

theorem read_copyText : ∃ doc, @Hir.readDocument .standard copyText "t" {} {} = doc ∧
    (doc.module, doc.types, doc.ok) = (copyHir, {}, true) := by
  refine ⟨_, rfl, ?_⟩
  unfold Hir.readDocument
  rw [parse_copyText]
  decide +kernel

theorem build_copyHir :
    (buildModule copyHir {} fun id => decide (id ≠ 0 ∧ id ≠ 1)).module = copyModule := by
  have hsignatures :
      signatures {} (copyHir.functions.toList.zipIdx.map fun p =>
        (p.1, decide (p.2 ≠ 0 ∧ p.2 ≠ 1))) =
      ([{ name := "f", ret := 1, paramTypes := [12, 12], paramModes := [.exclusive, .exclusive] },
        { name := "g", ret := 1, paramTypes := [12, 12], paramModes := [.exclusive, .exclusive] }],
        (TypePool.ref {} Builtin.u64.id).2) := by
    decide +kernel
  rw [buildModule_of_signatures hsignatures]
  unfold copyHir
  -- the code of statements does not compute by itself, so it is unrolled first
  simp -zeta only [List.zip_cons_cons, buildBodies, Bool.false_eq_true, if_false, lowerFunction,
    lowerBlock, lowerStmts, lowerStmt]
  decide +kernel

theorem functionOk_copyHir : (Hir.checkOwnership copyHir {} true).functionOk = #[true, true] := by
  unfold copyHir copyParam copySymbol
  simp -zeta only [Hir.checkOwnership, Hir.checkFunctions, Hir.Checker.checkFunction,
    Hir.Checker.checkBlock, Hir.Checker.checkStmts, Hir.Checker.checkStmt]
  decide +kernel

/-- The configuration in which the second function starts. -/
def copyStart : Config where
  frame := { block := 1, rest := [2], env := (({} : Env).insert 3 (.cell 0)).insert 4 (.cell 1) }
  store := { cells := #[.word 5, .word 6], ledger := {} }

theorem run_valueList_copyStart (s : Store) :
    (copyStart.frame.env.valueList [4, 3]).run s = (.ok [.cell 1, .cell 0], s) := by
  have hfirst : copyStart.frame.env[3]? = some (.cell 0) := by
    rw [copyStart, Std.HashMap.getElem?_insert, Std.HashMap.getElem?_insert]
    rfl
  have hsecond : copyStart.frame.env[4]? = some (.cell 1) := by
    rw [copyStart, Std.HashMap.getElem?_insert]
    rfl
  unfold Env.valueList Env.valueList Env.valueList Env.value
  rw [hfirst, hsecond]
  rfl

/-- The configuration after the call of the first function. -/
def copyCalled : Config where
  frame := activate copyModule 0 [.cell 1, .cell 0]
  callers := [{ frame := { copyStart.frame with rest := [] }, result := none }]
  depth := 2
  steps := 1
  store := copyStart.store

theorem step_copyStart [Hashing] :
    step { module := copyModule, types := {}, unit := "t" } {} copyStart = .next copyCalled := by
  refine (step_of_call (by decide) rfl rfl (run_valueList_copyStart _)).trans ?_
  rfl

/-- Called from outside, the second function hands the cells that it is passed on to the first
one. -/
theorem exclusive_params_apart_copy :
    (∃ g, copyModule.startEval 1 [5, 6] {} {} = .ok (g, copyStart)) ∧
      @configAfter Hashing.sha256 { module := copyModule, types := {}, unit := "t" } {} 1
        copyStart = some copyCalled ∧
      ∃ a b, copyCalled.frame.env[0]? = some (.cell a) ∧
        copyCalled.frame.env[1]? = some (.cell b) ∧ a ≠ b := by
  let : Hashing := Hashing.sha256
  obtain ⟨doc, hdoc, hread⟩ := read_copyText
  obtain ⟨hmodule, htypes, hok⟩ : doc.module = copyHir ∧ doc.types = {} ∧ doc.ok = true := by
    simpa only [Prod.mk.injEq] using hread
  have hskip (id : Hir.FuncId) (h : decide (id ≠ 0 ∧ id ≠ 1) = false) :
      (Hir.checkOwnership doc.module doc.types true).functionOk[id]? = some true := by
    rw [hmodule, htypes, functionOk_copyHir]
    rcases not_and_or.mp (of_decide_eq_false h) with hid | hid
    · rw [of_not_not hid]
      rfl
    · rw [of_not_not hid]
      rfl
  have hbuild : (buildModule doc.module doc.types fun id => decide (id ≠ 0 ∧ id ≠ 1)).module =
      copyModule := by
    rw [hmodule, htypes]
    exact build_copyHir
  have hstart : copyModule.startEval 1 [5, 6] {} {} =
      .ok (copyModule.functions[1], copyStart) := rfl
  have hafter : configAfter { module := copyModule, types := {}, unit := "t" } {} 1 copyStart =
      some copyCalled :=
    configAfter_succ step_copyStart
  obtain ⟨f, hf, entry, hentry, howned, hapart⟩ :=
    @exclusive_params_apart .standard _ _ _ _ _ hdoc hok _ _ hskip _ hbuild _ _ _ _ _ _ _ _ _
      hstart _ hafter _ (.inl rfl)
  -- the first function owns the block
  obtain rfl : f = copyModule.functions[0] := by
    simp [copyModule] at hf
    rcases hf with rfl | rfl
    · rfl
    · simp [copyCalled, activate] at howned
  obtain rfl := Option.some.inj hentry
  obtain ⟨a, b, ha, hb, hne, -⟩ := hapart 0 1 0 1 (by decide) rfl rfl rfl rfl
  exact ⟨⟨_, hstart⟩, hafter, a, b, ha, hb, hne⟩

end ContractCompiler.Ssa
