import ContractCompiler.Proofs.Codegen.Selection
import ContractCompiler.Proofs.Gas
import Mathlib.Algebra.Order.BigOperators.Group.List
import Mathlib.Data.Finset.Card
import Mathlib.Data.Nat.ModEq

/-!
# Exact costs

What functions cost with all that they call, in numbers without a bound. Estimates are words: the
costs of instructions are added up modulo the range of words, and those of calls stop at the
greatest word. As long as the exact cost of a function is a word, its estimate is that cost, unless
calls go in a cycle below it.

- `Item.price`, `Piece.price`, `LoweredFunction.price`: what code costs by itself;
- `exactGas`, `unitCost`: what a function costs with what it calls;
- `CallsEnd`: no calls go in a cycle below a function;
- `unitCost_eq`: the cost of a function is that of its code and of what it calls;
- `toNat_estimateGas`: the estimate of a function is its cost.
-/

namespace ContractCompiler

open Ssa (FuncId)
open Relation

/-! ## Sums of words -/

/-- A sum of words agrees with the sum of numbers that the words agree with. -/
theorem foldl_add_modEq {α : Type} {g : α → UInt64} {n : α → Nat} {xs : List α}
    (h : ∀ x ∈ xs, (g x).toNat ≡ n x [MOD 2 ^ 64]) (a : UInt64) :
    (xs.foldl (fun sum x => sum + g x) a).toNat ≡ a.toNat + (xs.map n).sum [MOD 2 ^ 64] := by
  induction xs generalizing a with
  | nil => rfl
  | cons x xs ih =>
    have hx : (a + g x).toNat ≡ a.toNat + n x [MOD 2 ^ 64] := by
      rw [UInt64.toNat_add]
      exact (Nat.mod_modEq _ _).trans ((h x List.mem_cons_self).add_left _)
    rw [List.foldl_cons, List.map_cons, List.sum_cons, ← Nat.add_assoc]
    exact (ih (fun y hy => h y (List.mem_cons_of_mem x hy)) _).trans (hx.add_right _)

/-- Calls that are added up to a word are added up exactly. -/
theorem toNat_foldl_satAdd (total : Nat → UInt64) (calls : List GasCall) (a : UInt64)
    (h : a.toNat + (calls.map fun call => call.weight.toNat * (total call.callee).toNat).sum <
      2 ^ 64) :
    (calls.foldl (fun sum call => satAdd sum (satMul call.weight (total call.callee))) a).toNat =
      a.toNat + (calls.map fun call => call.weight.toNat * (total call.callee).toNat).sum := by
  induction calls generalizing a with
  | nil => rfl
  | cons call calls ih =>
    rw [List.map_cons, List.sum_cons] at h ⊢
    have hmul : (satMul call.weight (total call.callee)).toNat =
        call.weight.toNat * (total call.callee).toNat := by
      rw [toNat_satMul]
      omega
    have hadd : (satAdd a (satMul call.weight (total call.callee))).toNat =
        a.toNat + call.weight.toNat * (total call.callee).toNat := by
      rw [toNat_satAdd, hmul]
      omega
    rw [List.foldl_cons, ih _ (by omega), hadd, Nat.add_assoc]

namespace Codegen

/-! ## Code -/

/-- What an element of code costs where it stands in no loop: its operation, and what the host asks
for a call. -/
def Item.price (t : GasTable) (i : Item) : Nat :=
  ((i.op?.map t.opCost).getD 0).toNat + ((i.hostOp?.bind HostRef.ofOp?).map
    (·.function.gas.toNat)).getD 0

/-- What a piece of code costs by itself. -/
def Piece.price (t : GasTable) (p : Piece) : Nat :=
  (p.items.map fun i => i.price t * p.weight.toNat).sum

/-- What the code of a function costs by itself. -/
def LoweredFunction.price (t : GasTable) (f : LoweredFunction) : Nat :=
  (f.pieces.map (·.price t)).sum

theorem toNat_cost_modEq (t : GasTable) (i : Item) : (i.cost t).toNat ≡ i.price t [MOD 2 ^ 64] := by
  cases i with
  | callHost op =>
    unfold Item.cost Item.price
    dsimp only [Item.hostOp?, Option.bind_some]
    rw [UInt64.toNat_add]
    cases HostRef.ofOp? op <;> exact Nat.mod_modEq _ _
  | _ => rfl

theorem toNat_pieceCost_modEq (t : GasTable) (p : Piece) :
    (p.cost t).toNat ≡ p.price t [MOD 2 ^ 64] := by
  unfold Piece.cost Piece.price
  refine (foldl_add_modEq (fun i _ => ?_) 0).trans (by rw [UInt64.toNat_zero, Nat.zero_add])
  rw [UInt64.toNat_mul]
  exact (Nat.mod_modEq _ _).trans ((toNat_cost_modEq t i).mul_right _)

/-- The local cost that the estimate is made from is the cost of the code, if that is a word. -/
theorem toNat_local_gas {t : GasTable} {f : LoweredFunction} (h : f.price t < 2 ^ 64) :
    (f.gas t).local.toNat = f.price t := by
  have hmod : (f.gas t).local.toNat ≡ 0 + f.price t [MOD 2 ^ 64] :=
    foldl_add_modEq (fun p _ => toNat_pieceCost_modEq t p) 0
  rw [Nat.zero_add] at hmod
  exact hmod.eq_of_lt_of_lt (UInt64.toNat_lt _) h

/-! ## Functions -/

section Units

variable [Hashing] (m : Ssa.Module) (types : TypePool) (options : CodegenOptions)

/-- What a function of a unit costs with what it calls, with calls followed to some depth. -/
def exactGas : Nat → FuncId → Nat
  | 0, _ => 0
  | depth + 1, id =>
    match (lowered m types options).code? id with
    | none => 0
    | some code =>
      code.price options.gas +
        ((code.gas options.gas).calls.map fun call => call.weight.toNat *
          exactGas depth call.callee).sum

/-- What a function of a unit costs with what it calls. No calls are nested deeper than there are
functions, unless they go in a cycle. -/
def unitCost (id : FuncId) : Nat := exactGas m types options m.functions.size id

/-- No calls go in a cycle below a function. -/
def CallsEnd (m : Ssa.Module) (id : FuncId) : Prop :=
  ∀ c, ReflTransGen m.Calls id c → ¬TransGen m.Calls c c

end Units

section Units

variable [Hashing] {m : Ssa.Module} {types : TypePool} {options : CodegenOptions} {id c : FuncId}
  {code : LoweredFunction}

omit [Hashing] in
theorem CallsEnd.of_calls (h : CallsEnd m id) (hcalls : m.Calls id c) : CallsEnd m c :=
  fun x hx => h x (.head hcalls hx)

theorem getElem?_unitGas {g : FunctionGas} : (unitGas m types options)[id]? = some (some g) ↔
    ∃ code, (lowered m types options).code? id = some code ∧ code.gas options.gas = g := by
  unfold unitGas
  rw [Array.getElem?_map, Array.getElem?_range]
  constructor
  · intro h
    split at h
    · exact Option.map_eq_some_iff.mp (Option.some.inj h)
    · cases h
  · rintro ⟨code, hcode, rfl⟩
    obtain ⟨f, hf, -⟩ := exists_function_of_code? hcode
    rw [if_pos (Array.getElem?_eq_some_iff.mp hf).1, Option.map_some, hcode]
    rfl

/-- The calls that the estimate of a function is made from are those of the function. -/
theorem exists_call_iff (hcode : (lowered m types options).code? id = some code) :
    (∃ call ∈ (code.gas options.gas).calls, call.callee = c) ↔ m.Calls id c := by
  obtain ⟨f, hf, -, rfl, hfaults⟩ := exists_function_of_code? hcode
  have hitems :
      ∀ fault, .fault fault ∉ (lowerFunction m types (unitOf m options) options f).items := by
    intro fault hmem
    obtain ⟨p, hp, hmem⟩ := List.mem_flatMap.mp hmem
    exact hfaults p hp fault hmem
  rw [← mem_callSites hf, ← callee?_items hitems]
  unfold LoweredFunction.gas LoweredFunction.items Piece.gasCalls
  simp only [List.mem_flatMap, List.mem_filterMap, Option.map_eq_some_iff]
  constructor
  · rintro ⟨_, ⟨p, hp, i, hi, callee, hcallee, rfl⟩, rfl⟩
    exact ⟨i, ⟨p, hp, hi⟩, hcallee⟩
  · rintro ⟨i, ⟨p, hp, hi⟩, hcallee⟩
    exact ⟨_, ⟨p, hp, i, hi, c, hcallee, rfl⟩, rfl⟩

theorem calls_of_unitGas (h : Gas.Calls (unitGas m types options) id c) : m.Calls id c := by
  obtain ⟨g, hg, hcall⟩ := h
  obtain ⟨code, hcode, rfl⟩ := getElem?_unitGas.mp hg
  exact (exists_call_iff hcode).mp hcall

theorem CallsEnd.not_cycle (h : CallsEnd m id) :
    ¬TransGen (Gas.Calls (unitGas m types options)) id id :=
  fun hcycle => h id .refl (hcycle.lift (fun x => x) fun _ _ => calls_of_unitGas)

/-- A function that has code calls functions of the unit, with less below them. -/
theorem CallsEnd.card_below_lt (h : CallsEnd m id)
    (hcode : (lowered m types options).code? id = some code) {call : GasCall}
    (hcall : call ∈ (code.gas options.gas).calls) : CallsEnd m call.callee ∧
      ∃ code', (lowered m types options).code? call.callee = some code' ∧
        (Gas.below (unitGas m types options) call.callee).card <
          (Gas.below (unitGas m types options) id).card := by
  have hcalls := (exists_call_iff hcode).mp ⟨call, hcall, rfl⟩
  obtain ⟨p, hp, i, hi, hcallee⟩ :
      ∃ p ∈ code.pieces, ∃ i ∈ p.items, i.callee? = some call.callee := by
    obtain ⟨p, hp, hcall⟩ := List.mem_flatMap.mp hcall
    obtain ⟨i, hi, hcallee⟩ := List.mem_filterMap.mp hcall
    obtain ⟨callee, hcallee', rfl⟩ := Option.map_eq_some_iff.mp hcallee
    exact ⟨p, hp, i, hi, hcallee'⟩
  have hitem : i = .call call.callee := by
    cases i with
    | call callee => exact congrArg Item.call (Option.some.inj hcallee)
    | _ => cases hcallee
  obtain ⟨code', hcode'⟩ := exists_code_of_call hcode hp (hitem ▸ hi)
  have hend := h.of_calls hcalls
  refine ⟨hend, code', hcode', Gas.card_below_lt ⟨_, getElem?_unitGas.mpr ⟨code, hcode, rfl⟩, call,
    hcall, rfl⟩ ?_ hend.not_cycle⟩
  exact (Array.getElem?_eq_some_iff.mp (getElem?_unitGas.mpr ⟨code', hcode', rfl⟩)).1

/-! ## The cost of a function -/

/-- It does not matter how deep calls are followed if it is deep enough. By induction on the depth:
there is less below what is called. -/
theorem exactGas_eq {depth depth' : Nat} (h : CallsEnd m id)
    (hdepth : (Gas.below (unitGas m types options) id).card < depth)
    (hdepth' : (Gas.below (unitGas m types options) id).card < depth') :
    exactGas m types options depth id = exactGas m types options depth' id := by
  induction depth generalizing depth' id with
  | zero => cases hdepth
  | succ depth ih =>
    cases depth' with
    | zero => cases hdepth'
    | succ depth' =>
      unfold exactGas
      cases hcode : (lowered m types options).code? id with
      | none => rfl
      | some code =>
        dsimp only
        refine congrArg (fun costs : List Nat => code.price options.gas + costs.sum) ?_
        refine List.map_congr_left fun call hcall => ?_
        obtain ⟨hend, -, -, hlt⟩ := h.card_below_lt hcode hcall
        have heq : exactGas m types options depth call.callee =
            exactGas m types options depth' call.callee :=
          ih hend (by omega) (by omega)
        rw [heq]

theorem card_below_lt_size (h : CallsEnd m id)
    (hcode : (lowered m types options).code? id = some code) :
    (Gas.below (unitGas m types options) id).card < m.functions.size := by
  have hsize : (unitGas m types options).size = m.functions.size := by
    unfold unitGas
    rw [Array.size_map, Array.size_range]
  have hlt : id < (unitGas m types options).size :=
    (Array.getElem?_eq_some_iff.mp (getElem?_unitGas.mpr ⟨code, hcode, rfl⟩)).1
  have hsub : Gas.below (unitGas m types options) id ⊆
      (Finset.range m.functions.size).erase id := by
    intro c hc
    obtain ⟨hc, hreach⟩ := Gas.mem_below.mp hc
    refine Finset.mem_erase.mpr ⟨?_, Finset.mem_range.mpr (hsize ▸ hc)⟩
    rintro rfl
    exact h.not_cycle hreach
  have hcard := Finset.card_le_card hsub
  rw [Finset.card_erase_of_mem (Finset.mem_range.mpr (hsize ▸ hlt)), Finset.card_range] at hcard
  rw [hsize] at hlt
  exact Nat.lt_of_le_of_lt hcard (Nat.sub_lt (Nat.zero_lt_of_lt hlt) Nat.one_pos)

/-- A function costs what its code and its calls cost. -/
theorem unitCost_eq (h : CallsEnd m id) (hcode : (lowered m types options).code? id = some code) :
    unitCost m types options id = code.price options.gas +
      ((code.gas options.gas).calls.map fun call => call.weight.toNat *
        unitCost m types options call.callee).sum := by
  have hsize := card_below_lt_size h hcode
  obtain ⟨n, hn⟩ : ∃ n, m.functions.size = n + 1 := Nat.exists_eq_succ_of_ne_zero (by omega)
  unfold unitCost
  rw [hn, exactGas, hcode]
  dsimp only
  refine congrArg (fun costs : List Nat => code.price options.gas + costs.sum) ?_
  refine List.map_congr_left fun call hcall => ?_
  obtain ⟨hend, -, -, hlt⟩ := h.card_below_lt hcode hcall
  have heq : exactGas m types options n call.callee = exactGas m types options (n + 1)
      call.callee :=
    exactGas_eq hend (by omega) (by omega)
  rw [heq]

/-- The estimate of a function is its cost, if that is a word and every call weighs something. By
induction on what is below the function. -/
theorem toNat_estimateGas (h : CallsEnd m id)
    (hcode : (lowered m types options).code? id = some code)
    (hweights : ∀ c code, ReflTransGen m.Calls id c →
      (lowered m types options).code? c = some code →
      ∀ call ∈ (code.gas options.gas).calls, 1 ≤ call.weight.toNat)
    (hcost : unitCost m types options id < 2 ^ 64) :
    ((estimateGas (unitGas m types options)).getD id 0).toNat = unitCost m types options id := by
  induction hn : (Gas.below (unitGas m types options) id).card using Nat.strong_induction_on
      generalizing id code with
  | _ n ih =>
    subst hn
    have heq := unitCost_eq h hcode
    rw [heq] at hcost
    have hcallees : (code.gas options.gas).calls.map (fun call => call.weight.toNat *
          ((estimateGas (unitGas m types options)).getD call.callee 0).toNat) =
        (code.gas options.gas).calls.map fun call => call.weight.toNat *
            unitCost m types options call.callee := by
      refine List.map_congr_left fun call hcall => ?_
      obtain ⟨hend, code', hcode', hlt⟩ := h.card_below_lt hcode hcall
      have hcalls := (exists_call_iff hcode).mp ⟨call, hcall, rfl⟩
      have hle : unitCost m types options call.callee ≤
          ((code.gas options.gas).calls.map fun call => call.weight.toNat *
            unitCost m types options call.callee).sum := by
        refine le_trans ?_ (List.single_le_sum (fun _ _ => Nat.zero_le _) _
          (List.mem_map_of_mem hcall))
        exact Nat.le_mul_of_pos_left _ (hweights id code .refl hcode call hcall)
      rw [ih _ hlt hend hcode' (fun c code hreach => hweights c code (.head hcalls hreach))
        (by omega) rfl]
    have hlocal : (code.gas options.gas).local.toNat = code.price options.gas :=
      toNat_local_gas (by omega)
    rw [Gas.estimateGas_eq_sumCalls (getElem?_unitGas.mpr ⟨code, hcode, rfl⟩) h.not_cycle]
    refine (toNat_foldl_satAdd ((estimateGas (unitGas m types options)).getD · 0) _ _ ?_).trans ?_
    · rw [hlocal, hcallees]
      exact hcost
    · rw [hlocal, hcallees, heq]

end Units

end Codegen

end ContractCompiler
