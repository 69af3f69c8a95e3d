import ContractCompiler.Proofs.Codegen.ExactCost
import ContractCompiler.Proofs.Codegen.Routes
import ContractCompiler.Proofs.Ssa.Enclosed

/-!
# What functions without loops spend

Where neither the blocks of functions nor their calls go in a cycle, a call that returns or reverts
spends no more than the estimate of its function. Control comes to no position twice, so that each
activation pays at most once for each instruction of its function; the code of shared failures is
not counted, but whatever gets there gives up.

- `Item.stake_encode`, `sum_stake_pieces`: instructions cost what their elements cost, with what
  they call;
- `FunctionContext.forward_body`: control comes to no position of the code of blocks twice;
- `FunctionContext.sum_stakeAt_body`: what the positions of the code of blocks cost;
- `LoopFree`: no cycles of blocks or calls in and below a function;
- `budgets_compile`: exact costs are budgets of the functions below one without cycles;
- `spent_le_gas`: the estimate covers every call that returns or reverts.
-/

namespace ContractCompiler.Codegen

open Ssa (BlockId FuncId)
open Relation

/-! ## Instructions -/

section Instructions

variable {link : Linkage} {position : Target → Nat} {m : Vm.Module} {t : GasTable}
  {total : Nat → Nat}
  {targets : List BlockId} {i : Item}

/-- The bytecode names the host operations that the code means. -/
def NamesHost (link : Linkage) (m : Vm.Module) (ops : List HostOp) : Prop :=
  ∀ op ∈ ops, ∃ ref, HostRef.ofOp? op = some ref ∧
    m.hostRef? (link.host op).toUInt32.toNat = some ref

theorem op_of_ofOp? {op : HostOp} {ref : HostRef} (h : HostRef.ofOp? op = some ref) :
    ref.function.op = op := by
  have hfound := List.find?_some h
  simpa using hfound

/-- An instruction costs what its element costs, and what the function costs that it calls. -/
theorem Item.stake_encode (hleads : i.LeadsTo targets) (hhost : NamesHost link m i.hostOp?.toList) :
    (i.encode link position).elim 0 (Vm.Instr.stake t m total) =
      i.price t + i.callee?.elim 0 fun c => total (link.function c).toNat := by
  unfold Item.price
  cases i with
  | instr ins =>
    have hop : ins.op ≠ .callHost ∧ ins.op ≠ .call := by
      rcases hleads with hplain | hop | hop
      · constructor <;>
        · intro heq
          rw [heq] at hplain
          cases hplain
      · simp [hop]
      · simp [hop]
    simp [Item.encode, Vm.Instr.stake, Vm.Instr.price, hop, Item.op?, Item.hostOp?, Item.callee?]
  | jump o target =>
    have hop : o ≠ .callHost ∧ o ≠ .call := by
      rcases hleads.1 with hop | hop | hop <;> simp [hop]
    simp [Item.encode, Vm.Instr.stake, Vm.Instr.price, hop, Item.op?, Item.hostOp?, Item.callee?]
  | callHost op =>
    obtain ⟨ref, href, hfound⟩ := hhost op List.mem_cons_self
    have hprice : m.hostPrice (link.host op).toUInt32.toNat = ref.function.gas.toNat := by
      rw [Vm.Module.hostPrice, hfound]
      rfl
    have hstake : Vm.Instr.stake t m total { op := .callHost, imm := link.host op } =
        (t.opCost .callHost).toNat + m.hostPrice (link.host op).toUInt32.toNat := rfl
    rw [show (Item.callHost op).encode link position =
      some { op := .callHost, imm := link.host op } from rfl, Option.elim_some, hstake, hprice]
    simp [Item.op?, Item.hostOp?, Item.callee?, href]
  | address | call => simp [Item.encode, Vm.Instr.stake, Vm.Instr.price, Item.op?, Item.hostOp?,
      Item.callee?]
  | mark | reserve | needs | fault => rfl

end Instructions

/-! ## Pieces -/

section Pieces

variable {link : Linkage} {labels : Label → Nat} {m : Vm.Module} {t : GasTable}
  {total : Nat → Nat} {p : Piece}
  {ps : List Piece}

/-- What a piece costs whose instructions count once each, with what it calls. -/
theorem sum_stake_piece (hitems : ∀ i ∈ p.items, ∃ targets, i.LeadsTo targets)
    (hhost : ∀ i ∈ p.items, NamesHost link m i.hostOp?.toList)
    (hweight : p.weight.toNat = 1 ∨ p.items = []) (position : Target → Nat) :
    ((p.items.filterMap (·.encode link position)).map (Vm.Instr.stake t m total)).sum =
      p.price t + (p.gasCalls.map fun call => call.weight.toNat *
        total (link.function call.callee).toNat).sum := by
  obtain ⟨label, weight, scratch, items⟩ := p
  unfold Piece.price Piece.gasCalls
  rcases hweight with hweight | rfl
  · dsimp only at hitems hhost hweight ⊢
    simp only [hweight, Nat.mul_one]
    induction items with
    | nil => rfl
    | cons i is ih =>
      have hrest := ih (fun j hj => hitems j (List.mem_cons_of_mem i hj)) fun j hj =>
        hhost j (List.mem_cons_of_mem i hj)
      obtain ⟨targets, hleads⟩ := hitems i List.mem_cons_self
      have hi : (i.encode link position).elim 0 (Vm.Instr.stake t m total) = _ :=
        Item.stake_encode hleads (hhost i List.mem_cons_self)
      have hcons :
          (((i :: is).filterMap (·.encode link position)).map (Vm.Instr.stake t m total)).sum =
          (i.encode link position).elim 0 (Vm.Instr.stake t m total) +
            ((is.filterMap (·.encode link position)).map (Vm.Instr.stake t m total)).sum := by
        cases hencode : i.encode link position with
        | none => rw [List.filterMap_cons_none hencode, Option.elim_none, Nat.zero_add]
        | some ins => rw [List.filterMap_cons_some hencode, List.map_cons, List.sum_cons,
            Option.elim_some]
      rw [hcons, hi, hrest, List.map_cons, List.sum_cons]
      cases hcallee : i.callee? with
      | none =>
        rw [List.filterMap_cons_none (by rw [hcallee]; rfl), Option.elim_none]
        omega
      | some c =>
        rw [List.filterMap_cons_some (by rw [hcallee]; rfl), List.map_cons, List.sum_cons,
          Option.elim_some, hweight, Nat.one_mul]
        dsimp only
        omega
  · rfl

/-- What pieces cost whose instructions count once each, with what they call. -/
theorem sum_stake_pieces (hitems : ∀ p ∈ ps, ∀ i ∈ p.items, ∃ targets, i.LeadsTo targets)
    (hhost : ∀ p ∈ ps, ∀ i ∈ p.items, NamesHost link m i.hostOp?.toList)
    (hweights : ∀ p ∈ ps, p.weight.toNat = 1 ∨ p.items = []) (n : Nat) :
    ((encodePieces link labels (placed n ps)).map (Vm.Instr.stake t m total)).sum =
      (ps.map (·.price t)).sum +
      ((ps.flatMap (·.gasCalls)).map fun call => call.weight.toNat *
        total (link.function call.callee).toNat).sum := by
  induction ps generalizing n with
  | nil => rfl
  | cons p ps ih =>
    have hp := @sum_stake_piece link m t total p (hitems p List.mem_cons_self)
        (hhost p List.mem_cons_self) (hweights p List.mem_cons_self) (p.position labels n)
    have hrest := ih (fun q hq => hitems q (List.mem_cons_of_mem p hq))
      (fun q hq => hhost q (List.mem_cons_of_mem p hq))
      (fun q hq => hweights q (List.mem_cons_of_mem p hq)) (n + instrCount p.items)
    rw [placed, encodePieces, List.flatMap_cons, List.map_append, List.sum_append, hp]
    rw [encodePieces] at hrest
    rw [hrest, List.map_cons, List.sum_cons, List.flatMap_cons, List.map_append, List.sum_append]
    omega

end Pieces

/-! ## The code of functions -/

theorem loopWeight_zero (t : GasTable) : t.loopWeight 0 = 1 := by simp [GasTable.loopWeight]

namespace FunctionContext

section Body

variable [Hashing] {cx : FunctionContext} {depths : Array Nat} {bs : List BlockId} {p : Piece}
  {link : Linkage}
  {m : Vm.Module} {P : Nat → Prop} {fs : List Failure}

theorem exists_block_of_mem (hp : p ∈ cx.blocks depths bs) :
    ∃ b next, p ∈ cx.block b (cx.options.gas.loopWeight (depths.getD b 0)) next := by
  induction bs with
  | nil => cases hp
  | cons b bs ih =>
    rcases List.mem_append.mp hp with hp | hp
    · exact ⟨b, bs.head?, hp⟩
    · exact ih hp

/-- Outside of loops each instruction counts once. -/
theorem weight_of_mem (hdepths : ∀ b, depths.getD b 0 = 0) (hp : p ∈ cx.blocks depths bs) :
    p.weight.toNat = 1 ∨ p.items = [] := by
  obtain ⟨b, next, hp⟩ := exists_block_of_mem hp
  rw [block_eq, hdepths, loopWeight_zero] at hp
  rcases List.mem_cons.mp hp with rfl | hp
  · exact .inr rfl
  · rcases List.mem_append.mp hp with hp | hp
    · obtain ⟨i, -, rfl⟩ := List.mem_map.mp hp
      exact .inl rfl
    · obtain rfl := List.mem_singleton.mp hp
      exact .inl rfl

theorem exists_leadsTo (hp : p ∈ cx.blocks depths bs) {i : Item} (hi : i ∈ p.items) :
    ∃ targets, i.LeadsTo targets := by
  obtain ⟨b, next, hp⟩ := exists_block_of_mem hp
  obtain ⟨done, todo, hitems⟩ := List.append_of_mem hi
  have hstraight := straight_block hp
  rw [hitems] at hstraight
  exact ⟨_, hstraight.element.1⟩

omit [Hashing] in
/-- The code of a failure goes on to its end, and asks the host for a panic. -/
theorem holds_failure {fl : Failure} {i : Item} (hi : i ∈ (cx.failure fl).items)
    (hhost : NamesHost link m i.hostOp?.toList) {position : Target → Nat} {ins : Vm.Instr}
    (hins : i.encode link position = some ins) : ins.Holds m := by
  rw [items_failure] at hi
  simp only [List.mem_cons, List.not_mem_nil, or_false] at hi
  rcases hi with rfl | rfl | rfl | rfl | rfl
  · cases hins
  · obtain rfl := Option.some.inj hins
    exact ⟨by simp, by simp⟩
  · obtain rfl := Option.some.inj hins
    exact ⟨by simp, by simp⟩
  · obtain rfl := Option.some.inj hins
    refine ⟨by simp, fun _ ref href => ?_⟩
    obtain ⟨ref', hof, hfound⟩ := hhost .panic List.mem_cons_self
    obtain rfl := Option.some.inj (hfound.symm.trans href)
    rw [op_of_ofOp? hof]
    exact HostOp.noConfusion
  · obtain rfl := Option.some.inj hins
    exact ⟨by simp, by simp⟩

/-- Control does not get out of the code of failures, and nothing else is behind that of the
blocks. -/
theorem holds_of_le
    (hhost : ∀ p ∈ fs.map cx.failure, ∀ i ∈ p.items, NamesHost link m i.hostOp?.toList) {pc : Nat}
    {ins : Vm.Instr} (hpc : codeSize (cx.blocks depths bs) ≤ pc)
    (hins : (assemble link (cx.blocks depths bs ++ fs.map cx.failure)).toArray[pc]? = some ins) :
    ins.Holds m := by
  have hlt := (Array.getElem?_eq_some_iff.mp hins).1
  rw [List.size_toArray, length_assemble, codeSize_append] at hlt
  obtain ⟨pre, q, post, done, i, todo, hsplit, hitems, hi, hpos⟩ :=
    @exists_split_of_lt_codeSize (fs.map cx.failure)
      (pc - codeSize (cx.blocks depths bs)) (by omega)
  have hq : q ∈ fs.map cx.failure := by simp [hsplit]
  have hmem : i ∈ q.items := by simp [hitems]
  have hnames := hhost q hq i hmem
  obtain ⟨fl, -, rfl⟩ := List.mem_map.mp hq
  have hget : (assemble link ((cx.blocks depths bs ++ pre) ++ cx.failure fl :: post))[_]? = _ :=
    getElem?_assemble hitems hi
  rw [codeSize_append, Nat.add_assoc, ← hpos, Nat.add_sub_cancel' hpc, List.append_assoc, ← hsplit,
    ← List.getElem?_toArray, hins] at hget
  exact holds_failure hmem hnames hget.symm

/-- Control comes to no position of the code of blocks twice. By induction on the way that it takes:
it does not come back from the code of failures. -/
theorem goes_of_transGen (hclosed : cx.Closed depths bs (fs.map cx.failure))
    (hhost : ∀ p ∈ fs.map cx.failure, ∀ i ∈ p.items, NamesHost link m i.hostOp?.toList)
    {pc pc' : Nat} (hpath : TransGen (Vm.Leads
      (assemble link (cx.blocks depths bs ++ fs.map cx.failure)).toArray) pc pc')
      (hpc : pc < codeSize (cx.blocks depths bs)) (hpc' : pc' < codeSize (cx.blocks depths bs)) :
    cx.Goes depths bs pc pc' := by
  induction hpath with
  | single hleads => exact hclosed.goes_of_leads hleads hpc hpc'
  | @tail x y _ hleads ih =>
    have hx : x < codeSize (cx.blocks depths bs) := by
      by_contra hle
      cases hleads with
      | next => omega
      | jump hi hop =>
        obtain ⟨hheld, -⟩ := holds_of_le hhost (Nat.le_of_not_lt hle) hi
        rcases hop with hop | hop | hop <;> simp [hop] at hheld
    exact (ih hx).trans (hclosed.goes_of_leads hleads hx hpc')

/-- In the code of blocks that lead to no block twice, control comes to no position twice, and it
does not get out of that of failures. -/
theorem forward_body (hclosed : cx.Closed depths bs (fs.map cx.failure))
    (hhost : ∀ p ∈ fs.map cx.failure, ∀ i ∈ p.items, NamesHost link m i.hostOp?.toList)
    (hacyclic : ∀ b ∈ bs, ¬TransGen cx.Edge b b)
    (hcalls : ∀ p ∈ cx.blocks depths bs, ∀ c, .call c ∈ p.items → P (link.function c).toNat) :
    Vm.Forward m P (assemble link (cx.blocks depths bs ++ fs.map cx.failure)).toArray
      (codeSize (cx.blocks depths bs)) := by
  refine ⟨fun pc hpc hpath => (goes_of_transGen hclosed hhost hpath hpc hpc).irrefl hacyclic, ?_,
    fun pc ins hpc hins => holds_of_le hhost hpc hins⟩
  intro pc ins hpc hins hop
  obtain ⟨pre, p, post, done, i, todo, hsplit, hitems, hi, rfl⟩ := exists_split_of_lt_codeSize hpc
  have hp : p ∈ cx.blocks depths bs := by simp [hsplit]
  have hmem : i ∈ p.items := by simp [hitems]
  obtain ⟨targets, hleads⟩ := exists_leadsTo hp hmem
  have hget : (assemble link (pre ++ p :: (post ++ fs.map cx.failure)))[_]? = _ :=
    getElem?_assemble hitems hi
  rw [← List.cons_append, ← List.append_assoc, ← hsplit, ← List.getElem?_toArray, hins] at hget
  cases i with
  | call c =>
    obtain rfl := Option.some.inj hget
    exact hcalls p hp c hmem
  | instr i =>
    obtain rfl := Option.some.inj hget
    rcases hleads with hplain | hret | htrap
    · rw [hop] at hplain
      cases hplain
    · simp [hop] at hret
    · simp [hop] at htrap
  | jump o t =>
    obtain rfl := Option.some.inj hget
    rcases hleads.1 with hjump | hjump | hjump <;> simp [hjump] at hop
  | address | callHost =>
    obtain rfl := Option.some.inj hget
    cases hop
  | mark | reserve | needs | fault => cases hi

/-- What the positions of the code of blocks cost outside of loops, with what they call. -/
theorem sum_stakeAt_body {t : GasTable} {total : Nat → Nat} (hdepths : ∀ b, depths.getD b 0 = 0)
    (hhost : ∀ p ∈ cx.blocks depths bs, ∀ i ∈ p.items, NamesHost link m i.hostOp?.toList)
    (fails : List Piece) :
    ∑ pc ∈ Finset.range (codeSize (cx.blocks depths bs)),
        Vm.stakeAt t m total (assemble link (cx.blocks depths bs ++ fails)).toArray pc =
      ((cx.blocks depths bs).map (·.price t)).sum +
        (((cx.blocks depths bs).flatMap (·.gasCalls)).map fun call =>
        call.weight.toNat * total (link.function call.callee).toNat).sum := by
  have htake : (assemble link (cx.blocks depths bs ++ fails)).take
      (codeSize (cx.blocks depths bs)) =
      encodePieces link (labelPosition (placed 0 (cx.blocks depths bs ++ fails)))
        (placed 0 (cx.blocks depths bs)) := by
    show (encodePieces link _ (placed 0 (cx.blocks depths bs ++ fails))).take _ = _
    generalize labelPosition (placed 0 (cx.blocks depths bs ++ fails)) = labels
    rw [placed_append, encodePieces, List.flatMap_append]
    exact List.take_left' (length_encodePieces link labels 0 _)
  rw [Vm.sum_stakeAt, htake]
  exact sum_stake_pieces (fun p hp i hi => exists_leadsTo hp hi) hhost
    (fun p hp => weight_of_mem hdepths hp) 0

end Body

end FunctionContext

/-! ## Functions of a unit -/

section Units

variable [Hashing] {m : Ssa.Module} {types : TypePool} {options : CodegenOptions} {id : FuncId}
  {f : Ssa.Function}
  {code : LoweredFunction} {unit : String}

/-- The code of the blocks of a function. -/
def bodyOf (m : Ssa.Module) (types : TypePool) (unit : String) (options : CodegenOptions)
    (f : Ssa.Function) :
    List Piece :=
  (functionContext m types unit options f).blocks (m.loopDepths f) f.blocks

/-- The shared failures that the code of a function needs. -/
def failuresOf (m : Ssa.Module) (types : TypePool) (unit : String) (options : CodegenOptions)
    (f : Ssa.Function) :
    List Failure :=
  Failure.all.filter (needsFailure (bodyOf m types unit options f))

theorem pieces_lowerFunction : (lowerFunction m types unit options f).pieces =
    bodyOf m types unit options f ++
      (failuresOf m types unit options f).map (functionContext m types unit options f).failure :=
  rfl

/-- Failures cost nothing in the estimate, and call no function. -/
theorem gas_lowerFunction (t : GasTable) :
    (lowerFunction m types unit options f).price t =
      ((bodyOf m types unit options f).map (·.price t)).sum ∧
      ((lowerFunction m types unit options f).gas t).calls =
        (bodyOf m types unit options f).flatMap (·.gasCalls) := by
  unfold LoweredFunction.price LoweredFunction.gas
  rw [pieces_lowerFunction]
  generalize failuresOf m types unit options f = fs
  constructor
  · have hzero : ((fs.map (functionContext m types unit options f).failure).map (·.price t)).sum =
      0 := by
      refine List.sum_eq_zero fun n hn => ?_
      obtain ⟨p, hp, rfl⟩ := List.mem_map.mp hn
      obtain ⟨fl, -, rfl⟩ := List.mem_map.mp hp
      exact List.sum_eq_zero fun k hk => by
        obtain ⟨i, -, rfl⟩ := List.mem_map.mp hk
        rfl
    rw [List.map_append, List.sum_append, hzero, Nat.add_zero]
  · have hnone : (fs.map (functionContext m types unit options f).failure).flatMap
      (·.gasCalls) = [] := by
      refine List.flatMap_eq_nil_iff.mpr fun p hp => ?_
      obtain ⟨fl, -, rfl⟩ := List.mem_map.mp hp
      rfl
    dsimp only
    rw [List.flatMap_append, hnone, List.append_nil]

/-- The bytecode names the host operations of the code that is left. -/
theorem namesHost_of_mem (hcode : (lowered m types options).code? id = some code) {p : Piece}
    (hp : p ∈ code.pieces) {i : Item} (hi : i ∈ p.items) :
    NamesHost (lowered m types options).linkage (m.compile types options).module
      i.hostOp?.toList := by
  intro op hop
  cases i with
  | callHost op' =>
    obtain rfl := List.mem_singleton.mp hop
    obtain ⟨im, ref, him, href, hof⟩ := exists_hostRef_importOf op
    refine ⟨ref, hof, ?_⟩
    have himport := getElem?_imports (mem_hostOps hcode hp hi)
    rw [him] at himport
    rw [Vm.Module.hostRef?, imports_compile, List.getElem?_toArray, himport]
    exact href
  | _ => cases hop

/-- Neither the blocks of a function nor those of the functions below it go in a cycle, and neither
do their calls. -/
structure LoopFree (m : Ssa.Module) (id : FuncId) : Prop where
  blocks : ∀ c f, ReflTransGen m.Calls id c → m.functions[c]? = some f → (m.cfg f).Acyclic
  calls : CallsEnd m id

omit [Hashing] in
theorem LoopFree.of_reach (h : LoopFree m id) {c : FuncId} (hreach : ReflTransGen m.Calls id c) :
    LoopFree m c :=
  ⟨fun d f hd => h.blocks d f (hreach.trans hd), fun d hd => h.calls d (hreach.trans hd)⟩

omit [Hashing] in
/-- Where no blocks go in a cycle, control comes back to none of them. -/
theorem not_transGen_edge (hf : f.Enclosed m) (hacyclic : (m.cfg f).Acyclic) {b : BlockId}
    (hb : b ∈ f.blocks) :
    ¬TransGen (functionContext m types unit options f).Edge b b := by
  have hpath : ∀ c, TransGen (functionContext m types unit options f).Edge b c →
      c ∈ f.blocks ∧ TransGen (fun b target => target ∈ (m.cfg f).successors b) b c := by
    intro c hpath
    induction hpath with
    | single hedge => exact ⟨hf.targets b hb _ hedge,
        .single ((hf.mem_successors_cfg hb).mpr hedge)⟩
    | tail _ hedge ih =>
      exact ⟨hf.targets _ ih.1 _ hedge, ih.2.tail ((hf.mem_successors_cfg ih.1).mpr hedge)⟩
  exact fun h => hacyclic b (hpath b h).2

/-- The code of the blocks of a function is closed. -/
theorem closed_body (hf : f.Enclosed m)
    (hsmall : codeSize (lowerFunction m types unit options f).pieces < 2 ^ 64) :
    (functionContext m types unit options f).Closed (m.loopDepths f) f.blocks
      ((failuresOf m types unit options f).map (functionContext m types unit options f).failure)
        where
  edges := hf.targets
  labels q hq := by
    obtain ⟨fl, -, rfl⟩ := List.mem_map.mp hq
    exact ⟨fl, rfl⟩
  failures p hp o fl hjump := exists_failure_of_jump _ hp hjump
  small := hsmall

/-- The exact cost of the function that has a number in the bytecode. -/
def budget (m : Ssa.Module) (types : TypePool) (options : CodegenOptions) (k : Nat) : Nat :=
  ((lowered m types options).kept[k]?).elim 0 (unitCost m types options)

/-- Calls name a function by its place among those that are left. -/
theorem toNat_function_compile (hsize : Addressable (m.compile types options).module)
    (hcode : (lowered m types options).code? id = some code) :
    ((lowered m types options).linkage.function id).toNat =
      (lowered m types options).kept.idxOf id := by
  have hkept := Lowering.mem_kept.mpr ⟨code, hcode⟩
  have hfunctions := hsize.functions
  rw [size_functions_compile] at hfunctions
  exact Lowering.toNat_function_linkage hkept ((List.idxOf_lt_length_of_mem hkept).trans hfunctions)

theorem budget_function (hsize : Addressable (m.compile types options).module)
    (hcode : (lowered m types options).code? id = some code) :
    budget m types options ((lowered m types options).linkage.function id).toNat =
      unitCost m types options id := by
  rw [budget, toNat_function_compile hsize hcode,
    Lowering.getElem?_idxOf (Lowering.mem_kept.mpr ⟨code, hcode⟩)]
  rfl

/-- The exact costs of functions are budgets for them, below a function without cycles. -/
theorem budgets_compile (hm : m.Enclosed) (hsize : Addressable (m.compile types options).module)
    (hfree : LoopFree m id) :
    Vm.Budgets options.gas (m.compile types options).module
      (fun k => ∃ c code, ReflTransGen m.Calls id c ∧
        (lowered m types options).code? c = some code ∧
        k = ((lowered m types options).linkage.function c).toNat)
      (budget m types options) := by
  intro k ⟨c, code, hreach, hcode, hk⟩
  rw [hk]
  obtain ⟨f, hf, hget⟩ := exists_callee hsize hcode
  obtain ⟨f', hf', hincl, rfl, -⟩ := exists_function_of_code? hcode
  obtain rfl := Option.some.inj (hf.symm.trans hf')
  have henclosed := hm f (Array.mem_of_getElem? hf) hincl
  have hacyclic := hfree.blocks c f hreach hf
  have hsmall : codeSize (lowerFunction m types (unitOf m options) options f).pieces < 2 ^ 64 := by
    have hcodeSize := hsize.code _ (Array.mem_of_getElem? hget)
    rwa [LoweredFunction.assemble, List.size_toArray, length_assemble] at hcodeSize
  have hclosed := closed_body henclosed hsmall
  refine ⟨_, codeSize (bodyOf m types (unitOf m options) options f), hget,
    FunctionContext.forward_body hclosed
    (fun p hp i hi => namesHost_of_mem hcode (List.mem_append_right _ hp) hi)
    (fun b hb => not_transGen_edge henclosed hacyclic hb) fun p hp d hd => ?_, ?_⟩
  · have hp : p ∈ (lowerFunction m types (unitOf m options) options f).pieces :=
      List.mem_append_left _ hp
    obtain ⟨code', hcode'⟩ := exists_code_of_call hcode hp hd
    have hcalls : m.Calls c d := by
      refine (exists_call_iff hcode).mp ⟨{ callee := d, weight := p.weight }, ?_, rfl⟩
      exact List.mem_flatMap.mpr ⟨p, hp, List.mem_filterMap.mpr ⟨_, hd, rfl⟩⟩
    exact ⟨d, code', hreach.tail hcalls, hcode', rfl⟩
  · have hsum := @FunctionContext.sum_stakeAt_body _
        (functionContext m types (unitOf m options) options f) _ f.blocks
      (lowered m types options).linkage (m.compile types options).module options.gas
        (budget m types options) (Ssa.loopDepths_of_acyclic henclosed hacyclic)
      (fun p hp i hi => namesHost_of_mem hcode (List.mem_append_left _ hp) hi)
      ((failuresOf m types (unitOf m options) options f).map
        (functionContext m types (unitOf m options) options f).failure)
    obtain ⟨hprice, hcalls⟩ := @gas_lowerFunction _ m types options f (unitOf m options) options.gas
    rw [budget_function hsize hcode, unitCost_eq (hfree.of_reach hreach).calls hcode,
      hprice, hcalls]
    refine le_of_eq (hsum.trans (congrArg (_ + ·)
      (congrArg List.sum (List.map_congr_left fun call hcall => ?_))))
    obtain ⟨-, code', hcode', -⟩ := (hfree.of_reach hreach).calls.card_below_lt hcode
      (hcalls ▸ hcall)
    rw [budget_function hsize hcode']

/-- Calls outside of loops weigh something. -/
theorem one_le_weight (hf : f.Enclosed m) (hacyclic : (m.cfg f).Acyclic) {t : GasTable}
    {call : GasCall} (hcall : call ∈ ((lowerFunction m types unit options f).gas t).calls) :
    1 ≤ call.weight.toNat := by
  rw [(gas_lowerFunction t).2] at hcall
  obtain ⟨p, hp, hcall⟩ := List.mem_flatMap.mp hcall
  obtain ⟨i, hi, hcall⟩ := List.mem_filterMap.mp hcall
  obtain ⟨callee, -, rfl⟩ := Option.map_eq_some_iff.mp hcall
  rcases FunctionContext.weight_of_mem (Ssa.loopDepths_of_acyclic hf hacyclic)
    hp with hweight | hitems
  · exact hweight.ge
  · rw [hitems] at hi
    cases hi

end Units

end ContractCompiler.Codegen

namespace ContractCompiler

open Codegen
open Ssa (FuncId)
open Relation

/-- Without loops and cycles of calls, and if its exact cost is a word, the estimate of a function
covers what any call of it costs that returns or reverts. -/
theorem spent_le_gas [Hashing] {m : Ssa.Module} {types : TypePool} (hm : FromDocument m types)
    {options : CodegenOptions} {c : CompiledModule} (hc : m.compile types options = c)
    (hsize : Addressable c.module) {id : FuncId} {cf : CompiledFunction}
    (hcf : c.functions[id]? = some cf) {index : Nat} (hindex : cf.index = some index)
    (hfree : LoopFree m id) (hcost : unitCost m types options id < 2 ^ 64) {args : List UInt64}
    {ledger : Ledger} {limits : Vm.Limits}
    (hexit : (c.module.runFunction index args ledger limits).1.exit = .returned ∨
      (c.module.runFunction index args ledger limits).1.exit = .reverted) :
    c.module.spent options.gas limits index args ledger ≤ cf.gas.toNat := by
  subst hc
  obtain ⟨f, code, hf, hcode, -⟩ := exists_of_index hcf hindex
  have hplace : index = ((lowered m types options).linkage.function id).toNat := by
    have hnumber := index?_compile m types options id
    rw [CompiledModule.index?, hcf, Option.bind_some, hindex, hcode] at hnumber
    exact (Option.some.inj hnumber).trans (toNat_function_compile hsize hcode).symm
  have hweights : ∀ d code, ReflTransGen m.Calls id d →
      (lowered m types options).code? d = some code →
      ∀ call ∈ (code.gas options.gas).calls, 1 ≤ call.weight.toNat := by
    intro d code hreach hcode call hcall
    obtain ⟨g, hg, hincl, rfl, -⟩ := exists_function_of_code? hcode
    exact one_le_weight (hm.enclosed g (Array.mem_of_getElem? hg) hincl)
      (hfree.blocks d g hreach hg) hcall
  have hgas : cf.gas.toNat = unitCost m types options id := by
    rw [gas_compile hcf, hcode]
    exact toNat_estimateGas hfree.calls hcode hweights hcost
  have hspent := (budgets_compile hm.enclosed hsize hfree).spent_le
    ⟨id, code, .refl, hcode, hplace⟩ hexit
  rwa [hplace, budget_function hsize hcode, ← hplace, ← hgas] at hspent

/-- No block of the contract of `writerText` leads anywhere, and only its second function calls
another one. -/
theorem loopFree_writer : LoopFree writerModule 1 := by
  have hblocks : ∀ b, (writerModule.block b).successors = [] := by
    intro b
    rcases b with _ | _ | b
    · rfl
    · rfl
    · simp [writerModule, Ssa.Module.block, Ssa.Block.successors]
  have hcalls : ∀ id c, writerModule.Calls id c → c < id := by
    rintro id c ⟨f, hf, b, hb, i, hi, inst, hinst, hcallee⟩
    rcases id with _ | _ | id
    · obtain rfl := Option.some.inj hf
      obtain rfl := List.mem_singleton.mp hb
      have hnone : ∀ j ∈ ([0, 1, 2] : List Ssa.InstId),
          (writerModule.insts[j]?).bind (fun inst => inst.data.callee?) = none := by decide
      have hi := hnone i hi
      rw [hinst, Option.bind_some, hcallee] at hi
      cases hi
    · obtain rfl := Option.some.inj hf
      obtain rfl := List.mem_singleton.mp hb
      obtain rfl := List.mem_singleton.mp hi
      obtain rfl := Option.some.inj hinst
      obtain rfl := Option.some.inj hcallee
      exact Nat.one_pos
    · cases hf
  refine ⟨fun c f _ _ b hcycle => ?_, fun c _ hcycle => ?_⟩
  · obtain ⟨target, hedge, -⟩ := TransGen.head'_iff.mp hcycle
    rw [Ssa.Module.mem_successors_cfg, hblocks] at hedge
    exact List.not_mem_nil hedge.1
  · have hdown : ∀ d, TransGen writerModule.Calls c d → d < c := by
      intro d hpath
      induction hpath with
      | single h => exact hcalls _ _ h
      | tail _ h ih => exact (hcalls _ _ h).trans ih
    exact Nat.lt_irrefl c (hdown c hcycle)

/-- The function `g`, which calls `f`, spends no more than its estimate when it returns. -/
theorem spent_le_gas_writer :
    (@Vm.Module.runFunction Hashing.sha256 compiledWriter.module 1 [] {} {}).1.exit = .returned ∧
      @Vm.Module.spent Hashing.sha256 {} compiledWriter.module {} 1 [] {} ≤
        (compiledWriter.functions.getD 1 {}).gas.toNat := by
  have hfacts : (compiledWriter.module.functions.size < 2 ^ 64 ∧
        (∀ f ∈ compiledWriter.module.functions, f.code.size < 2 ^ 64) ∧
        dataSize compiledWriter.module.data.toList < 2 ^ 64) ∧
      compiledWriter.functions[1]? = some (compiledWriter.functions.getD 1 {}) ∧
      (compiledWriter.functions.getD 1 {}).index = some 1 ∧
      @unitCost Hashing.sha256 writerModule {} {} 1 < 2 ^ 64 ∧
      (@Vm.Module.runFunction Hashing.sha256 compiledWriter.module 1 [] {} {}).1.exit =
        .returned := by
    decide +kernel
  obtain ⟨⟨hfunctions, hcode, hdata⟩, hcf, hindex, hcost, hexit⟩ := hfacts
  exact ⟨hexit, @spent_le_gas Hashing.sha256 _ _ fromDocument_writer {} compiledWriter rfl
    ⟨hfunctions, hcode, hdata⟩ 1 _ hcf 1 hindex loopFree_writer hcost [] {} {} (.inl hexit)⟩

end ContractCompiler
