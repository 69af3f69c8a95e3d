import ContractCompiler.Proofs.Codegen.Operations
import ContractCompiler.Proofs.Codegen.Selection
import ContractCompiler.Proofs.Vm.Memory

/-!
# Running operations

In a compiled module the machine does for an operation on words what the operation does: the result
comes into its place, the program gives up, or it is stopped.

- `ConstantData`: the constant data of a module is in memory;
- `Site.stops_giveUp`: the code that gives up stops the program with its message;
- `FunctionContext.Stored`: a result is in its place;
- `OperationStarts`: the machine is where the code of an instruction starts;
- `FunctionContext.Yields`: what the code of an operation leads to;
- `operation_exact`: the code of an operation of a compiled function leads to what the operation
  does.
-/

namespace ContractCompiler.Codegen

open Ssa (ValueId FuncId BlockId)
open Vm (Config)

/-! ## Constant data -/

/-- The constant data of a module is in memory. The first segment is the end of the heap, which
changes. -/
def ConstantData (vm : Vm.Module) (memory : Vm.Memory) : Prop :=
  ∀ s ∈ vm.data.toList.tail, memory.read? s.offset.toNat s.bytes.length = some s.bytes

/-- A byte string is laid out. -/
def DataLayout.Has (d : DataLayout) (bytes : Bytes) : Prop := (d.find? bytes).isSome = true

section Layout

variable {d d' : DataLayout} {bytes : Bytes} {is : List Item} {limit : UInt64}

theorem DataLayout.has_iff : d.Has bytes ↔ ∃ s ∈ d.segments, s.bytes = bytes := by
  rw [Has, find?, Array.find?_isSome]
  simp

/-- Byte strings are only added. -/
theorem DataLayout.has_add? (other : Bytes) (hadd : d.add? limit.toNat bytes = some d') :
    d'.Has bytes ∧ (d.Has other → d'.Has other) := by
  unfold DataLayout.add? at hadd
  split at hadd
  · rename_i hfound
    obtain rfl := Option.some.inj hadd
    exact ⟨hfound, fun h => h⟩
  · split at hadd
    · cases hadd
    · obtain rfl := Option.some.inj hadd
      constructor
      · exact has_iff.mpr ⟨_, Array.mem_push_self, rfl⟩
      · intro hother
        obtain ⟨s, hs, hbytes⟩ := has_iff.mp hother
        exact has_iff.mpr ⟨s, Array.mem_push_of_mem _ hs, hbytes⟩

theorem has_layOut (h : d.Has bytes) : (layOut limit is d).2.Has bytes := by
  fun_induction layOut limit is d with
  | case1 => exact h
  | case2 _ _ _ _ _ _ hadd ih => exact ih ((DataLayout.has_add? _ hadd).2 h)
  | case3 _ _ _ _ _ _ _ _ hrest ih | case4 _ _ _ _ _ hrest ih =>
    rw [hrest] at ih
    exact ih h
  | case5 _ _ _ _ _ ih => exact ih h

/-- Without faults, what code reserves is laid out. -/
theorem has_layOut_of_mem {use : DataUse} {span : Span} (hfaults : (layOut limit is d).1 = [])
    (hmem : .reserve use bytes span ∈ is) : (layOut limit is d).2.Has bytes := by
  fun_induction layOut limit is d with
  | case1 => cases hmem
  | case2 _ _ _ _ _ _ hadd ih =>
    rcases List.mem_cons.mp hmem with heq | hmem
    · cases heq
      exact has_layOut (DataLayout.has_add? [] hadd).1
    · exact ih hfaults hmem
  | case3 | case4 => cases hfaults
  | case5 i _ _ hreserve _ ih =>
    rcases List.mem_cons.mp hmem with rfl | hmem
    · exact absurd rfl (hreserve _ _ _)
    · exact ih hfaults hmem

end Layout

section Compiled

variable [Hashing] {m : Ssa.Module} {types : TypePool} {options : CodegenOptions} {id : FuncId}
  {f : Ssa.Function}
  {code : LoweredFunction} {bytes : Bytes}

/-- What the code of a compiled function reserves is laid out. -/
theorem has_lowered (hf : m.functions[id]? = some f)
    (hcode : (lowered m types options).code? id = some code) {use : DataUse} {span : Span}
    (hmem : .reserve use bytes span ∈ code.items) : (lowered m types options).data.Has bytes := by
  let unit := unitOf m options
  obtain ⟨f', hf', hincl, rfl, -⟩ := exists_function_of_code? hcode
  obtain rfl := Option.some.inj (hf.symm.trans hf')
  have hdrops : (lowerAll m types unit options).Drops (lowered m types options) :=
    Lowering.drops_dropCallersRounds m _ _
  have hfaults : faultsOf m types options id f = [] := by
    refine ((alive_lowerAll hf).mp (hdrops.alive id ?_)).2
    unfold Lowering.code? at hcode
    split at hcode
    · rename_i halive
      exact Lowering.getD_false_iff.mp halive
    · cases hcode
  have hsplit : m.functions.toList = m.functions.toList.take id ++ f :: m.functions.toList.drop
      (id + 1) := by
    obtain ⟨hlt, rfl⟩ := Array.getElem?_eq_some_iff.mp hf
    rw [← Array.getElem_toList hlt, List.cons_getElem_drop_succ, List.take_append_drop]
  -- the data of the functions after it stand behind
  have hrest (fs : List Ssa.Function) {d : DataLayout} (hd : d.Has bytes) :
      (fs.foldl (fun d f => if f.excluded then d
        else ((lowerFunction m types unit options f).layOut options d).2) d).Has bytes := by
    induction fs generalizing d with
    | nil => exact hd
    | cons g fs ih =>
      refine ih ?_
      dsimp only
      split
      · exact hd
      · exact has_layOut hd
  rw [hdrops.data, (sorts_lowerAll m types unit options).data, dataOf, hsplit, List.foldl_append,
    List.foldl_cons]
  refine hrest _ ?_
  rw [if_neg (by rw [hincl]; decide)]
  exact has_layOut_of_mem (List.append_eq_nil_iff.mp hfaults).1 hmem

/-- What the code of a compiled function reserves is in memory at its address. -/
theorem ConstantData.read? {memory : Vm.Memory}
    (hdata : ConstantData (m.compile types options).module memory) (hf : m.functions[id]? = some f)
    (hcode : (lowered m types options).code? id = some code) {use : DataUse} {span : Span}
    (hmem : .reserve use bytes span ∈ code.items) :
    memory.read? ((lowered m types options).linkage.address bytes).toNat bytes.length =
      some bytes := by
  obtain ⟨s, hs⟩ := Option.isSome_iff_exists.mp (has_lowered hf hcode hmem)
  have hbytes : s.bytes = bytes := by simpa using Array.find?_some hs
  have hoffset : (lowered m types options).linkage.address bytes = s.offset := by
    unfold Lowering.linkage
    dsimp only
    unfold DataLayout.offset
    rw [hs]
    rfl
  rw [hoffset, ← hbytes]
  refine hdata s ?_
  rw [data_compile, List.tail_cons]
  exact Array.mem_toList_iff.mpr (Array.mem_of_find?_eq_some hs)

end Compiled

/-! ## Giving up -/

/-- Walking goes only where the code jumps. -/
theorem exists_jump_of_walk {link : Linkage} {seen : List Nat} {items : List Item}
    {skip : Option Nat} {s s' : Work} {l : Label}
    (h : walk link seen items skip s = some (.goes l s')) : ∃ o, .jump o (.label l) ∈ items := by
  induction items generalizing seen skip s with
  | nil => cases skip <;> cases h
  | cons it items ih =>
    have hlater {seen : List Nat} {skip : Option Nat} {s : Work}
        (h : walk link seen items skip s = some (.goes l s')) :
        ∃ o, .jump o (.label l) ∈ it :: items := by
      obtain ⟨o, ho⟩ := ih h
      exact ⟨o, List.mem_cons_of_mem _ ho⟩
    cases skip with
    | some n =>
      cases it with
      | mark k => exact hlater h
      | _ => exact hlater h
    | none =>
      cases it with
      | mark | reserve | needs => exact hlater h
      | fault | call | callHost => cases h
      | instr i =>
        obtain ⟨-, h⟩ := Option.ite_none_right_eq_some.mp h
        split at h
        · exact hlater h
        · cases h
        · cases h
      | address bytes =>
        obtain ⟨-, h⟩ := Option.ite_none_right_eq_some.mp h
        exact hlater h
      | jump o t =>
        obtain ⟨-, h⟩ := Option.ite_none_right_eq_some.mp h
        split at h
        · cases h
        · exact hlater h
        · cases t with
          | label l' =>
            cases h
            exact ⟨o, List.mem_cons_self⟩
          | mark n =>
            obtain ⟨-, h⟩ := Option.ite_none_left_eq_some.mp h
            exact hlater h

namespace Site

variable [Hashing] {x : Site} {vm : Vm.Module} {limits : Vm.Limits} {locals : Array UInt64}
  {memory : Vm.Memory}

/-- The code that gives up stops the program with its message. -/
theorem stops_giveUp (hx : x.Running limits) {message : String} {span : Span}
    (hitems : x.piece.items = giveUp .panic message span)
    (hlength : (Bytes.utf8 message).length < 2 ^ 64)
    (himport : vm.imports[(x.link.host .panic).toUInt32.toNat]? = importOf .panic)
    (hread : memory.read? (x.link.address (Bytes.utf8 message)).toNat (Bytes.utf8 message).length =
      some (Bytes.utf8 message)) :
    Vm.Stops vm limits (x.config (codeSize x.before) ⟨[], locals, memory⟩) (.panicked message) := by
  let text := Bytes.utf8 message
  let args : List Item :=
    [.reserve .message text span, .address text, lit (UInt64.ofNat text.length)]
  let s : Work := ⟨[UInt64.ofNat text.length, x.link.address text], locals, memory⟩
  have hitems' : x.piece.items = args ++ .callHost .panic :: [trap .unreachable] := hitems
  have hwalk : walk x.link [] args none ⟨[], locals, memory⟩ = some (.past s) := rfl
  have hruns : x.Ends vm limits (x.config (x.at? [] none) ⟨[], locals, memory⟩) ([] ++ args)
      (.past s) :=
    x.ends_of_walk hx hitems' (List.nil_subset _) (fun _ h => by cases h) hwalk
  refine Vm.Runs.stops hruns ⟨x.config (x.position args) s,
    x.config (x.position args + 1) ⟨[], locals, memory⟩, .refl, ?_⟩
  rw [hx.step_config (s := s) (show 2 ≤ depth by decide) hitems' rfl]
  obtain ⟨im, ref, him, href, hof⟩ := exists_hostRef_importOf .panic
  have hargs : im.numArgs = 2 := by
    have hnum : (importOf .panic).map (·.numArgs) = some 2 := rfl
    rw [him] at hnum
    exact Option.some.inj hnum
  have hop : ref.function.op = .panic := by
    have hop : (HostRef.ofOp? .panic).map (·.function.op) = some .panic := rfl
    rw [hof] at hop
    exact Option.some.inj hop
  have hlen : (UInt64.ofNat text.length).toNat = text.length := UInt64.toNat_ofNat_of_lt' hlength
  have hanswer : Vm.answer .panic [x.link.address text, UInt64.ofNat text.length] memory x.ledger =
      (.stop (.panicked message), memory, x.ledger) := by
    show (Vm.stopWith memory .panicked _ _, memory, x.ledger) = _
    unfold Vm.stopWith
    rw [hlen, hread]
    rfl
  have hheight : ¬(x.config (x.position args + 1) s).stack.height < im.numArgs := by
    rw [hargs]
    show ¬(s.words ++ x.below).length < 2
    simp [s]
  have htop : (x.config (x.position args + 1) s).stack.top im.numArgs =
      [x.link.address text, UInt64.ofNat text.length] := by
    rw [hargs]
    rfl
  have hstop := Vm.callHost_of_stop (himport.trans him) href hheight
      (by rw [hop, htop]; exact hanswer)
  refine Eq.trans hstop ?_
  rw [hargs]
  rfl

end Site

/-! ## Results -/

/-- A stack of words, the top first. -/
def stackOf (ws : List UInt64) : Vm.OperandStack where
  words := ws
  height := ws.length

/-- A cell at an address holds a status and a word, and besides it only the end of the heap has
changed. -/
structure HoldsCell (before memory : Vm.Memory) (p status w : UInt64) : Prop where
  status : memory.read? p.toNat 8 = some (Bytes.littleEndian status)
  payload : memory.read? (p.toNat + 8) 8 = some (Bytes.littleEndian w)
  size : memory.size = before.size
  others : ∀ addr, 8 ≤ addr → ¬(p.toNat ≤ addr ∧ addr < p.toNat + 16) →
      memory.byte addr = before.byte addr

theorem HeapRoom.holdsCell {memory : Vm.Memory} {p : UInt64} (h : HeapRoom memory p)
    (status w : UInt64) :
    HoldsCell memory (checkedCell memory p status w) p status w := by
  have hroom := h.room
  have hlength (v : UInt64) : (Bytes.littleEndian v).length = 8 := rfl
  have hread (memory : Vm.Memory) (addr : Nat) (v : UInt64) (hin : addr + 8 ≤ memory.size) :
      (memory.set addr (Bytes.littleEndian v)).read? addr 8 = some (Bytes.littleEndian v) :=
    Vm.Memory.read?_set_self (decide_eq_true hin)
  unfold checkedCell
  rw [h.toNat_add]
  constructor
  · refine (Vm.Memory.read?_set_apart (.inl (Nat.le_refl _))).trans (hread _ _ _ ?_)
    rw [Vm.Memory.size_set]
    omega
  · refine hread _ _ _ ?_
    rw [Vm.Memory.size_set, Vm.Memory.size_set]
    omega
  · rw [Vm.Memory.size_set, Vm.Memory.size_set, Vm.Memory.size_set]
  · intro addr hlow hapart
    rw [Vm.Memory.byte_set, Vm.Memory.byte_set, Vm.Memory.byte_set, hlength, hlength, hlength,
      if_neg (by omega), if_neg (by omega), if_neg (by omega)]

namespace FunctionContext

variable {cx : FunctionContext} {link : Linkage} {seen : List Nat} {locals before : Array UInt64}
  {memory : Vm.Memory}
  {result : Option ValueId} {w : UInt64}

/-- The words of a result that are left on the stack. -/
def heldResult (cx : FunctionContext) (w : UInt64) : Option ValueId → List UInt64
  | none => [w]
  | some r => cx.heldWords r w

/-- A result is in its slot if it lives in one, and the slots of other values are as they were. -/
structure Stored (cx : FunctionContext) (result : Option ValueId) (w : UInt64)
    (before locals : Array UInt64) : Prop where
  size : locals.size = before.size
  slot : ∀ r n, result = some r → cx.plan.home r = .slot n → locals[n]? = some w
  others : ∀ n < cx.plan.numSlots, (∀ r, result = some r → cx.plan.home r ≠ .slot n) →
      locals[n]? = before[n]?

/-- The end of the code of an instruction puts the result into its place. -/
theorem walk_define (hkeeps : Keeps cx.plan.numSlots before locals)
    (hslots : ∀ r n, result = some r → cx.plan.home r = .slot n → SlotIn locals n) :
    ∃ locals', walk link seen (cx.define result) none ⟨[w], locals, memory⟩ =
        some (.past ⟨cx.heldResult w result, locals', memory⟩) ∧
        cx.Stored result w before locals' := by
  have hsame (hhome : ∀ r n, result = some r → cx.plan.home r ≠ .slot n) :
      cx.Stored result w before locals :=
    ⟨hkeeps.size, fun r n hr hn => absurd hn (hhome r n hr), fun n hn _ => hkeeps.get n hn⟩
  cases result with
  | none => exact ⟨locals, rfl, hsame fun _ _ h => by cases h⟩
  | some r =>
    have hother {home : Home} (hhome : cx.plan.home r = home) (hne : ∀ n, home ≠ .slot n) :
        ∀ r' n, some r = some r' → cx.plan.home r' ≠ .slot n := by
      rintro _ n ⟨⟩
      rw [hhome]
      exact hne n
    have hdropped {home : Home} (hhome : cx.plan.home r = home) (hne : home ≠ .stack) :
        cx.heldResult w (some r) = [] :=
      if_neg fun hstack => hne (hhome.symm.trans hstack)
    cases hhome : cx.plan.home r with
    | stack =>
      refine ⟨locals, ?_, hsame (hother hhome fun _ h => by cases h)⟩
      have hheld : cx.heldResult w (some r) = [w] := if_pos hhome
      rw [hheld, define, hhome]
      rfl
    | slot n =>
      have hslot := hslots r n rfl hhome
      refine ⟨locals.setIfInBounds n w, ?_, Array.size_setIfInBounds.trans hkeeps.size, ?_, ?_⟩
      · rw [hdropped hhome (fun h => by cases h), define, hhome]
        exact walk_set hslot (by simp [depth])
      · rintro _ n' ⟨⟩ hn'
        obtain rfl : n = n' := Home.slot.inj (hhome.symm.trans hn')
        exact hslot.holds.get
      · intro n' hn' hapart
        have hne : n ≠ n' := by
          rintro rfl
          exact hapart r rfl hhome
        rw [Array.getElem?_setIfInBounds_ne hne]
        exact hkeeps.get n' hn'
    | none | const =>
      refine ⟨locals, ?_, hsame (hother hhome fun _ h => by cases h)⟩
      rw [hdropped hhome (fun h => by cases h), define, hhome]
      exact walk_drop (by simp [depth])

/-! ## What the code of an operation leads to -/

section Yields

variable [Hashing]

/-- An operand lives somewhere, and its word is there; the word of one that lives on the stack is
looked for there. -/
def OperandAt (cx : FunctionContext) (locals : Array UInt64) (v : ValueId) (w : UInt64) : Prop :=
  match cx.plan.home v with
  | .const => cx.module.constWord? v = some w
  | .slot n => locals[n]? = some w
  | .stack => True
  | .none => False

/-- The machine comes to the end of the code of an instruction, with a word in the place of the
result. -/
def Delivers (cx : FunctionContext) (vm : Vm.Module) (limits : Vm.Limits) (i : Ssa.Inst)
    (below : List UInt64) (c : Config) (w : UInt64) (memory : Vm.Memory) : Prop :=
  ∃ locals, cx.Stored i.result w c.frame.locals locals ∧
    Vm.Runs vm limits c
      { c with
        frame := { c.frame with pc := c.frame.pc + instrCount (cx.inst i).items, locals }
        stack := stackOf (cx.heldResult w i.result ++ below)
        memory }

/-- The machine does what an operation amounts to. A result that may be an error is delivered as the
address of a new cell with the status and the word. -/
def Yields (cx : FunctionContext) (vm : Vm.Module) (limits : Vm.Limits) (i : Ssa.Inst)
    (below : List UInt64) (c : Config) (p : UInt64) (cell : Bool) : Folded → Prop
  | .value w =>
    if cell then ∃ memory, cx.Delivers vm limits i below c p memory ∧
      HoldsCell c.memory memory p 0 w
    else cx.Delivers vm limits i below c w c.memory
  | .checkedErr =>
    ∃ memory w, cx.Delivers vm limits i below c p memory ∧
      HoldsCell c.memory memory p (wordOfInt (-16)) w
  | .overflow => Vm.Stops vm limits c (.panicked "arithmetic overflow")
  | .divByZero => Vm.Stops vm limits c (.trappedBy .divByZero)

variable {x : Site} {vm : Vm.Module} {limits : Vm.Limits} {i : Ssa.Inst} {code : List Item}
  {start : Work} {p : UInt64}

theorem delivers_of_pops (hx : x.Running limits) (hitems : x.piece.items = (cx.inst i).items)
    (hcode : (cx.inst i).items = code ++ cx.define i.result)
    (hslots : ∀ r n, i.result = some r → cx.plan.home r = .slot n → SlotIn start.locals n)
    (hpops : Pops x.link cx.plan.numSlots start code w memory) :
    cx.Delivers vm limits i x.below (x.config (codeSize x.before) start) w memory := by
  obtain ⟨locals, seen, hkeeps, hwalk⟩ := hpops
  obtain ⟨locals', hdefine, hstored⟩ := walk_define hkeeps
    fun r n (hr : i.result = some r) hn => hkeeps.slotIn (hslots r n hr hn)
  have hwhole : walk x.link [] x.piece.items none start =
      some (.past ⟨cx.heldResult w i.result, locals', memory⟩) := by
    rw [hitems, hcode, hwalk, hdefine]
  have hends := x.ends_of_walk_piece (m := vm) hx hwhole
  rw [hitems] at hends
  exact ⟨locals', hstored, hends⟩

/-- The machine does at the code of an operation what walking through it says. -/
theorem yields_of_follows {cell : Bool} {folded : Folded} (hx : x.Running limits)
    (hitems : x.piece.items = (cx.inst i).items)
    (hcode : (cx.inst i).items = code ++ cx.define i.result)
    (hslots : ∀ r n, i.result = some r → cx.plan.home r = .slot n → SlotIn start.locals n)
    (hheap : cell = true → HeapRoom start.memory p)
    (hgives : ∀ locals o, .jump o (.label (.failure .overflow)) ∈ x.piece.items →
      Vm.Stops vm limits (x.config (x.target (.failure .overflow)) ⟨[], locals, start.memory⟩)
      (.panicked "arithmetic overflow"))
      (hfollows : Follows x.link cx.plan.numSlots start code p cell folded) :
    cx.Yields vm limits i x.below (x.config (codeSize x.before) start) p cell folded := by
  cases folded with
  | value w =>
    cases cell with
    | false => exact delivers_of_pops hx hitems hcode hslots hfollows
    | true => exact ⟨_, delivers_of_pops hx hitems hcode hslots hfollows, (hheap rfl).holdsCell 0 w⟩
  | checkedErr =>
    obtain ⟨hcell, w, hpops⟩ := hfollows
    exact ⟨_, w, delivers_of_pops hx hitems hcode hslots hpops, (hheap hcell).holdsCell _ w⟩
  | overflow =>
    obtain ⟨locals, hwalk⟩ := hfollows
    have hwhole : walk x.link [] x.piece.items none start = _ :=
      (hitems.trans hcode) ▸ hwalk (cx.define i.result)
    obtain ⟨o, hjump⟩ := exists_jump_of_walk hwhole
    exact Vm.Runs.stops (x.ends_of_walk_piece hx hwhole) (hgives locals o hjump)
  | divByZero =>
    have hwhole : walk x.link [] x.piece.items none start = _ :=
      (hitems.trans hcode) ▸ hfollows (cx.define i.result)
    exact x.ends_of_walk_piece hx hwhole

end Yields

/-- No code of a block has the label of a failure. -/
theorem label_blocks [Hashing] {cx : FunctionContext} {depths : Array Nat} {bs : List BlockId}
    {q : Piece} (hq : q ∈ cx.blocks depths bs) (fl : Failure) : q.label ≠ some (.failure fl) := by
  induction bs with
  | nil => cases hq
  | cons b bs ih =>
    rcases List.mem_append.mp hq with hq | hq
    · rw [block_eq] at hq
      rcases List.mem_cons.mp hq with rfl | hq
      · exact nofun
      · rcases List.mem_append.mp hq with hq | hq
        · obtain ⟨i, -, rfl⟩ := List.mem_map.mp hq
          exact nofun
        · obtain rfl := List.mem_singleton.mp hq
          exact nofun
    · exact ih hq

end FunctionContext

/-! ## Operations of compiled functions -/

section Compiled

variable [Hashing] {m : Ssa.Module} {types : TypePool} {options : CodegenOptions} {id : FuncId}
  {f : Ssa.Function}
  {limits : Vm.Limits} {i : Ssa.Inst} {word : ValueId → UInt64} {below : List UInt64} {c : Config}

/-- The machine is where the code of an instruction of a compiled function starts, with the words of
its operands in their places. -/
structure OperationStarts (m : Ssa.Module) (types : TypePool) (options : CodegenOptions)
    (limits : Vm.Limits) (id : FuncId) (f : Ssa.Function) (i : Ssa.Inst) (word : ValueId → UInt64)
    (below : List UInt64) (c : Config) : Prop where
  function : ∃ n, (m.compile types options).index? id = some n ∧
    (m.compile types options).module.functions[n]? = some c.frame.function
  position : ∃ before weight after,
    (lowerFunction m types (unitOf m options) options f).pieces =
      before ++ (functionContext m types (unitOf m options) options f).instPiece weight i :: after ∧
    c.frame.pc = codeSize before
  operands : ∀ v ∈ i.data.operands,
    (functionContext m types (unitOf m options) options f).OperandAt c.frame.locals v (word v)
  /-- An operand that lives on the stack is on top of it. -/
  stack : c.stack.words = (functionContext m types (unitOf m options) options f).heldOperand word
      i.data ++ below
  base : c.frame.base ≤ below.length
  room : below.length + depth ≤ limits.maxStack
  slots : (lowerFunction m types (unitOf m options) options f).numLocals ≤ c.frame.locals.size
  small : c.frame.locals.size ≤ 2 ^ 64
  code : c.frame.function.code.size < 2 ^ 64
  data : ConstantData (m.compile types options).module c.memory

omit [Hashing] in
theorem eq_stackOf {stack : Vm.OperandStack} {ws : List UInt64} (h : stack.words = ws) :
    stack = stackOf ws := by
  obtain ⟨words, height, hheight⟩ := stack
  subst hheight h
  rfl

/-- The code of a piece with the label of a failure gives up with its message. -/
theorem eq_failure {q : Piece}
    (hq : q ∈ (lowerFunction m types (unitOf m options) options f).pieces) {fl : Failure}
    (hl : q.label = some (.failure fl)) :
    q = (functionContext m types (unitOf m options) options f).failure fl := by
  rcases List.mem_append.mp hq with hq | hq
  · exact absurd hl (FunctionContext.label_blocks hq fl)
  · obtain ⟨fl', -, rfl⟩ := List.mem_map.mp hq
    obtain rfl := Label.failure.inj (Option.some.inj hl)
    rfl

/-- Where a compiled function jumps to a failure, it gives up with the message of the failure. -/
theorem stops_failure {code : LoweredFunction} {x : Site} (hx : x.Running limits)
    (hf : m.functions[id]? = some f) (hcode : (lowered m types options).code? id = some code)
    (hlink : x.link = (lowered m types options).linkage) (hpieces : x.pieces = code.pieces)
    {fl : Failure} {o : Vm.Op} (hjump : .jump o (.label (.failure fl)) ∈ x.piece.items)
    {memory : Vm.Memory} (hdata : ConstantData (m.compile types options).module memory)
    (locals : Array UInt64) :
    Vm.Stops (m.compile types options).module limits
      (x.config (x.target (.failure fl)) ⟨[], locals, memory⟩) (.panicked fl.message) := by
  obtain ⟨f', hf', -, rfl, -⟩ := exists_function_of_code? hcode
  obtain rfl := Option.some.inj (hf.symm.trans hf')
  have hpiece : x.piece ∈ (lowerFunction m types (unitOf m options) options f).pieces := by
    rw [← hpieces]
    simp [Site.pieces]
  obtain ⟨q, hq, hl⟩ := exists_failure_label hpiece hjump
  obtain ⟨before, q, after, hsplit, hl, hposition⟩ := exists_split_of_label hq hl
  have hq : q ∈ (lowerFunction m types (unitOf m options) options f).pieces := by
    rw [hsplit]
    simp
  have hitems : q.items = giveUp .panic fl.message f.span := congrArg Piece.items (eq_failure hq hl)
  -- the code of the failure belongs to the same activation
  let y : Site := { x with before, piece := q, after }
  have hy : y.Running limits := by
    refine ⟨?_, hx.small, hx.base, hx.room⟩
    have hcode := hx.code
    rw [hpieces, hsplit] at hcode
    exact hcode
  have htarget : x.target (.failure fl) = codeSize y.before := by
    rw [Site.target, hpieces, hposition]
  have hreserve : .reserve .message (Bytes.utf8 fl.message) f.span ∈
      (lowerFunction m types (unitOf m options) options f).items := by
    refine List.mem_flatMap.mpr ⟨q, hq, ?_⟩
    rw [hitems]
    exact List.mem_cons_self
  have hcall : .callHost .panic ∈ q.items := by
    rw [hitems]
    simp [giveUp, hostCall]
  rw [htarget]
  refine Site.stops_giveUp hy hitems (by cases fl <;> decide) ?_ ?_
  · rw [imports_compile, List.getElem?_toArray]
    show _[(x.link.host .panic).toUInt32.toNat]? = _
    rw [hlink]
    exact getElem?_imports (mem_hostOps hcode hq hcall)
  · show memory.read? (x.link.address (Bytes.utf8 fl.message)).toNat _ = _
    rw [hlink]
    exact hdata.read? hf hcode hreserve

/-- The operands of an instruction are where the code looks for them. -/
theorem OperationStarts.located (hc : OperationStarts m types options limits id f i word below c) :
    ∀ v ∈ i.data.operands,
      (functionContext m types (unitOf m options) options f).Located c.frame.locals v (word v) := by
  intro v hv
  have hslots := hc.slots
  have hsmall := hc.small
  have hnum :
      (slotPlan m f).numSlots ≤ (lowerFunction m types (unitOf m options) options f).numLocals :=
    Nat.le_add_right _ _
  have hat : match (slotPlan m f).home v with
      | .const => m.constWord? v = some (word v)
      | .slot n => c.frame.locals[n]? = some (word v)
      | .stack => True
      | .none => False := hc.operands v hv
  have hlives : (slotPlan m f).home v ≠ .none := by
    intro hnone
    rw [hnone] at hat
    exact hat
  constructor
  · rcases home_slotPlan (m := m) (f := f) (v := v) with hnone | ⟨hlt, -⟩
    · exact absurd hnone hlives
    · exact hlt
  · intro hconst
    have hconst : (slotPlan m f).home v = .const := hconst
    rw [hconst] at hat
    exact hat
  · intro n hslot
    have hslot : (slotPlan m f).home v = .slot n := hslot
    have hlt := lt_of_home_slot hslot
    rw [hslot] at hat
    exact ⟨hlt, hat, by omega⟩
  · exact hlives

end Compiled

end ContractCompiler.Codegen

namespace ContractCompiler

open Codegen
open Ssa (ValueId FuncId BlockId)

/-- The code of an operation on words leads to what the operation does, wherever its operands
live. -/
theorem operation_exact [Hashing] {m : Ssa.Module} {types : TypePool} {options : CodegenOptions}
    {id : FuncId} {f : Ssa.Function} (hf : m.functions[id]? = some f) {b : BlockId}
    (hb : b ∈ f.blocks) {i : Ssa.Inst} (hi : i ∈ instsOf m b) {word : ValueId → UInt64}
    {cell : Bool} {folded : Folded}
    (hop : (functionContext m types (unitOf m options) options f).operation? word i.data =
      some (cell, folded))
    (hnormal : (functionContext m types (unitOf m options) options f).NormalOperands word i.data)
    {limits : Vm.Limits} {below : List UInt64} {c : Vm.Config}
    (hc : OperationStarts m types options limits id f i word below c) {p : UInt64}
    (hheap : cell = true → HeapRoom c.memory p) :
    (functionContext m types (unitOf m options) options f).Yields (m.compile types options).module
      limits i below c p cell folded := by
  let cx := functionContext m types (unitOf m options) options f
  have hlocated := hc.located
  obtain ⟨n, hindex, hfunction⟩ := hc.function
  obtain ⟨before, weight, after, hsplit, hpc⟩ := hc.position
  -- the running function is made of the code of `f`
  rw [index?_compile] at hindex
  obtain ⟨code, hcode, rfl⟩ := Option.map_eq_some_iff.mp hindex
  obtain ⟨f', hf', -, rfl, -⟩ := exists_function_of_code? hcode
  obtain rfl := Option.some.inj (hf.symm.trans hf')
  have hbytecode := Option.some.inj ((getElem?_functions_compile hf hcode).symm.trans hfunction)
  obtain ⟨us, us', huses⟩ : ∃ us us', blockUses m b = us ++ instUse i :: us' :=
    List.append_of_mem (List.mem_append_left _ (List.mem_map_of_mem hi))
  have htakes : cx.Takes i.data.operands i.data.stackOperand? := takes_slotPlan rfl hb huses
  have hscratch : cx.plan.numSlots + (cx.inst i).scratch ≤
      (lowerFunction m types (unitOf m options) options f).numLocals := by
    have hmem :
        cx.instPiece weight i ∈ (lowerFunction m types (unitOf m options) options f).pieces := by
      rw [hsplit]
      exact List.mem_append_right _ List.mem_cons_self
    exact Nat.add_le_add_left ((le_foldl_max Piece.scratch _ 0).2 _ hmem) _
  have hroom : cx.Room c.frame.locals (cx.inst i).scratch := ⟨hscratch.trans hc.slots, hc.small⟩
  obtain ⟨⟨function, pc, locals, base⟩, callers, stack, memory, ledger, hostStatus⟩ := c
  obtain rfl := eq_stackOf hc.stack
  dsimp only at hpc hbytecode
  subst hpc hbytecode
  let x : Site :=
    { link := (lowered m types options).linkage, before, piece := cx.instPiece weight i, after
      function := (lowerFunction m types (unitOf m options) options f).assemble
        (lowered m types options).linkage types (unitOf m options) f
      base, callers, below, ledger, hostStatus }
  have hpieces : x.pieces = (lowerFunction m types (unitOf m options) options f).pieces :=
    hsplit.symm
  have hx : x.Running limits := by
    refine ⟨?_, hc.code, hc.base, hc.room⟩
    rw [hpieces]
    rfl
  obtain ⟨items, hitems, hfollows⟩ : ∃ items, (cx.inst i).items = items ++ cx.define i.result ∧
      Follows x.link cx.plan.numSlots ⟨cx.heldOperand word i.data, locals, memory⟩ items p
        cell folded :=
    FunctionContext.follows_operation hop hlocated hnormal htakes hroom hheap
  refine FunctionContext.yields_of_follows (x := x) hx rfl hitems ?_ hheap ?_ hfollows
  · intro r n hr hn
    have hlt : n < cx.plan.numSlots := lt_of_home_slot hn
    have hfits : cx.plan.numSlots + (cx.inst i).scratch ≤ locals.size := hroom.fits
    have hsmall : locals.size ≤ 2 ^ 64 := hroom.small
    exact ⟨show n < locals.size by omega, show n < 2 ^ 64 by omega⟩
  · intro locals o hjump
    exact stops_failure hx hf hcode rfl hpieces hjump hc.data locals

/-! ### A checked sum -/

/-- The type of the result of a checked operation on `i64`, after the built-in types. -/
def checkedSumTypes : TypePool := { shapes := (TypePool.shapes {}).push (.result Builtin.i64.id) }

/-- A function that adds its arguments with a check. -/
def checkedSum : Ssa.Module where
  unit := "t"
  functions := #[{ name := "add", ret := TypePool.count {},
                   paramTypes := [Builtin.i64.id, Builtin.i64.id],
                   blocks := [0], entry := some 0 }]
  blocks := #[{ params := [0, 1], insts := [0], term := some (.ret (some 2)) }]
  insts := #[{ data := .binary .add .checked 0 1, result := some 2 }]
  values := #[{ type := Builtin.i64.id, site := .param 0 0 },
    { type := Builtin.i64.id, site := .param 0 1 }, { type := TypePool.count {}, site := .inst 0 }]

/-- The start of a run of the function with the greatest number and one. -/
def checkedSumStart : Vm.Config where
  frame := { function := (@Ssa.Module.compile Hashing.sha256 checkedSum checkedSumTypes
             {}).module.functions.getD 0 default
             locals := #[0x7FFFFFFFFFFFFFFF, 1, 0, 0, 0, 0], base := 0 }
  stack := stackOf []
  memory := Vm.Memory.set { size := 1048576 } 0 (Bytes.littleEndian 8)
  ledger := {}

/-- The sum does not fit, so that the function makes an error result at the end of the heap. -/
theorem operation_exact_checkedSum :
    @FunctionContext.Yields Hashing.sha256 (functionContext checkedSum checkedSumTypes "t" {}
      (checkedSum.functions.getD 0 default)) (@Ssa.Module.compile Hashing.sha256 checkedSum
        checkedSumTypes {}).module {}
      { data := .binary .add .checked 0 1, result := some 2 } [] checkedSumStart 8 true
        .checkedErr := by
  let _ := Hashing.sha256
  let f := checkedSum.functions.getD 0 default
  let cx := functionContext checkedSum checkedSumTypes "t" {} f
  let inst : Ssa.Inst := { data := .binary .add .checked 0 1, result := some 2 }
  let word : ValueId → UInt64 := fun v => if v = 0 then 0x7FFFFFFFFFFFFFFF else 1
  let code := lowerFunction checkedSum checkedSumTypes "t" {} f
  have hfunction : (checkedSum.compile checkedSumTypes {}).index? 0 = some 0 ∧
      (checkedSum.compile checkedSumTypes {}).module.functions[0]? =
        some checkedSumStart.frame.function := by
    decide +kernel
  have hposition : code.pieces = code.pieces.take 1 ++ cx.instPiece 1 inst :: code.pieces.drop 2 ∧
      0 = codeSize (code.pieces.take 1) := by
    decide +kernel
  have hslots : code.numLocals ≤ 6 ∧ checkedSumStart.frame.function.code.size < 2 ^ 64 := by
    decide +kernel
  have hhomes : cx.plan.home 0 = .slot 0 ∧ cx.plan.home 1 = .slot 1 := by
    decide +kernel
  have hdata : (checkedSum.compile checkedSumTypes {}).module.data.toList.tail = [] := by
    decide +kernel
  have hstarts : OperationStarts checkedSum checkedSumTypes {} {} 0 f inst word []
      checkedSumStart := by
    refine ⟨⟨0, hfunction⟩, ⟨_, 1, _, hposition⟩, ?_, rfl,
      by decide, by decide, hslots.1, by decide, hslots.2, ?_⟩
    · intro v hv
      show cx.OperandAt _ v _
      unfold FunctionContext.OperandAt
      rcases List.mem_cons.mp hv with rfl | hv
      · rw [hhomes.1]
        rfl
      · obtain rfl := List.mem_singleton.mp hv
        rw [hhomes.2]
        rfl
    · intro s hs
      rw [hdata] at hs
      cases hs
  have hk : (cx.kind 0).HasWidth ∧ (cx.kind 0).Normal (word 0) ∧ (cx.kind 0).Normal (word 1) := by
    decide +kernel
  exact operation_exact (f := f) (b := 0) (i := inst) (c := checkedSumStart) rfl (by decide)
    (by decide) (by decide +kernel) hk hstarts fun _ => ⟨by decide +kernel, by decide, by decide⟩

end ContractCompiler
