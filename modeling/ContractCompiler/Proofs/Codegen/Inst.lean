import ContractCompiler.Codegen.Inst
import ContractCompiler.Proofs.Codegen.Arith

/-!
# Flow through instructions

The code of every instruction takes the operand on the stack that it pushes first, and leaves what
it yields in its place or on the stack.

- `FunctionContext.ResultFits`: an instruction has a result if its code leaves a word;
- `FunctionContext.carries_inst`: the code of an instruction.
-/

namespace ContractCompiler.Codegen

open Ssa (ValueId FuncId InstData)

namespace FunctionContext

variable {cx : FunctionContext} {E : FlowContext} {r v : ValueId} {h : Nat} {is : List Item}
  {k : Option Nat}

/-! ## Calls and memory -/

/-- Arguments are pushed one after the other; only the first can be on the stack. -/
theorem flows_args (hcx : cx.Placed E) {args : List ValueId} (htakes : cx.Takes args args.head?) :
    Flows E (some (cx.heldBy args.head?)) (args.flatMap cx.push ++ is) k ↔
      Flows E (some args.length) is k := by
  have hrest (n : Nat) {vs : List ValueId} (hvs : ∀ v ∈ vs, cx.plan.home v ≠ .stack) :
      Flows E (some n) (vs.flatMap cx.push ++ is) k ↔ Flows E (some (n + vs.length)) is k := by
    induction vs generalizing n with
    | nil => rfl
    | cons v vs ih =>
      rw [List.flatMap_cons, List.append_assoc, flows_push hcx (hvs v List.mem_cons_self),
        ih (n + 1) fun w hw => hvs w (List.mem_cons_of_mem v hw), List.length_cons,
        Nat.add_right_comm, Nat.add_assoc]
  cases args with
  | nil => rfl
  | cons v vs =>
    rw [List.flatMap_cons, List.append_assoc, List.head?_cons, heldBy_some, flows_first hcx,
      hrest 1 fun w hw => htakes.home_of_mem hw, List.length_cons, Nat.add_comm]

/-- A call takes its arguments and leaves the result of the function. -/
theorem flows_call (hcx : cx.Placed E) {callee : FuncId} {args : List ValueId}
    {result : Option ValueId} (htakes : cx.Takes args args.head?)
    (hok : ∀ f, .fault f ∉ (cx.call callee args result).items)
    (hcallee : E.signature callee = some (args.length, result.isSome.toNat)) :
    Flows E (some (cx.heldBy args.head?)) (cx.call callee args result).items
      (some (cx.heldBy result)) := by
  unfold call at hok ⊢
  split at hok
  · simp only [List.append_assoc]
    rw [flows_args hcx htakes]
    have hcall : Flows E (some args.length) [.call callee] (some result.isSome.toNat) := by
      simp [Flows, Item.Fits, Item.after, hcallee]
    rw [hcall.append_iff]
    cases result with
    | none => rfl
    | some r => exact (flows_define hcx).mpr rfl
  · exact absurd (List.mem_singleton_self _) (hok _)

theorem aggregate_eq {fields : Nat} {span : Span}
    (hok : ∀ f, .fault f ∉ (cx.aggregate fields span is).items) :
    cx.aggregate fields span is = { scratch := 2, items := is } := by
  unfold aggregate at hok ⊢
  split
  · rename_i hlarge
    simp [hlarge] at hok
  · rfl

theorem flows_storeFields (hcx : cx.Placed E) {slot : Nat} (hslot : E.HasSlot slot) (i : Nat)
    {vs : List ValueId} (hvs : ∀ v ∈ vs, cx.plan.home v ≠ .stack) :
    Flows E (some 0) (cx.storeFields slot i vs ++ is) k ↔ Flows E (some 0) is k := by
  induction vs generalizing i with
  | nil => rfl
  | cons v vs ih =>
    have hv := hvs v List.mem_cons_self
    have ih := ih (i + 1) fun w hw => hvs w (List.mem_cons_of_mem v hw)
    unfold storeFields
    split <;> simp +decide [fieldAddress, hslot, flows_push hcx hv, ih]

theorem flows_makeStruct (hcx : cx.Placed E) {fields : List ValueId} {span : Span}
    (hfields : ∀ v ∈ fields, cx.plan.home v ≠ .stack)
    (hok : ∀ f, .fault f ∉ (cx.makeStruct fields span (some r)).items)
    (htemps : cx.Temps E (cx.makeStruct fields span (some r)).scratch) :
    Flows E (some 0) (cx.makeStruct fields span (some r)).items (some (cx.held r)) := by
  dsimp only [makeStruct] at hok htemps ⊢
  rw [aggregate_eq hok] at htemps ⊢
  have htemps : cx.Temps E 2 := htemps
  have hp : E.HasSlot (cx.temp 0) := htemps 0 (by decide)
  have hnext : E.HasSlot (cx.temp 0 + 1) := htemps 1 (by decide)
  simp [flows_allocateInto hp hnext, flows_storeFields hcx hp 0 hfields, hp, flows_define hcx]

theorem flows_insert (hcx : cx.Placed E) {base value : ValueId} {index : Nat} {span : Span}
    (hbase : cx.plan.home base ≠ .stack) (hvalue : cx.plan.home value ≠ .stack)
    (hok : ∀ f, .fault f ∉ (cx.insert base index value span (some r)).items)
    (htemps : cx.Temps E (cx.insert base index value span (some r)).scratch) :
    Flows E (some 0) (cx.insert base index value span (some r)).items (some (cx.held r)) := by
  dsimp only [insert] at hok htemps ⊢
  rw [aggregate_eq hok] at htemps ⊢
  have htemps : cx.Temps E 2 := htemps
  have hp : E.HasSlot (cx.temp 0) := htemps 0 (by decide)
  have hnext : E.HasSlot (cx.temp 0 + 1) := htemps 1 (by decide)
  simp +decide [flows_allocateInto hp hnext, hp, flows_push hcx hbase, flows_push hcx hvalue,
    fieldAddress, flows_define hcx]

theorem flows_makeResult (hcx : cx.Placed E) {ok : Bool} {value : Option ValueId}
    (hvalue : ∀ v, value = some v → cx.plan.home v ≠ .stack)
    (htemps : cx.Temps E 2) :
    Flows E (some 0) (cx.makeResult ok value (some r)).items (some (cx.held r)) := by
  have hp : E.HasSlot (cx.temp 0) := htemps 0 (by decide)
  have hnext : E.HasSlot (cx.temp 0 + 1) := htemps 1 (by decide)
  unfold makeResult
  cases value with
  | none =>
    cases ok <;>
      simp +decide [flows_allocateInto hp hnext, hp, push?, unsupported, flows_define hcx]
  | some v =>
    have hv := hvalue v rfl
    cases ok <;>
      simp +decide [flows_allocateInto hp hnext, hp, push?, flows_push hcx hv, flows_define hcx]

theorem flows_resultValue (hcx : cx.Placed E) {src : ValueId} (hsrc : cx.plan.home src ≠ .stack)
    (result : Option ValueId) :
    Flows E (some 0) (cx.resultValue src result).items (some (cx.heldBy result)) := by
  unfold resultValue
  cases result with
  | none => simp [flows_push hcx hsrc]
  | some r => simp +decide [flows_push hcx hsrc, flows_define hcx]

theorem flows_loadFrom (hcx : cx.Placed E) (address : ValueId) :
    Flows E (some (cx.held address)) (cx.loadFrom address (some r)).items (some (cx.held r)) := by
  simp [loadFrom, flows_first hcx, flows_define hcx]

theorem flows_refNew (hcx : cx.Placed E) {init : ValueId} (hinit : cx.plan.home init ≠ .stack)
    (htemps : cx.Temps E 2) :
    Flows E (some 0) (cx.refNew init (some r)).items (some (cx.held r)) := by
  have hp : E.HasSlot (cx.temp 0) := htemps 0 (by decide)
  have hnext : E.HasSlot (cx.temp 0 + 1) := htemps 1 (by decide)
  simp [refNew, flows_allocateInto hp hnext, hp, flows_push hcx hinit, flows_define hcx]

/-! ## State -/

theorem flows_buffer (hcx : cx.Placed E) (hv : cx.plan.home v ≠ .stack) {slot : Nat}
    (hslot : E.HasSlot slot) (hnext : E.HasSlot (slot + 1)) :
    Flows E (some 0) (cx.buffer v slot ++ is) k ↔ Flows E (some 0) is k := by
  unfold buffer
  split <;> simp +decide [flows_push hcx hv, hslot, hnext, flows_allocateInto hslot hnext]

theorem flows_bufferArg {slot : Nat} (hslot : E.HasSlot slot) (hnext : E.HasSlot (slot + 1)) :
    Flows E (some h) (cx.bufferArg v slot ++ is) k ↔ Flows E (some (h + 2)) is k := by
  unfold bufferArg
  split <;> simp [hslot, hnext]

theorem flows_domainArg [Hashing] {ns : String} {key : ValueId} :
    Flows E (some h) (cx.domainArg ns key ++ is) k ↔ Flows E (some (h + 2)) is k := by
  simp [domainArg]

theorem flows_recoverable {status mark : Nat} (hstatus : E.HasSlot status)
    (hmark : markHeight mark = 0) :
    Flows E (some 0) (recoverable status mark ++ is) k ↔ Flows E none is k := by
  have htests (ss : List HostStatus) (is : List Item) :
      Flows E (some 0)
        (ss.flatMap (fun s => [get status, litInt s.code, op .eq, jumpIf mark]) ++ is) k ↔
          Flows E (some 0) is k := by
    induction ss with
    | nil => rfl
    | cons s ss ih => simp +decide [hstatus, hmark, ih]
  rw [recoverable, List.append_assoc, htests]
  simp

/-- The arguments of a state access. -/
theorem flows_accessArgs [Hashing] {ns : String} {key : ValueId} {slot : Nat}
    (hslot : E.HasSlot slot) (hnext : E.HasSlot (slot + 1)) :
    Flows E (some 0) [cx.domainArg ns key, cx.bufferArg key slot].flatten (some 4) := by
  simp only [List.flatten_cons, List.flatten_nil]
  rw [flows_domainArg, flows_bufferArg hslot hnext]
  rfl

theorem flows_stateRead [Hashing] (hcx : cx.Placed E) {ns : String} {key : ValueId} {type : TypeId}
    {span : Span} (hkey : cx.plan.home key ≠ .stack)
    (htemps : cx.Temps E (cx.stateRead ns key type span (some r)).scratch) :
    Flows E (some 0) (cx.stateRead ns key type span (some r)).items (some (cx.held r)) := by
  have htemps : cx.Temps E (if cx.types.isBytes type then 10 else 7) := htemps
  have hslot (n : Nat) (hn : n < 7) : E.HasSlot (cx.temp n) := by
    refine htemps n ?_
    split <;> omega
  have hargs (buffer : List Item) (hb : Flows E (some 4) buffer (some 6)) :
      Flows E (some 0) ([cx.domainArg ns key, cx.bufferArg key (cx.temp 0)] ++ [buffer]).flatten
        (some (hostTakes .stateRead)) := by
    rw [List.flatten_append, (flows_accessArgs (hslot 0 (by omega))
      (hslot 1 (by omega))).append_iff, List.flatten_singleton]
    exact hb
  unfold stateRead
  extract_lets bytes args status out res again request payload
  have hstatus : E.HasSlot status := hslot 2 (by omega)
  have hres : E.HasSlot res ∧ E.HasSlot (res + 1) := by
    cases hbytes : bytes with
    | true => simpa [res, hbytes] using ⟨hslot 3 (by omega), hslot 4 (by omega)⟩
    | false => simpa [res, hbytes] using ⟨hslot 5 (by omega), hslot 6 (by omega)⟩
  have hrequest (is : List Item) (k : Option Nat) :
      Flows E (some 0) (request ++ is) k ↔ Flows E (some 0) is k := by
    cases hbytes : bytes with
    | true =>
      simp only [request, hbytes, if_true]
      rw [flows_hostCall rfl (hargs _ (by simp)) hstatus]
    | false =>
      simp only [request, hbytes, Bool.false_eq_true, if_false, List.append_assoc]
      rw [flows_allocateInto (hslot 3 (by omega)) (hslot 4 (by omega)),
        flows_hostCall rfl (hargs _ (by simp [out, hslot])) hstatus]
  -- The payload is left above the address at which it is stored.
  have hpayload (is : List Item) (k : Option Nat) :
      Flows E (some 0) (payload ++ is) k ↔ Flows E (some 2) is k := by
    cases hbytes : bytes with
    | true =>
      have htemps : cx.Temps E 10 := by
        rwa [if_pos hbytes] at htemps
      have hagain (n : Nat) (hn : n < 5) : E.HasSlot (again + n) := by
        have := htemps (5 + n) (by omega)
        rwa [temp, ← Nat.add_assoc] at this
      have haccess : Flows E (some 0) args.flatten (some (hostTakes .stateRead - 2)) :=
        flows_accessArgs (hslot 0 (by omega)) (hslot 1 (by omega))
      simp +decide only [payload, hbytes, if_true, List.append_assoc]
      rw [flows_readBytes rfl haccess (by decide) hstatus hagain]
      simp +decide [hres, hagain 1 (by omega)]
    | false =>
      simp +decide [payload, hbytes, hres, out, hslot, flows_normalize]
  simp +decide [reserveDomain, flows_buffer hcx hkey (hslot 0 (by omega)) (hslot 1 (by omega)),
    hrequest, hpayload, flows_allocateInto hres.1 hres.2, hstatus, hres.1, flows_recoverable,
    markHeight, flows_define hcx]

theorem flows_stateWrite [Hashing] (hcx : cx.Placed E) {ns : String} {key value : ValueId}
    {span : Span} (hkey : cx.plan.home key ≠ .stack) (hvalue : cx.plan.home value ≠ .stack)
    (htemps : cx.Temps E 5) :
    Flows E (some 0) (cx.stateWrite ns key value span).items (some 0) := by
  have hslot (n : Nat) (hn : n < 5) : E.HasSlot (cx.temp n) := htemps n hn
  have hargs : Flows E (some 0)
      [cx.domainArg ns key, cx.bufferArg key (cx.temp 0), cx.bufferArg value (cx.temp 2)].flatten
      (some (hostTakes .stateWrite)) := by
    simp only [List.flatten_cons, List.flatten_nil]
    rw [flows_domainArg, flows_bufferArg (hslot 0 (by omega)) (hslot 1 (by omega)),
      flows_bufferArg (hslot 2 (by omega)) (hslot 3 (by omega))]
    rfl
  simp only [stateWrite, reserveDomain, List.append_assoc, List.cons_append, flows_reserve]
  rw [flows_buffer hcx hkey (hslot 0 (by omega)) (hslot 1 (by omega)),
    flows_buffer hcx hvalue (hslot 2 (by omega)) (hslot 3 (by omega)),
    flows_hostCall rfl hargs (hslot 4 (by omega))]
  simp +decide [escalate, hslot]

theorem flows_stateHas [Hashing] (hcx : cx.Placed E) {ns : String} {key : ValueId} {span : Span}
    (hkey : cx.plan.home key ≠ .stack) (htemps : cx.Temps E 3) :
    Flows E (some 0) (cx.stateHas ns key span (some r)).items (some (cx.held r)) := by
  have hslot (n : Nat) (hn : n < 3) : E.HasSlot (cx.temp n) := htemps n hn
  have hargs : Flows E (some 0) [cx.domainArg ns key, cx.bufferArg key (cx.temp 0)].flatten
      (some (hostTakes .stateHas)) :=
    flows_accessArgs (hslot 0 (by omega)) (hslot 1 (by omega))
  simp +decide [stateHas, reserveDomain, flows_buffer hcx hkey (hslot 0 (by omega))
    (hslot 1 (by omega)), flows_hostCall rfl hargs (hslot 2 (by omega)), flows_escalate, hslot,
    flows_define hcx]

/-! ## Other host operations -/

theorem flows_context (hcx : cx.Placed E) {query : Nat} {result : Option ValueId}
    (htemps : cx.Temps E (cx.context query result).scratch) :
    Flows E (some 0) (cx.context query result).items (some (cx.heldBy result)) := by
  cases result with
  | none => rfl
  | some r =>
    dsimp only [context] at htemps ⊢
    split at htemps
    · rename_i hbytes
      have hslot (n : Nat) (hn : n < 6) : E.HasSlot (cx.temp n) := htemps n hn
      have hagain (n : Nat) (hn : n < 5) : E.HasSlot (cx.temp 1 + n) := by
        have := htemps (1 + n) (show 1 + n < 6 by omega)
        rwa [temp, ← Nat.add_assoc] at this
      rw [if_pos hbytes]
      simp only [List.append_assoc]
      rw [flows_hostCall rfl (by simp; rfl) (hslot 0 (by omega)),
        flows_escalate (hslot 0 (by omega)), flows_readBytes rfl (by simp; rfl) (by decide)
          (hslot 0 (by omega)) hagain]
      simp [hslot, flows_define hcx]
    · rename_i hbytes
      have hslot (n : Nat) (hn : n < 3) : E.HasSlot (cx.temp n) := htemps n hn
      rw [if_neg hbytes]
      simp only [List.append_assoc]
      rw [flows_allocateInto (hslot 1 (by omega)) (hslot 2 (by omega)),
        flows_hostCall rfl (by simp [hslot]; rfl) (hslot 0 (by omega)),
        flows_escalate (hslot 0 (by omega))]
      simp [hslot, flows_define hcx]

theorem flows_digest (hcx : cx.Placed E) {src : ValueId} (hsrc : cx.plan.home src ≠ .stack)
    (htemps : cx.Temps E 6) :
    Flows E (some 0) (cx.digest src (some r)).items (some (cx.held r)) := by
  have hslot (n : Nat) (hn : n < 6) : E.HasSlot (cx.temp n) := htemps n hn
  have hargs : Flows E (some 0) [cx.bufferArg src (cx.temp 3), [get (cx.temp 2)]].flatten
      (some (hostTakes .sha256)) := by
    simp only [List.flatten_cons, List.flatten_nil]
    rw [flows_bufferArg (hslot 3 (by omega)) (hslot 4 (by omega))]
    simp [hslot]
    rfl
  simp +decide [digest, flows_allocateInto (hslot 0 (by omega)) (hslot 1 (by omega)), hslot,
    flows_buffer hcx hsrc (hslot 3 (by omega)) (hslot 4 (by omega)),
    flows_hostCall rfl hargs (hslot 5 (by omega)), flows_escalate, flows_define hcx]

theorem flows_addLength (hcx : cx.Placed E) {slot : Nat} (hslot : E.HasSlot slot)
    (hv : cx.plan.home v ≠ .stack) :
    Flows E (some 0) (cx.addLength slot v ++ is) k ↔ Flows E (some 0) is k := by
  unfold addLength
  split <;> simp +decide [hslot, flows_push hcx hv]

theorem flows_writePayload (hcx : cx.Placed E) {cursor length : Nat} (hcursor : E.HasSlot cursor)
    (hlength : E.HasSlot length) (hv : cx.plan.home v ≠ .stack) :
    Flows E (some 0) (cx.writePayload cursor length v ++ is) k ↔ Flows E (some 0) is k := by
  unfold writePayload
  split <;> simp +decide [hcursor, hlength, flows_push hcx hv]

/-- Code for each of several values that leaves nothing on the stack. -/
theorem flows_flatMap {code : ValueId → List Item} {vs : List ValueId}
    (hcode : ∀ v ∈ vs, ∀ is k, Flows E (some 0) (code v ++ is) k ↔ Flows E (some 0) is k) :
    Flows E (some 0) (vs.flatMap code ++ is) k ↔ Flows E (some 0) is k := by
  induction vs with
  | nil => rfl
  | cons v vs ih =>
    rw [List.flatMap_cons, List.append_assoc, hcode v List.mem_cons_self,
      ih fun w hw => hcode w (List.mem_cons_of_mem v hw)]

theorem flows_emit (hcx : cx.Placed E) {topic : String} {args : List ValueId} {span : Span}
    (hargs : ∀ v ∈ args, cx.plan.home v ≠ .stack) (htemps : cx.Temps E 6) :
    Flows E (some 0) (cx.emit topic args span).items (some 0) := by
  have hslot (n : Nat) (hn : n < 6) : E.HasSlot (cx.temp n) := htemps n hn
  have hlengths (is : List Item) (k : Option Nat) :
      Flows E (some 0) (args.flatMap (cx.addLength (cx.temp 0)) ++ is) k ↔ Flows E (some 0) is k :=
    flows_flatMap fun v hv _ _ => flows_addLength hcx (hslot 0 (by omega)) (hargs v hv)
  have hvalues (is : List Item) (k : Option Nat) :
      Flows E (some 0) (args.flatMap (cx.writePayload (cx.temp 3) (cx.temp 4)) ++ is) k ↔
        Flows E (some 0) is k :=
    flows_flatMap fun v hv _ _ => flows_writePayload hcx (hslot 3 (by omega)) (hslot 4 (by omega))
      (hargs v hv)
  have hhost : Flows E (some 0)
      [[.address (Bytes.utf8 topic), lit (UInt64.ofNat (Bytes.utf8 topic).length)],
        [get (cx.temp 1), get (cx.temp 0)]].flatten (some (hostTakes .logEmit)) := by
    simp [hslot]
    rfl
  simp +decide [emit, hslot, hlengths, flows_allocateDynamic (hslot 2 (by omega))
    (hslot 0 (by omega)), hvalues, flows_hostCall rfl hhost (hslot 5 (by omega)), escalate]

/-! ## Marks -/

section Marks

attribute [local simp] Item.markJump? Item.mark? op lit litInt get set unsupported failIf
  fieldAddress
  jump jumpIf jumpIfNot

theorem markJumps_flatMap {code : ValueId → List Item} (hcode : ∀ v, markJumps (code v) = [])
    (vs : List ValueId) : markJumps (vs.flatMap code) = [] := by
  induction vs with
  | nil => rfl
  | cons v vs ih => simp [hcode, ih]

theorem markJumps_call (callee : FuncId) (args : List ValueId) (result : Option ValueId) :
    markJumps (cx.call callee args result).items = [] := by
  unfold call
  split <;> simp [markJumps_flatMap markJumps_push]

@[simp] theorem markJumps_storeFields (slot i : Nat) (vs : List ValueId) :
    markJumps (cx.storeFields slot i vs) = [] := by
  induction vs generalizing i with
  | nil => rfl
  | cons v vs ih =>
    unfold storeFields
    split <;> simp [ih]

theorem markJumps_aggregate {fields : Nat} {span : Span} (his : markJumps is = []) :
    markJumps (cx.aggregate fields span is).items = [] := by
  unfold aggregate
  split
  · simp
  · exact his

@[simp] theorem markJumps_buffer (v : ValueId) (slot : Nat) :
    markJumps (cx.buffer v slot) = [] := by
  unfold buffer
  split <;> simp

@[simp] theorem markJumps_bufferArg (v : ValueId) (slot : Nat) :
    markJumps (cx.bufferArg v slot) = [] := by
  unfold bufferArg
  split <;> simp

@[simp] theorem markJumps_domainArg [Hashing] (ns : String) (key : ValueId) :
    markJumps (cx.domainArg ns key) = [] := by
  simp [domainArg]

theorem markJumps_makeResult (ok : Bool) (value result : Option ValueId) :
    markJumps (cx.makeResult ok value result).items = [] := by
  cases ok <;> cases value <;> simp [makeResult, push?]

theorem markJumps_resultValue (src : ValueId) (result : Option ValueId) :
    markJumps (cx.resultValue src result).items = [] := by
  cases result <;> simp [resultValue]

theorem markJumps_context (query : Nat) (result : Option ValueId) :
    markJumps (cx.context query result).items = [] := by
  unfold context
  cases result with
  | none => rfl
  | some r =>
    dsimp only
    split <;> simp

theorem markJumps_emit (topic : String) (args : List ValueId) (span : Span) :
    markJumps (cx.emit topic args span).items = [] := by
  have hlength (v : ValueId) : markJumps (cx.addLength (cx.temp 0) v) = [] := by
    unfold addLength
    split <;> simp
  have hvalue (v : ValueId) : markJumps (cx.writePayload (cx.temp 3) (cx.temp 4) v) = [] := by
    unfold writePayload
    split <;> simp
  simp [emit, markJumps_flatMap hlength, markJumps_flatMap hvalue]

theorem eq_of_mem_markJumps_recoverable {status mark n : Nat}
    (hn : n ∈ markJumps (recoverable status mark)) : n = mark := by
  have htests (ss : List HostStatus) (hn : n ∈ markJumps
      (ss.flatMap fun s => [get status, litInt s.code, op .eq, jumpIf mark])) : n = mark := by
    induction ss with
    | nil => cases hn
    | cons s ss ih =>
      rcases List.mem_cons.mp (by simpa using hn) with hn | hn
      · exact hn
      · exact ih hn
  exact htests _ (by simpa [recoverable] using hn)

theorem markJumps_stateRead [Hashing] (ns : String) (key : ValueId) (type : TypeId) (span : Span)
    (result : Option ValueId) :
    markJumps (cx.stateRead ns key type span result).items ⊆
      marks (cx.stateRead ns key type span result).items := by
  intro n hn
  have hmark : n = 0 ∨ n = 1 ∨ n = 2 := by
    have hrecoverable := @eq_of_mem_markJumps_recoverable (cx.temp 2) 1 n
    cases hbytes : cx.types.isBytes type <;> simp [stateRead, reserveDomain, hbytes] at hn <;> tauto
  rcases hmark with rfl | rfl | rfl <;> simp [stateRead, reserveDomain]

end Marks

/-! ## Instructions -/

/-- An instruction has a result if its code leaves a word. -/
def ResultFits (cx : FunctionContext) (E : FlowContext) (i : Ssa.Inst) : Prop :=
  match i.data with
  | .constInt _ | .constBool _ | .constBytes _ => cx.heldBy i.result = 0
  | .resultValue _ | .context _ => True
  | .refStore .. | .stateWrite .. | .emit .. => i.result = none
  | .call callee args => E.signature callee = some (args.length, i.result.isSome.toNat)
  | _ => i.result.isSome = true

/-- Where a constant is defined, only its data is laid out. -/
theorem carries_constantData (h : Nat) (v : ValueId) :
    Carries E h ((cx.constant v).filter fun item => item.op?.isNone) (some h) := by
  unfold constant
  constructor <;> split <;> simp [Item.op?, lit, unsupported, Item.markJump?]

theorem carries_extract (hcx : cx.Placed E) (base : ValueId) (index : Nat) :
    Carries E (cx.held base)
      (cx.push base ++ (if index = 0 then [] else fieldAddress index) ++ [op .load] ++
        cx.define (some r)) (some (cx.held r)) := by
  by_cases hindex : index = 0
  · refine .of_flows ?_ (by simp [hindex, op, Item.markJump?])
    simp [hindex, flows_first hcx, flows_define hcx]
  · refine .of_flows ?_ (by simp [hindex, fieldAddress, op, lit, Item.markJump?])
    simp +decide [hindex, fieldAddress, flows_first hcx, flows_define hcx]

/-- The code of an instruction takes the operand on the stack and leaves the result. -/
theorem carries_inst [Hashing] (hcx : cx.Placed E) {i : Ssa.Inst}
    (htakes : cx.Takes i.data.operands i.data.stackOperand?) (hresult : cx.ResultFits E i)
    (hok : ∀ f, .fault f ∉ (cx.inst i).items) (htemps : cx.Temps E (cx.inst i).scratch) :
    Carries E (cx.heldBy i.data.stackOperand?) (cx.inst i).items (some (cx.heldBy i.result)) := by
  obtain ⟨data, effect, result, span⟩ := i
  unfold ResultFits at hresult
  cases data with
  | constInt bits => exact .of_flows (congrArg some hresult.symm) rfl
  | constBool value => exact .of_flows (congrArg some hresult.symm) rfl
  | constBytes bytes =>
    cases result with
    | none => exact .of_flows rfl rfl
    | some v =>
      rw [hresult]
      exact carries_constantData 0 v
  | unary o mode src =>
    obtain ⟨r, rfl⟩ := Option.isSome_iff_exists.mp hresult
    exact carries_unary hcx htakes htemps
  | binary o mode left right =>
    obtain ⟨r, rfl⟩ := Option.isSome_iff_exists.mp hresult
    exact carries_binary hcx htakes hok htemps
  | cast mode type src =>
    obtain ⟨r, rfl⟩ := Option.isSome_iff_exists.mp hresult
    exact carries_cast hcx htakes hok
  | call callee args =>
    exact .of_flows (flows_call hcx htakes hok hresult) (markJumps_call callee args result)
  | makeStruct fields =>
    obtain ⟨r, rfl⟩ := Option.isSome_iff_exists.mp hresult
    have hfields : ∀ v ∈ fields, cx.plan.home v ≠ .stack := fun v hv => htakes.home_of_none hv
    exact .of_flows (flows_makeStruct hcx hfields hok htemps)
      (markJumps_aggregate (by simp [get, Item.markJump?]))
  | extract base index =>
    obtain ⟨r, rfl⟩ := Option.isSome_iff_exists.mp hresult
    exact carries_extract hcx base index
  | insert base index value =>
    obtain ⟨r, rfl⟩ := Option.isSome_iff_exists.mp hresult
    exact .of_flows
      (flows_insert hcx (htakes.home_of_none (by simp [InstData.operands]))
        (htakes.home_of_none (by simp [InstData.operands])) hok htemps)
      (markJumps_aggregate (by simp [get, lit, op, fieldAddress, Item.markJump?]))
  | makeResult ok value =>
    obtain ⟨r, rfl⟩ := Option.isSome_iff_exists.mp hresult
    have hvalue (v : ValueId) (hv : value = some v) : cx.plan.home v ≠ .stack :=
      htakes.home_of_none (by simp [InstData.operands, hv])
    exact .of_flows (flows_makeResult hcx hvalue htemps) (markJumps_makeResult ok value (some r))
  | resultIsOk src =>
    obtain ⟨r, rfl⟩ := Option.isSome_iff_exists.mp hresult
    refine .of_flows ?_ (by simp [inst, op, Item.markJump?])
    simp [inst, InstData.stackOperand?, flows_first hcx, flows_define hcx]
  | resultValue src =>
    exact .of_flows (flows_resultValue hcx (htakes.home_of_none (List.mem_singleton_self src))
      result) (markJumps_resultValue src result)
  | resultCode src =>
    obtain ⟨r, rfl⟩ := Option.isSome_iff_exists.mp hresult
    exact .of_flows (flows_loadFrom hcx src) (by simp [inst, loadFrom, op, Item.markJump?])
  | refNew init =>
    obtain ⟨r, rfl⟩ := Option.isSome_iff_exists.mp hresult
    exact .of_flows (flows_refNew hcx (htakes.home_of_none (List.mem_singleton_self init)) htemps)
      (by simp [inst, refNew, op, get, Item.markJump?])
  | refLoad ref =>
    obtain ⟨r, rfl⟩ := Option.isSome_iff_exists.mp hresult
    exact .of_flows (flows_loadFrom hcx ref) (by simp [inst, loadFrom, op, Item.markJump?])
  | refStore ref value =>
    obtain rfl : result = none := hresult
    have hvalue := htakes.home_of_mem (List.mem_singleton_self value)
    refine .of_flows ?_ (by simp [inst, op, Item.markJump?])
    simp [inst, InstData.stackOperand?, flows_first hcx, flows_push hcx hvalue]
  | stateRead ns key type =>
    obtain ⟨r, rfl⟩ := Option.isSome_iff_exists.mp hresult
    exact ⟨flows_stateRead hcx (htakes.home_of_none (List.mem_singleton_self key)) htemps,
      markJumps_stateRead ns key type span (some r)⟩
  | stateWrite ns key value =>
    obtain rfl : result = none := hresult
    exact .of_flows
      (flows_stateWrite hcx (htakes.home_of_none (by simp [InstData.operands]))
        (htakes.home_of_none (by simp [InstData.operands])) htemps)
      (by simp [inst, stateWrite, reserveDomain, Item.markJump?])
  | stateHas ns key =>
    obtain ⟨r, rfl⟩ := Option.isSome_iff_exists.mp hresult
    exact .of_flows (flows_stateHas hcx (htakes.home_of_none (List.mem_singleton_self key)) htemps)
      (by simp [inst, stateHas, reserveDomain, Item.markJump?, get, lit, op])
  | context query => exact .of_flows (flows_context hcx htemps) (markJumps_context query result)
  | digest src =>
    obtain ⟨r, rfl⟩ := Option.isSome_iff_exists.mp hresult
    exact .of_flows (flows_digest hcx (htakes.home_of_none (List.mem_singleton_self src)) htemps)
      (by simp [inst, digest, Item.markJump?, get, set, lit, op])
  | emit topic args =>
    obtain rfl : result = none := hresult
    exact .of_flows (flows_emit hcx (fun v hv => htakes.home_of_none hv) htemps)
      (markJumps_emit topic args span)
  | bytesLength src =>
    obtain ⟨r, rfl⟩ := Option.isSome_iff_exists.mp hresult
    exact .of_flows (flows_loadFrom hcx src) (by simp [inst, loadFrom, op, Item.markJump?])

end FunctionContext

end ContractCompiler.Codegen
