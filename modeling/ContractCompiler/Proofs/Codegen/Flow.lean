import ContractCompiler.Codegen.Function
import ContractCompiler.Proofs.Vm.Safety
import Mathlib.Algebra.Order.Group.Nat
import Mathlib.Algebra.Order.Sub.Basic

/-!
# Flow through code fragments

How many words elements of code leave on the operand stack, before anything has a number. The height
of the stack is followed from element to element; it is unknown where control does not get to. At
every label the stack is empty, and at every mark it has a height that the number of the mark tells.

- `Item.Fits`: what an element needs with a number of words on the stack;
- `Item.after`: how many words there are after it;
- `Flows`: every element of a stretch of code has what it needs;
- `flows_allocate`, `flows_hostCall`, ...: what the fragments do that all code is made of.
-/

namespace ContractCompiler.Codegen

open Ssa (BlockId FuncId ValueId)

/-- What the code of a function refers to. -/
structure FlowContext where
  /-- How many local slots there are. -/
  slots : Nat
  hasResult : Bool
  /-- How many words functions take, and how many they leave. -/
  signature : FuncId → Option (Nat × Nat)
  /-- The blocks that there is code for. -/
  blocks : List BlockId

namespace FlowContext

/-- There is a slot of a number, as it stands in an instruction. -/
def HasSlot (E : FlowContext) (n : Nat) : Prop := (UInt64.ofNat n).toNat < E.slots

theorem hasSlot_of_lt {E : FlowContext} {n : Nat} (h : n < E.slots) : E.HasSlot n := by
  unfold HasSlot
  rw [UInt64.toNat_ofNat']
  exact Nat.lt_of_le_of_lt (Nat.mod_le _ _) h

end FlowContext

/-- How many words are on the stack at a mark. Only where one of two words was chosen there is
one. -/
def markHeight (n : Nat) : Nat := if n = 5 then 1 else 0

/-- How many words a host operation takes. -/
def hostTakes (op : HostOp) : Nat := ((HostRef.ofOp? op).map (·.function.arity)).getD 0

/-- How many words a host operation leaves. -/
def hostLeaves (op : HostOp) :
    Nat := if ((HostRef.ofOp? op).map (·.function.noReturn)).getD false then 0 else 1

/-- How many words are on the stack where a jump goes. -/
def Target.height : Target → Nat
  | .label _ => 0
  | .mark n => markHeight n

/-- A target is there, as far as it is a block. -/
def Target.IsSet (E : FlowContext) : Target → Prop
  | .label (.block b) => b ∈ E.blocks
  | .label (.failure _) | .mark _ => True

/-- What an element needs with a number of words on the stack. -/
def Item.Fits (E : FlowContext) : Option Nat → Item → Prop
  | h, .mark n => h.all (· == markHeight n) = true
  | _, .reserve .. | _, .needs _ | _, .fault _ | none, _ => True
  | some h, .instr i =>
    if i.op.isPlain then i.op.takes ≤ h ∧ (i.op.isLocal = true → i.imm.toNat < E.slots)
    else if i.op = .ret then E.hasResult.toNat ≤ h
    else i.op = .trap
  | some h, .jump op t =>
    t.IsSet E ∧ if op = .jmp then h = t.height else (op = .jmpIf ∨ op = .jmpIfNot) ∧
      h = t.height + 1
  | some _, .address _ => True
  | some h, .call callee => ∃ takes leaves, E.signature callee = some (takes, leaves) ∧ takes ≤ h
  | some h, .callHost op => hostTakes op ≤ h

/-- How many words are on the stack after an element. -/
def Item.after (E : FlowContext) : Option Nat → Item → Option Nat
  | _, .mark n => some (markHeight n)
  | h, .reserve .. | h, .needs _ | h, .fault _ => h
  | none, _ => none
  | some h, .instr i => if i.op.isPlain then some (h - i.op.takes + i.op.leaves) else none
  | some h, .jump op _ => if op = .jmp then none else some (h - 1)
  | some h, .address _ => some (h + 1)
  | some h, .call callee => some (((E.signature callee).map fun s => h - s.1 + s.2).getD h)
  | some h, .callHost op => some (h - hostTakes op + hostLeaves op)

/-- Every element of a stretch of code has what it needs, and after it there are as many words on
the stack as said. -/
def Flows (E : FlowContext) : Option Nat → List Item → Option Nat → Prop
  | h, [], k => h = k
  | h, i :: is, k => i.Fits E h ∧ Flows E (i.after E h) is k

section Elements

variable {E : FlowContext} {h : Nat} {is : List Item} {k : Option Nat}

/-! ## Elements -/

@[simp] theorem flows_nil {h : Option Nat} : Flows E h [] k ↔ h = k := Iff.rfl

theorem flows_append {h : Option Nat} {is' : List Item} :
    Flows E h (is ++ is') k ↔ ∃ j, Flows E h is j ∧ Flows E j is' k := by
  induction is generalizing h with
  | nil => simp
  | cons i is ih =>
    show i.Fits E h ∧ Flows E (i.after E h) (is ++ is') k ↔
      ∃ j, (i.Fits E h ∧ Flows E (i.after E h) is j) ∧ _
    rw [ih]
    constructor
    · rintro ⟨hi, j, his, his'⟩
      exact ⟨j, ⟨hi, his⟩, his'⟩
    · rintro ⟨j, ⟨hi, his⟩, his'⟩
      exact ⟨hi, j, his, his'⟩

theorem Flows.unique {h j j' : Option Nat} (hj : Flows E h is j) (hj' : Flows E h is j') :
    j' = j := by
  induction is generalizing h with
  | nil => exact hj'.symm.trans hj
  | cons i is ih => exact ih hj.2 hj'.2

/-- Code whose flow is known in front of other code. -/
theorem Flows.append_iff {h j : Option Nat} {is' : List Item} (hs : Flows E h is j) :
    Flows E h (is ++ is') k ↔ Flows E j is' k := by
  rw [flows_append]
  constructor
  · rintro ⟨j', hj', his'⟩
    exact hs.unique hj' ▸ his'
  · exact fun his' => ⟨j, hs, his'⟩

theorem flows_op {o : Vm.Op} (hplain : o.isPlain = true) (hlocal : o.isLocal = false) :
    Flows E (some h) (op o :: is) k ↔ o.takes ≤ h ∧
    Flows E (some (h - o.takes + o.leaves)) is k := by
  simp [Flows, op, Item.Fits, Item.after, hplain, hlocal]

attribute [local simp] Flows Item.Fits Item.after Vm.Op.isPlain Vm.Op.takes Vm.Op.leaves
  Vm.Op.isLocal Target.IsSet
  Target.height

@[simp] theorem flows_load :
    Flows E (some h) (op .load :: is) k ↔ 1 ≤ h ∧ Flows E (some (h - 1 + 1)) is k :=
  flows_op rfl rfl

@[simp] theorem flows_eqz :
    Flows E (some h) (op .eqz :: is) k ↔ 1 ≤ h ∧ Flows E (some (h - 1 + 1)) is k :=
  flows_op rfl rfl

@[simp] theorem flows_drop :
    Flows E (some h) (op .drop :: is) k ↔ 1 ≤ h ∧ Flows E (some (h - 1)) is k :=
  flows_op rfl rfl

@[simp] theorem flows_store :
    Flows E (some h) (op .store :: is) k ↔ 2 ≤ h ∧ Flows E (some (h - 2)) is k :=
  flows_op rfl rfl

@[simp] theorem flows_memCopy :
    Flows E (some h) (op .memCopy :: is) k ↔ 3 ≤ h ∧ Flows E (some (h - 3)) is k :=
  flows_op rfl rfl

/-- An operation on two words leaves one. -/
@[simp] theorem flows_binaryOp {o : Vm.Op} (ho : o.binary?.isSome = true) :
    Flows E (some h) (op o :: is) k ↔ 2 ≤ h ∧ Flows E (some (h - 2 + 1)) is k := by
  cases o <;> first | exact flows_op rfl rfl | cases ho

@[simp] theorem flows_lit (w : UInt64) :
    Flows E (some h) (lit w :: is) k ↔ Flows E (some (h + 1)) is k := by
  simp [lit]

@[simp] theorem flows_litInt (v : Int) :
    Flows E (some h) (litInt v :: is) k ↔ Flows E (some (h + 1)) is k :=
  flows_lit _

@[simp] theorem flows_get (n : Nat) :
    Flows E (some h) (get n :: is) k ↔ E.HasSlot n ∧ Flows E (some (h + 1)) is k := by
  simp [get, FlowContext.HasSlot]

@[simp] theorem flows_set (n : Nat) :
    Flows E (some h) (set n :: is) k ↔ (1 ≤ h ∧ E.HasSlot n) ∧ Flows E (some (h - 1)) is k := by
  simp [set, FlowContext.HasSlot]

@[simp] theorem flows_tee (n : Nat) :
    Flows E (some h) (tee n :: is) k ↔ (1 ≤ h ∧ E.HasSlot n) ∧ Flows E (some (h - 1 + 1)) is k := by
  simp [tee, FlowContext.HasSlot]

@[simp] theorem flows_trap (code : TrapCode) :
    Flows E (some h) (trap code :: is) k ↔ Flows E none is k := by
  simp [trap]

@[simp] theorem flows_ret :
    Flows E (some h) (op .ret :: is) k ↔ E.hasResult.toNat ≤ h ∧ Flows E none is k := by
  simp [op]

@[simp] theorem flows_jump (n : Nat) :
    Flows E (some h) (jump n :: is) k ↔ h = markHeight n ∧ Flows E none is k := by
  simp [jump]

@[simp] theorem flows_jumpIf (n : Nat) :
    Flows E (some h) (jumpIf n :: is) k ↔ h = markHeight n + 1 ∧ Flows E (some (h - 1)) is k := by
  simp [jumpIf]

@[simp] theorem flows_jumpIfNot (n : Nat) :
    Flows E (some h) (jumpIfNot n :: is) k ↔ h = markHeight n + 1 ∧
    Flows E (some (h - 1)) is k := by
  simp [jumpIfNot]

@[simp] theorem flows_failIf (f : Failure) :
    Flows E (some h) (failIf f :: is) k ↔ h = 1 ∧ Flows E (some (h - 1)) is k := by
  simp [failIf]

@[simp] theorem flows_fail (f : Failure) :
    Flows E (some h) (.jump .jmp (.label (.failure f)) :: is) k ↔ h = 0 ∧ Flows E none is k := by
  simp

@[simp] theorem flows_goTo (b : BlockId) :
    Flows E (some h) (.jump .jmp (.label (.block b)) :: is) k ↔
    (b ∈ E.blocks ∧ h = 0) ∧ Flows E none is k := by
  simp

@[simp] theorem flows_goToIf (b : BlockId) :
    Flows E (some h) (.jump .jmpIf (.label (.block b)) :: is) k ↔
    (b ∈ E.blocks ∧ h = 1) ∧ Flows E (some (h - 1)) is k := by
  simp

@[simp] theorem flows_address (bytes : Bytes) :
    Flows E (some h) (.address bytes :: is) k ↔ Flows E (some (h + 1)) is k := by
  simp

@[simp] theorem flows_mark (n : Nat) :
    Flows E (some h) (.mark n :: is) k ↔ h = markHeight n ∧ Flows E (some (markHeight n)) is k := by
  simp

@[simp] theorem flows_mark_none (n : Nat) :
    Flows E none (.mark n :: is) k ↔ Flows E (some (markHeight n)) is k := by
  simp

@[simp] theorem flows_reserve (use : DataUse) (bytes : Bytes) (span : Span) {h : Option Nat} :
    Flows E h (.reserve use bytes span :: is) k ↔ Flows E h is k := by
  simp

@[simp] theorem flows_needs (f : Failure) {h : Option Nat} :
    Flows E h (.needs f :: is) k ↔ Flows E h is k := by
  simp

@[simp] theorem flows_fault (f : Fault) {h : Option Nat} :
    Flows E h (.fault f :: is) k ↔ Flows E h is k := by
  simp

@[simp] theorem flows_callHost (op : HostOp) : Flows E (some h) (.callHost op :: is) k ↔
    hostTakes op ≤ h ∧ Flows E (some (h - hostTakes op + hostLeaves op)) is k := by
  simp

end Elements

/-! ## Fragments -/

section Fragments

variable {E : FlowContext} {h : Nat} {is : List Item} {k : Option Nat}

theorem flows_normalize (kind : IntKind) (hh : 1 ≤ h) :
    Flows E (some h) (normalize kind ++ is) k ↔ Flows E (some h) is k := by
  unfold normalize
  split
  · rfl
  · have hsub : h - 1 + 1 = h := by omega
    cases kind.signed <;>
      simp [Flows, Item.Fits, Item.after, Vm.Op.isPlain, Vm.Op.takes, Vm.Op.leaves,
        Vm.Op.isLocal, hh, hsub]

theorem flows_allocate {slot : Nat} (hslot : E.HasSlot slot) (size : Nat) :
    Flows E (some h) (allocate slot size ++ is) k ↔ Flows E (some (h + 1)) is k := by
  simp +decide [allocate, hslot]

theorem flows_allocateDynamic {slot sizeSlot : Nat} (hslot : E.HasSlot slot)
    (hsize : E.HasSlot sizeSlot) :
    Flows E (some h) (allocateDynamic slot sizeSlot ++ is) k ↔ Flows E (some (h + 1)) is k := by
  simp +decide [allocateDynamic, hslot, hsize]

theorem flows_allocateInto {slot : Nat} (hslot : E.HasSlot slot) (hnext : E.HasSlot (slot + 1))
    (size : Nat) :
    Flows E (some h) (allocateInto slot size ++ is) k ↔ Flows E (some h) is k := by
  simp [allocateInto, flows_allocate hnext, hslot]

/-- A choice between two words takes a truth value and leaves a word. -/
theorem flows_select (lo hi : UInt64) :
    Flows E (some 1) (select 4 lo hi ++ is) k ↔ Flows E (some 1) is k := by
  simp [select, markHeight]

/-! ### The host -/

theorem noReturn_of_hostLeaves {op : HostOp} (h : hostLeaves op = 1) :
    ((HostRef.ofOp? op).map (·.function.noReturn)).getD false = false := by
  unfold hostLeaves at h
  split at h
  · cases h
  · rename_i hreturns
    exact Bool.eq_false_iff.mpr hreturns

/-- A host call takes its arguments and puts the status into a slot. -/
theorem flows_hostCall {op : HostOp} (hleaves : hostLeaves op = 1) {args : List (List Item)}
    (hargs : Flows E (some 0) args.flatten (some (hostTakes op))) {slot : Nat}
    (hslot : E.HasSlot slot) :
    Flows E (some 0) (hostCall op args (some slot) ++ is) k ↔ Flows E (some 0) is k := by
  unfold hostCall
  rw [noReturn_of_hostLeaves hleaves, List.append_assoc, hargs.append_iff]
  simp [hleaves, hslot]

/-- Giving up ends the flow. -/
theorem flows_giveUp {op : HostOp} (htakes : hostTakes op = 2) (hleaves : hostLeaves op = 0)
    (message : String) (span : Span) : Flows E (some 0) (giveUp op message span) none := by
  have hnoReturn : ((HostRef.ofOp? op).map (·.function.noReturn)).getD false = true := by
    by_contra hreturns
    simp [hostLeaves, hreturns] at hleaves
  simp [giveUp, hostCall, hnoReturn, htakes]

theorem flows_escalate {status : Nat} (hstatus : E.HasSlot status) :
    Flows E (some 0) (escalate status ++ is) k ↔ Flows E (some 0) is k := by
  simp +decide [escalate, hstatus]

/-- Reading a byte string leaves nothing on the stack. -/
theorem flows_readBytes {op : HostOp} (hleaves : hostLeaves op = 1) {args : List (List Item)}
    (hargs : Flows E (some 0) args.flatten (some (hostTakes op - 2))) (htakes : 2 ≤ hostTakes op)
    {sizeSlot slot : Nat} (hsize : E.HasSlot sizeSlot) (hslot : ∀ n < 5, E.HasSlot (slot + n)) :
    Flows E (some 0) (readBytes op args sizeSlot slot ++ is) k ↔ Flows E (some 0) is k := by
  have hbuffer : Flows E (some 0) (args ++ [[get (slot + 3), get sizeSlot]]).flatten
      (some (hostTakes op)) := by
    rw [List.flatten_append, hargs.append_iff]
    simp [hslot, hsize]
    omega
  have h₀ : E.HasSlot slot := hslot 0 (by omega)
  simp +decide [readBytes, flows_allocateDynamic, flows_hostCall hleaves hbuffer,
    flows_escalate, hslot, hsize, h₀]

end Fragments

/-! ## Marks -/

/-- The mark that an element jumps to. -/
def Item.markJump? : Item → Option Nat
  | .jump _ (.mark n) => some n
  | _ => none

/-- The mark that an element is. -/
def Item.mark? : Item → Option Nat
  | .mark n => some n
  | _ => none

/-- The marks that code jumps to. -/
def markJumps (is : List Item) : List Nat := is.filterMap (·.markJump?)

/-- The marks that are in code. -/
def marks (is : List Item) : List Nat := is.filterMap (·.mark?)

section Marks

variable (is is' : List Item) (i : Item)

@[simp] theorem markJumps_append : markJumps (is ++ is') = markJumps is ++ markJumps is' :=
  List.filterMap_append

@[simp] theorem marks_append : marks (is ++ is') = marks is ++ marks is' := List.filterMap_append

@[simp] theorem markJumps_nil : markJumps [] = [] := rfl

@[simp] theorem marks_nil : marks [] = [] := rfl

@[simp] theorem markJumps_cons : markJumps (i :: is) = i.markJump?.toList ++ markJumps is := by
  cases hi : i.markJump? <;> simp [markJumps, hi]

@[simp] theorem marks_cons : marks (i :: is) = i.mark?.toList ++ marks is := by
  cases hi : i.mark? <;> simp [marks, hi]

attribute [local simp] Item.markJump? op lit litInt get set tee trap failIf unsupported

@[simp] theorem markJumps_normalize (kind : IntKind) : markJumps (normalize kind) = [] := by
  unfold normalize
  split <;> simp

@[simp] theorem markJumps_allocate (slot size : Nat) : markJumps (allocate slot size) = [] := by
  simp [allocate]

@[simp] theorem markJumps_allocateInto (slot size : Nat) :
    markJumps (allocateInto slot size) = [] := by
  simp [allocateInto]

@[simp] theorem markJumps_allocateDynamic (slot sizeSlot : Nat) :
    markJumps (allocateDynamic slot sizeSlot) = [] := by
  simp [allocateDynamic]

@[simp] theorem markJumps_hostCall (op : HostOp) (args : List (List Item)) (status : Option Nat) :
    markJumps (hostCall op args status) = markJumps args.flatten := by
  unfold hostCall
  split
  · simp
  · cases status <;> simp

@[simp] theorem markJumps_escalate (status : Nat) : markJumps (escalate status) = [] := by
  simp [escalate]

@[simp] theorem markJumps_giveUp (op : HostOp) (message : String) (span : Span) :
    markJumps (giveUp op message span) = [] := by
  simp [giveUp]

@[simp] theorem markJumps_readBytes (op : HostOp) (args : List (List Item)) (sizeSlot slot : Nat) :
    markJumps (readBytes op args sizeSlot slot) = markJumps args.flatten := by
  simp [readBytes]

/-- Code has what it needs, and the marks that it jumps to are in it. -/
structure Carries (E : FlowContext) (h : Nat) (is : List Item) (k : Option Nat) : Prop where
  flows : Flows E (some h) is k
  marks : markJumps is ⊆ marks is

/-- Code without jumps to marks has what it needs. -/
theorem Carries.of_flows {E : FlowContext} {h : Nat} {is : List Item} {k : Option Nat}
    (hflows : Flows E (some h) is k) (hjumps : markJumps is = []) : Carries E h is k :=
  ⟨hflows, hjumps ▸ List.nil_subset _⟩

end Marks

end ContractCompiler.Codegen
