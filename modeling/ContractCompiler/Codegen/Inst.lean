import ContractCompiler.Codegen.Arith

/-!
# Code for instructions

The code of every instruction of the intermediate form. Compound values are addresses: the fields of
a struct are consecutive words, a result is a status word followed by its payload, a byte string is
its length followed by its bytes, and a reference is the address of a word.

- `FunctionContext.inst`: the code of an instruction.
-/

namespace ContractCompiler.Codegen

open Ssa (ValueId FuncId)

namespace FunctionContext

/-! ## Memory -/

/-- The code of a call. The arguments are left on the stack for the function. -/
def call (cx : FunctionContext) (callee : FuncId) (args : List ValueId) (result : Option ValueId) :
    Fragment :=
  match cx.module.functions[callee]? with
  | some { excluded := false, .. } =>
    { items := args.flatMap cx.push ++ [.call callee] ++ cx.define result }
  | _ => { items := [unsupported .excludedCallee] }

/-- A struct or part of one with more fields than allowed has no code. -/
def aggregate (cx : FunctionContext) (fields : Nat) (span : Span) (items : List Item) : Fragment :=
  if cx.options.maxAggregateFields < fields then
    { items := [.fault (.structTooLarge fields cx.options.maxAggregateFields span)] }
  else { scratch := 2, items }

/-- Stores the fields of a struct whose address is in a slot. -/
def storeFields (cx : FunctionContext) (slot : Nat) : Nat → List ValueId → List Item
  | _, [] => []
  | i, v :: vs =>
    [get slot] ++ (if i = 0 then [] else fieldAddress i) ++ cx.push v ++ [op .store]
      ++ storeFields cx slot (i + 1) vs

/-- The code that makes a struct. -/
def makeStruct (cx : FunctionContext) (fields : List ValueId) (span : Span)
    (result : Option ValueId) :
    Fragment :=
  let p := cx.temp 0
  cx.aggregate fields.length span
    (allocateInto p (8 * fields.length) ++ cx.storeFields p 0 fields ++ [get p] ++ cx.define result)

/-- The code that copies a struct and replaces a field. -/
def insert (cx : FunctionContext) (base : ValueId) (index : Nat) (value : ValueId) (span : Span)
    (result : Option ValueId) : Fragment :=
  let p := cx.temp 0
  let fields := ((cx.types.structDecl? (cx.module.valueType base)).map (·.fields.length)).getD 0
  cx.aggregate fields span
    (allocateInto p (8 * fields)
      ++ [get p] ++ cx.push base ++ [lit (UInt64.ofNat (8 * fields)), op .memCopy]
      ++ [get p] ++ fieldAddress index ++ cx.push value ++ [op .store, get p] ++ cx.define result)

/-- The code that makes a result. -/
def makeResult (cx : FunctionContext) (ok : Bool) (value : Option ValueId)
    (result : Option ValueId) :
    Fragment :=
  let p := cx.temp 0
  let stores :=
    if ok then
      [lit 0, op .store] ++
        match value with
        | some v => [get p, lit 8, op .add] ++ cx.push v ++ [op .store]
        | none => []
    else cx.push? value ++ [op .store]
  { scratch := 2
    items := allocateInto p 16 ++ [get p] ++ stores ++ [get p] ++ cx.define result }

/-- The code that takes the payload of a result, or gives up. -/
def resultValue (cx : FunctionContext) (src : ValueId) (result : Option ValueId) : Fragment :=
  let payload :=
    if result.isSome then cx.push src ++ [lit 8, op .add, op .load] ++ cx.define result else []
  { items := cx.push src ++ [op .load, failIf .unwrap] ++ payload }

/-- The code that loads a word from an address. -/
def loadFrom (cx : FunctionContext) (address : ValueId) (result : Option ValueId) : Fragment :=
  { items := cx.push address ++ [op .load] ++ cx.define result }

/-- The code that makes a cell. -/
def refNew (cx : FunctionContext) (init : ValueId) (result : Option ValueId) : Fragment :=
  let p := cx.temp 0
  { scratch := 2
    items := allocateInto p 8 ++ [get p] ++ cx.push init ++ [op .store, get p] ++ cx.define result }

/-! ## State -/

section State

variable [Hashing]

/-- The constant data of the domain of a state access. -/
def reserveDomain (cx : FunctionContext) (ns : String) (key : ValueId) (span : Span) : Item :=
  .reserve .domainDescriptor (cx.domainDescriptor ns key) span

/-- Pushes the address and length of the domain of a state access. -/
def domainArg (cx : FunctionContext) (ns : String) (key : ValueId) : List Item :=
  let bytes := cx.domainDescriptor ns key
  [.address bytes, lit (UInt64.ofNat bytes.length)]

/-- Goes to a mark if the status in a slot is one that a program may handle, and gives up if it is
another failure. -/
def recoverable (status : Nat) (mark : Nat) : List Item :=
  (((HostRef.ofOp? .stateRead).map (·.function.recoverable)).getD []).flatMap
      (fun s => [get status, litInt s.code, op .eq, jumpIf mark])
    ++ [.jump .jmp (.label (.failure .hostFailure))]

/-- The code that reads state into a result. A byte string is read twice: first its size, then its
bytes. -/
def stateRead (cx : FunctionContext) (ns : String) (key : ValueId) (type : TypeId) (span : Span)
    (result : Option ValueId) : Fragment :=
  let bytes := cx.types.isBytes type
  let args := [cx.domainArg ns key, cx.bufferArg key (cx.temp 0)]
  let status := cx.temp 2
  let out := cx.temp 3
  let res := cx.temp (if bytes then 3 else 5)
  let again := cx.temp 5
  let request :=
    if bytes then hostCall .stateRead (args ++ [[lit 0, lit 0]]) (some status)
    else allocateInto out 8 ++ hostCall .stateRead (args ++ [[get out, lit 8]]) (some status)
  let payload :=
    if bytes then
      readBytes .stateRead args status again ++ [get res, lit 8, op .add, get (again + 1)]
    else
      [get res, lit 8, op .add, get out, op .load] ++ normalize (cx.types.intKind type)
  { scratch := if bytes then 10 else 7
    items := cx.reserveDomain ns key span :: cx.buffer key (cx.temp 0)
      ++ request ++ allocateInto res 16
      ++ [get status, lit 0, op .ltS, jumpIfNot 0] ++ recoverable status 1
      ++ [.mark 1, get res, get status, op .store, jump 2]
      ++ [.mark 0] ++ payload ++ [op .store, get res, lit 0, op .store]
      ++ [.mark 2, get res] ++ cx.define result }

/-- The code that writes state. -/
def stateWrite (cx : FunctionContext) (ns : String) (key value : ValueId)
    (span : Span) : Fragment :=
  let status := cx.temp 4
  let args :=
    [cx.domainArg ns key, cx.bufferArg key (cx.temp 0), cx.bufferArg value (cx.temp 2)]
  { scratch := 5
    items := cx.reserveDomain ns key span :: cx.buffer key (cx.temp 0) ++
      cx.buffer value (cx.temp 2) ++ hostCall .stateWrite args (some status) ++ escalate status }

/-- The code that asks whether state has a key. -/
def stateHas (cx : FunctionContext) (ns : String) (key : ValueId) (span : Span)
    (result : Option ValueId) : Fragment :=
  let status := cx.temp 2
  { scratch := 3
    items := cx.reserveDomain ns key span :: cx.buffer key (cx.temp 0)
      ++ hostCall .stateHas [cx.domainArg ns key, cx.bufferArg key (cx.temp 0)] (some status)
      ++ escalate status ++ [get status, lit 0, op .ne] ++ cx.define result }

end State

/-! ## Other host operations -/

/-- The code that asks about the call. -/
def context (cx : FunctionContext) (query : Nat) (result : Option ValueId) : Fragment :=
  let which := [lit (UInt64.ofNat ((ContextQuery.ofNumber? query).getD .caller).number)]
  let status := cx.temp 0
  match result with
  | none => { scratch := 1 }
  | some r =>
    if cx.isBytes r then
      { scratch := 6
        items := hostCall .ctxQuery [which, [lit 0, lit 0]] (some status) ++ escalate status
          ++ readBytes .ctxQuery [which] status (cx.temp 1) ++ [get (cx.temp 2)] ++
            cx.define result }
    else
      let out := cx.temp 1
      { scratch := 3
        items := allocateInto out 8 ++ hostCall .ctxQuery [which, [get out, lit 8]] (some status)
          ++ escalate status ++ [get out, op .load] ++ cx.define result }

/-- The code that hashes a value. -/
def digest (cx : FunctionContext) (src : ValueId) (result : Option ValueId) : Fragment :=
  let length := ((HostRef.ofOp? .sha256).map (·.function.fixedOut)).getD 32
  let b := cx.temp 0
  let buffer := cx.temp 2
  let status := cx.temp 5
  { scratch := 6
    items := allocateInto b (8 + length) ++ [get b, lit (UInt64.ofNat length), op .store]
      ++ [get b, lit 8, op .add, set buffer] ++ cx.buffer src (cx.temp 3)
      ++ hostCall .sha256 [cx.bufferArg src (cx.temp 3), [get buffer]] (some status) ++
        escalate status ++ [get b] ++ cx.define result }

/-- Adds the length of a byte string to a slot; other values have their size counted already. -/
def addLength (cx : FunctionContext) (slot : Nat) (v : ValueId) : List Item :=
  if cx.isBytes v then [get slot] ++ cx.push v ++ [op .load, op .add, set slot] else []

/-- Writes a value of an event at the address in a slot and moves the address past it, using another
slot for the length of a byte string. -/
def writePayload (cx : FunctionContext) (cursor length : Nat) (v : ValueId) : List Item :=
  if cx.isBytes v then
    cx.push v ++ [op .load, set length, get cursor, get length, op .store]
      ++ [get cursor, lit 8, op .add] ++ cx.push v ++ [lit 8, op .add, get length, op .memCopy]
      ++ [get cursor, lit 8, op .add, get length, op .add, set cursor]
  else
    [get cursor] ++ cx.push v ++ [op .store, get cursor, lit 8, op .add, set cursor]

/-- The code that emits an event. Its payload has a word for each number and each length, and the
bytes of byte strings. -/
def emit (cx : FunctionContext) (topic : String) (args : List ValueId) (span : Span) : Fragment :=
  let text := Bytes.utf8 topic
  let size := cx.temp 0
  let payload := cx.temp 1
  let cursor := cx.temp 3
  let length := cx.temp 4
  let status := cx.temp 5
  { scratch := 6
    items := .reserve .eventTopic text span
      :: [lit (UInt64.ofNat (8 * args.length)), set size] ++ args.flatMap (cx.addLength size)
      ++ allocateDynamic (cx.temp 2) size ++ [set payload, get payload, set cursor]
      ++ args.flatMap (cx.writePayload cursor length)
      ++ hostCall .logEmit
          [[.address text, lit (UInt64.ofNat text.length)], [get payload, get size]] (some status)
      ++ escalate status }

/-! ## Instructions -/

/-- The code of an instruction. A constant has none of its own, but the data of a byte string is
laid out where it is defined. -/
def inst [Hashing] (cx : FunctionContext) (i : Ssa.Inst) : Fragment :=
  let r := i.result
  match i.data with
  | .constInt _ | .constBool _ => {}
  | .constBytes _ =>
    match r with
    | some v => { items := (cx.constant v).filter fun item => item.op?.isNone }
    | none => {}
  | .unary o mode src => cx.unary o mode src r
  | .binary o mode left right => cx.binary o mode left right r
  | .cast mode target src => cx.cast mode target src r
  | .call callee args => cx.call callee args r
  | .makeStruct fields => cx.makeStruct fields i.span r
  | .extract base index =>
    { items := cx.push base ++ (if index = 0 then [] else fieldAddress index) ++ [op .load]
        ++ cx.define r }
  | .insert base index value => cx.insert base index value i.span r
  | .makeResult ok value => cx.makeResult ok value r
  | .resultIsOk src => { items := cx.push src ++ [op .load, op .eqz] ++ cx.define r }
  | .resultValue src => cx.resultValue src r
  | .resultCode src => cx.loadFrom src r
  | .refNew init => cx.refNew init r
  | .refLoad ref => cx.loadFrom ref r
  | .refStore ref value => { items := cx.push ref ++ cx.push value ++ [op .store] }
  | .stateRead ns key type => cx.stateRead ns key type i.span r
  | .stateWrite ns key value => cx.stateWrite ns key value i.span
  | .stateHas ns key => cx.stateHas ns key i.span r
  | .context query => cx.context query r
  | .digest src => cx.digest src r
  | .emit topic args => cx.emit topic args i.span
  | .bytesLength src => cx.loadFrom src r

end FunctionContext

end ContractCompiler.Codegen
