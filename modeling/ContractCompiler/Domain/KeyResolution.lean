import ContractCompiler.Domain.Key
import ContractCompiler.Ssa.Cfg

/-!
# Which keys an access may have

The key of a state access is followed back through the code of its function to the constants that it
may be: through conversions and operations on constants, fields of structs that were just made,
payloads of results that were just made, and the arguments of the edges to a block.

- `KeyConst`: a constant that a key may be;
- `KeySearch.resolve`: the constants that a value may be, if they can be told and are not too many.
-/

namespace ContractCompiler.Ssa

/-- A constant that a key may be. -/
inductive KeyConst where
  | word (w : UInt64)
  | bytes (b : Bytes)
deriving DecidableEq, Repr, Inhabited

/-- The text of a key. -/
def KeyConst.text (signed : Bool) : KeyConst → String
  | .word w => renderIntKey w signed
  | .bytes b => renderBytesKey b

/-- Constants in the order they were found, each once. -/
abbrev KeyConsts := List KeyConst

namespace KeyConsts

/-- Adds a constant that is not there yet. -/
def add (found : KeyConsts) (k : KeyConst) : KeyConsts := if k ∈ found then found else found ++ [k]

/-- Adds the words that an operation makes of constants; none if one of them is a byte string or the
operation does not yield a word. -/
def addMapped (f : UInt64 → Option UInt64) : KeyConsts → KeyConsts → Option KeyConsts
  | [], found => some found
  | .word w :: rest, found =>
    match f w with
    | some v => addMapped f rest (add found (.word v))
    | none => none
  | .bytes _ :: _, _ => none

/-- Adds the words that an operation makes of all pairs of constants. -/
def addProduct (f : UInt64 → UInt64 → Option UInt64) (right : KeyConsts) :
    KeyConsts → KeyConsts → Option KeyConsts
  | [], found => some found
  | .word a :: rest, found =>
    match addMapped (f a) right found with
    | some found => addProduct f right rest found
    | none => none
  | .bytes _ :: rest, found => if right.isEmpty then addProduct f right rest found else none

end KeyConsts

/-- Where keys are searched for. -/
structure KeySearch where
  module : Module
  types : TypePool
  /-- The edges of the function, backwards. -/
  preds : Array (List BlockId)
  /-- More constants than this are not told apart. -/
  maxKeys : Nat
deriving Inhabited

/-- How many steps back are taken. -/
def maxKeyDepth : Nat := 16

/-- The value of a field of a struct that was just made, found in a number of steps. -/
def Module.fieldWithin (m : Module) (index : Nat) : Nat → ValueId → Option ValueId
  | 0, _ => none
  | n + 1, base =>
    match m.definition? base with
    | some { data := .makeStruct fields, .. } => fields[index]?
    | some { data := .insert inner i value, .. } =>
      if i = index then some value else m.fieldWithin index n inner
    | _ => none

/-- The payload of a success that was just made. -/
def Module.okPayload? (m : Module) (src : ValueId) : Option ValueId :=
  match m.definition? src with
  | some { data := .makeResult true value, .. } => value
  | _ => none

/-- The arguments that an ending passes to a target, edge by edge. -/
def Terminator.argsTo (target : BlockId) : Terminator → List (List ValueId)
  | .jump t args => if t = target then [args] else []
  | .branch _ t targs e eargs =>
    (if t = target then [targs] else []) ++ if e = target then [eargs] else []
  | _ => []

namespace KeySearch

variable (s : KeySearch)

/-- Signedness and width of a value; none if it is neither an integer nor a truth value. -/
def kind? (v : ValueId) : Option IntKind :=
  (some (s.types.intKind (s.module.valueType v))).filter (·.bits ≠ 0)

/-- The word of a unary operation on a constant. -/
def unaryWord (op : UnOp) (mode : ArithMode) (k : IntKind) (w : UInt64) : Option UInt64 :=
  match op with
  | .not => some (w ^^^ 1)
  | .bitNot => some (k.normalize (~~~w))
  | .neg => match foldNeg mode k w with | .value v => some v | _ => none

/-- The word of a binary operation on constants. -/
def binaryWord (op : BinOp) (mode : ArithMode) (k : IntKind) (a b : UInt64) : Option UInt64 :=
  match foldBinOp op mode k a b with | .value v => some v | _ => none

/-- The word of a conversion of a constant. -/
def castWord (mode : CastMode) (source target : IntKind) (w : UInt64) : Option UInt64 :=
  match foldCast mode source target w with | .value v => some v | _ => none

/-- Follows values back; the search adds to what was found before. -/
abbrev Search := ValueId → KeyConsts → Option KeyConsts

/-- The constants that the result of an instruction may be. -/
def ofInst (search : Search) (data : InstData) (found : KeyConsts) : Option KeyConsts := do
  match data with
  | .constInt bits => return found.add (.word bits)
  | .constBool value => return found.add (.word (wordOfBool value))
  | .constBytes bytes => return found.add (.bytes bytes)
  | .cast mode type src =>
    let srcs ← search src []
    let k ← s.kind? src
    let target ← (some (s.types.intKind type)).filter (·.bits ≠ 0)
    KeyConsts.addMapped (castWord mode k target) srcs found
  | .unary op mode src =>
    let srcs ← search src []
    let k ← s.kind? src
    KeyConsts.addMapped (unaryWord op mode k) srcs found
  | .binary op mode left right =>
    if mode = .checked then none
    else
      let lefts ← search left []
      let rights ← search right []
      if s.maxKeys < lefts.length * rights.length then none
      else
        let k ← s.kind? left
        KeyConsts.addProduct (binaryWord op mode k) rights lefts found
  | .extract base index => search (← s.module.fieldWithin index maxKeyDepth base) found
  | .resultValue src => search (← s.module.okPayload? src) found
  | _ => none

/-- The constants that an argument of some edges may be. An edge that passes the parameter itself
adds nothing. -/
def ofEdges (search : Search) (self : ValueId) (index : Nat) :
    List (List ValueId) → KeyConsts → Option KeyConsts
  | [], found => some found
  | args :: rest, found => do
    let arg ← args[index]?
    let found ← if arg = self then some found else search arg found
    ofEdges search self index rest found

/-- The constants that predecessors may pass for a parameter. -/
def ofPredecessors (search : Search) (block : BlockId) (self : ValueId) (index : Nat) :
    List BlockId → KeyConsts → Option KeyConsts
  | [], found => some found
  | p :: rest, found => do
    let term ← (s.module.block p).term
    let found ← ofEdges search self index (term.argsTo block) found
    if s.maxKeys < found.length then none
    else ofPredecessors search block self index rest found

/-- The constants that a parameter of a block may be. A parameter of the entry depends on the
call. -/
def ofParam (search : Search) (block : BlockId) (self : ValueId) (index : Nat) (found : KeyConsts) :
    Option KeyConsts := do
  let preds ← s.preds[block]?
  if preds.isEmpty then none
  else
    let found ← s.ofPredecessors search block self index preds.eraseDups found
    if found.isEmpty then none else some found

/-- Follows a value back a number of steps, never through a value that the search came from. -/
def resolveWithin : Nat → List ValueId → Search
  | 0, _ => fun _ _ => none
  | depth + 1, path => fun v found => do
    let value ← s.module.values[v]?
    if v ∈ path then none
    else
      let search := resolveWithin depth (v :: path)
      let found ← match value.site with
        | .none => none
        | .inst i => (s.module.insts[i]?).bind fun inst => s.ofInst search inst.data found
        | .param block index => s.ofParam search block v index found
      if s.maxKeys < found.length then none else some found

/-- The constants that a value may be, if they can be told and are not too many. -/
def resolve (v : ValueId) : Option KeyConsts :=
  (s.resolveWithin (maxKeyDepth + 1) [] v []).filter (!·.isEmpty)

end KeySearch

end ContractCompiler.Ssa
