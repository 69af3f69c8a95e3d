import ContractCompiler.Ssa.Substitution

/-!
# Constant folding

Operations on constants become constants, unless they would stop the execution. A field taken out of
a struct that was just made is replaced by the value that was put in.

- `foldedData?`: the constant that an instruction amounts to;
- `forwarded?`: the value that a field access amounts to;
- `Module.constFold`: folds until nothing is left to fold.
-/

namespace ContractCompiler.Ssa

/-- A constant of a type. -/
def constData (isBool : Bool) (w : UInt64) : InstData :=
  if isBool then .constBool (w != 0) else .constInt w

/-- The word of an operation that does not fail. -/
def Folded.word? : Folded → Option UInt64
  | .value w => some w
  | .overflow | .divByZero | .checkedErr => none

/-- The constant that a unary operation amounts to, given the constant operand. -/
def foldedUnary? (op : UnOp) (mode : ArithMode) (k : IntKind) (a : UInt64) : Option InstData :=
  match op with
  | .not => some (.constBool (a == 0))
  | .bitNot => some (.constInt (k.normalize (~~~a)))
  | .neg => if mode = .checked then none else (Folded.word? (foldNeg mode k a)).map .constInt

variable (types : TypePool)

/-- The constant that an instruction amounts to. -/
def foldedData? (m : Module) (inst : Inst) : Option InstData := do
  let type := m.valueType (← inst.result)
  match inst.data with
  | .binary op mode left right =>
    if mode = .checked then none
    else
      let a ← m.constWord? left
      let b ← m.constWord? right
      let w ← Folded.word? (foldBinOp op mode (types.intKind (m.valueType left)) a b)
      return constData (types.isBool type) w
  | .unary op mode src => foldedUnary? op mode (types.intKind type) (← m.constWord? src)
  | .cast mode target src =>
    let a ← m.constWord? src
    let w ← Folded.word? (foldCast mode (types.intKind (m.valueType src)) (types.intKind target) a)
    return .constInt w
  | .resultIsOk src =>
    match (← m.definition? src).data with
    | .makeResult ok _ => some (.constBool ok)
    | _ => none
  | _ => none

/-- The value that a field access amounts to. -/
def forwarded? (m : Module) (data : InstData) : Option ValueId :=
  match data with
  | .extract base index =>
    match m.definition? base with
    | some { data := .makeStruct fields, .. } => fields[index]?
    | _ => none
  | _ => none

/-- A round of folding under way. -/
structure FoldRound where
  module : Module
  /-- The values whose uses have been replaced, in this round or before. -/
  done : Array Bool
  replaced : Substitution := {}
  changed : Bool := false
deriving Inhabited

namespace FoldRound

/-- Counts something folded. -/
def count (m : Module) : Module :=
  { m with counts := { m.counts with constsFolded := m.counts.constsFolded + 1 } }

/-- Folds one instruction. -/
def foldInst (r : FoldRound) (id : InstId) : FoldRound :=
  match r.module.insts[id]? with
  | none => r
  | some inst =>
    match foldedData? types r.module inst with
    | some data =>
      let ⟨m, done, replaced, _⟩ := r
      let m := { m with insts := m.insts.setIfInBounds id { inst with data, effect := .pure } }
      { module := count m, done, replaced, changed := true }
    | none =>
      match inst.result, forwarded? r.module inst.data with
      | some v, some w =>
        if r.done.getD v false then r
        else
          { module := count r.module
            done := r.done.setIfInBounds v true
            replaced := r.replaced.insert v w
            changed := true }
      | _, _ => r

/-- Folds the instructions of blocks in order. -/
def foldBlocks (r : FoldRound) (blocks : List BlockId) : FoldRound :=
  blocks.foldl (fun r b => (r.module.block b).insts.foldl (foldInst types) r) r

end FoldRound

/-- Folds every instruction once. -/
def foldOnce (m : Module) (done : Array Bool) : FoldRound :=
  let blocks := (m.functions.toList.filter (!·.excluded)).flatMap (·.blocks)
  let r := FoldRound.foldBlocks types { module := m, done } blocks
  { r with module := r.module.substitute r.replaced }

/-- Folds in rounds until one changes nothing, at most as many as given. -/
def foldRounds : Nat → Module → Array Bool → Bool → Module × Bool
  | 0, m, _, changed => (m, changed)
  | n + 1, m, done, changed =>
    let r := foldOnce types m done
    if r.changed then foldRounds n r.module r.done true else (r.module, changed)

/-- Folds until nothing is left to fold; the flag says whether anything changed. Each round that
changes something folds an instruction for good, so there are at most as many as instructions. -/
def Module.constFold (m : Module) : Module × Bool :=
  foldRounds types (m.insts.size + 1) m (Array.replicate m.values.size false) false

end ContractCompiler.Ssa
