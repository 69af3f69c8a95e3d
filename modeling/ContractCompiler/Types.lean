import ContractCompiler.Integer.Arith

/-!
# Types

Types are numbered. A pool holds the types in use, each once, in the order in which they were first
met: first the error type, then the built-in types, then structs, results and references.

- `Builtin`: the built-in types;
- `TypePool`: the numbered types, with `TypePool.result` and `TypePool.ref` to number compound ones;
- `TypePool.parse?`: the number of the type that a text names;
- `TypePool.isCopy`: whether values of a type may be used twice.
-/

namespace ContractCompiler

/-- The number of a type in a pool. -/
abbrev TypeId := Nat

/-- The number that no type has. -/
def TypeId.invalid : TypeId := 0xFFFFFFFF

/-- The built-in types. -/
inductive Builtin where
  | unit | bool
  | i8 | i16 | i32 | i64
  | u8 | u16 | u32 | u64
  | bytes
deriving DecidableEq, Repr, Inhabited

namespace Builtin

/-- The built-in types in the order of their numbers. -/
def all : List Builtin := [.unit, .bool, .i8, .i16, .i32, .i64, .u8, .u16, .u32, .u64, .bytes]

/-- The name of a built-in type. -/
def name : Builtin → String
  | .unit => "unit"
  | .bool => "bool"
  | .i8 => "i8"
  | .i16 => "i16"
  | .i32 => "i32"
  | .i64 => "i64"
  | .u8 => "u8"
  | .u16 => "u16"
  | .u32 => "u32"
  | .u64 => "u64"
  | .bytes => "bytes"

/-- Signedness and width of an integer type; width zero for the others. -/
def intKind : Builtin → IntKind
  | .i8 => ⟨true, 8⟩
  | .i16 => ⟨true, 16⟩
  | .i32 => ⟨true, 32⟩
  | .i64 => ⟨true, 64⟩
  | .u8 => ⟨false, 8⟩
  | .u16 => ⟨false, 16⟩
  | .u32 => ⟨false, 32⟩
  | .u64 => ⟨false, 64⟩
  | _ => {}

/-- Whether a type is an integer type. -/
def isInteger (b : Builtin) : Bool := b.intKind.bits != 0

/-- The number of a built-in type in every pool. -/
def id (b : Builtin) : TypeId := b.ctorIdx + 1

end Builtin

/-- The shape of a numbered type. -/
inductive TypeShape where
  /-- The type of what could not be typed. -/
  | error
  | builtin (b : Builtin)
  /-- A declared struct, by its place among the declarations. -/
  | struct (index : Nat)
  /-- A status code with a payload. -/
  | result (elem : TypeId)
  /-- The cell that an exclusively passed parameter refers to. -/
  | ref (elem : TypeId)
deriving DecidableEq, Repr, Inhabited

/-- A declared struct. -/
structure StructDecl where
  name : String
  fields : List (String × TypeId) := []
deriving DecidableEq, Repr, Inhabited

/-- The numbered types of a compilation. -/
structure TypePool where
  shapes : Array TypeShape := (TypeShape.error :: Builtin.all.map .builtin).toArray
  structs : Array StructDecl := #[]
deriving Repr, Inhabited

namespace TypePool

/-- The number of the error type. -/
def error : TypeId := 0

/-- How many types are numbered. -/
def count (p : TypePool) : Nat := p.shapes.size

/-! ## Making types -/

/-- Numbers a type that is not there yet. -/
def push (p : TypePool) (s : TypeShape) : TypeId × TypePool :=
  (p.shapes.size, { p with shapes := p.shapes.push s })

/-- The number of a type, given one if it has none. -/
def intern (p : TypePool) (s : TypeShape) : TypeId × TypePool :=
  match p.shapes.finIdxOf? s with
  | some i => (i.val, p)
  | none => p.push s

/-- The number of a result type. -/
def result (p : TypePool) (elem : TypeId) : TypeId × TypePool := p.intern (.result elem)

/-- The number of a reference type. -/
def ref (p : TypePool) (elem : TypeId) : TypeId × TypePool := p.intern (.ref elem)

/-- The declaration of a struct type. -/
def structDecl? (p : TypePool) (t : TypeId) : Option StructDecl :=
  match p.shapes[t]? with
  | some (.struct i) => p.structs[i]?
  | _ => none

/-- The number of the struct of a name. -/
def findStruct? (p : TypePool) (name : String) : Option TypeId :=
  (List.range p.shapes.size).find? fun t => (p.structDecl? t).any (·.name == name)

/-- Declares a struct without fields; refused if the name is taken. -/
def declareStruct? (p : TypePool) (name : String) : Option (TypeId × TypePool) :=
  match p.findStruct? name with
  | some _ => none
  | none => some ({ p with structs := p.structs.push { name } }.push (.struct p.structs.size))

/-- Gives a struct its fields; other types have none to give. -/
def setFields (p : TypePool) (t : TypeId) (fields : List (String × TypeId)) : TypePool :=
  match p.shapes[t]? with
  | some (.struct i) => { p with structs := p.structs.modify i fun d => { d with fields } }
  | _ => p

/-! ## Classes of types -/

/-- The built-in type of a number. -/
def builtin? (p : TypePool) (t : TypeId) : Option Builtin :=
  match p.shapes[t]? with
  | some (.builtin b) => some b
  | _ => none

/-- Whether a type is a given built-in type. -/
def isBuiltin (p : TypePool) (t : TypeId) (b : Builtin) : Bool := p.builtin? t == some b

/-- Whether a type is `unit`. -/
def isUnit (p : TypePool) (t : TypeId) : Bool := p.isBuiltin t .unit

/-- Whether a type is `bool`. -/
def isBool (p : TypePool) (t : TypeId) : Bool := p.isBuiltin t .bool

/-- Whether a type is `bytes`. -/
def isBytes (p : TypePool) (t : TypeId) : Bool := p.isBuiltin t .bytes

/-- Whether a type is an integer type. -/
def isInteger (p : TypePool) (t : TypeId) : Bool := (p.builtin? t).any (·.isInteger)

/-- Whether a type is a signed integer type. -/
def isSigned (p : TypePool) (t : TypeId) : Bool := (p.builtin? t).any (·.intKind.signed)

/-- The payload type of a result type. -/
def resultElem? (p : TypePool) (t : TypeId) : Option TypeId :=
  match p.shapes[t]? with
  | some (.result e) => some e
  | _ => none

/-- The type of the cell that a reference type refers to. -/
def refElem? (p : TypePool) (t : TypeId) : Option TypeId :=
  match p.shapes[t]? with
  | some (.ref e) => some e
  | _ => none

/-- Signedness and width of integers and truth values; width zero for other types. -/
def intKind (p : TypePool) (t : TypeId) : IntKind :=
  if p.isBool t then .bool else ((p.builtin? t).map (·.intKind)).getD {}

/-- The width in bits of integers and truth values; zero for other types. -/
def bitWidth (p : TypePool) (t : TypeId) : Nat := (p.intKind t).bits

/-- Whether values of a type can be stored in contract state. -/
def isStateValue (p : TypePool) (t : TypeId) : Bool := p.isInteger t || p.isBool t || p.isBytes t

/-- `isCopy` followed down to a nesting depth. -/
def isCopyWithin (p : TypePool) : Nat → TypeId → Bool
  | 0, _ => false
  | depth + 1, t =>
    match p.shapes[t]? with
    | none | some .error => true
    | some (.builtin b) => b != .bytes
    | some (.result e) => p.isCopyWithin depth e
    | some (.ref _) => false
    | some (.struct i) =>
      ((p.structs[i]?.map (·.fields)).getD []).all fun f => p.isCopyWithin depth f.2

/-- Whether using a value leaves it usable: scalars may be used again, byte strings and references
may not, and compound values may if all their parts may. Types nest at most as deep as there are
types. -/
def isCopy (p : TypePool) (t : TypeId) : Bool := p.isCopyWithin (p.shapes.size + 1) t

/-! ## Names -/

/-- `typeName` followed down to a nesting depth. -/
def typeNameWithin (p : TypePool) : Nat → TypeId → String
  | 0, _ => "<invalid>"
  | depth + 1, t =>
    match p.shapes[t]? with
    | none => "<invalid>"
    | some .error => "<error>"
    | some (.builtin b) => b.name
    | some (.struct i) => (p.structs[i]?.map (·.name)).getD "<invalid>"
    | some (.result e) => "result<" ++ p.typeNameWithin depth e ++ ">"
    | some (.ref e) => "mut " ++ p.typeNameWithin depth e

/-- The text of a type. -/
def typeName (p : TypePool) (t : TypeId) : String := p.typeNameWithin (p.shapes.size + 1) t

/-- What stands between the brackets of a result type's text. -/
def resultBody? (text : List Char) : Option (List Char) :=
  let opening := "result<".toList
  if opening.isPrefixOf text && text.getLast? == some '>' then
    some ((text.drop opening.length).dropLast)
  else none

theorem length_resultBody? {text inner : List Char} (h : resultBody? text = some inner) :
    inner.length < text.length := by
  have hlen : "result<".toList.length = 7 := by decide
  simp only [resultBody?, hlen] at h
  split at h
  · simp only [Option.some.injEq] at h
    subst h
    rename_i hc
    simp only [Bool.and_eq_true, beq_iff_eq] at hc
    cases text with
    | nil => simp at hc
    | cons c cs => simp only [List.length_dropLast, List.length_drop, List.length_cons]; omega
  · simp at h

/-- The number of the type that a text names, with the result types in it numbered from the
inside. -/
def parseChars? (p : TypePool) (text : List Char) : Option (TypeId × TypePool) :=
  match Builtin.all.find? (·.name.toList == text) with
  | some b => some (b.id, p)
  | none =>
    match h : resultBody? text with
    | some inner =>
      have := length_resultBody? h
      match p.parseChars? inner with
      | some (elem, p') => some (p'.result elem)
      | none => none
    | none => (p.findStruct? (String.ofList text)).map (·, p)
termination_by text.length

/-- The number of the type that a text names: a built-in type, a result type or a declared
struct. -/
def parse? (p : TypePool) (text : String) : Option (TypeId × TypePool) := p.parseChars? text.toList

end TypePool

end ContractCompiler
