import ContractCompiler.Ssa.Basic

/-!
# Export names

The name under which a function is exported says which unit it is of, what it is called and which
types its parameters have: `_VL`, the unit and the name, each after its length, `_`, and a code for
each parameter, or `v` if there are none.

- `TypePool.typeCode`: the code of a type;
- `exportName`: the name of a function.
-/

namespace ContractCompiler

/-- A text after the number of its bytes. -/
def lengthTagged (s : String) : String := toString s.utf8ByteSize ++ s

/-- The code of a built-in type. -/
def Builtin.code : Builtin → String
  | .unit => "v"
  | .bool => "b"
  | .i8 => "a"
  | .i16 => "s"
  | .i32 => "i"
  | .i64 => "l"
  | .u8 => "h"
  | .u16 => "t"
  | .u32 => "j"
  | .u64 => "m"
  | .bytes => "y"

namespace TypePool

/-- `typeCode` followed down to a nesting depth. -/
def typeCodeWithin (p : TypePool) : Nat → TypeId → String
  | 0, _ => "?"
  | depth + 1, t =>
    match p.shapes[t]? with
    | none | some .error => "?"
    | some (.builtin b) => b.code
    | some (.struct i) => "S" ++ lengthTagged ((p.structs[i]?.map (·.name)).getD "?")
    | some (.result e) => "R" ++ p.typeCodeWithin depth e
    | some (.ref e) => "M" ++ p.typeCodeWithin depth e

/-- The code of a type. -/
def typeCode (p : TypePool) (t : TypeId) : String := p.typeCodeWithin (p.shapes.size + 1) t

end TypePool

/-- The name under which a function of a unit is exported. -/
def exportName (types : TypePool) (unit : String) (f : Ssa.Function) : String :=
  "_VL" ++ lengthTagged unit ++ lengthTagged f.name ++ "_" ++
    if f.paramTypes.isEmpty then "v" else String.join (f.paramTypes.map types.typeCode)

end ContractCompiler
