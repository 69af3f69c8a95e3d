import ContractCompiler.Json.Number

/-!
# Document values

The tree of values of a JSON document, with the look-ups that readers need. The fields of an object
are kept in the order of their keys. What turns texts into trees, and numbers into integers, is a
library that may be exchanged.
-/

namespace ContractCompiler

/-- A document value. -/
inductive Json where
  | null
  | bool (value : Bool)
  | number (value : Json.Number)
  | string (value : String)
  | array (items : List Json)
  | object (fields : List (String × Json))
deriving Inhabited

namespace Json

/-- Puts a field in its place; a later field of the same key replaces an earlier one. -/
def insertField (key : String) (value : Json) : List (String × Json) → List (String × Json)
  | [] => [(key, value)]
  | (k, v) :: rest =>
    if key < k then (key, value) :: (k, v) :: rest
    else if key = k then (key, value) :: rest
    else (k, v) :: insertField key value rest

/-- An object with its fields in the order of their keys. -/
def ofFields (fields : List (String × Json)) : Json :=
  .object (fields.foldl (fun acc kv => insertField kv.1 kv.2 acc) [])

/-- A whole number as a value. -/
def int (v : Int) : Json := .number (.whole v)

/-- A counter as a value. -/
def nat (n : Nat) : Json := int n

/-- The field of an object. -/
def field? (key : String) : Json → Option Json
  | .object fields => fields.lookup key
  | _ => none

/-- The text of a string value. -/
def string? : Json → Option String
  | .string s => some s
  | _ => none

/-- The truth value of a value. -/
def bool? : Json → Option Bool
  | .bool b => some b
  | _ => none

/-- The items of an array. -/
def array? : Json → Option (List Json)
  | .array items => some items
  | _ => none

/-- The fields of an object. -/
def object? : Json → Option (List (String × Json))
  | .object fields => some fields
  | _ => none

/-- What documents are read with. A number is kept as it is written; which integer it stands for is
up to the library. -/
class Library where
  /-- The value that a text stands for, if it is a document. -/
  parse? : String → Option Json
  /-- The 64-bit signed integer that a number stands for. -/
  toInt64? : Number → Option Int

/-- The 64-bit signed integer that a value stands for. -/
def int64? [Library] : Json → Option Int
  | .number n => Library.toInt64? n
  | _ => none

end Json

end ContractCompiler
