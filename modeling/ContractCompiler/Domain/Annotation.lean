import ContractCompiler.Diagnostic.Basic

/-!
# Annotations

A function may carry annotations, written with or without the brackets of `#[...]`:

- `reads("ns:key", ...)` and `writes("ns:key", ...)` replace the read or write set that is inferred;
- `no_state` promises that the function touches no state;
- `proof("id")` names an obligation proved elsewhere.

Annotations of other names are not for this compiler and are passed over.

`parseAnnotations` reads the annotations of a function and reports those that are malformed;
`overridesDomains` only asks whether any of them replaces what is inferred.
-/

namespace ContractCompiler

/-- An annotation as it was written. -/
structure Attribute where
  text : String
  span : Span := {}
deriving DecidableEq, Repr, Inhabited

/-- A key that an annotation names; the wildcard stands for the whole namespace. -/
structure DeclaredKey where
  ns : String
  key : String := ""
  wildcard : Bool := false
deriving DecidableEq, Repr, Inhabited

/-- What the annotations of a function say. -/
structure Annotations where
  reads : Option (List DeclaredKey) := none
  writes : Option (List DeclaredKey) := none
  noState : Bool := false
  proofs : List String := []
deriving DecidableEq, Repr, Inhabited

/-- Why an annotation is malformed. -/
inductive AnnotationFault where
  | noName
  | noArgList
  | noKeyList
  | duplicate
  | emptyNamespace
  | badNamespace
  | emptyKey
  | partialWildcard
  | noStateArgs
  | proofArgs
  | noStateCombined
deriving DecidableEq, Repr, Inhabited

/-- The reason given for a malformed annotation. -/
def AnnotationFault.reason : AnnotationFault → String
  | .noName => "expected an annotation name"
  | .noArgList => "expected a parenthesized list of string literals"
  | .noKeyList => "domain annotation needs a key list"
  | .duplicate => "duplicate domain annotation"
  | .emptyNamespace => "empty state namespace"
  | .badNamespace => "state namespace must not contain '*' or '.'"
  | .emptyKey => "empty state key"
  | .partialWildcard => "'*' is only allowed as a whole key"
  | .noStateArgs => "no_state takes no arguments"
  | .proofArgs => "proof takes exactly one non-empty id"
  | .noStateCombined => "no_state cannot be combined with reads/writes"

namespace Annotation

/-! ## Tokens -/

/-- The characters that may stand between tokens. -/
def isSpace (c : Char) : Bool :=
  c = ' ' || c = '\t' || c = '\n' || c = '\x0b' || c = '\x0c' || c = '\r'

/-- The characters of a name. -/
def isNameChar (c : Char) : Bool := c.isAlphanum || c = '_'

/-- Skips what may stand between tokens. -/
def skipSpaces (cs : List Char) : List Char := cs.dropWhile isSpace

/-- Takes a given character, spaces before it skipped. -/
def eat? (c : Char) (cs : List Char) : Option (List Char) :=
  match skipSpaces cs with
  | d :: rest => if d = c then some rest else none
  | [] => none

/-- The name that a text starts with, possibly empty, and what follows it. -/
def name (cs : List Char) : String × List Char :=
  let cs := skipSpaces cs
  (String.ofList (cs.takeWhile isNameChar), cs.dropWhile isNameChar)

/-- The rest of a string literal after its opening quote. Only quotes and backslashes are
escaped. -/
def literalRest? (acc : List Char) : List Char → Option (String × List Char)
  | [] => none
  | '"' :: rest => some (String.ofList acc.reverse, rest)
  | '\\' :: e :: rest =>
    if e = '"' ∨ e = '\\' then literalRest? (e :: acc) rest else none
  | c :: rest => if c = '\\' then none else literalRest? (c :: acc) rest

/-- A string literal, spaces before it skipped. -/
def literal? (cs : List Char) : Option (String × List Char) :=
  match skipSpaces cs with
  | '"' :: rest => literalRest? [] rest
  | _ => none

/-- String literals separated by commas, up to the closing parenthesis. Each literal takes at least
its opening quote, so the length of the text bounds their number. -/
def literals? : Nat → List Char → Option (List String × List Char)
  | 0, _ => none
  | fuel + 1, cs =>
    match literal? cs with
    | none => none
    | some (s, rest) =>
      match eat? ',' rest with
      | some rest => (literals? fuel rest).map fun r => (s :: r.1, r.2)
      | none => (eat? ')' rest).map ([s], ·)

/-- A parenthesised list of string literals; without a parenthesis there is no list. -/
def argList? (cs : List Char) : Option (Option (List String) × List Char) :=
  match eat? '(' cs with
  | none => some (none, cs)
  | some rest =>
    match eat? ')' rest with
    | some rest => some (some [], rest)
    | none => (literals? (rest.length + 1) rest).map fun r => (some r.1, r.2)

/-- The text of an annotation without surrounding spaces and brackets. -/
def body (text : String) : List Char :=
  let cs := ((skipSpaces text.toList).reverse.dropWhile isSpace).reverse
  match cs with
  | '#' :: '[' :: rest => if rest.getLast? = some ']' then rest.dropLast else cs
  | _ => cs

/-! ## Declared keys -/

/-- Reads `ns`, `ns:*` or `ns:key`. -/
def declaredKey (text : String) : Except AnnotationFault DeclaredKey :=
  let cs := text.toList
  let ns := cs.takeWhile (· != ':')
  if ns.isEmpty then .error .emptyNamespace
  else if ns.any fun c => c = '*' || c = '.' then .error .badNamespace
  else
    let ns := String.ofList ns
    match cs.dropWhile (· != ':') with
    | [] => .ok { ns, wildcard := true }
    | _ :: key =>
      if key = ['*'] then .ok { ns, wildcard := true }
      else if key.isEmpty then .error .emptyKey
      else if key.contains '*' then .error .partialWildcard
      else .ok { ns, key := String.ofList key }

/-! ## One annotation -/

/-- Takes in a read or write set. -/
def declareKeys (given : Option (List DeclaredKey)) (args : Option (List String)) :
    Except AnnotationFault (List DeclaredKey) :=
  match args with
  | none => .error .noKeyList
  | some texts => if given.isSome then .error .duplicate else texts.mapM declaredKey

/-- Takes in an annotation of a name with an optional argument list. -/
def apply (acc : Annotations) (name : String) (args : Option (List String)) :
    Except AnnotationFault Annotations :=
  if name = "reads" then
    (declareKeys acc.reads args).map fun ks => { acc with reads := some ks }
  else if name = "writes" then
    (declareKeys acc.writes args).map fun ks => { acc with writes := some ks }
  else if name = "no_state" then
    if args.isSome then .error .noStateArgs else .ok { acc with noState := true }
  else if name = "proof" then
    match args with
    | some [id] => if id.isEmpty then .error .proofArgs
        else .ok { acc with proofs := acc.proofs ++ [id] }
    | _ => .error .proofArgs
  else .ok acc

/-- Reads one annotation on top of those before it. -/
def read (acc : Annotations) (text : String) : Except AnnotationFault Annotations :=
  let (name, rest) := name (body text)
  if name.isEmpty then .error .noName
  else
    match argList? rest with
    | some (args, rest) =>
      if (skipSpaces rest).isEmpty then apply acc name args else .error .noArgList
    | none => .error .noArgList

/-- The finding for a malformed annotation. -/
def malformed (a : Attribute) (fault : AnnotationFault) : Diagnostic where
  cause := .attrMalformed
  span := a.span
  args := [a.text, fault.reason]

/-- Whether a text occurs in another. -/
def occursIn (needle : List Char) : List Char → Bool
  | [] => needle.isEmpty
  | c :: cs => needle.isPrefixOf (c :: cs) || occursIn needle cs

end Annotation

open Annotation in
/-- Whether some annotation replaces what is inferred; its arguments are not looked at. -/
def overridesDomains (attrs : List Attribute) : Bool :=
  attrs.any fun a =>
    let n := (name (body a.text)).1
    n = "reads" || n = "writes" || n = "no_state"

open Annotation in
/-- Reads annotations in order. A malformed one is reported and otherwise passed over. -/
def readAnnotations (acc : Annotations) : List Attribute → Annotations × List Diagnostic
  | [] => (acc, [])
  | a :: rest =>
    match read acc a.text with
    | .ok acc => readAnnotations acc rest
    | .error fault =>
      let (acc, diags) := readAnnotations acc rest
      (acc, malformed a fault :: diags)

/-- The outcome of reading the annotations of a function. -/
structure AnnotationOutcome where
  annotations : Annotations
  ok : Bool
  diags : List Diagnostic
deriving Repr, Inhabited

open Annotation in
/-- Reads the annotations of a function. A promise to touch no state contradicts a declared set;
this is reported at the first annotation that mentions the promise. -/
def parseAnnotations (attrs : List Attribute) : AnnotationOutcome :=
  let (annotations, diags) := readAnnotations {} attrs
  if annotations.noState && (annotations.reads.isSome || annotations.writes.isSome) then
    let extra := match attrs.find? fun a => occursIn "no_state".toList a.text.toList with
      | some a => [malformed a .noStateCombined]
      | none => []
    { annotations, ok := false, diags := diags ++ extra }
  else { annotations, ok := diags.isEmpty, diags }

end ContractCompiler
