import ContractCompiler.Source

/-!
# Diagnostics

A diagnostic is a cause with its arguments and place; its wording is chosen only when it is shown.

- `Diagnostic`: one finding;
- `Bag`: the findings of a compilation in the order they were made, with counts by severity.
-/

namespace ContractCompiler

/-- How grave a finding is. A fatal finding is a limit or an invariant of the compiler itself. -/
inductive Severity where
  | error
  | warning
  | note
  | fatal
deriving DecidableEq, Repr, Inhabited

/-- The name of a severity in listings. -/
def Severity.name : Severity → String
  | .error => "error"
  | .warning => "warning"
  | .note => "note"
  | .fatal => "fatal"

/-- The languages that messages are written in. -/
inductive Language where
  | english
  | korean
deriving DecidableEq, Repr, Inhabited

/-- The causes of findings. -/
inductive Cause where
  -- reading a document
  | malformed
  | unknownName
  | unknownType
  | typeMismatch
  | duplicateName
  | argCountMismatch
  | notAPlace
  -- ownership
  | useAfterMove
  | moveWhileBorrowed
  | borrowConflict
  | mutBorrowOfImmutable
  | assignToImmutable
  | moveOutOfBorrowed
  -- annotations and state domains
  | attrMalformed
  | wildcardFallback
  | dynamicKeyRejected
  | underDeclared
  | overDeclared
  -- limits of the code generator
  | tooManyLocals
  | valueTooLarge
  | unsupported
  -- the compilation as a whole
  | fnExcluded
  | ssaVerifyFailed
  | tooManyErrors
deriving DecidableEq, Repr, Inhabited

/-- All causes. -/
def Cause.all : List Cause :=
  [.malformed, .unknownName, .unknownType, .typeMismatch, .duplicateName,
    .argCountMismatch, .notAPlace, .useAfterMove, .moveWhileBorrowed, .borrowConflict,
    .mutBorrowOfImmutable, .assignToImmutable, .moveOutOfBorrowed, .attrMalformed,
    .wildcardFallback, .dynamicKeyRejected, .underDeclared, .overDeclared, .tooManyLocals,
    .valueTooLarge, .unsupported, .fnExcluded, .ssaVerifyFailed,
   .tooManyErrors]

/-- The code of a cause in listings. -/
def Cause.code : Cause → String
  | .malformed => "HirMalformed"
  | .unknownName => "HirUnknownName"
  | .unknownType => "HirUnknownType"
  | .typeMismatch => "HirTypeMismatch"
  | .duplicateName => "HirDuplicateName"
  | .argCountMismatch => "HirArgCountMismatch"
  | .notAPlace => "HirNotAPlace"
  | .useAfterMove => "OwnUseAfterMove"
  | .moveWhileBorrowed => "OwnMoveWhileBorrowed"
  | .borrowConflict => "OwnBorrowConflict"
  | .mutBorrowOfImmutable => "OwnMutBorrowOfImmutable"
  | .assignToImmutable => "OwnAssignToImmutable"
  | .moveOutOfBorrowed => "OwnMoveOutOfBorrowed"
  | .attrMalformed => "AttrMalformed"
  | .wildcardFallback => "DomainWildcardFallback"
  | .dynamicKeyRejected => "DomainDynamicKeyRejected"
  | .underDeclared => "DomainUnderDeclared"
  | .overDeclared => "DomainOverDeclared"
  | .tooManyLocals => "BackendTooManyLocals"
  | .valueTooLarge => "BackendValueTooLarge"
  | .unsupported => "BackendUnsupported"
  | .fnExcluded => "FnExcluded"
  | .ssaVerifyFailed => "SsaVerifyFailed"
  | .tooManyErrors => "TooManyErrors"

/-- One finding. -/
structure Diagnostic where
  severity : Severity := .error
  cause : Cause
  span : Span := {}
  /-- The arguments that fill the holes of the message. -/
  args : List String := []
  /-- A second place that the finding speaks of, such as an earlier access. -/
  related : Option Span := none
deriving DecidableEq, Repr, Inhabited

/-- The findings of a compilation in the order they were made. -/
structure Bag where
  diags : Array Diagnostic := #[]
deriving Repr, Inhabited

namespace Bag

/-- Adds a finding at the end. -/
def add (b : Bag) (d : Diagnostic) : Bag := { diags := b.diags.push d }

/-- Adds findings at the end, in order. -/
def addAll (b : Bag) (ds : List Diagnostic) : Bag := ds.foldl add b

/-- How many findings have a severity. -/
def countSeverity (b : Bag) (s : Severity) : Nat := b.diags.countP (·.severity == s)

/-- The number of errors. -/
def errorCount (b : Bag) : Nat := b.countSeverity .error

/-- The number of fatal findings. -/
def fatalCount (b : Bag) : Nat := b.countSeverity .fatal

/-- The number of warnings. -/
def warningCount (b : Bag) : Nat := b.countSeverity .warning

/-- The number of findings that stop a compilation. -/
def issueCount (b : Bag) : Nat := b.errorCount + b.fatalCount

/-- Whether anything stops the compilation. -/
def hasError (b : Bag) : Bool := b.errorCount != 0 || b.fatalCount != 0

/-- Whether there is a fatal finding. -/
def hasFatal (b : Bag) : Bool := b.fatalCount != 0

/-- How many findings have a cause. -/
def countCause (b : Bag) (c : Cause) : Nat := b.diags.countP (·.cause == c)

/-- Whether some finding has a cause. -/
def hasCause (b : Bag) (c : Cause) : Bool := b.diags.any (·.cause == c)

end Bag

end ContractCompiler
