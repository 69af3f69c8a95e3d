/-!
# The host interface

What compiled code may ask of the host that runs it: a table of modules, each with a version and a
list of functions. The table is the only place that knows names, argument shapes, gas and which
failures a program may handle itself.

- `HostOp`: the operations that code generation asks for;
- `hostModules`: the table;
- `HostRef.ofOp`, `HostRef.find?`: an entry by operation, or by module, version and name.
-/

namespace ContractCompiler

/-- The operations of a host. -/
inductive HostOp where
  | stateRead | stateWrite | stateHas | ctxQuery | sha256 | logEmit | revert | panic
deriving DecidableEq, Repr, Inhabited

/-- All operations in the order of their numbers. -/
def HostOp.all : List HostOp :=
  [.stateRead, .stateWrite, .stateHas, .ctxQuery, .sha256, .logEmit, .revert, .panic]

/-- The shape of an argument. -/
inductive ArgShape where
  /-- An immediate word. -/
  | word
  /-- Offset and length of a buffer that the host reads. -/
  | inPtrLen
  /-- Offset and capacity of a buffer that the host writes. -/
  | outPtrCap
  /-- Offset of a buffer of fixed length that the host writes. -/
  | outPtr
deriving DecidableEq, Repr, Inhabited

/-- How many words an argument takes. -/
def ArgShape.words : ArgShape → Nat
  | .word | .outPtr => 1
  | .inPtrLen | .outPtrCap => 2

/-- The failures that a host reports, as negative status codes. -/
inductive HostStatus where
  | notFound | invalidArgument | bufferTooSmall | limitExceeded | outOfResource | internalError
  | domainDenied
deriving DecidableEq, Repr, Inhabited

namespace HostStatus

/-- All failures. -/
def all : List HostStatus :=
  [.notFound, .invalidArgument, .bufferTooSmall, .limitExceeded, .outOfResource, .internalError,
   .domainDenied]

/-- The status code of a failure. -/
def code : HostStatus → Int
  | .notFound => -1
  | .invalidArgument => -2
  | .bufferTooSmall => -3
  | .limitExceeded => -4
  | .outOfResource => -5
  | .internalError => -6
  | .domainDenied => -7

/-- The name of a failure. -/
def name : HostStatus → String
  | .notFound => "not-found"
  | .invalidArgument => "invalid-argument"
  | .bufferTooSmall => "buffer-too-small"
  | .limitExceeded => "limit-exceeded"
  | .outOfResource => "out-of-resource"
  | .internalError => "internal-error"
  | .domainDenied => "domain-denied"

/-- The failure of a status code. -/
def ofCode? (code : Int) : Option HostStatus := all.find? (·.code == code)

end HostStatus

/-- The name of any status code. -/
def statusName (code : Int) : String :=
  if 0 ≤ code then "ok" else ((HostStatus.ofCode? code).map (·.name)).getD "unknown"

/-- The questions that a program may ask about its call. -/
inductive ContextQuery where
  | caller | self | blockHeight | timestamp | callValue
deriving DecidableEq, Repr, Inhabited

namespace ContextQuery

/-- All questions in the order of their numbers. -/
def all : List ContextQuery := [.caller, .self, .blockHeight, .timestamp, .callValue]

/-- The number of a question. -/
def number (q : ContextQuery) : Nat := q.ctorIdx

/-- The question of a number. -/
def ofNumber? (n : Nat) : Option ContextQuery := all[n]?

end ContextQuery

/-- The length of the first argument of a state operation: the namespace's scope hash, then the hash
of the exact key, or zeros if the key is not known when the code is made. -/
def domainArgLength : Nat := 64

/-- A function of the host. -/
structure HostFunction where
  op : HostOp
  name : String
  args : List ArgShape
  /-- The function ends the execution. -/
  noReturn : Bool := false
  gas : UInt64
  /-- The failures that a program may handle as an error result; any other stops it. -/
  recoverable : List HostStatus := []
  /-- The length of a buffer of fixed length that the host writes. -/
  fixedOut : Nat := 0
deriving DecidableEq, Repr, Inhabited

/-- How many words a call passes. -/
def HostFunction.arity (f : HostFunction) : Nat := (f.args.map (·.words)).foldl (· + ·) 0

/-- A module of the host. -/
structure HostModule where
  name : String
  version : Nat
  functions : List HostFunction
deriving DecidableEq, Repr, Inhabited

/-- The displayed name of a module. -/
def HostModule.qualifiedName (m : HostModule) : String := m.name ++ "@" ++ toString m.version

/-- The capabilities that a host offers. -/
def hostModules : List HostModule :=
  [{ name := "vellum.state", version := 1
     functions :=
      [{ op := .stateRead, name := "read", args := [.inPtrLen, .inPtrLen, .outPtrCap], gas := 200
         recoverable := [.notFound] },
       { op := .stateWrite, name := "write", args := [.inPtrLen, .inPtrLen, .inPtrLen]
         gas := 500 },
       { op := .stateHas, name := "has", args := [.inPtrLen, .inPtrLen], gas := 100 }] },
   { name := "vellum.ctx", version := 1
     functions := [{ op := .ctxQuery, name := "query", args := [.word, .outPtrCap], gas := 20 }] },
   { name := "vellum.crypto", version := 1
     functions :=
      [{ op := .sha256, name := "sha256", args := [.inPtrLen, .outPtr], gas := 60
         fixedOut := 32 }] },
   { name := "vellum.log", version := 1
     functions := [{ op := .logEmit, name := "emit", args := [.inPtrLen, .inPtrLen], gas := 80 }] },
   { name := "vellum.abort", version := 1
     functions :=
      [{ op := .revert, name := "revert", args := [.inPtrLen], noReturn := true, gas := 10 },
       { op := .panic, name := "panic", args := [.inPtrLen], noReturn := true, gas := 10 }] }]

/-- An entry of the table. -/
structure HostRef where
  module : HostModule
  function : HostFunction
deriving DecidableEq, Repr, Inhabited

namespace HostRef

/-- All entries in order. -/
def all : List HostRef := hostModules.flatMap fun m => m.functions.map fun f => ⟨m, f⟩

/-- The entry of an operation. -/
def ofOp? (op : HostOp) : Option HostRef := all.find? (·.function.op == op)

/-- The entry of a module, a version and a name. -/
def find? (module : String) (version : Nat) (name : String) : Option HostRef :=
  all.find? fun r =>
    r.module.name == module && r.module.version == version && r.function.name == name

end HostRef

end ContractCompiler
