import ContractCompiler.Domain.Key
import ContractCompiler.Host.Interface

/-!
# A ledger in memory

The host that programs are run against: contract state as a map from slots to values, the events
emitted so far, and the context of the call. A slot is the scope hash of a namespace, a zero byte
and the key.

- `Ledger.read?`, `Ledger.write`, `Ledger.has`: the state;
- `Ledger.context`: answers to context queries;
- `Ledger.restrictWrites`, `Ledger.allowsWrite`: writes limited to declared domains.
-/

namespace ContractCompiler

/-- An emitted event. -/
structure Event where
  topic : Bytes
  payload : Bytes
deriving DecidableEq, Repr, Inhabited

/-- A host that keeps everything in memory. -/
structure Ledger where
  caller : Bytes := Bytes.utf8 "alice"
  self : Bytes := Bytes.utf8 "vault"
  blockHeight : UInt64 := 100
  timestamp : UInt64 := 1700000000
  callValue : UInt64 := 0
  /-- The events in the order they were emitted. -/
  events : Array Event := #[]
  /-- The values of the slots, in the order of the slots. -/
  state : List (Bytes × Bytes) := []
  /-- The number of writes so far. -/
  writes : UInt64 := 0
  /-- The domains that may be written; without a list all may be. -/
  allowed : Option (List DomainEntry) := none
deriving Repr, Inhabited

/-- Puts a value in its place, replacing the value of the same slot. -/
def insertSlot (slot value : Bytes) : List (Bytes × Bytes) → List (Bytes × Bytes)
  | [] => [(slot, value)]
  | (s, v) :: rest =>
    if slot == s then (slot, value) :: rest
    else if Bytes.lt slot s then (slot, value) :: (s, v) :: rest
    else (s, v) :: insertSlot slot value rest

namespace Ledger

/-- The slot of a key in a scope. -/
def slot (scope key : Bytes) : Bytes := scope ++ 0 :: key

/-- The value of a key. -/
def read? (h : Ledger) (scope key : Bytes) : Option Bytes := h.state.lookup (slot scope key)

/-- Whether a key has a value. -/
def has (h : Ledger) (scope key : Bytes) : Bool := (h.read? scope key).isSome

/-- Gives a key a value. -/
def write (h : Ledger) (scope key value : Bytes) : Ledger :=
  { h with state := insertSlot (slot scope key) value h.state, writes := h.writes + 1 }

/-- Adds an event. -/
def emit (h : Ledger) (topic payload : Bytes) : Ledger :=
  { h with events := h.events.push { topic, payload } }

/-- The answer to a query; numbers are words of eight bytes. -/
def context (h : Ledger) : ContextQuery → Bytes
  | .caller => h.caller
  | .self => h.self
  | .blockHeight => Bytes.littleEndian h.blockHeight
  | .timestamp => Bytes.littleEndian h.timestamp
  | .callValue => Bytes.littleEndian h.callValue

/-- The answer to the query of a number; empty if there is no such query. -/
def contextNumber (h : Ledger) (n : Nat) : Bytes :=
  ((ContextQuery.ofNumber? n).map h.context).getD []

/-- Limits later writes to the given domains. -/
def restrictWrites (h : Ledger) (entries : List DomainEntry) : Ledger :=
  { h with allowed := some entries }

/-- Whether a state descriptor may be written. A descriptor without an exact hash is admitted by any
entry of its scope, since its key was not known when the code was made. -/
def allowsWrite (h : Ledger) (descriptor : Bytes) : Bool :=
  match h.allowed with
  | none => true
  | some entries =>
    let scope := descriptor.take 32
    let exact := descriptor.drop 32
    descriptor.length == domainArgLength &&
      entries.any fun e => e.scope == scope && (e.wildcard || exact.all (· == 0) || e.hash == exact)

end Ledger

/-- The scope hash of a namespace. -/
def scopeOf [Hashing] (unit ns : String) : Bytes := (DomainKey.all unit ns).hash

/-- The first argument of a state operation: the scope hash and the hash of the key, or zeros if
there is no key text. -/
def descriptorOf [Hashing] (unit ns keyText : String) : Bytes :=
  scopeOf unit ns ++
    if keyText.isEmpty then List.replicate 32 0 else (DomainKey.exact unit ns keyText).hash

end ContractCompiler
