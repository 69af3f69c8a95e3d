import ContractCompiler.Host.Interface
import ContractCompiler.Bytes

/-!
# How an execution ends

The evaluator of the intermediate form and the bytecode machine report the end of an execution in
the same way.

- `Halt`: why an execution stopped, other than by returning;
- `RunResult`: the end of an execution.
-/

namespace ContractCompiler

/-- The ways an execution can end. -/
inductive Exit where
  | returned
  /-- The program turned the call down. -/
  | reverted
  /-- The program gave up: a panic, an overflow, an error result taken for a value, a host
  failure. -/
  | panicked
  /-- The machine stopped the program: division by zero, unreachable code, memory out of bounds. -/
  | trapped
  /-- The run was given up: a limit was reached, or there was nothing that could be run. -/
  | error
  /-- The evaluator itself failed at a lookup out of range; it gives no result. -/
  | escaped
deriving DecidableEq, Repr, Inhabited

/-- The name of an end. -/
def Exit.name : Exit → String
  | .returned => "returned"
  | .reverted => "reverted"
  | .panicked => "panicked"
  | .trapped => "trapped"
  | .error => "error"
  | .escaped => "escaped"

/-- The program was run to an end of its own. -/
def Exit.settled : Exit → Bool
  | .returned | .reverted | .panicked | .trapped => true
  | .error | .escaped => false

/-- The reasons for which the machine itself stops an execution. -/
inductive TrapCode where
  | unreachable | divByZero | integerOverflow | outOfBounds
deriving DecidableEq, Repr, Inhabited

/-- The number of a reason. -/
def TrapCode.number (c : TrapCode) : Nat := c.ctorIdx

/-- A stop that is not a return. -/
structure Halt where
  exit : Exit
  message : Bytes
  /-- The machine's reason for a trap, by its number. -/
  trap : UInt32 := 0
deriving DecidableEq, Repr, Inhabited

namespace Halt

/-- The run is given up. -/
def error (message : String) : Halt := { exit := .error, message := Bytes.utf8 message }

/-- The evaluator looks up what is not there. -/
def escaped : Halt := { exit := .escaped, message := [] }

/-- The machine stops the program for a numbered reason. -/
def trapped (code : UInt32) :
    Halt := { exit := .trapped, message := Bytes.utf8 "trap", trap := code }

/-- The machine stops the program. -/
def trappedBy (code : TrapCode) : Halt := .trapped (UInt32.ofNat code.number)

/-- The program gives up with a message. -/
def panicked (message : String) : Halt := { exit := .panicked, message := Bytes.utf8 message }

end Halt

/-- The end of an execution. -/
structure RunResult where
  exit : Exit
  /-- The returned word, if the function has a result. -/
  value : Option UInt64 := none
  message : Bytes := []
  trap : UInt32 := 0
  /-- The last failure that the host reported. -/
  hostStatus : Option HostStatus := none
deriving DecidableEq, Repr, Inhabited

/-- The result of a stop. -/
def Halt.toResult (h : Halt) (hostStatus : Option HostStatus) : RunResult where
  exit := h.exit
  message := h.message
  trap := h.trap
  hostStatus := hostStatus

end ContractCompiler
