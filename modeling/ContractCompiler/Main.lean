import ContractCompiler.Json.Reader
import ContractCompiler.Program

/-!
# Entry point

Runs the program on the files of the system.
-/

namespace ContractCompiler

/-- The way in which access to a file of the system failed. -/
def FileError.ofSystem : IO.Error → FileError
  | .noFileOrDirectory .. => .noSuchFile
  | .inappropriateType _ code _ => if code = 21 then .isDirectory else .notDirectory
  | .permissionDenied .. => .permissionDenied
  | e => .other (toString e)

/-- Access to the files of the system. -/
def systemFiles : FileAccess IO where
  read path := do
    try return .ok (← IO.FS.readBinFile path).data.toList
    catch e => return .error (.ofSystem e)
  write path bytes := do
    try
      IO.FS.writeBinFile path ⟨bytes.toArray⟩
      return .ok ()
    catch e => return .error (.ofSystem e)

end ContractCompiler

open ContractCompiler in
/-- Runs the program, prints what it prints and exits with its code. -/
def main (args : List String) : IO UInt32 := do
  let r ← @runProgram IO _ Json.Library.standard Hashing.sha256 systemFiles args
  (← IO.getStdout).write ⟨r.out.toArray⟩
  (← IO.getStderr).write ⟨r.err.toArray⟩
  return UInt32.ofNat r.exitCode
