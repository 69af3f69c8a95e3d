import ContractCompiler.Bytes

/-!
# Files

What the program needs of a file system, and a working directory in memory that offers it.

- `FileAccess`: reading and writing files, in any monad;
- `Directory`: files by their paths;
- `Directory.read`, `Directory.write`: its operations, with the ways they fail.
-/

namespace ContractCompiler

/-- The ways in which access to a file fails. -/
inductive FileError where
  | noSuchFile
  | isDirectory
  | notDirectory
  | permissionDenied
  | other (reason : String)
deriving DecidableEq, Repr, Inhabited

/-- The words for a failure. -/
def FileError.message : FileError → String
  | .noSuchFile => "No such file or directory"
  | .isDirectory => "Is a directory"
  | .notDirectory => "Not a directory"
  | .permissionDenied => "Permission denied"
  | .other reason => reason

/-- Access to files. -/
structure FileAccess (m : Type → Type) where
  read : String → m (Except FileError Bytes)
  write : String → Bytes → m (Except FileError Unit)

/-- The files of a working directory by the names on their paths. -/
structure Directory where
  files : List (List String × Bytes) := []
deriving DecidableEq, Repr, Inhabited

namespace Directory

/-- The names on a path; empty names and the directory itself are left out. -/
def names (path : String) : List String :=
  ((path.splitOn "/").filter fun n => n ≠ "" ∧ n ≠ ".")

/-- Whether a path can only name a directory. -/
def namesDirectory (path : String) : Bool :=
  ((path.splitOn "/").getLast?).any fun n => n = "" ∨ n = "."

/-- Whether the names on a path lead to a directory. -/
def isDirectory (d : Directory) (path : List String) : Bool :=
  path.isEmpty || d.files.any fun (p, _) => path.isPrefixOf p && p.length != path.length

/-- What stands in the way on a path to a file, if anything: each name but the last must be a
directory. -/
def obstacle? (d : Directory) (path : List String) : Option FileError :=
  (List.range path.length).findSome? fun n =>
    let parent := path.take n
    if d.isDirectory parent then none
    else if (d.files.lookup parent).isSome then some .notDirectory
    else some .noSuchFile

/-- Reads a file. Paths from the root of a file system lead nowhere. -/
def read (d : Directory) (path : String) : Except FileError Bytes :=
  let ns := names path
  if path.isEmpty || path.startsWith "/" then .error .noSuchFile
  else
    match d.obstacle? ns with
    | some e => .error e
    | none =>
      if d.isDirectory ns then .error .isDirectory
      else
        match d.files.lookup ns with
        | some bytes => if namesDirectory path then .error .notDirectory else .ok bytes
        | none => .error .noSuchFile

/-- Files with one more, or with another content. -/
def insert (path : List String) (bytes : Bytes) :
    List (List String × Bytes) → List (List String × Bytes)
  | [] => [(path, bytes)]
  | (p, b) :: rest => if p = path then (p, bytes) :: rest else (p, b) :: insert path bytes rest

/-- Writes a file. -/
def write (d : Directory) (path : String) (bytes : Bytes) : Except FileError Directory :=
  let ns := names path
  if path.isEmpty || path.startsWith "/" then .error .noSuchFile
  else
    match d.obstacle? ns with
    | some e => .error e
    | none =>
      if d.isDirectory ns then .error .isDirectory
      else if namesDirectory path then
        .error (if (d.files.lookup ns).isSome then .notDirectory else .isDirectory)
      else .ok { files := insert ns bytes d.files }

/-- Access to the files of a directory in memory. -/
def access : FileAccess (StateM Directory) where
  read path := fun d => (d.read path, d)
  write path bytes := fun d =>
    match d.write path bytes with
    | .ok d => (.ok (), d)
    | .error e => (.error e, d)

end Directory

end ContractCompiler
