import RubyScript.CommandLine.Format

/-!
# Hosts

The few operations on files that a run needs, in any monad. The program runs on the files of the
machine; on a list of files in memory a run is a pure function.
-/

namespace RubyScript

/-- Why a file cannot be read or written. -/
inductive FileError where
  | notFound
  | isDirectory
  | notDirectory
  | denied
  | other (reason : String)
deriving DecidableEq

namespace FileError

def message : FileError → String
  | notFound => "No such file or directory (os error 2)"
  | isDirectory => "Is a directory (os error 21)"
  | notDirectory => "Not a directory (os error 20)"
  | denied => "Permission denied (os error 13)"
  | other reason => reason

def isAbsence : FileError → Bool
  | notFound => true
  | isDirectory => true
  | notDirectory => true
  | _ => false

end FileError

structure Host (m : Type → Type) where
  /-- The working directory, to which paths are relative. -/
  directory : FilePath
  read : FilePath → m (Except FileError String)
  write : FilePath → String → m (Except FileError Unit)
  /-- All of the standard input. -/
  input : m (Except FileError String)

def Host.isFile {m : Type → Type} [Monad m] (host : Host m) (path : FilePath) : m Bool := do
  match ← host.read path with
  | .ok _ => return true
  | .error e => return !e.isAbsence

/-! ## Files in memory -/

/-- The files below the working directory, by their paths, and the standard input. -/
structure Memory where
  files : List (FilePath × String) := []
  input : String := ""

namespace Memory

def pathOf (parts : List String) : FilePath := Text.joined "/" parts

def file? (memory : Memory) (parts : List String) : Option String :=
  memory.files.lookup (pathOf parts)

/-- A directory is the working directory or has a file below it. -/
def isDirectory (memory : Memory) (parts : List String) : Bool :=
  parts.isEmpty || memory.files.any fun (path, _) => Text.startsWith path (pathOf parts ++ "/")

/-- Where a way out of the working directory leads: up to a directory, or into one of which
nothing is known. -/
def outside (parts : List String) : FileError :=
  if parts.all fun part => part == "." || part == ".." then .isDirectory else .notFound

/-- Goes from a place along components, each of which has to start from a directory. -/
def walk (memory : Memory) : List String → List String → Except FileError (List String)
  | current, [] => .ok current
  | current, part :: rest =>
      if (memory.file? current).isSome then .error .notDirectory
      else if !memory.isDirectory current then .error .notFound
      else if part == "." then memory.walk current rest
      else if part == ".." then
        if current.isEmpty then .error (outside rest) else memory.walk current.dropLast rest
      else memory.walk (current ++ [part]) rest

def locate (memory : Memory) (path : FilePath) : Except FileError (List String) :=
  let parts := (path.splitOn "/").filter (· != "")
  if path.isAbsolute then .error (outside parts) else memory.walk [] parts

/-- Whether a path can only be the path of a directory. -/
def endsInDirectory (path : FilePath) : Bool := Text.endsWith path "/"

def read (memory : Memory) (path : FilePath) : Except FileError String := do
  let parts ← memory.locate path
  match memory.file? parts with
  | some text => if endsInDirectory path then throw .notDirectory else return text
  | none => throw (if memory.isDirectory parts then .isDirectory else .notFound)

def store (path : FilePath) (text : String) : List (FilePath × String) → List (FilePath × String)
  | [] => [(path, text)]
  | (p, t) :: rest => if p = path then (p, text) :: rest else (p, t) :: store path text rest

def write (memory : Memory) (path : FilePath) (text : String) : Except FileError Memory := do
  let parts ← memory.locate path
  if endsInDirectory path || memory.isDirectory parts then throw .isDirectory
  return { memory with files := store (pathOf parts) text memory.files }

end Memory

def Host.inMemory (directory : FilePath) : Host (StateM Memory) where
  directory
  read path := return (← get).read path
  write path text := do
    match (← get).write path text with
    | .ok memory =>
        set memory
        return .ok ()
    | .error e => return .error e
  input := return .ok (← get).input

end RubyScript
