import RubyScript.CommandLine.Run
import RubyScript.CommandLine.LogFormat

/-!
# The command line program
-/

namespace RubyScript.CommandLine

def fileError : IO.Error → FileError
  | .noFileOrDirectory .. => .notFound
  | .permissionDenied .. => .denied
  | .inappropriateType .. => .isDirectory
  | e => .other e.toString

def attempt {α : Type} (act : IO α) : IO (Except FileError α) := do
  try return .ok (← act) catch e => return .error (fileError e)

partial def readAll (stream : IO.FS.Stream) (text : String) : IO String := do
  let line ← stream.getLine
  if line.isEmpty then return text else readAll stream (text ++ line)

def machine : IO (Host IO) := do
  let directory := toString (← IO.currentDir)
  return { directory
           read := fun path => attempt (IO.FS.readFile path)
           write := fun path text => attempt (IO.FS.writeFile path text)
           input := attempt (do readAll (← IO.getStdin) "") }

end RubyScript.CommandLine

def main (argv : List String) : IO UInt32 := do
  let host ← RubyScript.CommandLine.machine
  let stderr ← IO.getStderr
  let outcome ← RubyScript.CommandLine.program host (← stderr.isTty) argv
  (← IO.getStdout).putStr outcome.stdout
  stderr.putStr outcome.stderr
  return outcome.exit
