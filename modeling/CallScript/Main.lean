import CallScript.Command

/-!
# `Main` — the command line

The files that a command may look at are looked at first; the plan is then made from what was found, and
its one effect is carried out. That the plan would be the same if it were made while looking is
`Command.plan_congr`.
-/

namespace CallScript.CommandLine

/-- What a command line looks like. -/
def usage : String :=
  "usage: callscript compile   -c CONFIG -i INPUT [-o OUTPUT] [-e little|big]\n" ++
  "       callscript decompile -c CONFIG -i INPUT [-o OUTPUT] [-e little|big] [--permissive]\n" ++
  "       callscript labels    -i INPUT [-e little|big]\n" ++
  "       callscript parse     -i INPUT\n"

/-- The file error that the system reports. -/
def fileError : IO.Error → FileError
  | .noFileOrDirectory .. => .notFound
  | .inappropriateType _ 20 _ => .notDirectory
  | .inappropriateType _ 21 _ => .isDirectory
  | .invalidArgument _ 36 _ => .nameTooLong
  | .invalidArgument _ 40 _ => .linkLoop
  | e => .other e.toString

/-- Runs an action on files and keeps its error as a value. -/
def attempt {α : Type} (action : IO α) : IO (Except FileError α) := do
  try
    return .ok (← action)
  catch e =>
    return .error (fileError e)

/-- The content of a file. -/
def readFile (path : String) : IO (List UInt8) := do
  let handle ← IO.FS.Handle.mk path .read
  return (← handle.readBinToEnd).toList

/-- The place of a file. -/
def locate (path : String) : IO Place := do
  let text := (← IO.FS.realPath path).toString
  return (Path.ofText text).components.filterMap fun
    | .name n => some n
    | _ => none

/-- Looks at the files that a command may ask about. -/
def look (command : Command) : IO FileView := do
  let contents ← command.reads.mapM fun p => return (p, ← attempt (readFile p))
  let places ← command.located.mapM fun p => return (p, ← attempt (locate p))
  return .recorded contents places

/-- Carries out a command on the files of the system. -/
def execute (command : Command) : IO Command.Outcome := do
  match Command.plan (← look command) command with
  | .error e => return .failed e
  | .ok (.print text) => return .succeeded text
  | .ok (.write path content) =>
      match ← attempt (IO.FS.writeBinFile path ⟨content.toArray⟩) with
      | .error e => return .failed (.file e)
      | .ok _ => return .succeeded ""

end CallScript.CommandLine

open CallScript in
/-- Carries out a command line, and reports how it ended. -/
def main (words : List String) : IO UInt32 := do
  let outcome ← match Command.ofWords? words with
    | none => pure .usage
    | some command => CommandLine.execute command
  IO.print outcome.printed
  match outcome with
  | .usage => IO.eprint CommandLine.usage
  | .failed e => IO.eprint e.report
  | .succeeded _ => pure ()
  return UInt32.ofNat outcome.status
