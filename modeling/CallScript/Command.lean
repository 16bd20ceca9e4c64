import CallScript.Call.Dump
import CallScript.Command.Options
import CallScript.Compile
import CallScript.Files.Tree
import CallScript.InstructionSet.OfConfig
import CallScript.Listing
import CallScript.Text.Utf8

/-!
# `Command` — what a command does to files

A command looks at files and then does one thing: it prints a text or writes one file. `plan` decides
what from a `FileView`, which only answers questions, so a command that fails has changed nothing. The
output of a command must not be its input: the two are compared by the places that they lead to, and by
their components if one of them leads nowhere. `execute` carries a plan out on a file tree.
-/

namespace CallScript

/-- What a command can find out about files. -/
structure FileView where
  /-- The content of the file that a path leads to. -/
  read : String → Except FileError (List UInt8)
  /-- The place that a path leads to. -/
  resolve : String → Except FileError Place

/-- The view that gives recorded answers; there is nothing at a path that was not asked about. -/
def FileView.recorded (contents : List (String × Except FileError (List UInt8)))
    (places : List (String × Except FileError Place)) : FileView where
  read path := (contents.lookup path).getD (.error .notFound)
  resolve path := (places.lookup path).getD (.error .notFound)

/-- Why a command fails. -/
inductive CommandError
  /-- The configuration file cannot be read. -/
  | configFile (error : FileError)
  | config (error : ConfigError)
  | script (error : CompileError)
  | listing (error : ListingError)
  /-- Another file cannot be read or written. -/
  | file (error : FileError)
  /-- The output would replace the input. -/
  | outputIsInput (path : String)
deriving DecidableEq, Repr

/-- The text of a command error. -/
def CommandError.message : CommandError → String
  | configFile e       => "Configuration Error: IO Error: " ++ e.message
  | config e           => "Configuration Error: " ++ e.message
  | script e           => "Script Error: " ++ e.message
  | listing e          => "Decompile Error: " ++ e.message
  | file e             => "IO Error: " ++ e.message
  | outputIsInput path => "Refusing to overwrite the input file " ++ path

/-- What a failed command leaves on the error channel. -/
def CommandError.report (e : CommandError) : String := e.message ++ "\nError: ()\n"

/-- The one thing that a command does. -/
inductive Effect
  | print (text : String)
  | write (path : String) (content : List UInt8)
deriving DecidableEq, Repr

namespace Command

/-! ## Looking at files -/

/-- The text of a file. -/
def readText (view : FileView) (path : String) : Except FileError String :=
  match view.read path with
  | .error e => .error e
  | .ok content =>
      match Utf8.decode? content with
      | some cs => .ok (String.ofList cs)
      | none => .error .notText

/-- The instruction set that a configuration file declares. -/
def loadSet (view : FileView) (path : String) : Except CommandError InstructionSet :=
  match readText view path with
  | .error e => .error (.configFile e)
  | .ok text => (InstructionSet.ofText text).mapError .config

/-- Whether two paths name one file. -/
def sameFile (view : FileView) (a b : String) : Bool :=
  match view.resolve a, view.resolve b with
  | .ok p, .ok q => p = q
  | _, _ => (Path.ofText a).same (Path.ofText b)

/-- The path that compiling writes to: the output, or else the input with another extension. -/
def compileOutput (files : FileOptions) : String :=
  files.output.getD (Path.withExtension "bin" files.input)

/-- Fails if writing to `output` would replace the input. -/
def guardInput (view : FileView) (input output : String) : Except CommandError Unit :=
  if sameFile view input output then .error (.outputIsInput output) else .ok ()

theorem readText_congr {v w : FileView} {path : String} (h : v.read path = w.read path) :
    readText v path = readText w path := by
  rw [readText, readText, h]

theorem loadSet_congr {v w : FileView} {path : String} (h : v.read path = w.read path) :
    loadSet v path = loadSet w path := by
  rw [loadSet, loadSet, readText_congr h]

theorem guardInput_congr {v w : FileView} {input output : String}
    (hin : v.resolve input = w.resolve input) (hout : v.resolve output = w.resolve output) :
    guardInput v input output = guardInput w input output := by
  rw [guardInput, guardInput, sameFile, sameFile, hin, hout]

/-! ## Plans -/

/-- What compiling does. -/
def planCompile (view : FileView) (files : FileOptions) : Except CommandError Effect := do
  let set ← loadSet view files.config
  let text ← (readText view files.input).mapError .file
  guardInput view files.input (compileOutput files)
  let data ← (Compile.compile set files.order text).mapError .script
  return .write (compileOutput files) data

/-- What decompiling does. -/
def planDecompile (view : FileView) (files : FileOptions) (permissive : Bool) :
    Except CommandError Effect := do
  let set ← loadSet view files.config
  let data ← (view.read files.input).mapError .file
  match files.output with
  | some output =>
      guardInput view files.input output
      let text ← (Listing.decompile set permissive files.order data).mapError .listing
      return .write output (Utf8.encode text.toList)
  | none =>
      let text ← (Listing.decompile set permissive files.order data).mapError .listing
      return .print text

/-- What a command does. -/
def plan (view : FileView) : Command → Except CommandError Effect
  | compile files => planCompile view files
  | decompile files permissive => planDecompile view files permissive
  | labels input order => do
      let data ← (view.read input).mapError .file
      let text ← (Listing.labels order data).mapError .listing
      return .print text
  | parse input => do
      let text ← (readText view input).mapError .file
      let calls ← (Call.parse text).mapError fun e => .script (.parse e)
      return .print (Call.dumpAll calls)

/-- The paths whose content a plan depends on. -/
def reads : Command → List String
  | compile files | decompile files _ => [files.config, files.input]
  | labels input _ | parse input => [input]

/-- The paths whose place a plan depends on. -/
def located : Command → List String
  | compile files => [files.input, compileOutput files]
  | decompile files _ => files.input :: files.output.toList
  | labels .. | parse _ => []

/-- Views that agree on the paths a command looks at lead to one plan. -/
theorem plan_congr {v w : FileView} {command : Command}
    (hread : ∀ p ∈ command.reads, v.read p = w.read p)
    (hplace : ∀ p ∈ command.located, v.resolve p = w.resolve p) : plan v command = plan w command := by
  cases command with
  | compile files =>
      rw [plan, plan, planCompile, planCompile, loadSet_congr (hread _ (by simp [reads])),
        readText_congr (hread files.input (by simp [reads])),
        guardInput_congr (hplace files.input (by simp [located]))
          (hplace (compileOutput files) (by simp [located]))]
  | decompile files permissive =>
      rw [plan, plan, planDecompile, planDecompile, loadSet_congr (hread _ (by simp [reads])),
        hread files.input (by simp [reads])]
      cases hout : files.output with
      | none => rfl
      | some output =>
          simp only [guardInput_congr (hplace files.input (by simp [located]))
            (hplace output (by simp [located, hout]))]
  | labels input order => rw [plan, plan, hread input (by simp [reads])]
  | parse input => rw [plan, plan, readText_congr (hread input (by simp [reads]))]

/-! ## Execution on a file tree -/

/-- How a command line ends. -/
inductive Outcome
  /-- The line is no command. -/
  | usage
  | failed (error : CommandError)
  /-- It succeeded, with this text on the output channel. -/
  | succeeded (printed : String)
deriving DecidableEq, Repr

/-- The text on the output channel. -/
def Outcome.printed : Outcome → String
  | succeeded text   => text
  | failed _ | usage => ""

/-- The status that the system is given. -/
def Outcome.status : Outcome → Nat
  | succeeded _ => 0
  | failed _    => 1
  | usage       => 2

/-- The view of a file tree. -/
def viewOf (t : FileTree) : FileView := ⟨t.read, t.resolve⟩

/-- Carries out a command on a file tree. -/
def execute (t : FileTree) (command : Command) : Outcome × FileTree :=
  match plan (viewOf t) command with
  | .error e => (.failed e, t)
  | .ok (.print text) => (.succeeded text, t)
  | .ok (.write path content) =>
      match t.write path content with
      | .error e => (.failed (.file e), t)
      | .ok after => (.succeeded "", after)

/-- Carries out a command line on a file tree. -/
def executeWords (t : FileTree) (words : List String) : Outcome × FileTree :=
  match ofWords? words with
  | none => (.usage, t)
  | some command => execute t command

end Command
end CallScript
