import CallScript.Command
import CallScript.Proofs.Files
import Mathlib.Control.Monad.Basic

/-!
# `Proofs.Commands` — what commands do to files

A command makes bytes of the files that it reads (`Makes`), and hands them over in one way: it writes them
to one file or prints them. `plan_cases` says which, and that a file to be written to is not the input as
far as the command can tell. That this is far enough is a matter of files: if the two paths led to one
place, the command would have found it out (`FileTree.read_of_write`). `execute_keeps_files` puts it
together: a command that fails does nothing at all, and one that succeeds changes at most its output.
-/

namespace CallScript.Command

variable {t after : FileTree} {command : Command}

/-! ## What a command is given -/

/-- The path of the file that a command is about. -/
def inputPath : Command → String
  | compile files | decompile files _ => files.input
  | labels input _ | parse input => input

/-- The path that a command writes to; without one it prints. -/
def outputPath? : Command → Option String
  | compile files => some (compileOutput files)
  | decompile files _ => files.output
  | labels .. | parse _ => none

/-- `content` is what a command makes of the files of a tree. -/
inductive Makes (t : FileTree) : Command → List UInt8 → Prop
  | compile {files : FileOptions} {set : InstructionSet} {text : String} {data : List UInt8}
      (hset : loadSet (viewOf t) files.config = .ok set)
      (htext : readText (viewOf t) files.input = .ok text)
      (hdata : Compile.compile set files.order text = .ok data) : Makes t (.compile files) data
  | decompile {files : FileOptions} {permissive : Bool} {set : InstructionSet} {text : String}
      {data : List UInt8} (hset : loadSet (viewOf t) files.config = .ok set)
      (hdata : t.read files.input = .ok data)
      (htext : Listing.decompile set permissive files.order data = .ok text) :
      Makes t (.decompile files permissive) (Utf8.encode text.toList)
  | labels {input : String} {order : ByteOrder} {text : String} {data : List UInt8}
      (hdata : t.read input = .ok data) (htext : Listing.labels order data = .ok text) :
      Makes t (.labels input order) (Utf8.encode text.toList)
  | parse {input text : String} {calls : List Call} (htext : readText (viewOf t) input = .ok text)
      (hcalls : Call.parse text = .ok calls) :
      Makes t (.parse input) (Utf8.encode (Call.dumpAll calls).toList)

theorem exists_read_of_readText {path text : String} (h : readText (viewOf t) path = .ok text) :
    ∃ content, t.read path = .ok content := by
  unfold readText at h
  split at h
  · cases h
  · rename_i content hread
    exact ⟨content, hread⟩

/-- A command that makes something has read its input. -/
theorem Makes.exists_input {content : List UInt8} (h : Makes t command content) :
    ∃ old, t.read command.inputPath = .ok old := by
  cases h with
  | compile _ htext _ => exact exists_read_of_readText htext
  | decompile _ hdata _ => exact ⟨_, hdata⟩
  | labels hdata _ => exact ⟨_, hdata⟩
  | parse htext _ => exact exists_read_of_readText htext

/-! ## Plans -/

theorem guardInput_eq_ok_iff {view : FileView} {input output : String} {u : Unit} :
    guardInput view input output = .ok u ↔ sameFile view input output = false := by
  unfold guardInput
  split
  · rename_i hsame
    simp [hsame]
  · rename_i hsame
    simpa using hsame

/-- **What a command plans.** It writes to its output, unless that is its input, or prints if it has none. -/
theorem plan_cases {effect : Effect} (h : plan (viewOf t) command = .ok effect) :
    (∃ path content, effect = .write path content ∧ command.outputPath? = some path ∧
      Makes t command content ∧ sameFile (viewOf t) command.inputPath path = false) ∨
    (∃ text, effect = .print text ∧ command.outputPath? = none ∧
      Makes t command (Utf8.encode text.toList)) := by
  cases command with
  | compile files =>
      simp only [plan, planCompile, bind_eq_ok_iff, mapError_eq_ok_iff, guardInput_eq_ok_iff] at h
      obtain ⟨set, hset, text, htext, _, hguard, data, hdata, heffect⟩ := h
      cases heffect
      exact .inl ⟨_, data, rfl, rfl, .compile hset htext hdata, hguard⟩
  | decompile files permissive =>
      simp only [plan, planDecompile, bind_eq_ok_iff, mapError_eq_ok_iff] at h
      obtain ⟨set, hset, data, hdata, h⟩ := h
      split at h
      · rename_i output houtput
        simp only [bind_eq_ok_iff, mapError_eq_ok_iff, guardInput_eq_ok_iff] at h
        obtain ⟨_, hguard, text, htext, heffect⟩ := h
        cases heffect
        exact .inl ⟨output, _, rfl, houtput, .decompile hset hdata htext, hguard⟩
      · rename_i houtput
        simp only [bind_eq_ok_iff, mapError_eq_ok_iff] at h
        obtain ⟨text, htext, heffect⟩ := h
        cases heffect
        exact .inr ⟨text, rfl, houtput, .decompile hset hdata htext⟩
  | labels input order =>
      simp only [plan, bind_eq_ok_iff, mapError_eq_ok_iff] at h
      obtain ⟨data, hdata, text, htext, heffect⟩ := h
      cases heffect
      exact .inr ⟨text, rfl, rfl, .labels hdata htext⟩
  | parse input =>
      simp only [plan, bind_eq_ok_iff, mapError_eq_ok_iff] at h
      obtain ⟨text, htext, calls, hcalls, heffect⟩ := h
      cases heffect
      exact .inr ⟨_, rfl, rfl, .parse htext hcalls⟩

/-- **When a command plans something**: if it makes something and has no output, or one that is not its
    input. -/
theorem plan_of_makes {content : List UInt8} (hmakes : Makes t command content)
    (hapart : ∀ path, command.outputPath? = some path →
      sameFile (viewOf t) command.inputPath path = false) :
    (∃ path, command.outputPath? = some path ∧ plan (viewOf t) command = .ok (.write path content)) ∨
      ∃ text, plan (viewOf t) command = .ok (.print text) := by
  cases hmakes with
  | compile hset htext hdata =>
      refine .inl ⟨_, rfl, ?_⟩
      simp only [plan, planCompile, bind_eq_ok_iff, mapError_eq_ok_iff, guardInput_eq_ok_iff]
      exact ⟨_, hset, _, htext, (), hapart _ rfl, _, hdata, rfl⟩
  | @decompile files permissive set text data hset hdata htext =>
      simp only [plan, planDecompile, bind_eq_ok_iff, mapError_eq_ok_iff]
      cases houtput : files.output with
      | none =>
          refine .inr ⟨text, set, hset, data, hdata, ?_⟩
          simp only [bind_eq_ok_iff, mapError_eq_ok_iff]
          exact ⟨text, htext, rfl⟩
      | some output =>
          refine .inl ⟨output, houtput, set, hset, data, hdata, ?_⟩
          simp only [bind_eq_ok_iff, mapError_eq_ok_iff, guardInput_eq_ok_iff]
          exact ⟨(), hapart output houtput, text, htext, rfl⟩
  | @labels input order text data hdata htext =>
      refine .inr ⟨text, ?_⟩
      simp only [plan, bind_eq_ok_iff, mapError_eq_ok_iff]
      exact ⟨data, hdata, text, htext, rfl⟩
  | @parse input text calls htext hcalls =>
      refine .inr ⟨Call.dumpAll calls, ?_⟩
      simp only [plan, bind_eq_ok_iff, mapError_eq_ok_iff]
      exact ⟨text, htext, calls, hcalls, rfl⟩

/-- Paths that are told apart lead to different places, if the first leads anywhere. -/
theorem resolve_ne_of_sameFile {input path : String} {old : List UInt8}
    (hread : t.read input = .ok old) (h : sameFile (viewOf t) input path = false) :
    t.resolve input ≠ t.resolve path := by
  obtain ⟨-, place, hplace, -⟩ := FileTree.read_eq_ok_iff.mp hread
  intro heq
  have hplace' : t.resolve path = .ok place := heq.symm.trans hplace
  simp [sameFile, viewOf, hplace, hplace'] at h

/-! ## Execution -/

/-- **What a command does.** It fails and leaves the tree alone, it prints and leaves the tree alone, or it
    writes one file and prints nothing. -/
theorem execute_cases {outcome : Outcome} (h : execute t command = (outcome, after)) :
    (∃ e, outcome = .failed e ∧ after = t) ∨
    (∃ text, outcome = .succeeded text ∧ after = t ∧ command.outputPath? = none ∧
      Makes t command (Utf8.encode text.toList)) ∨
    (∃ path content, outcome = .succeeded "" ∧ t.write path content = .ok after ∧
      command.outputPath? = some path ∧ Makes t command content ∧
      sameFile (viewOf t) command.inputPath path = false) := by
  unfold execute at h
  split at h
  · rename_i e _
    cases h
    exact .inl ⟨e, rfl, rfl⟩
  · rename_i text hplan
    cases h
    obtain ⟨_, _, heffect, -⟩ | ⟨_, heffect, houtput, hmakes⟩ := plan_cases hplan
    · cases heffect
    · cases heffect
      exact .inr (.inl ⟨text, rfl, rfl, houtput, hmakes⟩)
  · rename_i path content hplan
    split at h
    · -- the plan is made, but the file cannot be written
      rename_i e _
      cases h
      exact .inl ⟨.file e, rfl, rfl⟩
    · rename_i after' hwrite
      cases h
      obtain ⟨_, _, heffect, houtput, hmakes, hapart⟩ | ⟨_, heffect, -⟩ := plan_cases hplan
      · cases heffect
        exact .inr (.inr ⟨path, content, rfl, hwrite, houtput, hmakes, hapart⟩)
      · cases heffect

/-- A command succeeds if it makes something that it may write, or has only to print. -/
theorem exists_succeeded {content : List UInt8} (hmakes : Makes t command content)
    (hwrite : ∀ path, command.outputPath? = some path →
      sameFile (viewOf t) command.inputPath path = false ∧ ∃ after, t.write path content = .ok after) :
    ∃ text, (execute t command).1 = .succeeded text := by
  unfold execute
  rcases plan_of_makes hmakes fun path hpath => (hwrite path hpath).1 with ⟨path, hpath, hplan⟩ | ⟨text, hplan⟩
  · obtain ⟨after, hafter⟩ := (hwrite path hpath).2
    exact ⟨"", by simp [hplan, hafter]⟩
  · exact ⟨text, by simp [hplan]⟩

/-- The input is untouched by a write that the command allows. -/
theorem input_of_write {path : String} {made content : List UInt8} (hmakes : Makes t command made)
    (hapart : sameFile (viewOf t) command.inputPath path = false)
    (hwrite : t.write path content = .ok after) :
    after.resolve command.inputPath = t.resolve command.inputPath ∧
      after.read command.inputPath = t.read command.inputPath := by
  obtain ⟨old, hold⟩ := hmakes.exists_input
  obtain ⟨hresolve, hread⟩ := FileTree.read_of_write hwrite hold (resolve_ne_of_sameFile hold hapart)
  exact ⟨hresolve, hread.trans hold.symm⟩

/-- **Commands keep files.** If a command fails, no file is changed or made and nothing is printed. If it
    succeeds, it hands over what it makes of its files. With an output path, that is the content of one file
    afterwards, the one at this path; everything else is as before, and nothing is printed. Without one, it
    is printed and no file is changed. The input is found at the same place and reads the same. A command
    that makes something does succeed, unless it has an output that is its input or cannot be written to. -/
theorem execute_keeps_files {outcome : Outcome} (h : execute t command = (outcome, after)) :
    (∀ e, outcome = .failed e → after = t ∧ outcome.printed = "") ∧
    (∀ text, outcome = .succeeded text → ∃ content, Makes t command content ∧
      (∀ path, command.outputPath? = some path → text = "" ∧ t.Replaced path content after) ∧
      (command.outputPath? = none → after = t ∧ Utf8.encode text.toList = content) ∧
      after.resolve command.inputPath = t.resolve command.inputPath ∧
      after.read command.inputPath = t.read command.inputPath) ∧
    outcome ≠ .usage ∧
    (∀ content, Makes t command content → (∀ path, command.outputPath? = some path →
        sameFile (viewOf t) command.inputPath path = false ∧ ∃ after, t.write path content = .ok after) →
      ∃ text, outcome = .succeeded text) := by
  have hsucceeded : ∀ content, Makes t command content → (∀ path, command.outputPath? = some path →
      sameFile (viewOf t) command.inputPath path = false ∧ ∃ after, t.write path content = .ok after) →
      ∃ text, outcome = .succeeded text := by
    intro content hmakes hwrite
    obtain ⟨text, htext⟩ := exists_succeeded hmakes hwrite
    rw [h] at htext
    exact ⟨text, htext⟩
  rcases execute_cases h with ⟨e, rfl, rfl⟩ | ⟨text, rfl, rfl, houtput, hmakes⟩ |
    ⟨path, content, rfl, hwrite, houtput, hmakes, hapart⟩
  · exact ⟨fun _ _ => ⟨rfl, rfl⟩, by simp, by simp, hsucceeded⟩
  · refine ⟨by simp, ?_, by simp, hsucceeded⟩
    intro text' htext
    cases htext
    exact ⟨_, hmakes, by simp [houtput], fun _ => ⟨rfl, rfl⟩, rfl, rfl⟩
  · refine ⟨by simp, ?_, by simp, hsucceeded⟩
    intro text htext
    cases htext
    refine ⟨content, hmakes, ?_, by simp [houtput], input_of_write hmakes hapart hwrite⟩
    intro path' hpath
    cases houtput.symm.trans hpath
    exact ⟨rfl, FileTree.replaced_of_write hwrite⟩

/-- A script and its instruction set, and in the place of the binary a link that leads to no file yet. -/
def deskTree : FileTree where
  nodes := [(["desk"], .directory), (["desk", "out"], .directory), (["desk", "idle.bin"], .link "out/idle"),
    (["desk", "idle.txt"], .file (Utf8.encode "wait();".toList)),
    (["desk", "set"], .file (Utf8.encode "\x7b\"instructions\":\x7b\"7\":\x7b\"name\":\"wait\"\x7d\x7d\x7d".toList))]
  working := ["desk"]

/-- The file behind the link is made, and the script stays what it is. -/
theorem execute_keeps_files_desk :
    execute deskTree (.compile ⟨"set", "idle.txt", none, .big⟩)
      = (.succeeded "", deskTree.put ["desk", "out", "idle"] (.file [0, 0, 0, 0, 0, 0, 0, 7])) ∧
    deskTree.Replaced "idle.bin" [0, 0, 0, 0, 0, 0, 0, 7]
      (deskTree.put ["desk", "out", "idle"] (.file [0, 0, 0, 0, 0, 0, 0, 7])) ∧
    (deskTree.put ["desk", "out", "idle"] (.file [0, 0, 0, 0, 0, 0, 0, 7])).read "idle.txt"
      = deskTree.read "idle.txt" := by
  have h : execute deskTree (.compile ⟨"set", "idle.txt", none, .big⟩)
      = (.succeeded "", deskTree.put ["desk", "out", "idle"] (.file [0, 0, 0, 0, 0, 0, 0, 7])) := by
    decide +kernel
  obtain ⟨content, -, hwritten, -, -, hinput⟩ := (execute_keeps_files h).2.1 "" rfl
  obtain ⟨-, hreplaced⟩ := hwritten "idle.bin" (by decide +kernel)
  have hread : (deskTree.put ["desk", "out", "idle"] (.file [0, 0, 0, 0, 0, 0, 0, 7])).read "idle.bin"
      = .ok [0, 0, 0, 0, 0, 0, 0, 7] := by decide +kernel
  cases hreplaced.1.symm.trans hread
  exact ⟨h, hreplaced, hinput⟩

end CallScript.Command
