import CallScript.Call.Dump
import CallScript.Compile
import CallScript.InstructionSet.OfConfig
import CallScript.Listing

/-!
# `Workbench` — working on a script step by step

A workbench holds an instruction set, a text and the data of an image. A step edits one of them or makes
one from another. A step that fails leaves the workbench as it was.
-/

namespace CallScript

/-- What is being worked on. -/
structure Workbench where
  set  : InstructionSet
  text : String
  data : List UInt8

namespace Workbench

/-- The workbench at the beginning: nothing is configured, and text and data are empty. -/
def empty : Workbench := ⟨.empty, "", []⟩

/-- What can be done on a workbench. -/
inductive Step
  | configure (config : String)
  | setText (text : String)
  | appendText (text : String)
  | setData (data : List UInt8)
  | appendData (data : List UInt8)
  /-- Cuts the data to a size. -/
  | truncate (size : Nat)
  /-- Overwrites data from a position on, as far as there is any. -/
  | patch (offset : Nat) (data : List UInt8)
  | parse
  | compile (order : ByteOrder)
  | decompile (order : ByteOrder) (permissive : Bool)
  | labels (order : ByteOrder)
  /-- Decodes the data in one byte order and encodes it in another. -/
  | recode (source target : ByteOrder)

/-- What a step answers. -/
inductive Reply
  | done
  /-- The size of the data. -/
  | size (bytes : Nat)
  | dump (text : String)
  /-- New data, and whether it is what was there before. -/
  | compiled (data : List UInt8) (same : Bool)
  /-- A new text, and whether it is what was there before. -/
  | listed (text : String) (same : Bool)
  | labels (text : String)
  | recoded (data : List UInt8)
deriving DecidableEq, Repr

/-- Why a step fails. -/
inductive Failure
  | config (error : ConfigError)
  | compile (error : CompileError)
  | listing (error : ListingError)
  | truncated (cause : Truncation)
deriving DecidableEq, Repr

/-- Overwrites `old` from `offset` on; nothing is added behind its end. -/
def overwrite (old : List UInt8) (offset : Nat) (new : List UInt8) : List UInt8 :=
  let room := old.drop offset
  old.take offset ++ new.take room.length ++ room.drop new.length

/-- Does a step. -/
def run (bench : Workbench) : Step → Except Failure (Workbench × Reply)
  | .configure config =>
      match InstructionSet.ofText config with
      | .error e => .error (.config e)
      | .ok set => .ok ({ bench with set := set }, .done)
  | .setText text => .ok ({ bench with text := text }, .done)
  | .appendText text => .ok ({ bench with text := bench.text ++ text }, .done)
  | .setData data => .ok ({ bench with data := data }, .done)
  | .appendData data =>
      let data := bench.data ++ data
      .ok ({ bench with data := data }, .size data.length)
  | .truncate size =>
      let data := bench.data.take size
      .ok ({ bench with data := data }, .size data.length)
  | .patch offset new =>
      let data := overwrite bench.data offset new
      .ok ({ bench with data := data }, .size data.length)
  | .parse =>
      match Call.parse bench.text with
      | .error e => .error (.compile (.parse e))
      | .ok calls => .ok (bench, .dump (Call.dumpAll calls))
  | .compile order =>
      match Compile.compile bench.set order bench.text with
      | .error e => .error (.compile e)
      | .ok data => .ok ({ bench with data := data }, .compiled data (data = bench.data))
  | .decompile order permissive =>
      match Listing.decompile bench.set permissive order bench.data with
      | .error e => .error (.listing e)
      | .ok text => .ok ({ bench with text := text }, .listed text (text = bench.text))
  | .labels order =>
      match Listing.labels order bench.data with
      | .error e => .error (.listing e)
      | .ok text => .ok (bench, .labels text)
  | .recode source target =>
      match Image.decode source bench.data with
      | .error t => .error (.truncated t)
      | .ok image =>
          let data := image.encode target
          .ok ({ bench with data := data }, .recoded data)

/-- The events of a step. -/
def events (bench : Workbench) : Step → List Event
  | .configure config => InstructionSet.textEvents config
  | .compile order => Compile.events bench.set order bench.text
  | .decompile order permissive => Listing.events bench.set permissive order bench.data
  | .labels order => Listing.labelEvents order bench.data
  | .recode source _ =>
      match Image.decode source bench.data with
      | .error _ => []
      | .ok image => image.encodeEvents
  | _ => []

/-- Does steps one after the other, each on what the ones before it have left: their answers, and all
    events in order. -/
def runAll (bench : Workbench) : List Step → List (Except Failure Reply) × List Event
  | [] => ([], [])
  | step :: steps =>
      let next := match bench.run step with
        | .error _ => bench
        | .ok (next, _) => next
      let (replies, later) := runAll next steps
      ((bench.run step).map Prod.snd :: replies, bench.events step ++ later)

end Workbench
end CallScript
