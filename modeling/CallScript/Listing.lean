import CallScript.Call.Print
import CallScript.Listing.Indentation
import CallScript.Listing.Statement

/-!
# `Listing` — stored data as script text

Listing turns stored data back into a script: one statement per line, indented by what the instructions
say about it. The jump table is passed over, since its labels stand in the statements themselves; on its
own it can be shown line by line with `labels`.
-/

namespace CallScript
namespace Listing

/-! ## Scripts -/

/-- The text of statements, one per line. -/
def text (set : InstructionSet) (statements : List Statement) : String :=
  Indent.layout 0 (statements.map fun s => (s.instruction.indent, (s.call set).print))

/-- The script that stored data holds. -/
def decompile (set : InstructionSet) (permissive : Bool) (order : ByteOrder) (data : List UInt8) :
    Except ListingError String :=
  let reading := Reading.ofData set permissive order data
  match reading.fault with
  | some e => .error e
  | none => .ok (text set reading.statements)

/-- The events of listing stored data. -/
def events (set : InstructionSet) (permissive : Bool) (order : ByteOrder) (data : List UInt8) :
    List Event :=
  let reading := Reading.ofData set permissive order data
  reading.statements.flatMap (Statement.events set) ++
    if reading.fault.isNone then [.decompiled reading.statements.length] else []

/-! ## Labels -/

/-- A label and its offset, on a line. -/
def labelLine (e : JumpEntry) : String := e.name ++ "\t" ++ Numeral.hex e.offset.toNat ++ "\n"

/-- The jump table of stored data, one label per line. -/
def labels (order : ByteOrder) (data : List UInt8) : Except ListingError String :=
  match Image.decode order data with
  | .error t => .error (.malformed t)
  | .ok image => .ok (String.join (image.jumpTable.map labelLine))

/-- One event for each label whose offset is not inside the code. -/
def labelEvents (order : ByteOrder) (data : List UInt8) : List Event :=
  match Image.decode order data with
  | .error _ => []
  | .ok image =>
      (image.jumpTable.filter fun e => image.code.length ≤ e.offset.toNat).map fun e =>
        .labelPastEnd e.name e.offset image.code.length

end Listing
end CallScript
