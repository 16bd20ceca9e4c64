import CallScript.Text.Numeral

/-!
# `Event` — what the library reports beside its results

Loading, compiling and listing never print. What is worth telling about a run that is not its result —
a declared size that is wrong, a label that points nowhere, how much was done — is an `Event`. Each
operation has a function that lists its events in the order in which they arise; the caller decides
which levels to show.
-/

namespace CallScript

/-- How much an event matters. -/
inductive Level
  | trace
  | debug
  | warn
deriving DecidableEq, Repr

/-- Something that happened on the way to a result. -/
inductive Event
  /-- An instruction declares another size than its arguments take. -/
  | sizeMismatch (opcode : Int32) (name : String) (declared actual : Nat)
  /-- An instruction set was loaded. -/
  | loaded (instructions vars groups : Nat)
  /-- A call was encoded at a place in the code. -/
  | emitted (name : String) (offset : Nat)
  /-- A text was compiled. -/
  | compiled (instructions codeBytes entries : Nat)
  /-- A jump table name was too long for its slot. -/
  | nameCut (name : String)
  /-- An operand carried a tag of neither a constant nor a variable. -/
  | operandTag (tag : UInt32)
  /-- An opcode that is not configured was listed all the same. -/
  | undefinedOpcode (opcode : Int32) (offset : Nat)
  /-- A listing was completed. -/
  | decompiled (instructions : Nat)
  /-- A label's offset is not inside the code. -/
  | labelPastEnd (name : String) (offset : UInt32) (codeBytes : Nat)
deriving DecidableEq, Repr

namespace Event

open Numeral (decimal hex)

/-- The level of an event: doubtful input warns, progress is for debugging, single calls are traced. -/
def level : Event → Level
  | sizeMismatch .. | nameCut .. | operandTag .. | undefinedOpcode .. | labelPastEnd .. => .warn
  | loaded .. | compiled .. | decompiled .. => .debug
  | emitted .. => .trace

/-- The text of an event. -/
def message : Event → String
  | sizeMismatch opcode name declared actual =>
      "opcode " ++ decimal opcode.toInt ++ " (" ++ name ++ ") declares size " ++ decimal declared
        ++ " but its arguments encode to " ++ decimal actual ++ " bytes"
  | loaded instructions vars groups =>
      "loaded " ++ decimal instructions ++ " instructions, " ++ decimal vars ++ " variables, "
        ++ decimal groups ++ " enum groups"
  | emitted name offset => name ++ " @ " ++ hex offset
  | compiled instructions codeBytes entries =>
      "compiled " ++ decimal instructions ++ " instructions (" ++ decimal codeBytes ++ " code bytes, "
        ++ decimal entries ++ " jump table entries)"
  | nameCut name => "jump table name '" ++ name ++ "' truncated"
  | operandTag tag => "unexpected operand tag " ++ decimal tag.toNat ++ ", read as a variable"
  | undefinedOpcode opcode offset =>
      "undefined opcode " ++ decimal opcode.toInt ++ " at offset " ++ hex offset
  | decompiled instructions => "decompiled " ++ decimal instructions ++ " instructions"
  | labelPastEnd name offset codeBytes =>
      "label '" ++ name ++ "' points at " ++ hex offset.toNat ++ ", past the end of the code ("
        ++ hex codeBytes ++ " bytes)"

end Event
end CallScript
