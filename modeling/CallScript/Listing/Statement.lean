import CallScript.Image
import CallScript.Listing.Field

/-!
# `Listing.Statement` — splitting code into instructions

Code is read from the front: an opcode, then the fields that its instruction has. Reading goes on until
the data ends or something is wrong, and keeps what it has read so far. `Reading.statements` holds the
instructions in order; if there is a fault, the last of them may lack fields.
-/

namespace CallScript

/-- Why data cannot be listed. -/
inductive ListingError
  /-- The header, or an opcode, is cut off. -/
  | malformed (cause : Truncation)
  /-- The opcode is not configured. -/
  | unknownOpcode (opcode : Int32) (offset : Nat)
  /-- An argument belongs to an enum group that is not configured. -/
  | unknownGroup (opcode : Int32) (group : String)
  /-- The data ends inside the arguments of an instruction. -/
  | cutShort (name : String) (offset : Nat) (cause : Truncation)
deriving DecidableEq, Repr

namespace ListingError

open Numeral (decimal hex)

/-- The text of a listing error. -/
def message : ListingError → String
  | malformed cause => "Malformed script: " ++ cause.message
  | unknownOpcode opcode offset =>
      "Undefined opcode " ++ decimal opcode.toInt ++ " at offset " ++ hex offset
  | unknownGroup opcode group =>
      "Opcode " ++ decimal opcode.toInt ++ " uses undefined enum group '" ++ group ++ "'"
  | cutShort name offset cause =>
      "Instruction '" ++ name ++ "' at offset " ++ hex offset ++ " is cut short: " ++ cause.message

end ListingError

/-- An instruction as it was found in the code. -/
structure Statement where
  offset      : Nat
  instruction : Instruction
  fields      : List Field
deriving DecidableEq, Repr

namespace Statement

/-- The instruction that an opcode is listed as. If undefined opcodes are permitted, one is listed as an
    instruction without arguments. -/
def instructionFor (set : InstructionSet) (permissive : Bool) (opcode : Int32) : Option Instruction :=
  match set.instruction? opcode with
  | some i => some i
  | none => if permissive then some (Instruction.unknown opcode) else none

/-- The listing error of a fault in a field of an instruction at `offset`. -/
def errorOf (i : Instruction) (offset : Nat) : Field.Fault → ListingError
  | .truncated cause => .cutShort i.displayName offset cause
  | .unknownGroup group => .unknownGroup i.opcode group

/-- Reads the instruction at a cursor: what was found of it, and the cursor behind it or the error. -/
def read (set : InstructionSet) (permissive : Bool) (c : Cursor) :
    Option Statement × Except ListingError Cursor :=
  match c.readInt with
  | .error t => (none, .error (.malformed t))
  | .ok (opcode, body) =>
      match instructionFor set permissive opcode with
      | none => (none, .error (.unknownOpcode opcode c.offset))
      | some i =>
          let (fields, result) := Field.readAll set body i.args
          (some ⟨c.offset, i, fields⟩, result.mapError (errorOf i c.offset))

theorem length_of_read {set : InstructionSet} {permissive : Bool} {c next : Cursor}
    {found : Option Statement} (h : read set permissive c = (found, .ok next)) :
    next.rest.length < c.rest.length := by
  unfold read at h
  split at h
  · injection h with _ h
    cases h
  · rename_i opcode body hopcode
    have hop := Cursor.length_of_readInt hopcode
    split at h
    · injection h with _ h
      cases h
    · rename_i i hi
      injection h with _ h
      cases hres : (Field.readAll set body i.args).2 with
      | error fault => rw [hres] at h; cases h
      | ok c' =>
          rw [hres] at h
          injection h with h
          have := Field.length_of_readAll (Prod.ext rfl hres)
          rw [← h]
          omega

/-! ## Writing -/

/-- The call that a script would write for a statement. -/
def call (set : InstructionSet) (s : Statement) : Call :=
  ⟨s.instruction.displayName, s.fields.map (Field.argument set), none⟩

/-- The events of reading a statement. -/
def events (set : InstructionSet) (s : Statement) : List Event :=
  (if (set.instruction? s.instruction.opcode).isSome then []
    else [.undefinedOpcode s.instruction.opcode s.offset])
    ++ s.fields.filterMap Field.event?

end Statement

/-! ## Readings -/

/-- The instructions of some data, and why they do not reach its end if they do not. -/
structure Reading where
  statements : List Statement
  fault      : Option ListingError
deriving DecidableEq, Repr

namespace Reading

/-- The instructions from a cursor to the end. -/
def ofCode (set : InstructionSet) (permissive : Bool) (c : Cursor) : Reading :=
  if c.atEnd then ⟨[], none⟩
  else
    match _hread : Statement.read set permissive c with
    | (found, .error e) => ⟨found.toList, some e⟩
    | (found, .ok next) =>
        let later := ofCode set permissive next
        ⟨found.toList ++ later.statements, later.fault⟩
termination_by c.rest.length
decreasing_by exact Statement.length_of_read _hread

/-- The cursor at the code of stored data: behind the jump table, whose entries are passed over. -/
def codeCursor (order : ByteOrder) (data : List UInt8) : Except Truncation Cursor :=
  match (Cursor.start order data).readWord with
  | .error t => .error t
  | .ok (count, c) => c.skip (count.toNat * Image.entrySize)

/-- The instructions of stored data. -/
def ofData (set : InstructionSet) (permissive : Bool) (order : ByteOrder) (data : List UInt8) :
    Reading :=
  match codeCursor order data with
  | .error t => ⟨[], some (.malformed t)⟩
  | .ok c => ofCode set permissive c

end Reading
end CallScript
