import CallScript.Assembly.Encode
import CallScript.Bytes.Cursor
import CallScript.Event
import CallScript.Text.Quoted

/-!
# `Listing.Field` — arguments as they stand in the code

The code of an instruction holds its arguments without names or types; the instruction set says what
they are. A `Field` is an argument as it was found there, and `Field.argument` is how a script would
write it: by a name, where a name is known and would be read back as the same word.
-/

namespace CallScript

/-- An argument as it was found in the code. -/
inductive Field
  | bool (word : Int32)
  | signed (word : Int32)
  | unsigned (word : UInt32)
  /-- A word, and the names that its group has. -/
  | enum (members : SymbolTable Int32) (word : Int32)
  /-- The bytes of a string slot. -/
  | text (slot : List UInt8)
  | operand (tag : UInt32) (word : Int32)
deriving DecidableEq, Repr

namespace Field

/-! ## Reading -/

/-- Why a field cannot be read. -/
inductive Fault
  | truncated (cause : Truncation)
  | unknownGroup (group : String)
deriving DecidableEq, Repr

/-- Turns a refused read into a fault. -/
def orTruncated {α : Type} : Except Truncation α → Except Fault α
  | .ok a => .ok a
  | .error t => .error (.truncated t)

/-- The field of the given type at a cursor. The word of an enum is read before its group is looked up. -/
def read (set : InstructionSet) (c : Cursor) : ArgType → Except Fault (Field × Cursor)
  | .bool => do
      let (w, c) ← orTruncated c.readInt
      return (bool w, c)
  | .signed _ => do
      let (w, c) ← orTruncated c.readInt
      return (signed w, c)
  | .unsigned _ => do
      let (w, c) ← orTruncated c.readWord
      return (unsigned w, c)
  | .enum group => do
      let (w, c) ← orTruncated c.readInt
      match set.group? group with
      | some members => return (enum members w, c)
      | none => throw (.unknownGroup group)
  | .fixedString capacity => do
      let (slot, c) ← orTruncated (c.read capacity)
      return (text slot, c)
  | .operand => do
      let (tag, c) ← orTruncated c.readWord
      let (w, c) ← orTruncated c.readInt
      return (operand tag w, c)

/-- The fields of the given types from a cursor on: those that could be read, and the cursor behind them
    or the fault of the first that could not. -/
def readAll (set : InstructionSet) (c : Cursor) : List ArgType → List Field × Except Fault Cursor
  | [] => ([], .ok c)
  | type :: types =>
      match read set c type with
      | .error fault => ([], .error fault)
      | .ok (field, next) =>
          let (fields, result) := readAll set next types
          (field :: fields, result)

theorem orTruncated_eq_ok_iff {α : Type} {x : Except Truncation α} {a : α} :
    orTruncated x = .ok a ↔ x = .ok a := by
  cases x with
  | error t => exact ⟨nofun, nofun⟩
  | ok b => exact ⟨fun h => congrArg _ (Except.ok.inj h), fun h => congrArg _ (Except.ok.inj h)⟩

/-- Reading a field is a read of the cursor and a constructor on what it finds. -/
theorem read_by_iff {α : Type} {x : Except Truncation (α × Cursor)} {make : α → Field} {field : Field}
    {next : Cursor} :
    (orTruncated x >>= fun p => (pure (make p.1, p.2) : Except Fault (Field × Cursor)))
      = .ok (field, next) ↔ ∃ a, x = .ok (a, next) ∧ make a = field := by
  rw [bind_eq_ok_iff]
  constructor
  · rintro ⟨⟨a, c⟩, hread, hmake⟩
    injection hmake with hmake
    injection hmake with hfield hnext
    dsimp only at hnext
    exact ⟨a, hnext ▸ orTruncated_eq_ok_iff.mp hread, hfield⟩
  · rintro ⟨a, hread, rfl⟩
    exact ⟨(a, next), orTruncated_eq_ok_iff.mpr hread, rfl⟩

/-- A field that was read takes the bytes of its type. -/
theorem length_of_read {set : InstructionSet} {c next : Cursor} {type : ArgType} {field : Field}
    (h : read set c type = .ok (field, next)) : next.rest.length + type.size = c.rest.length := by
  cases type with
  | bool | signed =>
      obtain ⟨w, hread, -⟩ := read_by_iff.mp h
      exact Cursor.length_of_readInt hread
  | unsigned width =>
      obtain ⟨w, hread, -⟩ := read_by_iff.mp h
      exact Cursor.length_of_readWord hread
  | fixedString capacity =>
      obtain ⟨slot, hread, -⟩ := read_by_iff.mp h
      exact Cursor.length_of_read hread
  | enum group =>
      obtain ⟨⟨w, middle⟩, hread, h⟩ := bind_eq_ok_iff.mp h
      dsimp only at h
      split at h
      · cases h
        exact Cursor.length_of_readInt (orTruncated_eq_ok_iff.mp hread)
      · cases h
  | operand =>
      obtain ⟨⟨tag, middle⟩, htag, h⟩ := bind_eq_ok_iff.mp h
      obtain ⟨w, hread, -⟩ := read_by_iff.mp h
      have htag := Cursor.length_of_readWord (orTruncated_eq_ok_iff.mp htag)
      have hword := Cursor.length_of_readInt hread
      rw [ArgType.size]
      omega

/-- Fields that were all read take the bytes of their types. -/
theorem length_of_readAll {set : InstructionSet} {c next : Cursor} {types : List ArgType}
    {fields : List Field} (h : readAll set c types = (fields, .ok next)) :
    next.rest.length + ArgType.totalSize types = c.rest.length := by
  induction types generalizing c fields with
  | nil =>
      injection h with _ h
      injection h with h
      rw [h]
      rfl
  | cons type types ih =>
      simp only [readAll] at h
      split at h
      · injection h with _ h
        cases h
      · rename_i field middle hfield
        have hlen := length_of_read hfield
        injection h with _ h
        have htail := ih (Prod.ext rfl h)
        rw [ArgType.totalSize]
        omega

/-! ## Writing -/

/-- The argument that a script would write for a field. A name stands for an enum word only if it is the
    name's own value over all groups, and any name must be one that a script can hold. -/
def argument (set : InstructionSet) : Field → Argument
  | bool w => .bool (0 < w)
  | signed w => .int w.toInt64
  | unsigned w => .hex w.toUInt64
  | enum members w =>
      match (members.nameOf? w).filter fun name =>
          Token.isIdentifier name && set.enumValue? name == some w with
      | some name => .enum name
      | none => .int w.toInt64
  | text slot => .str (String.ofList (Quoted.body slot)) none
  | operand tag w =>
      if tag = constTag then .const w.toInt64
      else
        match (set.variableName? w).filter Token.isIdentifier with
        | some name => .var (.named name)
        | none => .var (.index w.toInt64)

/-- The warning about an operand tag of neither a constant nor a variable. -/
def event? : Field → Option Event
  | operand tag _ => if tag = constTag ∨ tag = varTag then none else some (.operandTag tag)
  | _ => none

end Field
end CallScript
