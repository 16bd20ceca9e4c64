import CallScript.Config
import CallScript.Token.Scan

/-!
# `InstructionSet` — the instructions and symbols of a target

What scripts are checked and listed against: instructions in ascending order of their opcodes, with each
name used once, and the symbol tables. An instruction is *shown* under its configured name if that reads
back as one name, and else under `Unknown` with its opcode; `resolve?` accepts both.
-/

namespace CallScript

/-! ## Arguments -/

/-- The type of an instruction's argument. -/
inductive ArgType
  | bool
  | signed (width : IntWidth)
  | unsigned (width : IntWidth)
  /-- A value of an enum group. -/
  | enum (group : String)
  /-- A string in a slot of fixed size, filled up with zeros. -/
  | fixedString (capacity : Nat)
  /-- A constant or a variable, with a tag in front that says which. -/
  | operand
deriving DecidableEq, Repr

namespace ArgType

/-- The bytes that an argument takes in the code. -/
def size : ArgType → Nat
  | bool | signed _ | unsigned _ | enum _ => 4
  | fixedString capacity => capacity
  | operand => 8

/-- The bytes that arguments take in the code, one behind the other. -/
def totalSize : List ArgType → Nat
  | [] => 0
  | type :: types => type.size + totalSize types

/-- What an argument of this type should be, in words. -/
def describe : ArgType → String
  | bool          => "a boolean"
  | signed _      => "an integer"
  | unsigned _    => "a hexadecimal number"
  | enum _        => "an enum value or an integer"
  | fixedString _ => "a string"
  | operand       => "a constant or a variable"

end ArgType

/-! ## Instructions -/

/-- An instruction. -/
structure Instruction where
  opcode : Int32
  name   : Option String
  args   : List ArgType
  indent : Indent
deriving DecidableEq, Repr

namespace Instruction

/-- An instruction that is not configured: only its opcode is known. -/
def unknown (opcode : Int32) : Instruction := ⟨opcode, none, [], .plain⟩

/-- The bytes of an instruction in the code: the opcode word and the arguments. -/
def size (i : Instruction) : Nat := 4 + ArgType.totalSize i.args

/-- What generated instruction names begin with. -/
def unknownWord : String := "Unknown"

/-- The name generated from an opcode. -/
def unknownName (opcode : Int32) : String := unknownWord ++ Numeral.decimal opcode.toInt

/-- The name under which an instruction is shown. -/
def displayName (i : Instruction) : String :=
  match i.name with
  | some name => if Token.isIdentifier name then name else unknownName i.opcode
  | none => unknownName i.opcode

end Instruction

/-! ## Sets -/

/-- The instructions and symbols of a target. -/
structure InstructionSet where
  instructions : List Instruction
  vars         : SymbolTable Int32
  enums        : SymbolTable (SymbolTable Int32)
  jumpNames    : List String
  ascending    : instructions.Pairwise fun a b => a.opcode < b.opcode
  namedOnce    : instructions.Pairwise fun a b => a.name = none ∨ a.name ≠ b.name
deriving DecidableEq, Repr

namespace InstructionSet

/-- The set without instructions and symbols. -/
def empty : InstructionSet := ⟨[], .empty, .empty, [], List.Pairwise.nil, List.Pairwise.nil⟩

/-- The instruction with an opcode. -/
def instruction? (set : InstructionSet) (opcode : Int32) : Option Instruction :=
  set.instructions.find? fun i => i.opcode = opcode

/-- The instruction with a configured name. -/
def byName? (set : InstructionSet) (name : String) : Option Instruction :=
  set.instructions.find? fun i => i.name = some name

/-- Whether calls of the instruction with this name are entered in the jump table. -/
def isJumpName (set : InstructionSet) (name : String) : Bool := set.jumpNames.contains name

/-- The value of a variable. -/
def variableValue? (set : InstructionSet) (name : String) : Option Int32 := set.vars.get? name

/-- The earliest declared variable with a value. -/
def variableName? (set : InstructionSet) (value : Int32) : Option String := set.vars.nameOf? value

/-- The values of an enum group. -/
def group? (set : InstructionSet) (group : String) : Option (SymbolTable Int32) := set.enums.get? group

/-- The value of an enum name in the first group that has it. -/
def enumValue? (set : InstructionSet) (name : String) : Option Int32 :=
  set.enums.entries.findSome? fun (_, group) => group.get? name

/-- The opcode in a generated instruction name. -/
def unknownOpcode? (name : String) : Option Int32 :=
  (Numeral.behind? Instruction.unknownWord.toList name.toList).bind Numeral.int32?

/-- The instruction that a call names: by a configured name, or by a generated one, whose opcode need not
    be configured. -/
def resolve? (set : InstructionSet) (name : String) : Option Instruction :=
  match set.byName? name with
  | some i => some i
  | none => (unknownOpcode? name).map fun opcode =>
      (set.instruction? opcode).getD (Instruction.unknown opcode)

end InstructionSet
end CallScript
