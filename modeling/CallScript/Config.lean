import CallScript.OpcodeTable
import CallScript.SymbolTable

/-!
# `Config` — a configuration as it is written

The declarations that an instruction set is made from, before anything is checked across them: which
parts were given at all, declared sizes, and names that nothing may refer to. What the declarations mean
together is the business of `InstructionSet`.
-/

namespace CallScript

/-- The width that a number argument is declared with. All widths are stored as one word. -/
inductive IntWidth
  | w8
  | w16
  | w32
deriving DecidableEq, Repr

/-- The declared kind of an argument. -/
inductive ArgKind
  | bool
  | signed (width : IntWidth)
  | unsigned (width : IntWidth)
  | enum
  | fixedString (capacity : Nat)
  | operand
deriving DecidableEq, Repr

/-- What an instruction does to the indentation of a listing. -/
inductive Indent
  | plain
  | blockBegin
  | blockEnd
  | scopeBegin
  | scopeEnd
  | cell
  | cellEnd
deriving DecidableEq, Repr

/-- The declaration of an argument. -/
structure ArgDef where
  kind     : ArgKind
  name     : Option String
  enumName : Option String
deriving DecidableEq, Repr

/-- The declaration of an instruction. -/
structure InstructionDef where
  name   : Option String       := none
  size   : Option UInt32       := none
  indent : Indent              := .plain
  args   : Option (List ArgDef) := none
deriving DecidableEq, Repr

/-- A configuration. -/
structure Config where
  jumpTableEntries : Option (List String)                                := none
  vars             : Option (SymbolTable Int32)                         := none
  enums            : Option (SymbolTable (Option (SymbolTable Int32))) := none
  instructions     : Option (OpcodeTable InstructionDef)                := none

/-! ## Spellings -/

/-- A text with its ASCII capitals made small. -/
def asciiLower (text : String) : String := String.ofList (text.toList.map Char.toLower)

/-- The spellings of argument kinds, in small letters. -/
def ArgKind.spellings : List (String × ArgKind) :=
  [("bool", .bool), ("s8", .signed .w8), ("s16", .signed .w16), ("s32", .signed .w32),
   ("u8", .unsigned .w8), ("u16", .unsigned .w16), ("u32", .unsigned .w32), ("enum", .enum),
   ("c16byte", .fixedString 16), ("c32byte", .fixedString 32), ("c64byte", .fixedString 64),
   ("c128byte", .fixedString 128), ("c256byte", .fixedString 256), ("coperand", .operand)]

/-- The argument kind that a text spells, in letters of either case. -/
def ArgKind.ofText? (text : String) : Option ArgKind := spellings.lookup (asciiLower text)

/-- The spellings of indents, in small letters. -/
def Indent.spellings : List (String × Indent) :=
  [("none", .plain), ("begin", .blockBegin), ("end", .blockEnd), ("scopebegin", .scopeBegin),
   ("scopeend", .scopeEnd), ("cell", .cell), ("cellend", .cellEnd)]

/-- The indent that a text spells, in letters of either case. -/
def Indent.ofText? (text : String) : Option Indent := spellings.lookup (asciiLower text)

end CallScript
