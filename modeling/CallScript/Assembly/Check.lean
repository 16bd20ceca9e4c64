import CallScript.Call
import CallScript.InstructionSet

/-!
# `Assembly.Check` — what a call means under an instruction set

Checking a call finds its instruction, fits each argument to the type of its place and, if the
instruction is entered in the jump table, takes the label. Fitting may change an argument: a string
learns the size of its slot, and in the place of an operand a plain number becomes a constant and a bare
word a variable. Arguments are fitted from the left; if one does not fit, those before it stay fitted,
so the call that comes back shows how far checking went.
-/

namespace CallScript

/-- Why a call cannot be assembled. -/
inductive CallError
  | unknownInstruction (name : String)
  | argumentCount (expected found : Nat)
  | argumentKind (index : Nat) (expected : ArgType) (found : Argument)
  | stringTooLong (index length capacity : Nat)
  | nonAscii (index : Nat)
  | outOfRange (index : Nat) (value : Int64)
  | unknownEnum (name : String)
  | unknownVariable (name : String)
  | missingLabel
  | labelTooLong (label : String)
  /-- A string without a slot: no checked call has one. -/
  | unboundString (index : Nat)
deriving DecidableEq, Repr

namespace CallError

open Numeral (decimal)

/-- The text of a call error. -/
def message : CallError → String
  | unknownInstruction name => "Instruction '" ++ name ++ "' not found"
  | argumentCount expected found =>
      "Expected " ++ decimal expected ++ " arguments but got " ++ decimal found
  | argumentKind index expected found =>
      "Argument " ++ decimal index ++ " should be " ++ expected.describe ++ ", but it was " ++ found.kind
  | stringTooLong index length capacity =>
      "Argument " ++ decimal index ++ ": string of length " ++ decimal length ++ " does not fit in "
        ++ decimal capacity ++ " bytes"
  | nonAscii index => "Argument " ++ decimal index ++ ": string is not ASCII"
  | outOfRange index value =>
      "Argument " ++ decimal index ++ ": " ++ decimal value.toInt ++ " does not fit in 32 bits"
  | unknownEnum name => "Enum value '" ++ name ++ "' not found"
  | unknownVariable name => "Variable '" ++ name ++ "' not found"
  | missingLabel => "Jump table entries need a string label as first argument"
  | labelTooLong label => "Jump label '" ++ label ++ "' is longer than 31 characters"
  | unboundString index => "Argument " ++ decimal index ++ ": string without a slot"

end CallError

/-! ## Arguments -/

/-- The argument as it fits a place of the given type, if it does. -/
def ArgType.fit? : ArgType → Argument → Option Argument
  | bool, arg@(.bool _) => some arg
  | signed _, arg@(.int _) => some arg
  | unsigned _, arg@(.hex _) => some arg
  | enum _, arg@(.enum _) => some arg
  | enum _, arg@(.int _) => some arg
  | fixedString capacity, .str text _ => some (.str text (some capacity))
  | operand, arg@(.const _) => some arg
  | operand, arg@(.var _) => some arg
  | operand, .int value => some (.const value)
  | operand, .hex value => some (.const (signedLow value))
  | operand, .enum name => some (.var (.named name))
  | _, _ => none

namespace Call

/-- Fits arguments to types from position `index` on: the arguments as far as they were fitted, and the
    complaint about the first that does not fit. -/
def fitArgs (index : Nat) : List ArgType → List Argument → List Argument × Option CallError
  | type :: types, arg :: args =>
      match type.fit? arg with
      | none => (arg :: args, some (.argumentKind index type arg))
      | some fitted =>
          let (later, fault) := fitArgs (index + 1) types args
          (fitted :: later, fault)
  | _, args => (args, none)

theorem length_fitArgs (index : Nat) (types : List ArgType) (args : List Argument) :
    (fitArgs index types args).1.length = args.length := by
  induction types generalizing index args with
  | nil => simp [fitArgs]
  | cons type types ih =>
      cases args with
      | nil => rfl
      | cons arg args =>
          simp only [fitArgs]
          split
          · rfl
          · simp [ih]

/-- The arguments that a call is taken to have: a single nameless word stands for none. -/
def givenArgs (call : Call) : List Argument := if call.args = [.enum ""] then [] else call.args

theorem givenArgs_ne (call : Call) : call.givenArgs ≠ [.enum ""] := by
  unfold givenArgs
  split
  · exact (List.cons_ne_nil _ _).symm
  · assumption

theorem givenArgs_of_ne {call : Call} (h : call.args ≠ [.enum ""]) : call.givenArgs = call.args := if_neg h

/-- Arguments that a call is taken to have are those written. -/
theorem givenArgs_of_ne_nil {call : Call} (h : call.givenArgs ≠ []) : call.givenArgs = call.args := by
  refine givenArgs_of_ne fun hempty => h ?_
  rw [givenArgs, if_pos hempty]

/-! ## Labels -/

/-- The most characters that a label can have: one less than the slot of a name. -/
def maxLabelLength : Nat := 31

/-- Whether all characters of a text are ASCII. -/
def isAscii (text : String) : Bool := text.toList.all fun c => c.toNat < 0x80

/-- The label of a call: its first argument, which must be an ASCII string that fits a name's slot. -/
def labelOf : List Argument → Except CallError String
  | .str text _ :: _ =>
      if !isAscii text then .error (.nonAscii 0)
      else if maxLabelLength < text.length then .error (.labelTooLong text)
      else .ok text
  | _ => .error .missingLabel

/-- Whether calls of an instruction are entered in the jump table. -/
def hasLabel (set : InstructionSet) (i : Instruction) : Bool :=
  match i.name with
  | some name => set.isJumpName name
  | none => false

/-! ## Calls -/

/-- What checking finds out about a call. -/
structure Checked where
  opcode : Int32
  label  : Option String
deriving DecidableEq, Repr

/-- The opcode of an instruction, and the label of a call of it with the given arguments. -/
def checked (set : InstructionSet) (i : Instruction) (args : List Argument) : Except CallError Checked :=
  if hasLabel set i then (labelOf args).map fun label => ⟨i.opcode, some label⟩
  else .ok ⟨i.opcode, none⟩

/-- Checks a call: the call with its arguments as far as they were fitted, and what it means or why it
    means nothing. -/
def check (set : InstructionSet) (call : Call) : Call × Except CallError Checked :=
  match set.resolve? call.name with
  | none => (call, .error (.unknownInstruction call.name))
  | some i =>
      if call.givenArgs.length = i.args.length then
        let (args, fault) := fitArgs 0 i.args call.givenArgs
        ({ call with args := args },
          match fault with
          | some e => .error e
          | none => checked set i args)
      else
        ({ call with args := call.givenArgs },
          .error (.argumentCount i.args.length call.givenArgs.length))

end Call
end CallScript
