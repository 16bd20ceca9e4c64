import CallScript.Assembly.Check
import CallScript.Bytes.Padding
import CallScript.Bytes.Word

/-!
# `Assembly.Encode` — the code of a call

A call becomes a `Fragment`: the opcode word, the bytes of its arguments, and the label if it has one.
What a call becomes does not depend on the calls around it.
-/

namespace CallScript

/-- What one call contributes to an image. -/
structure Fragment where
  code  : List UInt8
  label : Option String
deriving DecidableEq, Repr

/-- The tag in front of a constant. -/
def constTag : UInt32 := 0

/-- The tag in front of a variable. -/
def varTag : UInt32 := 2

namespace Call

/-- What generated variable names begin with. -/
def varWord : String := "VAR_"

/-- The word that holds an integer argument. -/
def wordOf (index : Nat) (value : Int64) : Except CallError Int32 :=
  match Numeral.fit32? value.toInt with
  | some w => .ok w
  | none => .error (.outOfRange index value)

/-- The number in a variable name that is not configured, with or without the generated beginning. -/
def varNumber? (name : String) : Option Int32 :=
  Numeral.int32? ((Numeral.behind? varWord.toList name.toList).getD name.toList)

/-- The word that stands for a variable. -/
def variableWord (set : InstructionSet) (index : Nat) : Variable → Except CallError Int32
  | .index value => wordOf index value
  | .named name =>
      match (set.variableValue? name).or (varNumber? name) with
      | some w => .ok w
      | none => .error (.unknownVariable name)

/-- The bytes of a string in a slot; one byte of the slot is never used. -/
def encodeString (index : Nat) (text : String) : Option Nat → Except CallError (List UInt8)
  | none => .error (.unboundString index)
  | some capacity =>
      if !isAscii text then .error (.nonAscii index)
      else if capacity ≤ text.length then .error (.stringTooLong index text.length capacity)
      else .ok (padTo capacity (text.toList.map fun c => UInt8.ofNat c.toNat))

/-- The bytes of an argument. -/
def encodeArg (set : InstructionSet) (order : ByteOrder) (index : Nat) :
    Argument → Except CallError (List UInt8)
  | .int value => (wordOf index value).map order.intBytes
  | .hex value => .ok (order.bytes value.toUInt32)
  | .bool value => .ok (order.bytes (if value then 1 else 0))
  | .str text slot => encodeString index text slot
  | .enum name =>
      match set.enumValue? name with
      | some w => .ok (order.intBytes w)
      | none => .error (.unknownEnum name)
  | .const value => (wordOf index value).map fun w => order.bytes constTag ++ order.intBytes w
  | .var v => (variableWord set index v).map fun w => order.bytes varTag ++ order.intBytes w

/-- The bytes of arguments from position `index` on. -/
def encodeArgs (set : InstructionSet) (order : ByteOrder) (index : Nat) :
    List Argument → Except CallError (List UInt8)
  | [] => .ok []
  | arg :: args =>
      match encodeArg set order index arg with
      | .error e => .error e
      | .ok bs => (encodeArgs set order (index + 1) args).map (bs ++ ·)

/-- The fragment that a call becomes. -/
def assemble (set : InstructionSet) (order : ByteOrder) (call : Call) : Except CallError Fragment :=
  match call.check set with
  | (_, .error e) => .error e
  | (fitted, .ok c) =>
      (encodeArgs set order 0 fitted.args).map fun bs => ⟨order.intBytes c.opcode ++ bs, c.label⟩

end Call
end CallScript
