import CallScript.Text.Position

/-!
# `Call` — statements of a call script

A script is a list of calls. An argument is what was written, not yet what it will mean: a bare word is
an enum value until a slot makes a variable of it, and a string has no size until it is given a slot.
-/

namespace CallScript

/-- How a variable is referred to. -/
inductive Variable
  | named (name : String)
  | index (value : Int64)
deriving DecidableEq, Repr

/-- An argument of a call. A string carries the size of the slot that it is bound to, once it is. -/
inductive Argument
  | int (value : Int64)
  | hex (value : UInt64)
  | bool (value : Bool)
  | str (text : String) (slot : Option Nat)
  | enum (name : String)
  | var (ref : Variable)
  | const (value : Int64)
deriving DecidableEq, Repr

/-- What an argument is called in a complaint about it. -/
def Argument.kind : Argument → String
  | int _   => "an integer"
  | hex _   => "a hexadecimal number"
  | bool _  => "a boolean"
  | str _ _ => "a string"
  | enum _  => "an enum value"
  | var _   => "a variable"
  | const _ => "a constant"

/-- The signed value of the low 32 bits of a word. -/
def signedLow (value : UInt64) : Int64 := value.toUInt32.toInt32.toInt64

/-- It is the number nearest to zero that differs from the word by a multiple of `2 ^ 32`. -/
theorem toInt_signedLow (value : UInt64) : (signedLow value).toInt = (value.toNat : Int).bmod UInt32.size := by
  rw [signedLow, Int32.toInt_toInt64, ← Int32.toInt_toBitVec, UInt32.toBitVec_toInt32,
    BitVec.toInt_eq_toNat_bmod, UInt32.toNat_toBitVec, UInt64.toNat_toUInt32, Int.natCast_emod]
  exact Int.emod_bmod ..

/-- A call of an instruction, and where it was written if it was. -/
structure Call where
  name  : String
  args  : List Argument
  place : Option Position
deriving DecidableEq, Repr

/-- A call without its place. -/
def Call.unplaced (call : Call) : Call := { call with place := none }

end CallScript
