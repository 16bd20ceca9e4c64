import CallScript.Call

/-!
# `Call.Dump` — calls in a fully bracketed form

The dump shows what a text was understood as: one line per call, every argument with its kind. A slot
size is not shown, so the dump of a call does not change when its strings are bound to slots.
-/

namespace CallScript

open Numeral (decimal)

/-- An argument with its kind, in parentheses. -/
def Argument.dump : Argument → String
  | int value          => "(INT " ++ decimal value.toInt ++ ")"
  | hex value          => "(HEX " ++ Numeral.hex value.toNat ++ ")"
  | bool true          => "(BOOL true)"
  | bool false         => "(BOOL false)"
  | str text _         => "(STR \"" ++ text ++ "\")"
  | enum name          => "(ENUM " ++ name ++ ")"
  | var (.named name)  => "(VAR " ++ name ++ ")"
  | var (.index value) => "(VAR " ++ decimal value.toInt ++ ")"
  | const value        => "(CONST " ++ decimal value.toInt ++ ")"

namespace Call

/-- The arguments of a call, each followed by a blank. -/
def dumpArgs : List Argument → String
  | [] => ""
  | arg :: args => arg.dump ++ " " ++ dumpArgs args

/-- A call with its name and arguments, in parentheses. -/
def dump (call : Call) : String := "(INST " ++ call.name ++ " [ " ++ dumpArgs call.args ++ "] )"

/-- Calls, each on a line of its own. -/
def dumpAll : List Call → String
  | [] => ""
  | call :: calls => call.dump ++ "\n" ++ dumpAll calls

end Call
end CallScript
