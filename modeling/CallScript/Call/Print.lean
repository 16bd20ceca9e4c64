import CallScript.Call

/-!
# `Call.Print` — calls as script text

The printer is the other direction of `Call.parse`: it writes a call the way a script would. Numbers are
decimal, or hexadecimal in capitals where the argument is; strings stand between quotes as they are,
since a literal has no escapes; operands are written in their explicit form.
-/

namespace CallScript

/-- An argument as it is written in a script. -/
def Argument.print : Argument → String
  | int value          => Numeral.decimal value.toInt
  | hex value          => Numeral.hex value.toNat
  | bool true          => "true"
  | bool false         => "false"
  | str text _         => "\"" ++ text ++ "\""
  | enum name          => name
  | var (.named name)  => "Var(" ++ name ++ ")"
  | var (.index value) => "Var(" ++ Numeral.decimal value.toInt ++ ")"
  | const value        => "Const(" ++ Numeral.decimal value.toInt ++ ")"

namespace Call

/-- Arguments, with a comma and a blank between two of them. -/
def printArgs : List Argument → String
  | [] => ""
  | [arg] => arg.print
  | arg :: args => arg.print ++ ", " ++ printArgs args

/-- A call as a statement, without the end of the line. -/
def print (call : Call) : String := call.name ++ "(" ++ printArgs call.args ++ ");"

end Call
end CallScript
