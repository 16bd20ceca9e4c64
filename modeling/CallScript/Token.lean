import CallScript.Text.Numeral

/-!
# `Token` — the words of a call script

The tokens that a script is made of, and the two texts that go with one: how it is described when it
stands where it should not, and which words are keywords rather than names.
-/

namespace CallScript

/-- A word of the script language. -/
inductive Token
  | name (text : String)
  | integer (value : Int64)
  | hex (value : UInt64)
  | string (text : String)
  | trueWord
  | falseWord
  | constWord
  | varWord
  | leftParen
  | rightParen
  | comma
  | semicolon
  | minus
deriving DecidableEq, Repr

namespace Token

/-- The token that a whole word makes: one of the four keywords, or else a name. -/
def ofWord (word : List Char) : Token :=
  if word = ['t', 'r', 'u', 'e'] then trueWord
  else if word = ['f', 'a', 'l', 's', 'e'] then falseWord
  else if word = ['C', 'o', 'n', 's', 't'] then constWord
  else if word = ['V', 'a', 'r'] then varWord
  else name (String.ofList word)

/-- How a token is named in a complaint about it. -/
def describe : Token → String
  | name text     => "name '" ++ text ++ "'"
  | integer value => "integer " ++ Numeral.decimal value.toInt
  | hex value     => "hexadecimal " ++ Numeral.hex value.toNat
  | string text   => "string \"" ++ text ++ "\""
  | trueWord      => "'true'"
  | falseWord     => "'false'"
  | constWord     => "'Const'"
  | varWord       => "'Var'"
  | leftParen     => "'('"
  | rightParen    => "')'"
  | comma         => "','"
  | semicolon     => "';'"
  | minus         => "'-'"

end Token
end CallScript
