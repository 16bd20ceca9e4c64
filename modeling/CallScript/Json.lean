/-!
# `Json` — a document, as far as it can be read

A document is kept up to its first defect. An array or object that the defect cuts off is marked as not
closed, and what stood in front of the defect is still there; a value that is cut off before anything of
it could be read is left out. Whoever walks the document in order therefore meets a wrong value before
the defect, if it comes first in the text.

Strings are kept as written. An escape stands for a UTF-16 code unit, and only when the text of a string
is asked for must its units pair up to characters.
-/

namespace CallScript

namespace Json

/-- A part of a string as written: a character, or the code unit of an escape. -/
inductive Piece
  | plain (c : Char)
  | escaped (unit : Nat)
deriving DecidableEq, Repr

end Json

/-- A value of a document that may be cut off. -/
inductive Json
  | null
  | bool (value : Bool)
  /-- A number without fraction and exponent, and without a sign in front of zero. -/
  | integer (value : Int)
  /-- Any other number. -/
  | real
  | string (pieces : List Json.Piece)
  | array (items : List Json) (closed : Bool)
  | object (members : List (List Json.Piece × Json)) (closed : Bool)

namespace Json

/-! ## The text of a string -/

/-- The first unit of a surrogate pair. -/
def isHigh (unit : Nat) : Bool := 0xD800 ≤ unit && unit < 0xDC00

/-- The second unit of a surrogate pair. -/
def isLow (unit : Nat) : Bool := 0xDC00 ≤ unit && unit < 0xE000

/-- The character of a surrogate pair. -/
def pair (high low : Nat) : Char := Char.ofNat (0x10000 + 0x400 * (high - 0xD800) + (low - 0xDC00))

/-- The characters of a string, if its escaped units pair up. -/
def text? : List Piece → Option (List Char)
  | [] => some []
  | .plain c :: ps => (text? ps).map (c :: ·)
  | .escaped high :: .escaped low :: ps =>
      if isHigh high then
        if isLow low then (text? ps).map (pair high low :: ·) else none
      else if isLow high then none
      else (text? (.escaped low :: ps)).map (Char.ofNat high :: ·)
  | .escaped unit :: ps =>
      if isHigh unit || isLow unit then none else (text? ps).map (Char.ofNat unit :: ·)

/-- The characters of a string that is written without escapes. -/
def plainText? (ps : List Piece) : Option (List Char) :=
  ps.mapM fun
    | .plain c => some c
    | .escaped _ => none

end Json
end CallScript
