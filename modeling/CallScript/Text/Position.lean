import CallScript.Text.Numeral
import CallScript.Text.Width

/-!
# `Text.Position` — lines and columns

A position counts lines and columns from one. A line feed starts a new line, a tab moves four columns
wherever it stands, and every other character moves by its width.
-/

namespace CallScript

/-- A place in a text, as shown to its author. -/
structure Position where
  line   : Nat
  column : Nat
deriving DecidableEq, Repr

namespace Position

/-- The place of the first character. -/
def first : Position := ⟨1, 1⟩

/-- The columns that a tab takes. -/
def tabWidth : Nat := 4

/-- The place behind a character. -/
def next (p : Position) (c : Char) : Position :=
  if c = '\n' then ⟨p.line + 1, 1⟩
  else if c = '\t' then ⟨p.line, p.column + tabWidth⟩
  else ⟨p.line, p.column + Width.of c⟩

/-- The place behind a row of characters. -/
def after (p : Position) (cs : List Char) : Position := cs.foldl next p

@[simp] theorem after_nil (p : Position) : p.after [] = p := rfl

@[simp] theorem after_cons (p : Position) (c : Char) (cs : List Char) :
    p.after (c :: cs) = (p.next c).after cs := rfl

@[simp] theorem after_append (p : Position) (cs ds : List Char) :
    p.after (cs ++ ds) = (p.after cs).after ds := List.foldl_append

/-- The text of a position: line, colon, column. -/
def text (p : Position) : String := Numeral.decimal p.line ++ ":" ++ Numeral.decimal p.column

end Position
end CallScript
