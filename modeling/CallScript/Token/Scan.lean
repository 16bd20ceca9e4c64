import CallScript.Text.Position
import CallScript.Token

/-!
# `Token.Scan` — cutting a text into tokens

A text is cut from the left. `extent` says what it begins with and how far that reaches: the longest
stretch that is a blank, a comment or a token. So `0xg` begins with the number `0`, `a--b` is one name,
and `/*/` begins with nothing, because the comment that it opens is never closed. Cutting stops at the
first place where nothing begins, or behind the first literal that is out of range; the lexemes up to
there are kept, since the statements that they form are judged before the failure is.
-/

namespace CallScript

/-! ## Character classes -/

namespace Token

/-- A character that only separates tokens. -/
def isBlank (c : Char) : Bool := c = ' ' || c = '\t' || c = '\n' || c = '\r' || c = '\x0c'

/-- A character that a name can start with. -/
def isNameHead (c : Char) : Bool := c.isAlpha || c = '_'

/-- A character that a name can go on with. -/
def isNameTail (c : Char) : Bool := c.isAlphanum || c = '_' || c = '-'

/-- The token of a punctuation character. -/
def mark? : Char → Option Token
  | '(' => some leftParen
  | ')' => some rightParen
  | ',' => some comma
  | ';' => some semicolon
  | '-' => some minus
  | _   => none

end Token

/-! ## What a text begins with -/

/-- What a stretch of text is. -/
inductive Stretch
  | blank
  | lineComment
  | blockComment
  | word
  | decimal
  | hexadecimal
  | string
  | mark (token : Token)
deriving DecidableEq, Repr

namespace Stretch

/-- The length of a block comment behind its opening mark, if it is closed: up to and with the first
    closing mark. -/
def closing? : List Char → Option Nat
  | '*' :: '/' :: _ => some 2
  | _ :: cs => (closing? cs).map (· + 1)
  | [] => none

/-- The length of a string literal behind its opening quote, if it is closed. -/
def quoteEnd? : List Char → Option Nat
  | [] => none
  | c :: cs => if c = '"' then some 1 else (quoteEnd? cs).map (· + 1)

/-- The length of a line comment behind its opening mark: to the end of the line, and with the line
    feed if there is one. -/
def lineEnd : List Char → Nat
  | [] => 0
  | c :: cs => if c = '\n' then 1 else lineEnd cs + 1

/-- The number of leading characters that satisfy `p`. -/
def run (p : Char → Bool) : List Char → Nat
  | [] => 0
  | c :: cs => if p c then run p cs + 1 else 0

/-- The hexadecimal digits behind a leading `0x`, or zero if the text does not begin so. -/
def hexRun : List Char → Nat
  | '0' :: 'x' :: cs => run Numeral.isHexDigit cs
  | _ => 0

/-- What a text begins with, and how many characters of it that takes. -/
def extent : List Char → Option (Stretch × Nat)
  | [] => none
  | c :: cs =>
      if Token.isBlank c then some (blank, 1)
      else if Token.isNameHead c then some (word, 1 + run Token.isNameTail cs)
      else if c.isDigit then
        if 0 < hexRun (c :: cs) then some (hexadecimal, 2 + hexRun (c :: cs))
        else some (decimal, 1 + run Char.isDigit cs)
      else if c = '"' then (quoteEnd? cs).map fun n => (string, 1 + n)
      else if c = '/' then
        match cs with
        | '/' :: r => some (lineComment, 2 + lineEnd r)
        | '*' :: r => (closing? r).map fun n => (blockComment, 2 + n)
        | _ => none
      else (Token.mark? c).map fun t => (mark t, 1)

/-- A stretch takes at least one character. -/
theorem extent_pos {cs : List Char} {s : Stretch} {n : Nat} (h : extent cs = some (s, n)) :
    0 < n := by
  unfold extent at h
  grind [Option.map_eq_some_iff]

/-! ## What a stretch says -/

/-- The meaning of a stretch: nothing, a token, or a literal that no token can hold. -/
inductive Meaning
  | gap
  | token (t : Token)
  | outOfRange
deriving DecidableEq, Repr

/-- A decimal literal is a token if it is at most the largest signed 64-bit number. -/
def decimalMeaning (v : Nat) : Meaning :=
  if v < 0x8000000000000000 then .token (.integer (Int64.ofNat v)) else .outOfRange

/-- A hexadecimal literal is a token if it has at most 64 bits. -/
def hexMeaning (v : Nat) : Meaning :=
  if v < 0x10000000000000000 then .token (.hex (UInt64.ofNat v)) else .outOfRange

/-- The meaning of a stretch of the given text. -/
def meaning (text : List Char) : Stretch → Meaning
  | blank | lineComment | blockComment => .gap
  | word        => .token (.ofWord text)
  | decimal     => decimalMeaning (Numeral.value 10 text)
  | hexadecimal => hexMeaning (Numeral.value 16 (text.drop 2))
  | string      => .token (.string (String.ofList (text.drop 1).dropLast))
  | mark t      => .token t

end Stretch

/-! ## Cutting -/

/-- A token with the text that it was read from, where that starts and where it ends. -/
structure Lexeme where
  token : Token
  text  : List Char
  start : Position
  stop  : Position
deriving DecidableEq, Repr

/-- Why cutting stopped before the end of the text. -/
inductive ScanFailure
  /-- Nothing begins at this place. -/
  | invalid (place : Position)
  /-- The literal that ends at this place is out of range. -/
  | outOfRange (literal : String) (place : Position)
deriving DecidableEq, Repr

/-- The lexemes of a text, and why they do not reach its end if they do not. -/
structure Scan where
  lexemes : List Lexeme
  failure : Option ScanFailure
deriving DecidableEq, Repr

namespace Scan

/-- Cuts a text that starts at the given place. -/
def scanFrom (p : Position) (cs : List Char) : Scan :=
  match cs with
  | [] => ⟨[], none⟩
  | c :: cs =>
      match _hextent : Stretch.extent (c :: cs) with
      | none => ⟨[], some (.invalid p)⟩
      | some (s, n) =>
          let text := (c :: cs).take n
          let stop := p.after text
          match s.meaning text with
          | .gap => scanFrom stop ((c :: cs).drop n)
          | .token t =>
              let later := scanFrom stop ((c :: cs).drop n)
              ⟨⟨t, text, p, stop⟩ :: later.lexemes, later.failure⟩
          | .outOfRange => ⟨[], some (.outOfRange (String.ofList text) stop)⟩
termination_by cs.length
decreasing_by
  all_goals
    have := Stretch.extent_pos _hextent
    simp only [List.length_drop, List.length_cons]
    omega

/-- Cuts a whole text. -/
def ofText (text : String) : Scan := scanFrom .first text.toList

end Scan

/-- Whether a text is read back as a single name. -/
def Token.isIdentifier (text : String) : Bool :=
  match Scan.ofText text with
  | ⟨[lexeme], none⟩ => lexeme.token = .name text
  | _ => false

end CallScript
