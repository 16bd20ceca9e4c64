import CallScript.Call
import CallScript.Token.Scan

/-!
# `Call.Parse` — from tokens to calls

Statements have no nesting, so a script is read token by token with a finite account of what may come
next. A `Stage` is that account: it holds the call that is being read and says which tokens go on with
it. The first token that no stage accepts is the one that spoils the script, because from every stage
some continuation completes a statement. A spoilt token is reported even if the text cannot be cut
further on, since the tokens before that place are read first.
-/

namespace CallScript

/-- Why a text is no script. -/
inductive ParseError
  /-- No token begins at this place. -/
  | invalidToken (place : Position)
  /-- The literal that ends at this place is out of range. -/
  | literalRange (place : Position) (literal : String)
  /-- No script goes on with this token. -/
  | unexpected (place : Position) (token : Token)
  /-- The text ends inside a statement, or has none. -/
  | unexpectedEnd
deriving DecidableEq, Repr

namespace ParseError

/-- The complaint about a literal. -/
def literalMessage (literal : String) : String :=
  "Integer literal '" ++ literal ++ "' is out of range"

/-- The text of a parse error. -/
def message : ParseError → String
  | invalidToken place         => place.text ++ ": invalid token"
  | literalRange place literal => place.text ++ ": " ++ literalMessage literal
  | unexpected place token     => place.text ++ ": unexpected " ++ token.describe
  | unexpectedEnd              => "Unexpected end of script"

/-- The place that a parse error points at. -/
def place? : ParseError → Option Position
  | invalidToken place | literalRange place _ | unexpected place _ => some place
  | unexpectedEnd => none

/-- The parse error of a text that cannot be cut into tokens. -/
def ofScanFailure : ScanFailure → ParseError
  | .invalid place            => invalidToken place
  | .outOfRange literal place => literalRange place literal

end ParseError

namespace Call

/-! ## Stages -/

/-- The two operand forms that are written like calls themselves. -/
inductive OperandForm
  | const
  | var
deriving DecidableEq, Repr

/-- The keyword of an operand form. -/
def OperandForm.word : OperandForm → Token
  | const => .constWord
  | var   => .varWord

/-- The argument that an operand form makes of a signed number. -/
def OperandForm.ofInt (form : OperandForm) (value : Int64) : Argument :=
  match form with
  | const => .const value
  | var   => .var (.index value)

/-- What may come next, with the call as far as it has been read. -/
inductive Stage
  /-- A statement begins with its name. -/
  | statement
  /-- Behind the name. -/
  | named (call : Call)
  /-- Behind the opening parenthesis. -/
  | opened (call : Call)
  /-- Behind a comma. -/
  | separated (call : Call)
  /-- Behind a minus sign, on its own or inside an operand form. -/
  | negated (call : Call) (form : Option OperandForm)
  /-- Behind the keyword of an operand form. -/
  | operand (call : Call) (form : OperandForm)
  /-- Behind the parenthesis of an operand form. -/
  | operandOpened (call : Call) (form : OperandForm)
  /-- Behind the content of an operand form. -/
  | operandFilled (call : Call) (arg : Argument)
  /-- Behind a complete argument. -/
  | argued (call : Call)
  /-- Behind the closing parenthesis. -/
  | closed (call : Call)
deriving DecidableEq, Repr

/-- The call with one more argument. -/
def push (call : Call) (arg : Argument) : Call := { call with args := call.args ++ [arg] }

namespace Stage

/-- The stage behind a token that starts an argument of `call`. -/
def startArgument (call : Call) : Token → Option Stage
  | .string text   => some (argued (call.push (.str text none)))
  | .hex value     => some (argued (call.push (.hex value)))
  | .integer value => some (argued (call.push (.int value)))
  | .minus         => some (negated call none)
  | .trueWord      => some (argued (call.push (.bool true)))
  | .falseWord     => some (argued (call.push (.bool false)))
  | .name name     => some (argued (call.push (.enum name)))
  | .constWord     => some (operand call .const)
  | .varWord       => some (operand call .var)
  | _              => none

/-- The stage behind a token that starts the content of an operand form. Constants may be hexadecimal,
    variables may be named. -/
def startContent (call : Call) (form : OperandForm) : Token → Option Stage
  | .integer value => some (operandFilled call (form.ofInt value))
  | .minus         => some (negated call (some form))
  | .hex value     => if form = .const then some (operandFilled call (.const (signedLow value))) else none
  | .name name     => if form = .var then some (operandFilled call (.var (.named name))) else none
  | _              => none

/-- The stage behind a negated number. -/
def negate (call : Call) (form : Option OperandForm) (value : Int64) : Stage :=
  match form with
  | none      => argued (call.push (.int (-value)))
  | some form => operandFilled call (form.ofInt (-value))

/-- Goes on with a lexeme: to the next stage, and with the call if the lexeme completes one. -/
def step (stage : Stage) (l : Lexeme) : Option (Stage × Option Call) :=
  match stage, l.token with
  | statement, .name name => some (named ⟨name, [], some l.start⟩, none)
  | named call, .leftParen => some (opened call, none)
  | opened call, .rightParen => some (closed call, none)
  | opened call, t => (startArgument call t).map (·, none)
  | separated call, t => (startArgument call t).map (·, none)
  | negated call form, .integer value => some (negate call form value, none)
  | operand call form, .leftParen => some (operandOpened call form, none)
  | operandOpened call form, t => (startContent call form t).map (·, none)
  | operandFilled call arg, .rightParen => some (argued (call.push arg), none)
  | argued call, .comma => some (separated call, none)
  | argued call, .rightParen => some (closed call, none)
  | closed call, .semicolon => some (statement, some call)
  | _, _ => none

/-- Reads lexemes from a stage on: the calls that they complete and the stage that they end in, or the
    first lexeme that does not go on. -/
def read (stage : Stage) : List Lexeme → Except Lexeme (List Call × Stage)
  | [] => .ok ([], stage)
  | l :: ls =>
      match stage.step l with
      | none => .error l
      | some (next, none) => read next ls
      | some (next, some call) =>
          match read next ls with
          | .error l => .error l
          | .ok (calls, last) => .ok (call :: calls, last)

theorem read_append (stage : Stage) (xs ys : List Lexeme) :
    stage.read (xs ++ ys) =
      match stage.read xs with
      | .error l => .error l
      | .ok (calls, next) =>
          match next.read ys with
          | .error l => .error l
          | .ok (more, last) => .ok (calls ++ more, last) := by
  induction xs generalizing stage with
  | nil =>
      simp only [List.nil_append, read]
      cases stage.read ys with
      | error l => rfl
      | ok p => rfl
  | cons l ls ih =>
      simp only [List.cons_append, read]
      split
      · rfl
      · exact ih _
      · rename_i next call _
        rw [ih]
        cases next.read ls with
        | error l => rfl
        | ok p =>
            obtain ⟨calls, middle⟩ := p
            cases h : middle.read ys with
            | error l => simp only [h]
            | ok q => simp only [h, List.cons_append]

end Stage

/-! ## Scripts -/

/-- The calls of a script. The text must hold at least one, and end behind one. -/
def parse (text : String) : Except ParseError (List Call) :=
  let scan := Scan.ofText text
  match Stage.statement.read scan.lexemes with
  | .error l => .error (.unexpected l.start l.token)
  | .ok (calls, stage) =>
      match scan.failure with
      | some failure => .error (.ofScanFailure failure)
      | none => if stage = .statement ∧ calls ≠ [] then .ok calls else .error .unexpectedEnd

end Call
end CallScript
