import CallScript.Call.Parse
import CallScript.Result

/-!
# `Proofs.ShiftReduce` — reading with a stack, and the places on a list of their own

A script can also be read by a parser that knows the rules of the grammar and no stages. It shifts a token
onto a stack and reduces the top of the stack as long as it is the right-hand side of a rule; lists of
arguments and of calls are reduced from the left. A reduced call has no place. The places are collected by
the side, where a token follows a semicolon or is the first, and are dealt out to the calls at the end. Such
a parser has faults of its own: it refuses a token or an end in one of two ways, and its stack may be full.

`Stacked` is what the stack holds in each stage. A token that goes on with the stage is shifted and reduced to
the stack of the next stage (`settle_step`), and any other token is refused (`goesOn_eq`). With the places by
the side this is `Session.At`, which one lexeme keeps (`Session.At.take`) and so all do
(`Session.At.takeAll`). `parse_eq` is what follows for a text: the same calls at the same places, the same
errors, and none of the parser's own faults, since no stack is deeper than `deepest`.
-/

namespace CallScript
namespace ShiftReduce

open Call (Stage OperandForm)

/-! ## The stack -/

/-- What stands on the stack: a token, or what tokens have been reduced to. -/
inductive Symbol
  | token (token : Token)
  | signed (value : Int64)
  | arg (arg : Argument)
  | args (args : List Argument)
  | call
  | calls
deriving DecidableEq, Repr

/-! ### Rules

One function for the rules of each phrase: it takes what is on the stack under the last symbol of the
right-hand side. -/

/-- `signed ::= INT | '-' INT` -/
def signedRule (value : Int64) : List Symbol → List Symbol
  | .token .minus :: rest => .signed (-value) :: rest
  | rest => .signed value :: rest

/-- `arg ::= STRING | HEX | signed | true | false | Name` -/
def singleRule? : Symbol → Option Argument
  | .signed value => some (.int value)
  | .token token =>
      match token with
      | .string text => some (.str text none)
      | .hex value   => some (.hex value)
      | .trueWord    => some (.bool true)
      | .falseWord   => some (.bool false)
      | .name name   => some (.enum name)
      | _            => none
  | .arg _ | .args _ | .call | .calls => none

/-- The argument of an operand form, from its keyword and its content. -/
def operand? : Token → Symbol → Option Argument
  | .constWord, .signed value       => some (.const value)
  | .constWord, .token (.hex value) => some (.const (signedLow value))
  | .varWord, .token (.name name)   => some (.var (.named name))
  | .varWord, .signed value         => some (.var (.index value))
  | _, _                            => none

/-- `arg ::= Const '(' (signed | HEX) ')' | Var '(' (Name | signed) ')'` -/
def operandRule? : List Symbol → Option (List Symbol)
  | content :: .token .leftParen :: .token word :: rest =>
      (operand? word content).map fun arg => .arg arg :: rest
  | _ => none

/-- `args ::= arg | args ',' arg` -/
def argsRule (arg : Argument) : List Symbol → List Symbol
  | .token .comma :: .args args :: rest => .args (args ++ [arg]) :: rest
  | rest => .args [arg] :: rest

/-- `call ::= Name '(' ')' ';' | Name '(' args ')' ';'` -/
def callRule? : List Symbol → Option (List Symbol × Call)
  | .token .rightParen :: .token .leftParen :: .token (.name name) :: rest =>
      some (.call :: rest, ⟨name, [], none⟩)
  | .token .rightParen :: .args args :: .token .leftParen :: .token (.name name) :: rest =>
      some (.call :: rest, ⟨name, args, none⟩)
  | _ => none

/-- `calls ::= call | calls call` -/
def callsRule : List Symbol → List Symbol
  | .calls :: rest => .calls :: rest
  | rest => .calls :: rest

/-- Whether an argument of a call is next: behind its parenthesis or behind a comma. -/
def awaitsArgument : List Symbol → Bool
  | .token .leftParen :: .token (.name _) :: _ => true
  | .token .comma :: _ => true
  | _ => false

/-- The stack with its top reduced by one rule, and the call that the rule hands over, if it is the rule of
    a call. -/
def reduce? : List Symbol → Option (List Symbol × Option Call)
  | [] => none
  | .token (.integer value) :: rest => some (signedRule value rest, none)
  | .token .rightParen :: rest => (operandRule? rest).map fun stack => (stack, none)
  | .token .semicolon :: rest => (callRule? rest).map fun p => (p.1, some p.2)
  | .arg arg :: rest => some (argsRule arg rest, none)
  | .call :: rest => some (callsRule rest, none)
  | top :: rest =>
      if awaitsArgument rest then (singleRule? top).map fun arg => (.arg arg :: rest, none) else none

/-! ### Reducing comes to an end -/

/-- How far a symbol is from being reduced. -/
def Symbol.weight : Symbol → Nat
  | token _ => 4
  | signed _ => 3
  | arg _ | call => 2
  | args _ | calls => 1

/-- How far a stack is from being reduced. -/
def weight : List Symbol → Nat
  | [] => 0
  | symbol :: rest => symbol.weight + weight rest

theorem weight_signedRule (value : Int64) (rest : List Symbol) :
    weight (signedRule value rest) < weight (.token (.integer value) :: rest) := by
  unfold signedRule
  split <;> simp only [weight, Symbol.weight] <;> omega

theorem weight_operandRule? {rest stack : List Symbol} (h : operandRule? rest = some stack) :
    weight stack < weight (.token .rightParen :: rest) := by
  unfold operandRule? at h
  split at h
  · obtain ⟨arg, -, rfl⟩ := Option.map_eq_some_iff.mp h
    simp only [weight, Symbol.weight]
    omega
  · cases h

theorem weight_argsRule (arg : Argument) (rest : List Symbol) :
    weight (argsRule arg rest) < weight (.arg arg :: rest) := by
  unfold argsRule
  split <;> simp only [weight, Symbol.weight] <;> omega

theorem weight_callRule? {rest : List Symbol} {p : List Symbol × Call} (h : callRule? rest = some p) :
    weight p.1 < weight (.token .semicolon :: rest) := by
  unfold callRule? at h
  split at h <;> cases h <;> simp only [weight, Symbol.weight] <;> omega

theorem weight_callsRule (rest : List Symbol) : weight (callsRule rest) < weight (.call :: rest) := by
  unfold callsRule
  split <;> simp only [weight, Symbol.weight] <;> omega

theorem weight_singleRule? {top : Symbol} {rest next : List Symbol} {call : Option Call}
    (h : (if awaitsArgument rest then
      (singleRule? top).map fun arg => (Symbol.arg arg :: rest, (none : Option Call)) else none)
        = some (next, call)) : weight next < weight (top :: rest) := by
  split at h
  · obtain ⟨arg, hrule, heq⟩ := Option.map_eq_some_iff.mp h
    cases heq
    apply Nat.add_lt_add_right
    cases top with
    | token token => exact (by decide : 2 < 4)
    | signed value => exact (by decide : 2 < 3)
    | arg | args | call | calls => cases hrule
  · cases h

/-- A reduced stack is nearer to its end. -/
theorem weight_of_reduce? {stack next : List Symbol} {call : Option Call}
    (h : reduce? stack = some (next, call)) : weight next < weight stack := by
  cases stack with
  | nil => cases h
  | cons top rest =>
      cases top with
      | token token =>
          cases token with
          | integer value =>
              cases h
              exact weight_signedRule value rest
          | rightParen =>
              obtain ⟨stack, hrule, heq⟩ := Option.map_eq_some_iff.mp h
              cases heq
              exact weight_operandRule? hrule
          | semicolon =>
              obtain ⟨p, hrule, heq⟩ := Option.map_eq_some_iff.mp h
              cases heq
              exact weight_callRule? hrule
          | name | hex | string | trueWord | falseWord | constWord | varWord | leftParen | comma | minus =>
              exact weight_singleRule? h
      | arg arg =>
          cases h
          exact weight_argsRule arg rest
      | call =>
          cases h
          exact weight_callsRule rest
      | signed | args | calls => exact weight_singleRule? h

/-! ## The parser -/

/-- A parser with its stack and the calls that have been handed over. -/
structure Parser where
  stack : List Symbol
  calls : List Call
deriving DecidableEq, Repr

/-- Reduces the stack as far as it goes. -/
def Parser.settle (p : Parser) : Parser :=
  match _h : reduce? p.stack with
  | none => p
  | some (stack, call) => settle ⟨stack, p.calls ++ call.toList⟩
termination_by weight p.stack
decreasing_by exact weight_of_reduce? _h

/-- The tokens that an argument can begin with. -/
def startsArgument : Token → Bool
  | .string _ | .hex _ | .integer _ | .minus | .trueWord | .falseWord | .name _ | .constWord
  | .varWord => true
  | .leftParen | .rightParen | .comma | .semicolon => false

/-- Whether some rule goes on with a token behind what is on the stack. -/
def goesOn : List Symbol → Token → Bool
  | [], .name _ => true
  | [.calls], .name _ => true
  | [.token (.name _)], .leftParen => true
  | [.token (.name _), .calls], .leftParen => true
  | .token .leftParen :: .token (.name _) :: _, .rightParen => true
  | .token .leftParen :: .token (.name _) :: _, t => startsArgument t
  | .token .comma :: _, t => startsArgument t
  | .args _ :: _, .comma => true
  | .args _ :: _, .rightParen => true
  | .token .rightParen :: _, .semicolon => true
  | .token .minus :: _, .integer _ => true
  | .token .constWord :: _, .leftParen => true
  | .token .varWord :: _, .leftParen => true
  | .token .leftParen :: .token .constWord :: _, .integer _ => true
  | .token .leftParen :: .token .constWord :: _, .minus => true
  | .token .leftParen :: .token .constWord :: _, .hex _ => true
  | .token .leftParen :: .token .varWord :: _, .integer _ => true
  | .token .leftParen :: .token .varWord :: _, .minus => true
  | .token .leftParen :: .token .varWord :: _, .name _ => true
  | .signed _ :: _, .rightParen => true
  | .token (.hex _) :: _, .rightParen => true
  | .token (.name _) :: .token .leftParen :: _, .rightParen => true
  | _, _ => false

/-- Why a parser stops. What does not go on is refused in one of two ways. -/
inductive Fault
  | syntaxError
  | parseFail
  | stackOverflow
deriving DecidableEq, Repr

/-- The most symbols that are ever on the stack: all calls so far, a name with its parenthesis, the
    arguments so far and a comma, and a negative number in an operand form. -/
def deepest : Nat := 9

/-- How a parser is set up: whether it refuses for good, and how many symbols its stack can hold. -/
structure Setup where
  fatal  : Bool
  room   : Nat
  enough : deepest ≤ room

/-- The fault of a token or an end that does not go on. -/
def Setup.refusal (setup : Setup) : Fault := if setup.fatal then .parseFail else .syntaxError

/-- Shifts a token and reduces the stack. -/
def Parser.feed (setup : Setup) (p : Parser) (t : Token) : Except Fault Parser :=
  if goesOn p.stack t then
    if p.stack.length < setup.room then .ok (settle { p with stack := .token t :: p.stack })
    else .error .stackOverflow
  else .error setup.refusal

/-- The calls of a script that ends here. -/
def Parser.finish (setup : Setup) (p : Parser) : Except Fault (List Call) :=
  if p.stack = [.calls] then .ok p.calls else .error setup.refusal

/-! ## Sessions -/

/-- Why a text is not read: an error that is reported, or a fault of the parser that gets through. -/
inductive Failure
  | reported (error : ParseError)
  | own (fault : Fault)
deriving DecidableEq, Repr

/-- What becomes of a fault where `error` would be reported. -/
def Fault.reportedAs (error : ParseError) : Fault → Failure
  | syntaxError | parseFail => .reported error
  | stackOverflow => .own stackOverflow

/-- A parser at work: the places where statements have started, and whether the next token starts one. -/
structure Session where
  parser  : Parser
  starts  : List Position
  atStart : Bool
deriving DecidableEq, Repr

namespace Session

/-- The session in front of the first token. -/
def start : Session := ⟨⟨[], []⟩, [], true⟩

/-- Goes on with a lexeme. -/
def take (setup : Setup) (s : Session) (l : Lexeme) : Except Failure Session :=
  let starts := if s.atStart then s.starts ++ [l.start] else s.starts
  match s.parser.feed setup l.token with
  | .ok parser => .ok ⟨parser, starts, l.token = .semicolon⟩
  | .error fault => .error (fault.reportedAs (.unexpected l.start l.token))

/-- Goes on with lexemes, up to the first that fails. -/
def takeAll (setup : Setup) (s : Session) : List Lexeme → Except Failure Session
  | [] => .ok s
  | l :: ls =>
      match s.take setup l with
      | .error e => .error e
      | .ok next => takeAll setup next ls

/-- Deals out places to calls, as far as there are both. -/
def deal : List Call → List Position → List Call
  | call :: calls, place :: places => { call with place := some place } :: deal calls places
  | calls, _ => calls

/-- The calls of a script that ends here, at their places. -/
def finish (setup : Setup) (s : Session) : Except Failure (List Call) :=
  match s.parser.finish setup with
  | .ok calls => .ok (deal calls s.starts)
  | .error fault => .error (fault.reportedAs .unexpectedEnd)

end Session

/-- The calls of a text. -/
def parse (setup : Setup) (text : String) : Except Failure (List Call) :=
  match Session.start.takeAll setup (Scan.ofText text).lexemes with
  | .error e => .error e
  | .ok s =>
      match (Scan.ofText text).failure with
      | some failure => .error (.reported (.ofScanFailure failure))
      | none => s.finish setup

/-! ## What the stack holds in each stage -/

/-- The symbols of a call behind its opening parenthesis, on top of the calls before it. -/
def opening (base : List Symbol) (name : String) : List Symbol :=
  .token .leftParen :: .token (.name name) :: base

/-- The stack in front of an argument of a call. -/
inductive Ready (base : List Symbol) : Call → List Symbol → Prop
  | first (name : String) (place : Option Position) : Ready base ⟨name, [], place⟩ (opening base name)
  | later (call : Call) : Ready base call (.token .comma :: .args call.args :: opening base call.name)

/-- The stack in each stage, on top of the calls that are complete. -/
inductive Stacked (base : List Symbol) : Stage → List Symbol → Prop
  | statement : Stacked base .statement base
  | named (name : String) (place : Option Position) :
      Stacked base (.named ⟨name, [], place⟩) (.token (.name name) :: base)
  | opened (name : String) (place : Option Position) :
      Stacked base (.opened ⟨name, [], place⟩) (opening base name)
  | separated (call : Call) :
      Stacked base (.separated call) (.token .comma :: .args call.args :: opening base call.name)
  | negated {call : Call} {stack : List Symbol} (hready : Ready base call stack) :
      Stacked base (.negated call none) (.token .minus :: stack)
  | negatedContent {call : Call} {stack : List Symbol} (form : OperandForm) (hready : Ready base call stack) :
      Stacked base (.negated call (some form)) (.token .minus :: .token .leftParen :: .token form.word :: stack)
  | operand {call : Call} {stack : List Symbol} (form : OperandForm) (hready : Ready base call stack) :
      Stacked base (.operand call form) (.token form.word :: stack)
  | operandOpened {call : Call} {stack : List Symbol} (form : OperandForm) (hready : Ready base call stack) :
      Stacked base (.operandOpened call form) (.token .leftParen :: .token form.word :: stack)
  | operandFilled {call : Call} {stack : List Symbol} {content : Symbol} {arg : Argument} (form : OperandForm)
      (hready : Ready base call stack) (hcontent : operand? form.word content = some arg) :
      Stacked base (.operandFilled call arg) (content :: .token .leftParen :: .token form.word :: stack)
  | argued (call : Call) : Stacked base (.argued call) (.args call.args :: opening base call.name)
  | closedEmpty (name : String) (place : Option Position) :
      Stacked base (.closed ⟨name, [], place⟩) (.token .rightParen :: opening base name)
  | closed (call : Call) :
      Stacked base (.closed call) (.token .rightParen :: .args call.args :: opening base call.name)

/-- What can be under an unfinished call: nothing, or the calls that are complete. -/
def bottom : List Call → List Symbol
  | [] => []
  | _ :: _ => [.calls]

/-- Nothing is under the first call, and one symbol under any other. -/
def Bottom (base : List Symbol) : Prop := base = [] ∨ base = [.calls]

theorem bottom_bottom (calls : List Call) : Bottom (bottom calls) := by
  cases calls with
  | nil => exact .inl rfl
  | cons => exact .inr rfl

section

variable {base stack : List Symbol} {stage next : Stage} {call : Call} {l : Lexeme}

theorem Ready.length_le (h : Ready base call stack) : stack.length ≤ base.length + 4 := by
  cases h <;> simp [opening]

/-- **There is always room for one more token.** -/
theorem Stacked.length_lt (hbase : Bottom base) (h : Stacked base stage stack) : stack.length < deepest := by
  have hlength : base.length ≤ 1 := by
    rcases hbase with rfl | rfl <;> simp
  unfold deepest
  cases h with
  | statement => omega
  | named | opened | separated | argued | closedEmpty | closed =>
      simp only [opening, List.length_cons]
      omega
  | negated hready | negatedContent _ hready | operand _ hready | operandOpened _ hready
  | operandFilled _ hready _ =>
      have hle := hready.length_le
      simp only [List.length_cons]
      omega

/-- What an operand form can hold: a number, a hexadecimal number or a name. -/
theorem operand?_cases {word : Token} {content : Symbol} {arg : Argument}
    (h : operand? word content = some arg) :
    (∃ value, content = .signed value) ∨ (∃ value, content = .token (.hex value)) ∨
      ∃ name, content = .token (.name name) := by
  unfold operand? at h
  split at h
  · exact .inl ⟨_, rfl⟩
  · exact .inr (.inl ⟨_, rfl⟩)
  · exact .inr (.inr ⟨_, rfl⟩)
  · exact .inl ⟨_, rfl⟩
  · cases h

theorem operand?_signed (form : OperandForm) (value : Int64) :
    operand? form.word (.signed value) = some (form.ofInt value) := by
  cases form <;> rfl

/-! ## One token -/

/-- **A token goes on with the stack exactly if it goes on with the stage.** -/
theorem goesOn_eq (hbase : Bottom base) (h : Stacked base stage stack) :
    goesOn stack l.token = (stage.step l).isSome := by
  obtain ⟨token, text, start, stop⟩ := l
  cases h with
  | statement => rcases hbase with rfl | rfl <;> cases token <;> rfl
  | named => rcases hbase with rfl | rfl <;> cases token <;> rfl
  | opened | separated | argued | closedEmpty | closed => cases token <;> rfl
  | negated hready | negatedContent _ hready => cases token <;> rfl
  | operand form hready => cases form <;> cases token <;> rfl
  | operandOpened form hready => cases form <;> cases token <;> rfl
  | operandFilled form hready hcontent =>
      rcases operand?_cases hcontent with ⟨value, rfl⟩ | ⟨value, rfl⟩ | ⟨name, rfl⟩ <;> cases token <;> rfl

end

section

variable {base stack : List Symbol} {stage next : Stage} {call : Call}

theorem settle_of_some {p : Parser} {reduced : List Symbol} {done : Option Call}
    (h : reduce? p.stack = some (reduced, done)) :
    p.settle = Parser.settle ⟨reduced, p.calls ++ done.toList⟩ := by
  rw [Parser.settle]
  split
  · rename_i hnone
    cases h.symm.trans hnone
  · rename_i hsome
    cases h.symm.trans hsome
    rfl

theorem settle_of_none {p : Parser} (h : reduce? p.stack = none) : p.settle = p := by
  rw [Parser.settle]
  split
  · rfl
  · rename_i hsome
    cases h.symm.trans hsome

variable (calls : List Call)

/-- A rule that hands over no call leaves the calls as they are. -/
theorem settle_of_rule {reduced : List Symbol} (h : reduce? stack = some (reduced, none)) :
    Parser.settle ⟨stack, calls⟩ = Parser.settle ⟨reduced, calls⟩ := by
  rw [settle_of_some h, Option.toList_none, List.append_nil]

/-- An argument is put to those before it. -/
theorem settle_arg (hready : Ready base call stack) (arg : Argument) :
    Parser.settle ⟨.arg arg :: stack, calls⟩
      = ⟨.args (call.push arg).args :: opening base call.name, calls⟩ := by
  cases hready with
  | first name place => exact (settle_of_rule calls rfl).trans (settle_of_none rfl)
  | later call => exact (settle_of_rule calls rfl).trans (settle_of_none rfl)

/-- A symbol that makes an argument on its own is put to the arguments before it. -/
theorem settle_single (hready : Ready base call stack) {top : Symbol} {arg : Argument}
    (hrule : singleRule? top = some arg) :
    Parser.settle ⟨top :: stack, calls⟩
      = ⟨.args (call.push arg).args :: opening base call.name, calls⟩ := by
  have hawaits : awaitsArgument stack = true := by
    cases hready <;> rfl
  have hreduce : reduce? (top :: stack) = if awaitsArgument stack then
      (singleRule? top).map fun arg => (.arg arg :: stack, none) else none := by
    cases top with
    | token token =>
        cases token with
        | integer | rightParen | semicolon => cases hrule
        | name | hex | string | trueWord | falseWord | constWord | varWord | leftParen | comma | minus => rfl
    | signed value => rfl
    | arg | args | call | calls => cases hrule
  rw [hawaits, if_pos rfl, hrule, Option.map_some] at hreduce
  rw [settle_of_rule calls hreduce, settle_arg calls hready]

/-- A call joins the calls before it, if there are any. -/
theorem settle_call (hbase : Bottom base) : Parser.settle ⟨.call :: base, calls⟩ = ⟨[.calls], calls⟩ := by
  have hreduce : reduce? (.call :: base) = some ([.calls], none) := by
    rcases hbase with rfl | rfl <;> rfl
  rw [settle_of_rule calls hreduce, settle_of_none rfl]

/-- A number is first reduced to itself. -/
theorem settle_integer (hready : Ready base call stack) (value : Int64) :
    Parser.settle ⟨.token (.integer value) :: stack, calls⟩
      = ⟨.args (call.push (.int value)).args :: opening base call.name, calls⟩ := by
  have hreduce : reduce? (.token (.integer value) :: stack) = some (.signed value :: stack, none) := by
    cases hready <;> rfl
  rw [settle_of_rule calls hreduce, settle_single calls hready rfl]

/-- An operand form is closed, and is put to the arguments before it. -/
theorem settle_filled (hready : Ready base call stack) {word : Token} {content : Symbol} {arg : Argument}
    (hcontent : operand? word content = some arg) :
    Parser.settle ⟨.token .rightParen :: content :: .token .leftParen :: .token word :: stack, calls⟩
      = ⟨.args (call.push arg).args :: opening base call.name, calls⟩ := by
  have hreduce : reduce? (.token .rightParen :: content :: .token .leftParen :: .token word :: stack)
      = some (.arg arg :: stack, none) := by
    show ((operand? word content).map _).map _ = _
    rw [hcontent]
    rfl
  rw [settle_of_rule calls hreduce, settle_arg calls hready]

/-- A call is complete, and is handed over without its place. -/
theorem settle_closed (hbase : Bottom base) (h : Stacked base (.closed call) stack) :
    Parser.settle ⟨.token .semicolon :: stack, calls⟩ = ⟨[.calls], calls ++ [call.unplaced]⟩ := by
  cases h with
  | closedEmpty name place =>
      rw [settle_of_some rfl]
      exact settle_call _ hbase
  | closed =>
      rw [settle_of_some rfl]
      exact settle_call _ hbase

/-- **A token that starts an argument** leads to the stack of the next stage. -/
theorem settle_startArgument (hready : Ready base call stack) {token : Token}
    (h : Stage.startArgument call token = some next) :
    ∃ settled, Parser.settle ⟨.token token :: stack, calls⟩ = ⟨settled, calls⟩ ∧
      Stacked base next settled := by
  have hwait : ∀ {t : Token}, singleRule? (.token t) = none →
      (reduce? (.token t :: stack) = if awaitsArgument stack then
        (singleRule? (.token t)).map fun arg => (.arg arg :: stack, none) else none) →
      Parser.settle ⟨.token t :: stack, calls⟩ = ⟨.token t :: stack, calls⟩ := by
    intro t hnone hreduce
    rw [hnone] at hreduce
    exact settle_of_none (hreduce.trans (ite_self _))
  cases token with
  | string | hex | trueWord | falseWord | name =>
      cases h
      exact ⟨_, settle_single calls hready rfl, .argued (call.push _)⟩
  | integer value =>
      cases h
      exact ⟨_, settle_integer calls hready value, .argued (call.push _)⟩
  | minus =>
      cases h
      exact ⟨_, hwait rfl rfl, .negated hready⟩
  | constWord =>
      cases h
      exact ⟨_, hwait rfl rfl, .operand .const hready⟩
  | varWord =>
      cases h
      exact ⟨_, hwait rfl rfl, .operand .var hready⟩
  | leftParen | rightParen | comma | semicolon => cases h

/-- **A token that starts the content of an operand form** leads to the stack of the next stage. -/
theorem settle_startContent (hready : Ready base call stack) {form : OperandForm} {token : Token}
    (h : Stage.startContent call form token = some next) :
    ∃ settled, Parser.settle ⟨.token token :: .token .leftParen :: .token form.word :: stack, calls⟩
      = ⟨settled, calls⟩ ∧ Stacked base next settled := by
  cases token with
  | integer value =>
      cases h
      refine ⟨_, ?_, .operandFilled form hready (operand?_signed form value)⟩
      rw [settle_of_rule calls rfl]
      cases form <;> exact settle_of_none rfl
  | minus =>
      cases h
      refine ⟨_, ?_, .negatedContent form hready⟩
      cases form <;> exact settle_of_none rfl
  | hex value =>
      cases form with
      | const =>
          cases h
          exact ⟨_, settle_of_none rfl, .operandFilled .const hready rfl⟩
      | var => cases h
  | name name =>
      cases form with
      | const => cases h
      | var =>
          cases h
          exact ⟨_, settle_of_none rfl, .operandFilled .var hready rfl⟩
  | string | trueWord | falseWord | constWord | varWord | leftParen | rightParen | comma | semicolon =>
      cases h

/-- **A token that goes on leads to the stack of the next stage.** If it completes a call, the call is handed
    over without its place, and the calls are reduced to one symbol. -/
theorem settle_step (hbase : Bottom base) (h : Stacked base stage stack) {l : Lexeme} {done : Option Call}
    (hstep : stage.step l = some (next, done)) :
    ∃ settled, Parser.settle ⟨.token l.token :: stack, calls⟩
      = ⟨settled, calls ++ (done.map Call.unplaced).toList⟩ ∧
        Stacked (if done.isSome then [.calls] else base) next settled := by
  have mapped : ∀ {o : Option Stage}, o.map (·, (none : Option Call)) = some (next, done) →
      o = some next ∧ done = none := by
    intro o ho
    obtain ⟨a, rfl, ha⟩ := Option.map_eq_some_iff.mp ho
    cases ha
    exact ⟨rfl, rfl⟩
  -- a token that completes no call leaves the calls as they are
  have going : ∀ {settled : List Symbol} {call : Option Call}, call = none →
      Parser.settle ⟨.token l.token :: stack, calls⟩ = ⟨settled, calls⟩ → Stacked base next settled →
      ∃ settled, Parser.settle ⟨.token l.token :: stack, calls⟩
        = ⟨settled, calls ++ (call.map Call.unplaced).toList⟩ ∧
          Stacked (if call.isSome then [.calls] else base) next settled := by
    rintro settled _ rfl hsettle hstacked
    exact ⟨settled, by rw [hsettle, Option.map_none, Option.toList_none, List.append_nil], hstacked⟩
  -- one case for each rule of `Stage.step`, in its order
  unfold Stage.step at hstep
  split at hstep
  · rename_i name hl
    cases hstep
    cases h
    refine going rfl ?_ (.named name _)
    rw [hl]
    rcases hbase with rfl | rfl <;> exact settle_of_none rfl
  · rename_i call hl
    cases hstep
    cases h with
    | named name place =>
        refine going rfl ?_ (.opened name place)
        rw [hl]
        rcases hbase with rfl | rfl <;> exact settle_of_none rfl
  · -- `(` and `)` with nothing between them
    rename_i call hl
    cases hstep
    cases h with
    | opened name place =>
        refine going rfl ?_ (.closedEmpty name place)
        rw [hl]
        rcases hbase with rfl | rfl <;> exact settle_of_none rfl
  · rename_i call hl
    obtain ⟨hstart, rfl⟩ := mapped hstep
    cases h with
    | opened name place =>
        obtain ⟨settled, hsettle, hstacked⟩ := settle_startArgument calls (.first name place) hstart
        exact going rfl hsettle hstacked
  · rename_i call
    obtain ⟨hstart, rfl⟩ := mapped hstep
    cases h with
    | separated =>
        obtain ⟨settled, hsettle, hstacked⟩ := settle_startArgument calls (.later call) hstart
        exact going rfl hsettle hstacked
  · -- the number behind a minus sign, on its own or in one of the two operand forms
    rename_i call form value hl
    cases hstep
    cases h with
    | negated hready =>
        refine going rfl ?_ (.argued (call.push _))
        rw [hl, settle_of_rule calls rfl]
        exact settle_single calls hready rfl
    | negatedContent form hready =>
        refine going rfl ?_ (.operandFilled form hready (operand?_signed form (-value)))
        rw [hl, settle_of_rule calls rfl]
        cases form <;> exact settle_of_none rfl
  · rename_i call form hl
    cases hstep
    cases h with
    | operand _ hready =>
        refine going rfl ?_ (.operandOpened form hready)
        rw [hl]
        cases form <;> exact settle_of_none rfl
  · rename_i call form
    obtain ⟨hstart, rfl⟩ := mapped hstep
    cases h with
    | operandOpened _ hready =>
        obtain ⟨settled, hsettle, hstacked⟩ := settle_startContent calls hready hstart
        exact going rfl hsettle hstacked
  · rename_i call arg hl
    cases hstep
    cases h with
    | operandFilled form hready hcontent =>
        refine going rfl ?_ (.argued (call.push arg))
        rw [hl]
        exact settle_filled calls hready hcontent
  · rename_i call hl
    cases hstep
    cases h with
    | argued =>
        refine going rfl ?_ (.separated call)
        rw [hl]
        exact settle_of_none rfl
  · rename_i call hl
    cases hstep
    cases h with
    | argued =>
        refine going rfl ?_ (.closed call)
        rw [hl]
        exact settle_of_none rfl
  · -- the call is complete: it joins the calls before it, if there are any
    rename_i call hl
    cases hstep
    rw [hl]
    exact ⟨[.calls], settle_closed calls hbase h, .statement⟩
  · cases hstep

/-- **A parser whose stack is that of a stage** refuses a token that does not go on, and else has the stack of
    the next stage. -/
theorem feed_stacked (setup : Setup) (hbase : Bottom base) {p : Parser} (h : Stacked base stage p.stack)
    (l : Lexeme) :
    (stage.step l = none ∧ p.feed setup l.token = .error setup.refusal) ∨
      ∃ next done fed, stage.step l = some (next, done) ∧ p.feed setup l.token = .ok fed ∧
        fed.calls = p.calls ++ (done.map Call.unplaced).toList ∧
        Stacked (if done.isSome then [.calls] else base) next fed.stack := by
  have hgoes := goesOn_eq (l := l) hbase h
  cases hstep : stage.step l with
  | none =>
      rw [hstep] at hgoes
      refine .inl ⟨rfl, ?_⟩
      rw [Parser.feed, hgoes]
      rfl
  | some q =>
      obtain ⟨next, done⟩ := q
      rw [hstep] at hgoes
      obtain ⟨settled, hsettle, hstacked⟩ := settle_step p.calls hbase h hstep
      have hroom : p.stack.length < setup.room := Nat.lt_of_lt_of_le (h.length_lt hbase) setup.enough
      refine .inr ⟨next, done, ⟨settled, _⟩, rfl, ?_, rfl, hstacked⟩
      rw [Parser.feed, hgoes, Option.isSome_some, if_pos rfl, if_pos hroom, hsettle]

end

/-! ## One lexeme, with its place by the side -/

/-- The place of the call that a stage has begun. -/
def begun : Stage → List (Option Position)
  | .statement => []
  | .named call | .opened call | .separated call | .negated call _ | .operand call _ | .operandOpened call _
  | .operandFilled call _ | .argued call | .closed call => [call.place]

theorem begun_startArgument {call : Call} {token : Token} {next : Stage}
    (h : Stage.startArgument call token = some next) :
    begun next = [call.place] ∧ next ≠ .statement ∧ token ≠ .semicolon := by
  cases token <;> cases h <;> exact ⟨rfl, nofun, nofun⟩

theorem begun_startContent {call : Call} {form : OperandForm} {token : Token} {next : Stage}
    (h : Stage.startContent call form token = some next) :
    begun next = [call.place] ∧ next ≠ .statement ∧ token ≠ .semicolon := by
  cases form <;> cases token <;> cases h <;> exact ⟨rfl, nofun, nofun⟩

/-- **A statement starts with the token behind a semicolon**, and its place is kept until it is complete. -/
theorem begun_step {stage next : Stage} {l : Lexeme} {done : Option Call}
    (h : stage.step l = some (next, done)) :
    done.toList.map Call.place ++ begun next = (if stage = .statement then [some l.start] else begun stage) ∧
      (next = .statement ↔ l.token = .semicolon) := by
  have mapped : ∀ {o : Option Stage} {place : List (Option Position)},
      o.map (·, (none : Option Call)) = some (next, done) →
      (o = some next → begun next = place ∧ next ≠ .statement ∧ l.token ≠ .semicolon) →
      done.toList.map Call.place ++ begun next = place ∧ (next = .statement ↔ l.token = .semicolon) := by
    intro o place ho hnext
    obtain ⟨a, rfl, ha⟩ := Option.map_eq_some_iff.mp ho
    cases ha
    obtain ⟨hbegun, hstage, htoken⟩ := hnext rfl
    exact ⟨hbegun, iff_of_false hstage htoken⟩
  unfold Stage.step at h
  split at h
  case h_4 | h_5 => exact mapped h begun_startArgument
  case h_8 => exact mapped h begun_startContent
  case h_12 call hl =>
      cases h
      exact ⟨rfl, iff_of_true rfl hl⟩
  case h_13 => cases h
  case h_6 call form value hl =>
      cases h
      rw [hl]
      cases form <;> exact ⟨rfl, nofun, nofun⟩
  all_goals
    rename_i hl
    cases h
    rw [hl]
    exact ⟨rfl, nofun, nofun⟩

namespace Session

variable {s : Session} {calls : List Call} {stage : Stage}

/-- A session that has read some calls and stands in a stage: the parser has the calls without their places,
    the places are on their list, and behind them is the place of the call that has been begun. -/
structure At (s : Session) (calls : List Call) (stage : Stage) : Prop where
  stacked : Stacked (bottom calls) stage s.parser.stack
  handed  : s.parser.calls = calls.map Call.unplaced
  starts  : s.starts.map some = calls.map Call.place ++ begun stage
  atStart : s.atStart = true ↔ stage = .statement

theorem at_start : start.At [] .statement := ⟨.statement, rfl, rfl, iff_of_true rfl rfl⟩

theorem reportedAs_refusal (setup : Setup) (error : ParseError) :
    setup.refusal.reportedAs error = .reported error := by
  unfold Setup.refusal
  split <;> rfl

theorem bottom_append (calls : List Call) (done : Option Call) :
    bottom (calls ++ done.toList) = if done.isSome then [.calls] else bottom calls := by
  cases done with
  | none =>
      rw [Option.toList_none, List.append_nil]
      rfl
  | some call => cases calls <;> rfl

/-- **One lexeme** that does not go on is reported, and any other leads to the next stage. -/
theorem At.take (setup : Setup) (h : s.At calls stage) (l : Lexeme) :
    (stage.step l = none ∧ s.take setup l = .error (.reported (.unexpected l.start l.token))) ∨
      ∃ next done later, stage.step l = some (next, done) ∧ s.take setup l = .ok later ∧
        later.At (calls ++ done.toList) next := by
  rcases feed_stacked setup (bottom_bottom calls) h.stacked l with
    ⟨hstep, hfeed⟩ | ⟨next, done, fed, hstep, hfeed, hcalls, hstacked⟩
  · refine .inl ⟨hstep, ?_⟩
    rw [Session.take, hfeed]
    exact congrArg _ (reportedAs_refusal setup _)
  · refine .inr ⟨next, done, ⟨fed, _, _⟩, hstep, by rw [Session.take, hfeed], ?_, ?_, ?_, ?_⟩
    · rw [bottom_append]
      exact hstacked
    · rw [hcalls, h.handed, List.map_append]
      cases done <;> rfl
    · obtain ⟨hbegun, -⟩ := begun_step hstep
      rw [List.map_append, List.append_assoc, hbegun]
      by_cases hstage : stage = .statement
      · have hstarts := h.starts
        rw [hstage, begun, List.append_nil] at hstarts
        rw [if_pos (h.atStart.mpr hstage), if_pos hstage, List.map_append, hstarts]
        rfl
      · rw [if_neg (mt h.atStart.mp hstage), if_neg hstage]
        exact h.starts
    · obtain ⟨-, hend⟩ := begun_step hstep
      rw [hend]
      exact decide_eq_true_iff

/-- **All lexemes**, as reading takes them. -/
theorem At.takeAll (setup : Setup) (h : s.At calls stage) (ls : List Lexeme) :
    (∃ l, stage.read ls = .error l ∧
      s.takeAll setup ls = .error (.reported (.unexpected l.start l.token))) ∨
      ∃ more last later, stage.read ls = .ok (more, last) ∧ s.takeAll setup ls = .ok later ∧
        later.At (calls ++ more) last := by
  induction ls generalizing s calls stage with
  | nil => exact .inr ⟨[], stage, s, rfl, rfl, by rwa [List.append_nil]⟩
  | cons l ls ih =>
      rw [Stage.read, Session.takeAll]
      rcases h.take setup l with ⟨hstep, htake⟩ | ⟨next, done, later, hstep, htake, hlater⟩
      · rw [hstep, htake]
        exact .inl ⟨l, rfl, rfl⟩
      · rw [hstep, htake]
        rcases ih hlater with ⟨k, hread, hall⟩ | ⟨more, last, final, hread, hall, hfinal⟩
        · refine .inl ⟨k, ?_, hall⟩
          cases done with
          | none => exact hread
          | some call => simp only [hread]
        · refine .inr ⟨done.toList ++ more, last, final, ?_, hall, by rwa [← List.append_assoc]⟩
          cases done with
          | none => exact hread
          | some call =>
              simp only [hread]
              rfl

/-- Calls get back the places that they had. -/
theorem deal_unplaced {places : List Position} (h : places.map some = calls.map Call.place) :
    deal (calls.map Call.unplaced) places = calls := by
  induction calls generalizing places with
  | nil => rfl
  | cons call calls ih =>
      cases places with
      | nil => cases h
      | cons place places =>
          obtain ⟨hplace, hplaces⟩ := List.cons.inj h
          rw [List.map_cons, deal, ih hplaces]
          show { call with place := some place } :: calls = call :: calls
          rw [hplace]

/-- A stack of calls alone is that of a script that may end. -/
theorem stack_eq_calls_iff {stack : List Symbol} (h : Stacked (bottom calls) stage stack) :
    stack = [.calls] ↔ stage = .statement ∧ calls ≠ [] := by
  cases h with
  | statement => cases calls <;> simp [bottom]
  | named | opened | separated | negated | negatedContent | operand | operandOpened | argued | closedEmpty
  | closed => simp [opening]
  | operandFilled => simp

/-- **The end**: a script of at least one call, or an end that is reported. -/
theorem At.finish (setup : Setup) (h : s.At calls stage) :
    s.finish setup = if stage = .statement ∧ calls ≠ [] then .ok calls
      else .error (.reported .unexpectedEnd) := by
  rw [Session.finish, Parser.finish]
  by_cases hend : stage = .statement ∧ calls ≠ []
  · have hstarts := h.starts
    rw [hend.1, begun, List.append_nil] at hstarts
    rw [if_pos ((stack_eq_calls_iff h.stacked).mpr hend), if_pos hend, h.handed]
    exact congrArg _ (deal_unplaced hstarts)
  · rw [if_neg (mt (stack_eq_calls_iff h.stacked).mp hend), if_neg hend]
    exact congrArg _ (reportedAs_refusal setup _)

end Session

/-! ## Main result -/

/-- **Reading with a stack and reading by stages agree on every text**: on the calls and their places, or on
    the error. No fault of the parser itself gets through. -/
theorem parse_eq (setup : Setup) (text : String) :
    parse setup text = (Call.parse text).mapError .reported := by
  rw [parse, Call.parse]
  rcases Session.at_start.takeAll setup (Scan.ofText text).lexemes with
    ⟨l, hread, hall⟩ | ⟨calls, stage, s, hread, hall, hat⟩
  · simp only [hread, hall]
    rfl
  · simp only [hread, hall]
    cases (Scan.ofText text).failure with
    | some failure => rfl
    | none =>
        rw [List.nil_append] at hat
        simp only [hat.finish setup]
        split <;> rfl

/-- What is reported does not depend on the parser. -/
theorem parse_eq_reported_iff (setup : Setup) (text : String) (error : ParseError) :
    parse setup text = .error (.reported error) ↔ Call.parse text = .error error := by
  rw [parse_eq, mapError_eq_error_iff]
  constructor
  · rintro ⟨_, herror, heq⟩
    cases heq
    exact herror
  · exact fun herror => ⟨error, herror, rfl⟩

/-- A fault of the parser itself does not get through. -/
theorem parse_ne_own (setup : Setup) (text : String) (fault : Fault) :
    parse setup text ≠ .error (.own fault) := by
  rw [parse_eq]
  intro h
  obtain ⟨_, -, heq⟩ := mapError_eq_error_iff.mp h
  cases heq

end ShiftReduce
end CallScript
