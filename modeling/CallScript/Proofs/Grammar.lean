import CallScript.Proofs.ShiftReduce
import Mathlib.Control.Monad.Basic

/-!
# `Proofs.Grammar` — the grammar of scripts, and that reading accepts exactly it

The grammar has four rules:

* `script ::= call+`
* `call   ::= Name '(' [arg (',' arg)*] ')' ';'`
* `arg    ::= STRING | HEX | signed | true | false | Name | Const '(' (signed | HEX) ')'`
  `         | Var '(' (Name | signed) ')'`
* `signed ::= ['-'] INT`

A derivation is a tree with one constructor per alternative, and the tokens that it derives are its
`leaves`. Three facts meet in `parse_eq_ok_iff_derivable`: whatever has leaves is read (**completeness**,
`read_of_reads`), whatever is read has a tree (**soundness**, by the invariant `Behind` that one step of
`Stage.step` preserves), and two trees with the same leaves are equal (**unambiguity**, because no
argument and no call is the beginning of another). A parser with a stack comes to the same calls
(`ShiftReduce.parse_eq`).
-/

namespace CallScript
namespace Grammar

open Call (Stage OperandForm)

/-! ## Derivation trees -/

/-- `signed ::= ['-'] INT` -/
inductive SignedTree
  | plain (value : Int64)
  | negated (value : Int64)
deriving DecidableEq, Repr

/-- `arg`, one constructor for each of its alternatives. -/
inductive ArgTree
  | string (text : String)
  | hex (value : UInt64)
  | signed (number : SignedTree)
  | trueWord
  | falseWord
  | name (text : String)
  | constSigned (number : SignedTree)
  | constHex (value : UInt64)
  | varName (text : String)
  | varSigned (number : SignedTree)
deriving DecidableEq, Repr

/-- `call ::= Name '(' [arg (',' arg)*] ')' ';'` -/
structure CallTree where
  name : String
  args : List ArgTree
deriving DecidableEq, Repr

/-- `script ::= call+` -/
structure ScriptTree where
  first : CallTree
  later : List CallTree
deriving DecidableEq, Repr

/-! ### Leaves -/

def SignedTree.leaves : SignedTree → List Token
  | plain value   => [.integer value]
  | negated value => [.minus, .integer value]

def ArgTree.leaves : ArgTree → List Token
  | string text        => [.string text]
  | hex value          => [.hex value]
  | signed number      => number.leaves
  | trueWord           => [.trueWord]
  | falseWord          => [.falseWord]
  | name text          => [.name text]
  | constSigned number => [.constWord, .leftParen] ++ number.leaves ++ [.rightParen]
  | constHex value     => [.constWord, .leftParen, .hex value, .rightParen]
  | varName text       => [.varWord, .leftParen, .name text, .rightParen]
  | varSigned number   => [.varWord, .leftParen] ++ number.leaves ++ [.rightParen]

/-- `(',' arg)*` -/
def moreLeaves (args : List ArgTree) : List Token := args.flatMap fun arg => .comma :: arg.leaves

/-- `[arg (',' arg)*]` -/
def argLeaves : List ArgTree → List Token
  | [] => []
  | arg :: args => arg.leaves ++ moreLeaves args

def CallTree.leaves (t : CallTree) : List Token :=
  [.name t.name, .leftParen] ++ argLeaves t.args ++ [.rightParen, .semicolon]

/-- The calls of a script, in order. -/
def ScriptTree.calls (t : ScriptTree) : List CallTree := t.first :: t.later

def ScriptTree.leaves (t : ScriptTree) : List Token := t.calls.flatMap CallTree.leaves

/-! ### Meaning -/

def SignedTree.value : SignedTree → Int64
  | plain value   => value
  | negated value => -value

/-- The argument that a tree denotes. A hexadecimal constant is the signed value of its low 32 bits. -/
def ArgTree.argument : ArgTree → Argument
  | string text        => .str text none
  | hex value          => .hex value
  | signed number      => .int number.value
  | trueWord           => .bool true
  | falseWord          => .bool false
  | name text          => .enum text
  | constSigned number => .const number.value
  | constHex value     => .const (signedLow value)
  | varName text       => .var (.named text)
  | varSigned number   => .var (.index number.value)

theorem ArgTree.argument_constHex (value : UInt64) : ∃ low : Int64,
    (constHex value).argument = .const low ∧ low.toInt = (value.toNat : Int).bmod UInt32.size :=
  ⟨signedLow value, rfl, toInt_signedLow value⟩

/-- The call that a tree denotes where its name starts at `place`. -/
def CallTree.call (t : CallTree) (place : Position) : Call :=
  ⟨t.name, t.args.map ArgTree.argument, some place⟩

/-- The number of tokens in front of the call with number `i`, which is where its name stands. -/
def nameIndex (ts : List CallTree) (i : Nat) : Nat := ((ts.take i).flatMap CallTree.leaves).length

/-- `calls` is what a script denotes over the lexemes that it derives: one call per call tree, in order,
    each at the start of its own name. -/
def ScriptTree.Denotes (t : ScriptTree) (ls : List Lexeme) (calls : List Call) : Prop :=
  calls.length = t.calls.length ∧
    ∀ i c, t.calls[i]? = some c →
      ∃ l, ls[nameIndex t.calls i]? = some l ∧ l.token = .name c.name ∧ calls[i]? = some (c.call l.start)

/-! ## Unambiguity

No tree's leaves are the beginning of another's, so a row of tokens can be cut in one way only. -/

/-- The argument tree that a row of tokens begins with, and the tokens behind it: the first tokens tell
    any two alternatives apart. -/
def firstArg? : List Token → Option (ArgTree × List Token)
  | .string text :: xs     => some (.string text, xs)
  | .hex value :: xs       => some (.hex value, xs)
  | .integer value :: xs   => some (.signed (.plain value), xs)
  | .minus :: .integer value :: xs => some (.signed (.negated value), xs)
  | .trueWord :: xs        => some (.trueWord, xs)
  | .falseWord :: xs       => some (.falseWord, xs)
  | .name text :: xs       => some (.name text, xs)
  | .constWord :: .leftParen :: .integer value :: .rightParen :: xs =>
      some (.constSigned (.plain value), xs)
  | .constWord :: .leftParen :: .minus :: .integer value :: .rightParen :: xs =>
      some (.constSigned (.negated value), xs)
  | .constWord :: .leftParen :: .hex value :: .rightParen :: xs => some (.constHex value, xs)
  | .varWord :: .leftParen :: .name text :: .rightParen :: xs => some (.varName text, xs)
  | .varWord :: .leftParen :: .integer value :: .rightParen :: xs => some (.varSigned (.plain value), xs)
  | .varWord :: .leftParen :: .minus :: .integer value :: .rightParen :: xs =>
      some (.varSigned (.negated value), xs)
  | _ => none

/-- An argument tree is found again in front of any tokens. -/
theorem firstArg?_leaves (a : ArgTree) (xs : List Token) : firstArg? (a.leaves ++ xs) = some (a, xs) := by
  rcases a with _ | _ | ⟨_ | _⟩ | _ | _ | _ | ⟨_ | _⟩ | _ | _ | ⟨_ | _⟩ <;> rfl

theorem arg_leaves_inj {a b : ArgTree} {xs ys : List Token} (h : a.leaves ++ xs = b.leaves ++ ys) :
    a = b ∧ xs = ys := by
  have hfirst := congrArg firstArg? h
  rw [firstArg?_leaves, firstArg?_leaves, Option.some.injEq, Prod.mk.injEq] at hfirst
  exact hfirst

/-- No argument begins with a closing parenthesis. -/
theorem arg_leaves_ne_rightParen (a : ArgTree) (xs ys : List Token) :
    a.leaves ++ xs ≠ .rightParen :: ys := by
  intro h
  have hfirst := congrArg firstArg? h
  rw [firstArg?_leaves] at hfirst
  cases hfirst

theorem moreLeaves_inj {as bs : List ArgTree} {xs ys : List Token}
    (h : moreLeaves as ++ .rightParen :: xs = moreLeaves bs ++ .rightParen :: ys) :
    as = bs ∧ xs = ys := by
  induction as generalizing bs with
  | nil =>
      cases bs with
      | nil => exact ⟨rfl, by simpa [moreLeaves] using h⟩
      | cons b bs => simp [moreLeaves] at h
  | cons a as ih =>
      cases bs with
      | nil => simp [moreLeaves] at h
      | cons b bs =>
          simp only [moreLeaves, List.flatMap_cons, List.cons_append, List.append_assoc,
            List.cons.injEq, true_and] at h
          obtain ⟨hab, h⟩ := arg_leaves_inj h
          obtain ⟨hbs, hxs⟩ := ih h
          exact ⟨by rw [hab, hbs], hxs⟩

theorem argLeaves_inj {as bs : List ArgTree} {xs ys : List Token}
    (h : argLeaves as ++ .rightParen :: xs = argLeaves bs ++ .rightParen :: ys) :
    as = bs ∧ xs = ys := by
  cases as with
  | nil =>
      cases bs with
      | nil => exact ⟨rfl, by simpa [argLeaves] using h⟩
      | cons b bs =>
          rw [argLeaves, argLeaves, List.append_assoc] at h
          exact absurd h.symm (arg_leaves_ne_rightParen b _ _)
  | cons a as =>
      cases bs with
      | nil =>
          rw [argLeaves, argLeaves, List.append_assoc] at h
          exact absurd h (arg_leaves_ne_rightParen a _ _)
      | cons b bs =>
          rw [argLeaves, argLeaves, List.append_assoc, List.append_assoc] at h
          obtain ⟨hab, h⟩ := arg_leaves_inj h
          obtain ⟨hbs, hxs⟩ := moreLeaves_inj h
          exact ⟨by rw [hab, hbs], hxs⟩

theorem call_leaves_inj {t u : CallTree} {xs ys : List Token} (h : t.leaves ++ xs = u.leaves ++ ys) :
    t = u ∧ xs = ys := by
  obtain ⟨n, as⟩ := t
  obtain ⟨m, bs⟩ := u
  simp only [CallTree.leaves, List.append_assoc, List.cons_append, List.nil_append, List.cons.injEq,
    Token.name.injEq, true_and] at h
  obtain ⟨hname, h⟩ := h
  obtain ⟨hargs, h⟩ := argLeaves_inj h
  injection h with _ h
  exact ⟨by rw [hname, hargs], h⟩

theorem calls_leaves_inj {ts us : List CallTree}
    (h : ts.flatMap CallTree.leaves = us.flatMap CallTree.leaves) : ts = us := by
  induction ts generalizing us with
  | nil =>
      cases us with
      | nil => rfl
      | cons u us => simp [CallTree.leaves] at h
  | cons t ts ih =>
      cases us with
      | nil => simp [CallTree.leaves] at h
      | cons u us =>
          rw [List.flatMap_cons, List.flatMap_cons] at h
          obtain ⟨htu, h⟩ := call_leaves_inj h
          rw [htu, ih h]

/-- **The grammar is unambiguous**: a script is the only one with its leaves. -/
theorem script_leaves_inj {t u : ScriptTree} (h : t.leaves = u.leaves) : t = u := by
  have hcalls : t.calls = u.calls := calls_leaves_inj h
  injection hcalls with hfirst hlater
  cases t
  cases u
  simp only [ScriptTree.mk.injEq]
  exact ⟨hfirst, hlater⟩

/-! ## Completeness

Reading goes through the leaves of a tree without a complaint. What it makes of them is followed part by
part: an argument, the arguments behind it, a call, and all calls. -/

theorem read_nil (stage : Stage) : stage.read [] = .ok ([], stage) := rfl

/-- A lexeme that goes on with a statement leaves the others to the next stage. -/
theorem read_cons {stage next : Stage} {l : Lexeme} (ls : List Lexeme)
    (h : stage.step l = some (next, none)) : stage.read (l :: ls) = next.read ls := by
  rw [Stage.read, h]

/-- Lexemes that complete no statement leave the others to the stage that they end in. -/
theorem read_through {stage next : Stage} {xs : List Lexeme} (ys : List Lexeme)
    (h : stage.read xs = .ok ([], next)) : stage.read (xs ++ ys) = next.read ys := by
  rw [Stage.read_append, h]
  cases hy : next.read ys with
  | error l => simp only [hy]
  | ok p => simp only [hy, List.nil_append]

/-- The stages in front of an argument of `call`. -/
def Awaits (call : Call) (stage : Stage) : Prop := stage = .opened call ∨ stage = .separated call

theorem step_awaits {call : Call} {stage : Stage} (hstage : Awaits call stage) {l : Lexeme}
    (h : l.token ≠ .rightParen) : stage.step l = (Stage.startArgument call l.token).map (·, none) := by
  rcases hstage with rfl | rfl
  · unfold Stage.step
    split <;> simp_all
  · simp only [Stage.step]

/-- A token that makes an argument on its own is read as that argument. -/
theorem read_word {call : Call} {stage : Stage} (hstage : Awaits call stage) {t : Token} {arg : Argument}
    (ht : Stage.startArgument call t = some (.argued (call.push arg))) {ls : List Lexeme}
    (h : ls.map Lexeme.token = [t]) : stage.read ls = .ok ([], .argued (call.push arg)) := by
  obtain ⟨l, rfl, hl⟩ := List.map_eq_singleton_iff.mp h
  have hne : l.token ≠ .rightParen := by
    intro hr
    rw [← hl, hr] at ht
    cases ht
  rw [read_cons [] (by rw [step_awaits hstage hne, hl, ht]; rfl), read_nil]

theorem step_operandOpened {call : Call} {form : OperandForm} {l : Lexeme} {t : Token} {next : Stage}
    (hl : l.token = t) (ht : Stage.startContent call form t = some next) :
    (Stage.operandOpened call form).step l = some (next, none) := by
  simp only [Stage.step, hl, ht, Option.map_some]

theorem step_negated {call : Call} {form : Option OperandForm} {l : Lexeme} {value : Int64}
    (hl : l.token = .integer value) :
    (Stage.negated call form).step l = some (Stage.negate call form value, none) := by
  simp only [Stage.step, hl]

/-- A number inside an operand form is read as its content. -/
theorem read_operand_signed {call : Call} {form : OperandForm} {n : SignedTree} {ls : List Lexeme}
    (h : ls.map Lexeme.token = n.leaves) :
    (Stage.operandOpened call form).read ls = .ok ([], .operandFilled call (form.ofInt n.value)) := by
  cases n with
  | plain v =>
      obtain ⟨l, rfl, hl⟩ := List.map_eq_singleton_iff.mp h
      rw [read_cons [] (step_operandOpened hl rfl), read_nil]
      rfl
  | negated v =>
      obtain ⟨l, _, rfl, hl, h⟩ := List.map_eq_cons_iff.mp h
      obtain ⟨k, rfl, hk⟩ := List.map_eq_singleton_iff.mp h
      rw [read_cons _ (step_operandOpened hl rfl), read_cons [] (step_negated hk), read_nil]
      rfl

/-- An operand form whose content is read is read as an argument. -/
theorem read_operand {call : Call} {stage : Stage} (hstage : Awaits call stage) (form : OperandForm)
    {arg : Argument} (content : List Token)
    (hcontent : ∀ ls : List Lexeme, ls.map Lexeme.token = content →
      (Stage.operandOpened call form).read ls = .ok ([], .operandFilled call arg))
    {ls : List Lexeme} (h : ls.map Lexeme.token = [form.word, .leftParen] ++ content ++ [.rightParen]) :
    stage.read ls = .ok ([], .argued (call.push arg)) := by
  obtain ⟨xs, ys, rfl, hx, hys⟩ := List.map_eq_append_iff.mp h
  obtain ⟨y, rfl, hy⟩ := List.map_eq_singleton_iff.mp hys
  obtain ⟨l, _, rfl, hl, hx⟩ := List.map_eq_cons_iff.mp hx
  obtain ⟨k, zs, rfl, hk, hx⟩ := List.map_eq_cons_iff.mp hx
  have hne : l.token ≠ .rightParen := by
    rw [hl]
    cases form <;> nofun
  have hstep : stage.step l = some (.operand call form, none) := by
    rw [step_awaits hstage hne, hl]
    cases form <;> rfl
  have hopen : (Stage.operand call form).step k = some (.operandOpened call form, none) := by
    simp only [Stage.step, hk]
  have hclose : (Stage.operandFilled call arg).step y = some (.argued (call.push arg), none) := by
    simp only [Stage.step, hy]
  rw [List.cons_append, read_cons _ hstep, List.cons_append, read_cons _ hopen,
    read_through _ (hcontent zs hx), read_cons _ hclose, read_nil]

/-- An argument is read up to its end and added to its call. -/
theorem read_arg {call : Call} {stage : Stage} (hstage : Awaits call stage) {a : ArgTree}
    {ls : List Lexeme} (h : ls.map Lexeme.token = a.leaves) :
    stage.read ls = .ok ([], .argued (call.push a.argument)) := by
  cases a with
  | string text => exact read_word hstage rfl h
  | hex value => exact read_word hstage rfl h
  | signed n =>
      cases n with
      | plain value => exact read_word hstage rfl h
      | negated value =>
          obtain ⟨l, _, rfl, hl, h⟩ := List.map_eq_cons_iff.mp h
          obtain ⟨k, rfl, hk⟩ := List.map_eq_singleton_iff.mp h
          have hne : l.token ≠ .rightParen := by
            rw [hl]
            nofun
          have hstep : stage.step l = some (.negated call none, none) := by
            rw [step_awaits hstage hne, hl]
            rfl
          rw [read_cons _ hstep, read_cons [] (step_negated hk), read_nil]
          rfl
  | trueWord => exact read_word hstage rfl h
  | falseWord => exact read_word hstage rfl h
  | name text => exact read_word hstage rfl h
  | constSigned n => exact read_operand hstage .const n.leaves (fun _ => read_operand_signed) h
  | varSigned n => exact read_operand hstage .var n.leaves (fun _ => read_operand_signed) h
  | constHex value =>
      refine read_operand hstage .const [.hex value] (fun ls hls => ?_) h
      obtain ⟨l, rfl, hl⟩ := List.map_eq_singleton_iff.mp hls
      rw [read_cons [] (step_operandOpened hl rfl), read_nil]
      rfl
  | varName text =>
      refine read_operand hstage .var [.name text] (fun ls hls => ?_) h
      obtain ⟨l, rfl, hl⟩ := List.map_eq_singleton_iff.mp hls
      rw [read_cons [] (step_operandOpened hl rfl), read_nil]
      rfl

/-- Arguments behind a comma are read up to the last one. -/
theorem read_more {call : Call} {as : List ArgTree} {ls : List Lexeme}
    (h : ls.map Lexeme.token = moreLeaves as) :
    (Stage.argued call).read ls
      = .ok ([], .argued { call with args := call.args ++ as.map ArgTree.argument }) := by
  induction as generalizing call ls with
  | nil =>
      rw [List.map_eq_nil_iff.mp h, read_nil, List.map_nil, List.append_nil]
  | cons a as ih =>
      rw [moreLeaves, List.flatMap_cons, List.cons_append] at h
      obtain ⟨l, _, rfl, hl, h⟩ := List.map_eq_cons_iff.mp h
      obtain ⟨xs, ys, rfl, hxs, hys⟩ := List.map_eq_append_iff.mp h
      have hcomma : (Stage.argued call).step l = some (.separated call, none) := by
        simp only [Stage.step, hl]
      rw [read_cons _ hcomma, read_through _ (read_arg (.inr rfl) hxs), ih hys]
      simp [Call.push]

/-- Behind its opening parenthesis a call is read up to its closing one. -/
theorem read_args {call : Call} {as : List ArgTree} {ls : List Lexeme}
    (h : ls.map Lexeme.token = argLeaves as ++ [.rightParen]) :
    (Stage.opened call).read ls
      = .ok ([], .closed { call with args := call.args ++ as.map ArgTree.argument }) := by
  obtain ⟨xs, ys, rfl, hxs, hys⟩ := List.map_eq_append_iff.mp h
  obtain ⟨y, rfl, hy⟩ := List.map_eq_singleton_iff.mp hys
  cases as with
  | nil =>
      have hclose : (Stage.opened call).step y = some (.closed call, none) := by
        simp only [Stage.step, hy]
      rw [List.map_eq_nil_iff.mp hxs, List.nil_append, read_cons _ hclose, read_nil, List.map_nil,
        List.append_nil]
  | cons a as =>
      have hclose : ∀ c, (Stage.argued c).step y = some (.closed c, none) := by
        intro c
        simp only [Stage.step, hy]
      obtain ⟨us, vs, rfl, hus, hvs⟩ := List.map_eq_append_iff.mp hxs
      rw [List.append_assoc, read_through _ (read_arg (.inl rfl) hus), read_through _ (read_more hvs),
        read_cons _ (hclose _), read_nil]
      simp [Call.push]

/-- A call is read as what its tree denotes. -/
theorem read_call {t : CallTree} {l : Lexeme} {ls rest : List Lexeme}
    (h : (l :: ls).map Lexeme.token = t.leaves) {calls : List Call} {last : Stage}
    (hrest : Stage.statement.read rest = .ok (calls, last)) :
    Stage.statement.read (l :: ls ++ rest) = .ok (t.call l.start :: calls, last) := by
  -- grouped as reading takes them: the name, the parenthesis, the arguments to their end, the semicolon
  have htokens : (l :: ls).map Lexeme.token
      = .name t.name :: .leftParen :: ((argLeaves t.args ++ [.rightParen]) ++ [.semicolon]) := by
    rw [h, CallTree.leaves]
    simp
  obtain ⟨_, _, heq, hl, h⟩ := List.map_eq_cons_iff.mp htokens
  injection heq with hhead htail
  subst hhead
  subst htail
  obtain ⟨k, _, rfl, hk, h⟩ := List.map_eq_cons_iff.mp h
  obtain ⟨xs, ys, rfl, hxs, hys⟩ := List.map_eq_append_iff.mp h
  obtain ⟨y, rfl, hy⟩ := List.map_eq_singleton_iff.mp hys
  have hname : Stage.statement.step l = some (.named ⟨t.name, [], some l.start⟩, none) := by
    simp only [Stage.step, hl]
  have hopen : ∀ c, (Stage.named c).step k = some (.opened c, none) := by
    intro c
    simp only [Stage.step, hk]
  have hend : ∀ c, (Stage.closed c).step y = some (.statement, some c) := by
    intro c
    simp only [Stage.step, hy]
  rw [List.cons_append, read_cons _ hname, List.cons_append, read_cons _ (hopen _), List.append_assoc,
    read_through _ (read_args hxs), List.singleton_append, Stage.read, hend]
  simp only [hrest, List.nil_append, CallTree.call]

/-- `Reads ts ls calls`: the lexemes `ls` are derived by the call trees `ts`, and `calls` is what the
    trees denote there. -/
inductive Reads : List CallTree → List Lexeme → List Call → Prop
  | nil : Reads [] [] []
  | cons {t : CallTree} {ts : List CallTree} {l : Lexeme} {ls rest : List Lexeme} {calls : List Call}
      (htokens : (l :: ls).map Lexeme.token = t.leaves) (hrest : Reads ts rest calls) :
      Reads (t :: ts) (l :: ls ++ rest) (t.call l.start :: calls)

/-- Every row of lexemes with the leaves of some call trees is derived by them. -/
theorem exists_reads {ts : List CallTree} {ls : List Lexeme}
    (h : ls.map Lexeme.token = ts.flatMap CallTree.leaves) : ∃ calls, Reads ts ls calls := by
  induction ts generalizing ls with
  | nil =>
      rw [List.map_eq_nil_iff.mp h]
      exact ⟨[], .nil⟩
  | cons t ts ih =>
      obtain ⟨xs, ys, rfl, hxs, hys⟩ := List.map_eq_append_iff.mp h
      obtain ⟨calls, hcalls⟩ := ih hys
      cases xs with
      | nil => cases hxs
      | cons l xs => exact ⟨_, .cons hxs hcalls⟩

/-- **Completeness.** What call trees derive is read, as what they denote. -/
theorem read_of_reads {ts : List CallTree} {ls : List Lexeme} {calls : List Call}
    (h : Reads ts ls calls) : Stage.statement.read ls = .ok (calls, .statement) := by
  induction h with
  | nil => rfl
  | cons htokens _ ih => exact read_call htokens ih

/-! ## Soundness

`Behind stage ls` says what a stage knows of the lexemes of its unfinished statement: they spell out the
beginning of a call tree whose meaning so far is the call that the stage holds. -/

/-- The lexemes `ls` spell `tokens`, and `call` is what the call tree `t` denotes at the first of them. -/
def Spelled (call : Call) (t : CallTree) (tokens : List Token) (ls : List Lexeme) : Prop :=
  ∃ l rest, ls = l :: rest ∧ call = t.call l.start ∧ ls.map Lexeme.token = tokens

/-- The tokens of an unfinished call with its arguments so far. -/
def front (t : CallTree) : List Token := [.name t.name, .leftParen] ++ argLeaves t.args

/-- The tokens of an unfinished call in front of its next argument. -/
def ready (t : CallTree) : List Token := front t ++ if t.args = [] then [] else [.comma]

/-- What a stage knows of the lexemes of its unfinished statement. -/
def Behind : Stage → List Lexeme → Prop
  | .statement, ls => ls = []
  | .named call, ls => ∃ n, Spelled call ⟨n, []⟩ [.name n] ls
  | .opened call, ls => ∃ t, t.args = [] ∧ Spelled call t (ready t) ls
  | .separated call, ls => ∃ t, t.args ≠ [] ∧ Spelled call t (ready t) ls
  | .negated call none, ls => ∃ t, Spelled call t (ready t ++ [.minus]) ls
  | .negated call (some form), ls =>
      ∃ t, Spelled call t (ready t ++ [form.word, .leftParen, .minus]) ls
  | .operand call form, ls => ∃ t, Spelled call t (ready t ++ [form.word]) ls
  | .operandOpened call form, ls => ∃ t, Spelled call t (ready t ++ [form.word, .leftParen]) ls
  | .operandFilled call arg, ls =>
      ∃ t a tokens, ArgTree.leaves a = tokens ++ [.rightParen] ∧ a.argument = arg ∧
        Spelled call t (ready t ++ tokens) ls
  | .argued call, ls => ∃ t, t.args ≠ [] ∧ Spelled call t (front t) ls
  | .closed call, ls => ∃ t, Spelled call t (front t ++ [.rightParen]) ls

theorem behind_statement : Behind .statement [] := rfl

theorem Spelled.snoc {call : Call} {t : CallTree} {tokens : List Token} {ls : List Lexeme}
    (h : Spelled call t tokens ls) {l : Lexeme} {token : Token} (hl : l.token = token) :
    Spelled call t (tokens ++ [token]) (ls ++ [l]) := by
  obtain ⟨k, rest, rfl, hcall, htokens⟩ := h
  refine ⟨k, rest ++ [l], rfl, hcall, ?_⟩
  rw [List.map_append, htokens, List.map_singleton, hl]

/-- An argument behind the tokens of an unfinished call gives those of a call with one argument more. -/
theorem ready_append_leaves (t : CallTree) (a : ArgTree) :
    ready t ++ a.leaves = front ⟨t.name, t.args ++ [a]⟩ := by
  obtain ⟨name, args⟩ := t
  cases args with
  | nil => simp [ready, front, argLeaves, moreLeaves]
  | cons b bs => simp [ready, front, argLeaves, moreLeaves]

/-- A complete argument leads to the stage behind it. -/
theorem behind_argued {call : Call} {t : CallTree} (a : ArgTree) {ls : List Lexeme}
    (h : Spelled call t (ready t ++ a.leaves) ls) : Behind (.argued (call.push a.argument)) ls := by
  obtain ⟨l, rest, hls, hcall, htokens⟩ := h
  refine ⟨⟨t.name, t.args ++ [a]⟩, by simp, l, rest, hls, ?_, ?_⟩
  · rw [hcall]
    simp [Call.push, CallTree.call]
  · rw [htokens, ready_append_leaves]

theorem behind_startArgument {call : Call} {t : CallTree} {ls : List Lexeme} {l : Lexeme} {next : Stage}
    (hb : Spelled call t (ready t) ls) (h : Stage.startArgument call l.token = some next) :
    Behind next (ls ++ [l]) := by
  generalize hl : l.token = token at h
  cases token with
  | string text =>
      injection h with h
      exact h ▸ behind_argued (.string text) (hb.snoc hl)
  | hex value =>
      injection h with h
      exact h ▸ behind_argued (.hex value) (hb.snoc hl)
  | integer value =>
      injection h with h
      exact h ▸ behind_argued (.signed (.plain value)) (hb.snoc hl)
  | trueWord =>
      injection h with h
      exact h ▸ behind_argued .trueWord (hb.snoc hl)
  | falseWord =>
      injection h with h
      exact h ▸ behind_argued .falseWord (hb.snoc hl)
  | name text =>
      injection h with h
      exact h ▸ behind_argued (.name text) (hb.snoc hl)
  | minus =>
      injection h with h
      exact h ▸ ⟨t, hb.snoc hl⟩
  | constWord =>
      injection h with h
      exact h ▸ ⟨t, hb.snoc hl⟩
  | varWord =>
      injection h with h
      exact h ▸ ⟨t, hb.snoc hl⟩
  | leftParen | rightParen | comma | semicolon => cases h

/-- A complete content of an operand form leads to the stage behind it. -/
theorem behind_filled {call : Call} {t : CallTree} (a : ArgTree) {tokens : List Token}
    (ha : a.leaves = tokens ++ [.rightParen]) {ls : List Lexeme}
    (h : Spelled call t (ready t ++ tokens) ls) : Behind (.operandFilled call a.argument) ls :=
  ⟨t, a, tokens, ha, rfl, h⟩

theorem Spelled.snoc_append {call : Call} {t : CallTree} {xs ys : List Token} {ls : List Lexeme}
    (h : Spelled call t (xs ++ ys) ls) {l : Lexeme} {token : Token} (hl : l.token = token) :
    Spelled call t (xs ++ (ys ++ [token])) (ls ++ [l]) := by
  rw [← List.append_assoc]
  exact h.snoc hl

theorem behind_startContent {call : Call} {form : OperandForm} {ls : List Lexeme} {l : Lexeme}
    {next : Stage} (hb : Behind (.operandOpened call form) ls)
    (h : Stage.startContent call form l.token = some next) : Behind next (ls ++ [l]) := by
  obtain ⟨t, hb⟩ := hb
  generalize hl : l.token = token at h
  cases token with
  | integer value =>
      injection h with h
      cases form with
      | const => exact h ▸ behind_filled (.constSigned (.plain value)) rfl (hb.snoc_append hl)
      | var => exact h ▸ behind_filled (.varSigned (.plain value)) rfl (hb.snoc_append hl)
  | minus =>
      injection h with h
      exact h ▸ ⟨t, hb.snoc_append hl⟩
  | hex value =>
      cases form with
      | const =>
          injection h with h
          exact h ▸ behind_filled (.constHex value) rfl (hb.snoc_append hl)
      | var => cases h
  | name text =>
      cases form with
      | const => cases h
      | var =>
          injection h with h
          exact h ▸ behind_filled (.varName text) rfl (hb.snoc_append hl)
  | string _ | trueWord | falseWord | constWord | varWord | leftParen | rightParen | comma | semicolon =>
      cases h

/-- A step that completes no statement, as the equations that its stage and token leave. -/
theorem some_none_inj {a b : Stage} (h : some (a, (none : Option Call)) = some (b, none)) : a = b := by
  injection h with h
  injection h

/-- **One step keeps the invariant**: a lexeme that goes on with a statement is spelled behind the next
    stage. -/
theorem behind_step {stage next : Stage} {ls : List Lexeme} {l : Lexeme} (hb : Behind stage ls)
    (h : stage.step l = some (next, none)) : Behind next (ls ++ [l]) := by
  have mapped : ∀ {o : Option Stage}, o.map (·, (none : Option Call)) = some (next, none) →
      o = some next := by
    intro o ho
    obtain ⟨a, rfl, ha⟩ := Option.map_eq_some_iff.mp ho
    rw [(Prod.mk.inj ha).1]
  -- one case for each rule of `Stage.step`, in its order
  unfold Stage.step at h
  split at h
  · rename_i name hl
    rw [show ls = [] from hb, ← some_none_inj h]
    exact ⟨name, l, [], rfl, rfl, by rw [List.nil_append, List.map_singleton, hl]⟩
  · rename_i call hl
    obtain ⟨n, hb⟩ := hb
    exact some_none_inj h ▸ ⟨⟨n, []⟩, rfl, hb.snoc hl⟩
  · -- `(` and `)` with nothing between them
    rename_i call hl
    obtain ⟨t, ht, hb⟩ := hb
    rw [ready, if_pos ht, List.append_nil] at hb
    exact some_none_inj h ▸ ⟨t, hb.snoc hl⟩
  · rename_i call hl
    obtain ⟨t, ht, hb⟩ := hb
    exact behind_startArgument hb (mapped h)
  · rename_i call
    obtain ⟨t, ht, hb⟩ := hb
    exact behind_startArgument hb (mapped h)
  · -- the number behind a minus sign, on its own or in one of the two operand forms
    rename_i call form value hl
    rw [← some_none_inj h]
    cases form with
    | none =>
        obtain ⟨t, hb⟩ := hb
        exact behind_argued (.signed (.negated value)) (hb.snoc_append hl)
    | some form =>
        obtain ⟨t, hb⟩ := hb
        cases form with
        | const => exact behind_filled (.constSigned (.negated value)) rfl (hb.snoc_append hl)
        | var => exact behind_filled (.varSigned (.negated value)) rfl (hb.snoc_append hl)
  · rename_i call form hl
    obtain ⟨t, hb⟩ := hb
    exact some_none_inj h ▸ ⟨t, hb.snoc_append hl⟩
  · exact behind_startContent hb (mapped h)
  · rename_i call arg hl
    obtain ⟨t, a, tokens, hleaves, rfl, hb⟩ := hb
    exact some_none_inj h ▸ behind_argued a (hleaves ▸ hb.snoc_append hl)
  · -- the comma belongs to the tokens in front of the next argument
    rename_i call hl
    obtain ⟨t, ht, hb⟩ := hb
    refine some_none_inj h ▸ ⟨t, ht, ?_⟩
    rw [ready, if_neg ht]
    exact hb.snoc hl
  · rename_i call hl
    obtain ⟨t, _, hb⟩ := hb
    exact some_none_inj h ▸ ⟨t, hb.snoc hl⟩
  · cases h
  · cases h

/-- Only the semicolon behind a closing parenthesis completes a statement. -/
theorem step_completes {stage next : Stage} {l : Lexeme} {call : Call}
    (h : stage.step l = some (next, some call)) :
    stage = .closed call ∧ l.token = .semicolon ∧ next = .statement := by
  unfold Stage.step at h
  split at h <;> simp_all

/-- The lexeme that completes a statement completes the leaves of its tree. -/
theorem behind_complete {stage next : Stage} {ls : List Lexeme} {l : Lexeme} {call : Call}
    (hb : Behind stage ls) (h : stage.step l = some (next, some call)) :
    next = .statement ∧ ∃ t, Spelled call t t.leaves (ls ++ [l]) := by
  obtain ⟨rfl, hl, rfl⟩ := step_completes h
  obtain ⟨t, hb⟩ := hb
  refine ⟨rfl, t, ?_⟩
  have hspelled := hb.snoc hl
  rwa [front, List.append_assoc, List.append_assoc, List.singleton_append, ← List.append_assoc] at hspelled

/-- **Soundness.** Lexemes that are read to the end of a statement are derived by call trees, which denote
    the calls that were read. The invariant carries the lexemes of the statement that is unfinished. -/
theorem reads_of_read {stage : Stage} {before ls : List Lexeme} {calls : List Call}
    (hb : Behind stage before) (h : stage.read ls = .ok (calls, .statement)) :
    ∃ ts, Reads ts (before ++ ls) calls := by
  induction ls generalizing stage before calls with
  | nil =>
      injection h with h
      injection h with hcalls hstage
      subst hcalls hstage
      rw [show before = [] from hb]
      exact ⟨[], .nil⟩
  | cons l ls ih =>
      rw [Stage.read] at h
      split at h
      · cases h
      · rename_i next hstep
        obtain ⟨ts, hts⟩ := ih (behind_step hb hstep) h
        rw [List.append_assoc, List.singleton_append] at hts
        exact ⟨ts, hts⟩
      · -- the statement is finished: its tree is next, and the invariant starts again with nothing
        rename_i next call hstep
        obtain ⟨rfl, t, k, rest, hspelled, rfl, htokens⟩ := behind_complete hb hstep
        split at h
        · cases h
        · rename_i later last hread
          injection h with h
          injection h with hcalls hlast
          subst hcalls hlast
          obtain ⟨ts, hts⟩ := ih behind_statement hread
          refine ⟨t :: ts, ?_⟩
          rw [List.append_cons, hspelled]
          exact .cons (hspelled ▸ htokens) hts

/-! ## What is read and what is derived -/

theorem reads_leaves {ts : List CallTree} {ls : List Lexeme} {calls : List Call} (h : Reads ts ls calls) :
    ls.map Lexeme.token = ts.flatMap CallTree.leaves := by
  induction h with
  | nil => rfl
  | cons htokens _ ih => rw [List.map_append, htokens, ih, List.flatMap_cons]

theorem reads_length {ts : List CallTree} {ls : List Lexeme} {calls : List Call} (h : Reads ts ls calls) :
    calls.length = ts.length := by
  induction h with
  | nil => rfl
  | cons _ _ ih => rw [List.length_cons, List.length_cons, ih]

/-- The call with number `i` is what its tree denotes at the lexeme behind those of the earlier calls. -/
theorem reads_getElem? {ts : List CallTree} {ls : List Lexeme} {calls : List Call} (h : Reads ts ls calls)
    {i : Nat} {t : CallTree} (ht : ts[i]? = some t) :
    ∃ l, ls[nameIndex ts i]? = some l ∧ l.token = .name t.name ∧ calls[i]? = some (t.call l.start) := by
  induction h generalizing i with
  | nil => cases ht
  | @cons u ts l ls rest calls htokens hrest ih =>
      cases i with
      | zero =>
          injection ht with ht
          subst ht
          refine ⟨l, rfl, ?_, rfl⟩
          rw [CallTree.leaves] at htokens
          exact (List.cons.inj htokens).1
      | succ i =>
          obtain ⟨k, hk, hname, hcall⟩ := ih ht
          refine ⟨k, ?_, hname, hcall⟩
          have hlen : (l :: ls).length = u.leaves.length := by
            rw [← List.length_map, htokens]
          rw [nameIndex, List.take_succ_cons, List.flatMap_cons, List.length_append, ← hlen,
            List.getElem?_append_right (Nat.le_add_right _ _), Nat.add_sub_cancel_left]
          exact hk

theorem mem_argLeaves {args : List ArgTree} {a : ArgTree} (ha : a ∈ args) {t : Token} (ht : t ∈ a.leaves) :
    t ∈ argLeaves args := by
  cases args with
  | nil => cases ha
  | cons first args =>
      rcases List.mem_cons.mp ha with rfl | ha
      · exact List.mem_append_left _ ht
      · exact List.mem_append_right _ (List.mem_flatMap.mpr ⟨a, ha, List.mem_cons_of_mem _ ht⟩)

/-- A string that a call tree denotes is one of its leaves. -/
theorem string_mem_leaves {t : CallTree} {text : String} {slot : Option Nat}
    (h : Argument.str text slot ∈ t.args.map ArgTree.argument) : Token.string text ∈ t.leaves := by
  obtain ⟨a, ha, heq⟩ := List.mem_map.mp h
  refine List.mem_append_left _ (List.mem_append_right _ (mem_argLeaves ha ?_))
  cases a with
  | string s =>
      cases heq
      exact List.mem_singleton_self _
  | hex | signed | trueWord | falseWord | name | constSigned | constHex | varName | varSigned => cases heq

/-- The strings of the calls that are read stand in the lexemes. -/
theorem exists_string_of_reads {ts : List CallTree} {ls : List Lexeme} {calls : List Call}
    (h : Reads ts ls calls) {call : Call} (hcall : call ∈ calls) {text : String} {slot : Option Nat}
    (harg : Argument.str text slot ∈ call.args) : ∃ l ∈ ls, l.token = .string text := by
  induction h with
  | nil => cases hcall
  | @cons t ts l ls rest calls htokens _ ih =>
      rcases List.mem_cons.mp hcall with rfl | hcall
      · have hmem := string_mem_leaves harg
        rw [← htokens] at hmem
        obtain ⟨k, hk, htoken⟩ := List.mem_map.mp hmem
        exact ⟨k, List.mem_append_left _ hk, htoken⟩
      · obtain ⟨k, hk, htoken⟩ := ih hcall
        exact ⟨k, List.mem_append_right _ hk, htoken⟩

/-- What a script denotes over given lexemes is determined. -/
theorem denotes_unique {t : ScriptTree} {ls : List Lexeme} {calls calls' : List Call}
    (h : t.Denotes ls calls) (h' : t.Denotes ls calls') : calls = calls' := by
  apply List.ext_getElem?
  intro i
  cases ht : t.calls[i]? with
  | none =>
      have hi : t.calls.length ≤ i := List.getElem?_eq_none_iff.mp ht
      rw [List.getElem?_eq_none (h.1 ▸ hi), List.getElem?_eq_none (h'.1 ▸ hi)]
  | some c =>
      obtain ⟨l, hl, _, hc⟩ := h.2 i c ht
      obtain ⟨l', hl', _, hc'⟩ := h'.2 i c ht
      rw [hl] at hl'
      rw [hc, hc', Option.some.inj hl']

/-- A text parses if it is cut into tokens without a failure and they are read to the end of a last
    statement. -/
theorem parse_eq_ok_iff {text : String} {calls : List Call} :
    Call.parse text = .ok calls ↔ (Scan.ofText text).failure = none ∧ calls ≠ [] ∧
      Stage.statement.read (Scan.ofText text).lexemes = .ok (calls, .statement) := by
  rw [Call.parse]
  cases hread : Stage.statement.read (Scan.ofText text).lexemes with
  | error l => simp
  | ok p =>
      obtain ⟨read, last⟩ := p
      cases hfail : (Scan.ofText text).failure with
      | some failure => simp
      | none =>
          simp only [true_and, Except.ok.injEq, Prod.mk.injEq]
          split
          · rename_i hend
            simp only [Except.ok.injEq]
            exact ⟨fun h => ⟨h ▸ hend.2, h, hend.1⟩, fun h => h.2.1⟩
          · rename_i hend
            constructor
            · intro h
              cases h
            · rintro ⟨hne, rfl, rfl⟩
              exact absurd ⟨rfl, hne⟩ hend

/-- The strings of the calls of a text stand in its lexemes. -/
theorem exists_string_of_parse {source : String} {calls : List Call} (h : Call.parse source = .ok calls)
    {call : Call} (hcall : call ∈ calls) {text : String} {slot : Option Nat}
    (harg : Argument.str text slot ∈ call.args) :
    ∃ l ∈ (Scan.ofText source).lexemes, l.token = .string text := by
  obtain ⟨-, -, hread⟩ := parse_eq_ok_iff.mp h
  obtain ⟨ts, hreads⟩ := reads_of_read behind_statement hread
  exact exists_string_of_reads hreads hcall harg

/-- **Reading accepts exactly the grammar.** A text that is cut into tokens without a failure parses if
    and only if a script derives its tokens; the calls are what the script denotes, each at the start of
    its name, and no other script derives the tokens. A hexadecimal constant denotes its low 32 bits as a signed
    number. A parser with a stack, which collects the places by the side, reads the same from the text. -/
theorem parse_eq_ok_iff_derivable (text : String) (hscan : (Scan.ofText text).failure = none) :
    (∀ calls, Call.parse text = .ok calls ↔
      ∃ t : ScriptTree, t.leaves = (Scan.ofText text).lexemes.map Lexeme.token ∧
        t.Denotes (Scan.ofText text).lexemes calls) ∧
    (∀ t u : ScriptTree, t.leaves = (Scan.ofText text).lexemes.map Lexeme.token →
      u.leaves = (Scan.ofText text).lexemes.map Lexeme.token → t = u) ∧
    (∀ value : UInt64, ∃ low : Int64, (ArgTree.constHex value).argument = .const low ∧
      low.toInt = (value.toNat : Int).bmod UInt32.size) ∧
    ∀ setup, ShiftReduce.parse setup text = (Call.parse text).mapError .reported := by
  refine ⟨fun calls => ?_, fun t u ht hu => script_leaves_inj (ht.trans hu.symm),
    ArgTree.argument_constHex, fun setup => ShiftReduce.parse_eq setup text⟩
  rw [parse_eq_ok_iff]
  constructor
  · rintro ⟨_, hne, hread⟩
    obtain ⟨ts, hreads⟩ := reads_of_read behind_statement hread
    rw [List.nil_append] at hreads
    cases ts with
    | nil => exact absurd (List.length_eq_zero_iff.mp (reads_length hreads)) hne
    | cons t ts =>
        exact ⟨⟨t, ts⟩, (reads_leaves hreads).symm, reads_length hreads, fun i c => reads_getElem? hreads⟩
  · rintro ⟨t, hleaves, hdenotes⟩
    -- reading finds some calls for these leaves, and the script denotes no others
    obtain ⟨calls', hreads⟩ := exists_reads hleaves.symm
    have hdenotes' : t.Denotes (Scan.ofText text).lexemes calls' :=
      ⟨reads_length hreads, fun i c => reads_getElem? hreads⟩
    rw [denotes_unique hdenotes hdenotes']
    refine ⟨hscan, ?_, read_of_reads hreads⟩
    intro hnil
    have hlength := reads_length hreads
    rw [hnil] at hlength
    cases hlength

/-- A script with every kind of number, parsed as what it denotes. -/
theorem parse_derivable_numbers :
    (Scan.ofText "f(-1, Const(0xFFFFFFFF), Const(0x180000002));\n g(Var(-2));").failure = none ∧
      ∃ t : ScriptTree,
        t.leaves = (Scan.ofText
          "f(-1, Const(0xFFFFFFFF), Const(0x180000002));\n g(Var(-2));").lexemes.map Lexeme.token ∧
        t.Denotes (Scan.ofText "f(-1, Const(0xFFFFFFFF), Const(0x180000002));\n g(Var(-2));").lexemes
          [⟨"f", [.int (-1), .const (-1), .const (-2147483646)], some ⟨1, 1⟩⟩,
            ⟨"g", [.var (.index (-2))], some ⟨2, 2⟩⟩] := by
  have hscan : (Scan.ofText "f(-1, Const(0xFFFFFFFF), Const(0x180000002));\n g(Var(-2));").failure
      = none := by decide +kernel
  exact ⟨hscan, ((parse_eq_ok_iff_derivable _ hscan).1 _).mp (by decide +kernel)⟩

end Grammar
end CallScript
