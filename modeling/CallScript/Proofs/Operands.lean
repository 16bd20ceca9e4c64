import CallScript.Compile
import CallScript.Proofs.Seams

/-!
# `Proofs.Operands` — an operand and its explicit spelling

In the place of an operand a number is short for a constant, and a bare word for a variable. `Spelled` says
what is short for what, and `SpellsOut` that a row of arguments spells out some of another one, each of them
in the place of an operand. Fitting makes the same of both (`fitArgs_spellsOut`), so checking and assembling
cannot tell them apart (`assemble_spellsOut`).

In a text the explicit spelling takes more room. `Position.widened` moves the places behind it on its line, and
the two texts are then read side by side: the same lexemes in front of the seam, two spellings of one argument
at it, and the same lexemes behind it at places that are moved. `Compile.operand_sugar` puts this together, and
`Compile.places_widened` shows that the places do move.
-/

namespace CallScript

/-! ## Arguments -/

/-- The second argument is the explicit spelling of the first one as an operand. -/
inductive Argument.Spelled : Argument → Argument → Prop
  | int (value : Int64) : Spelled (.int value) (.const value)
  | hex (value : UInt64) : Spelled (.hex value) (.const (signedLow value))
  | word {name : String} (hname : name ≠ "") : Spelled (.enum name) (.var (.named name))

/-- The second row of arguments is the first one, some of it spelled out in places that are declared as
    operands. -/
inductive SpellsOut : (types : List ArgType) → (args args' : List Argument) → Prop
  | nil (types : List ArgType) : SpellsOut types [] []
  | keep {types : List ArgType} {args args' : List Argument} (arg : Argument)
      (later : SpellsOut types.tail args args') : SpellsOut types (arg :: args) (arg :: args')
  | spell {types : List ArgType} {args args' : List Argument} {arg arg' : Argument} (h : arg.Spelled arg')
      (later : SpellsOut types args args') : SpellsOut (.operand :: types) (arg :: args) (arg' :: args')

namespace SpellsOut

variable {types : List ArgType} {args args' : List Argument}

theorem snoc (h : SpellsOut types args args') (arg : Argument) :
    SpellsOut types (args ++ [arg]) (args' ++ [arg]) := by
  induction h with
  | nil types => exact .keep arg (.nil types.tail)
  | keep first _ ih => exact .keep first ih
  | spell hfirst _ ih => exact .spell hfirst ih

/-- One more argument is spelled out, if its place is that of an operand. -/
theorem snoc_spell (h : SpellsOut types args args') {arg arg' : Argument} (harg : arg.Spelled arg')
    (hplace : types[args.length]? = some .operand) : SpellsOut types (args ++ [arg]) (args' ++ [arg']) := by
  induction h with
  | nil types =>
      cases types with
      | nil => cases hplace
      | cons type types =>
          cases hplace
          exact .spell harg (.nil types)
  | @keep types _ _ first _ ih =>
      refine .keep first (ih ?_)
      rw [List.getElem?_tail]
      exact hplace
  | spell hfirst _ ih =>
      rw [List.length_cons, List.getElem?_cons_succ] at hplace
      exact .spell hfirst (ih hplace)

theorem length_eq (h : SpellsOut types args args') : args'.length = args.length := by
  induction h with
  | nil => rfl
  | keep _ _ ih => simp [ih]
  | spell _ _ ih => simp [ih]

/-- Spelling out neither makes nor removes the nameless word that stands for no arguments. -/
theorem nameless_iff (h : SpellsOut types args args') : args' = [.enum ""] ↔ args = [.enum ""] := by
  cases h with
  | nil => exact Iff.rfl
  | keep arg later =>
      have hlength := later.length_eq
      simp only [List.cons.injEq, ← List.length_eq_zero_iff, hlength]
  | spell harg later =>
      cases harg with
      | int value => simp
      | hex value => simp
      | word hname => simp [hname]

end SpellsOut

theorem ArgType.fit?_spelled {arg arg' : Argument} (h : arg.Spelled arg') :
    operand.fit? arg' = some arg' ∧ operand.fit? arg = some arg' := by
  cases h <;> exact ⟨rfl, rfl⟩

/-! ## Calls -/

namespace Call

variable {set : InstructionSet} {order : ByteOrder} {types : List ArgType} {args args' : List Argument}
  {call call' : Call}

/-- **Fitting makes the same of both spellings**, and finds the same fault. -/
theorem fitArgs_spellsOut (h : SpellsOut types args args') (index : Nat) :
    (fitArgs index types args').2 = (fitArgs index types args).2 ∧
      ((fitArgs index types args).2 = none →
        (fitArgs index types args').1 = (fitArgs index types args).1) := by
  induction h generalizing index with
  | nil types => exact ⟨rfl, fun _ => rfl⟩
  | @keep types args args' arg _ ih =>
      cases types with
      | nil =>
          -- no places are left, so nothing is spelled out
          have hargs : args' = args := (ih index).2 (by simp [fitArgs])
          rw [hargs]
          exact ⟨rfl, fun _ => rfl⟩
      | cons type types =>
          obtain ⟨hfault, hfitted⟩ := ih (index + 1)
          rw [List.tail_cons] at hfault hfitted
          rw [fitArgs, fitArgs]
          cases type.fit? arg with
          | none => exact ⟨rfl, fun h => absurd h (by simp)⟩
          | some first => exact ⟨hfault, fun h => congrArg (first :: ·) (hfitted h)⟩
  | @spell types args args' arg arg' harg _ ih =>
      obtain ⟨hfault, hfitted⟩ := ih (index + 1)
      obtain ⟨hlong, hshort⟩ := ArgType.fit?_spelled harg
      rw [fitArgs, fitArgs, hlong, hshort]
      exact ⟨hfault, fun h => congrArg (arg' :: ·) (hfitted h)⟩

/-- The types of the places of an instruction, if there is one of that name. -/
def placesOf (set : InstructionSet) (name : String) : List ArgType :=
  match set.resolve? name with
  | some i => i.args
  | none => []

theorem placesOf_of_resolve? {name : String} {i : Instruction} (h : set.resolve? name = some i) :
    placesOf set name = i.args := by
  rw [placesOf, h]

theorem givenArgs_spellsOut (h : SpellsOut types call.args call'.args) :
    SpellsOut types call.givenArgs call'.givenArgs := by
  rw [givenArgs, givenArgs]
  by_cases hempty : call.args = [.enum ""]
  · rw [if_pos hempty, if_pos (h.nameless_iff.mpr hempty)]
    exact .nil types
  · rw [if_neg hempty, if_neg fun h' => hempty (h.nameless_iff.mp h')]
    exact h

/-- **Checking finds the same about both spellings**, and leaves the same arguments if it finds no fault. -/
theorem check_spellsOut (hname : call'.name = call.name)
    (hargs : SpellsOut (placesOf set call.name) call.args call'.args) :
    (call'.check set).2 = (call.check set).2 ∧
      ∀ c, (call.check set).2 = .ok c → (call'.check set).1.args = (call.check set).1.args := by
  rw [check, check, hname]
  cases hresolves : set.resolve? call.name with
  | none => exact ⟨rfl, fun c h => by cases h⟩
  | some i =>
      rw [placesOf_of_resolve? hresolves] at hargs
      have hgiven := givenArgs_spellsOut hargs
      obtain ⟨hfault, hfitted⟩ := fitArgs_spellsOut hgiven 0
      dsimp only
      rw [hgiven.length_eq, hfault]
      by_cases hcount : call.givenArgs.length = i.args.length
      · rw [if_pos hcount, if_pos hcount]
        cases hnone : (fitArgs 0 i.args call.givenArgs).2 with
        | some e => exact ⟨rfl, fun c h => by cases h⟩
        | none => simp [hfitted hnone]
      · rw [if_neg hcount, if_neg hcount]
        exact ⟨rfl, fun c h => by cases h⟩

/-- **Both spellings are assembled alike**, to the same fragment or the same complaint. -/
theorem assemble_spellsOut (hname : call'.name = call.name)
    (hargs : SpellsOut (placesOf set call.name) call.args call'.args) :
    call'.assemble set order = call.assemble set order := by
  obtain ⟨hfound, hfitted⟩ := check_spellsOut hname hargs
  rw [assemble, assemble]
  generalize call'.check set = left' at hfound hfitted ⊢
  generalize call.check set = left at hfound hfitted ⊢
  obtain ⟨after', found'⟩ := left'
  obtain ⟨after, found⟩ := left
  dsimp only at hfound hfitted
  subst hfound
  cases found' with
  | error e => rfl
  | ok c =>
      dsimp only
      rw [hfitted c rfl]

/-- The second call is the first one at another place, with some arguments spelled out that stand in the places
    of operands. -/
structure Respelled (set : InstructionSet) (f : Position → Position) (call call' : Call) : Prop where
  name : call'.name = call.name
  args : SpellsOut (placesOf set call.name) call.args call'.args
  place : call'.place = call.place.map f

theorem tracks_respelled (set : InstructionSet) (f : Position → Position) :
    Tracks (Respelled set f) fun p p' => p' = f p where
  begin := by
    rintro name p p' rfl
    exact ⟨rfl, .nil _, rfl⟩
  push := by
    intro call call' arg h
    exact ⟨h.name, h.args.snoc arg, h.place⟩

end Call

/-! ## Scripts -/

/-- The complaint about a call that stands at another place. -/
def CallFailure.moved (f : Position → Position) (failure : CallFailure) : CallFailure :=
  { failure with place := failure.place.map f }

/-- The compile error of a text in which the places are moved. -/
def CompileError.moved (f : Position → Position) : CompileError → CompileError
  | parse e  => parse (e.moved f)
  | calls fs => calls (fs.map (CallFailure.moved f))

namespace Assembly

variable {set : InstructionSet} {order : ByteOrder} {f : Position → Position} {calls calls' : List Call}

theorem failures_respelled (h : List.Forall₂ (Call.Respelled set f) calls calls') (index : Nat) :
    failures set order index calls' = (failures set order index calls).map (CallFailure.moved f) := by
  induction h generalizing index with
  | nil => rfl
  | @cons call call' calls calls' hcall _ ih =>
      rw [failures, failures, Call.assemble_spellsOut hcall.name hcall.args]
      cases call.assemble set order with
      | ok fragment => exact ih (index + 1)
      | error e =>
          dsimp only
          rw [ih (index + 1), hcall.name, hcall.place, List.map_cons]
          rfl

theorem fragments_respelled (h : List.Forall₂ (Call.Respelled set f) calls calls') :
    fragments set order calls' = fragments set order calls := by
  induction h with
  | nil => rfl
  | cons hcall _ ih =>
      rw [fragments] at ih ⊢
      rw [fragments, List.filterMap_cons, List.filterMap_cons, ih,
        Call.assemble_spellsOut hcall.name hcall.args]
      rfl

/-- **Both spellings of a script are assembled alike**: to the same image, or to the same complaints at the
    places of the calls. -/
theorem assemble_respelled (h : List.Forall₂ (Call.Respelled set f) calls calls') :
    assemble set order calls'
      = (assemble set order calls).mapError (List.map (CallFailure.moved f)) := by
  rw [assemble, assemble, failures_respelled h, fragments_respelled h]
  cases failures set order 0 calls with
  | nil => rfl
  | cons first fs => rfl

/-- At the same places, nothing differs. -/
theorem assemble_respelled_id (h : List.Forall₂ (Call.Respelled set id) calls calls') :
    assemble set order calls' = assemble set order calls := by
  have hmoved : CallFailure.moved id = id := by
    funext failure
    simp [CallFailure.moved]
  rw [assemble_respelled h, hmoved, List.map_id_fun]
  cases assemble set order calls <;> rfl

end Assembly

namespace Compile

/-- **Two texts whose scripts are spelled differently compile alike**, up to the places in their errors. -/
theorem compile_respelled {set : InstructionSet} {f : Position → Position} {text text' : String}
    (h : (∃ e, Call.parse text = .error e ∧ Call.parse text' = .error (e.moved f)) ∨
      ∃ calls calls', Call.parse text = .ok calls ∧ Call.parse text' = .ok calls' ∧
        List.Forall₂ (Call.Respelled set f) calls calls') (order : ByteOrder) :
    compile set order text' = (compile set order text).mapError (CompileError.moved f) := by
  rw [compile, compile, image, image]
  rcases h with ⟨e, hparse, hparse'⟩ | ⟨calls, calls', hparse, hparse', hcalls⟩
  · rw [hparse, hparse']
    rfl
  · rw [hparse, hparse']
    dsimp only
    rw [Assembly.assemble_respelled hcalls]
    cases Assembly.assemble set order calls <;> rfl

end Compile

/-! ## A wider text -/

namespace Position

/-- What becomes of a place if the text at `p` takes `n` more columns: behind `p` on its line, the place is that
    much further right. -/
def widened (p : Position) (n : Nat) (q : Position) : Position :=
  if q.line = p.line ∧ p.column < q.column then ⟨q.line, q.column + n⟩ else q

/-- `q` comes behind `p`. -/
def Behind (p q : Position) : Prop := p.line < q.line ∨ q.line = p.line ∧ p.column < q.column

theorem shifts_widened (p : Position) (n : Nat) : Shifts (widened p n) (Behind p) where
  stays := by
    intro q c hq
    unfold next
    split
    · left
      rcases hq with hq | hq <;> simp <;> omega
    · split
      · exact hq.imp id fun h => ⟨h.1, Nat.lt_add_right _ h.2⟩
      · exact hq.imp id fun h => ⟨h.1, Nat.lt_add_right _ h.2⟩
  next := by
    intro q c hq
    have hline : (widened p n q).line = q.line := by
      unfold widened
      split <;> rfl
    by_cases hfeed : c = '\n'
    · -- the next line is not that of `p`
      have hne : ¬ (q.line + 1 = p.line) := by
        rcases hq with hq | hq <;> omega
      rw [next, next, if_pos hfeed, if_pos hfeed, hline, widened, if_neg fun h => hne h.1]
    · have hright : ∀ m, widened p n ⟨q.line, q.column + m⟩ = ⟨q.line, (widened p n q).column + m⟩ := by
        intro m
        unfold widened
        rcases hq with hq | ⟨hsame, hlt⟩
        · have hne : q.line ≠ p.line := by omega
          simp [hne]
        · have hlt' : p.column < q.column + m := by omega
          simp [hsame, hlt, hlt', Nat.add_right_comm]
      rw [next, next, if_neg hfeed, if_neg hfeed, hline]
      split
      · exact hright _
      · exact hright _

theorem widened_of_not_behind {p q : Position} (h : ¬ p.Behind q) (n : Nat) : p.widened n q = q :=
  if_neg fun hq => h (.inr hq)

/-- Places are passed in order. -/
theorem not_behind_after (p : Position) (cs : List Char) : ¬ (p.after cs).Behind p := by
  unfold Behind
  induction cs generalizing p with
  | nil => simp
  | cons c cs ih =>
      have hstep : p.line < (p.next c).line ∨ p.line = (p.next c).line ∧ p.column ≤ (p.next c).column := by
        unfold next
        split
        · exact .inl (Nat.lt_succ_self _)
        · split <;> exact .inr ⟨rfl, Nat.le_add_right _ _⟩
      have hlater := ih (p.next c)
      rw [after_cons]
      omega

/-- A text without a line feed takes a number of columns, wherever it stands. -/
theorem exists_columns {cs : List Char} (h : '\n' ∉ cs) : ∃ n, ∀ p : Position,
    p.after cs = ⟨p.line, p.column + n⟩ := by
  induction cs with
  | nil => exact ⟨0, fun p => rfl⟩
  | cons c cs ih =>
      rw [List.mem_cons, not_or] at h
      obtain ⟨n, hn⟩ := ih h.2
      have hnext : ∃ m, ∀ p : Position, p.next c = ⟨p.line, p.column + m⟩ := by
        unfold next
        by_cases htab : c = '\t'
        · exact ⟨tabWidth, fun p => by simp [htab]⟩
        · exact ⟨Width.of c, fun p => by simp [htab, Ne.symm h.1]⟩
      obtain ⟨m, hm⟩ := hnext
      refine ⟨m + n, fun p => ?_⟩
      rw [after_cons, hn, hm, Nat.add_assoc]

end Position

namespace Scan

/-- The lexemes in front of a seam stay where they are if the text behind it gets wider. -/
theorem CutOff.widened {p : Position} {front rest : List Char} {ls : List Lexeme}
    (h : CutOff p front rest ls) (n : Nat) : ∀ l ∈ ls, (p.after front).widened n l.start = l.start := by
  induction h with
  | nil => exact fun l hl => absurd hl List.not_mem_nil
  | cons hw _ ih =>
      intro l hl
      rcases List.mem_append.mp hl with hl | hl
      · rw [hw.start l hl]
        exact Position.widened_of_not_behind (Position.not_behind_after _ _) n
      · rw [Position.after_append]
        exact ih l hl

/-- A hexadecimal literal is written with `0x` and hexadecimal digits. -/
theorem Takes.exists_digits {p : Position} {w rest : List Char} {l : Lexeme} {value : UInt64}
    (h : Takes p w rest [l]) (hl : l.token = .hex value) :
    ∃ ds, w = '0' :: 'x' :: ds ∧ ∀ d ∈ ds, Numeral.isHexDigit d = true := by
  obtain ⟨s, hbegins, hmean⟩ := h.exists_begins
  have hdenotes := Stretch.denotes_of_begins hbegins
  rw [hmean, hl] at hdenotes
  obtain ⟨ds, hw, -, hds⟩ := Pattern.mem_hexadecimal_iff.mp hdenotes.2.1
  exact ⟨ds, hw, hds⟩

/-- The constant of a literal, as it is written. -/
def constOf (literal : List Char) : List Char :=
  ['C', 'o', 'n', 's', 't'] ++ (['('] ++ (literal ++ [')']))

/-- A constant is cut into its four tokens. -/
theorem exists_cutOff_const {p : Position} {w rest : List Char} {l : Lexeme} (h : Takes p w rest [l])
    (q : Position) : ∃ ls, ls.map Lexeme.token = [.constWord, .leftParen, l.token, .rightParen] ∧
      CutOff q (constOf w) rest ls := by
  obtain ⟨s, hbegins, hmean⟩ := h.exists_begins
  have hword : Stretch.Begins ['C', 'o', 'n', 's', 't'] (['('] ++ (w ++ [')']) ++ rest) .word :=
    .word rfl (List.all_eq_true.mp rfl) (Token.ended_cons _ rfl)
  have hopen : Stretch.Begins ['('] (w ++ [')'] ++ rest) (.mark .leftParen) := .mark rfl
  have hclose : Stretch.Begins [')'] rest (.mark .rightParen) := .mark rfl
  have hliteral : Stretch.Begins w ([')'] ++ rest) s := by
    -- what closes the constant also ends the literal
    have hreplaces : Stretch.Replaces ([')'] ++ rest) rest := .inl (Token.ended_cons rest rfl)
    have hnext : Stretch.Begins w ([] ++ rest) s := hbegins
    rcases hnext.swap hreplaces with h | ⟨-, -, hgap⟩
    · exact h
    · rw [hmean] at hgap
      cases hgap
  refine ⟨_, ?_, (Takes.token hword rfl).cutOff.append ((Takes.token hopen rfl).cutOff.append
    ((Takes.token hliteral hmean).cutOff.append (Takes.token hclose rfl).cutOff))⟩
  rfl

/-- A constant takes seven columns more than its literal. -/
theorem after_constOf {w : List Char} {ds : List Char} (hw : w = '0' :: 'x' :: ds)
    (hds : ∀ d ∈ ds, Numeral.isHexDigit d = true) (p : Position) :
    p.Behind (p.after w) ∧ p.after (constOf w) = p.widened 7 (p.after w) := by
  have hfeed : '\n' ∉ 'x' :: ds := by
    intro hmem
    rcases List.mem_cons.mp hmem with hx | hmem
    · cases hx
    · cases hds _ hmem
  obtain ⟨n, hn⟩ := Position.exists_columns hfeed
  have hfirst : ∀ q : Position, q.after w = ⟨q.line, q.column + 1 + n⟩ := by
    intro q
    rw [hw, Position.after_cons, hn]
    rfl
  have hconst : p.after (constOf w) = ⟨p.line, p.column + 6 + 1 + n + 1⟩ := by
    have hfront : (p.after ['C', 'o', 'n', 's', 't']).after ['('] = ⟨p.line, p.column + 6⟩ := rfl
    rw [constOf, Position.after_append, Position.after_append, Position.after_append, hfront, hfirst]
    rfl
  have hlt : p.column < p.column + 1 + n := by omega
  rw [hconst, hfirst]
  refine ⟨.inr ⟨rfl, hlt⟩, ?_⟩
  rw [Position.widened, if_pos ⟨rfl, hlt⟩, Position.mk.injEq]
  refine ⟨rfl, ?_⟩
  show p.column + 6 + 1 + n + 1 = p.column + 1 + n + 7
  omega

end Scan

/-! ## Main results -/

namespace Call

/-- Behind the lexemes, a script goes on with an argument in the place of an operand. -/
def OperandNext (set : InstructionSet) (ls : List Lexeme) : Prop :=
  ∃ calls stage call i, Stage.statement.read ls = .ok (calls, stage) ∧ Grammar.Awaits call stage ∧
    set.resolve? call.name = some i ∧ i.args[call.args.length]? = some .operand

/-- **Both spellings of an operand are read to the same stage**, with one argument each. -/
theorem read_const {set : InstructionSet} {f : Position → Position} {ls consts : List Lexeme} {l : Lexeme}
    {value : UInt64} (hplace : OperandNext set ls) (hfixed : ∀ k ∈ ls, f k.start = k.start)
    (hl : l.token = .hex value)
    (hconsts : consts.map Lexeme.token = [.constWord, .leftParen, .hex value, .rightParen]) :
    Stage.ReadPaired (Respelled set f) (fun p p' => p' = f p) (Stage.statement.read (ls ++ [l]))
      (Stage.statement.read (ls ++ consts)) := by
  obtain ⟨calls, stage, call, i, hread, hawaits, hresolves, hoperand⟩ := hplace
  -- up to the operand the two runs are one, and nothing has moved
  have hsame : List.Forall₂ (Lexeme.Paired fun p p' => p' = f p) ls ls :=
    List.forall₂_same.mpr fun k hk => ⟨rfl, (hfixed k hk).symm⟩
  have hfront := Stage.read_paired (tracks_respelled set f) hsame .statement
  rw [hread] at hfront
  cases hfront with
  | ok hcalls hstage =>
      have hcall : Respelled set f call call := by
        rcases hawaits with rfl | rfl
        · cases hstage
          assumption
        · cases hstage
          assumption
      have hshort : stage.read [l] = .ok ([], .argued (call.push (.hex value))) :=
        Grammar.read_word hawaits rfl (by rw [List.map_singleton, hl])
      have hlong : stage.read consts = .ok ([], .argued (call.push (.const (signedLow value)))) := by
        refine Grammar.read_operand hawaits .const [.hex value] (fun ms hms => ?_) hconsts
        obtain ⟨m, rfl, hm⟩ := List.map_eq_singleton_iff.mp hms
        rw [Grammar.read_cons [] (Grammar.step_operandOpened hm rfl), Grammar.read_nil]
      have hpushed : Respelled set f (call.push (.hex value)) (call.push (.const (signedLow value))) := by
        refine ⟨hcall.name, hcall.args.snoc_spell (.hex value) ?_, hcall.place⟩
        rw [placesOf_of_resolve? hresolves]
        exact hoperand
      rw [Stage.read_append, Stage.read_append, hread]
      dsimp only
      rw [hshort, hlong]
      exact .ok (List.rel_append hcalls .nil) (.argued hpushed)

end Call

namespace Compile

open Call (OperandNext Respelled)

/-- **A literal in the place of an operand can be written as a constant.** -/
theorem compile_const {set : InstructionSet} {text : String} {ls later : List Lexeme} {l : Lexeme}
    {value : UInt64} (hlexemes : (Scan.ofText text).lexemes = ls ++ l :: later) (hl : l.token = .hex value)
    (hplace : OperandNext set ls) : ∃ front rest, text.toList = front ++ (l.text ++ rest) ∧
      l.start = Position.first.after front ∧
      (Scan.ofText (String.ofList (front ++ (Scan.constOf l.text ++ rest)))).lexemes.map Lexeme.token
        = ls.map Lexeme.token ++ [.constWord, .leftParen, .hex value, .rightParen]
          ++ later.map Lexeme.token ∧
      ∀ order, compile set order (String.ofList (front ++ (Scan.constOf l.text ++ rest)))
        = (compile set order text).mapError (CompileError.moved (l.start.widened 7)) := by
  obtain ⟨front, rest, htext, hcut, htakes⟩ := Scan.exists_cutOff hlexemes
  have hstart : l.start = Position.first.after front := htakes.start l (List.mem_singleton_self l)
  refine ⟨front, rest, htext, hstart, ?_⟩
  generalize htext' : String.ofList (front ++ (Scan.constOf l.text ++ rest)) = text'
  obtain ⟨ds, hliteral, hds⟩ := htakes.exists_digits hl
  obtain ⟨hbehind, hwide⟩ := Scan.after_constOf hliteral hds l.start
  obtain ⟨consts, hconsts, hconst⟩ := Scan.exists_cutOff_const htakes l.start
  rw [hl] at hconsts
  -- the text as it is: up to the literal, the literal, and what is behind it
  have hscan : Scan.ofText text = Scan.behind (ls ++ [l]) (Scan.scanFrom (l.start.after l.text) rest) := by
    have hscan := (hcut.append htakes.cutOff).scanFrom
    rw [Position.after_append, ← hstart, List.append_assoc, ← htext] at hscan
    exact hscan
  -- the text with the constant: the same up to it, and behind it all is moved
  have hscan' : Scan.ofText text'
      = Scan.behind (ls ++ consts) ((Scan.scanFrom (l.start.after l.text) rest).moved (l.start.widened 7)) := by
    have hdigit : Stretch.Replaces (Scan.constOf l.text ++ rest) (l.text ++ rest) :=
      .inr ⟨'0', by rw [hliteral]; rfl, rfl⟩
    have hne : l.text ++ rest ≠ [] := by simp [hliteral]
    have hscan := ((hcut.swap hne hdigit).append (hstart ▸ hconst)).scanFrom
    rw [Position.after_append, ← hstart, hwide, List.append_assoc,
      Scan.scanFrom_moved (Position.shifts_widened l.start 7) hbehind] at hscan
    rw [Scan.ofText, ← htext', String.toList_ofList]
    exact hscan
  have hlater : later = (Scan.scanFrom (l.start.after l.text) rest).lexemes := by
    rw [hscan] at hlexemes
    have hboth : ls ++ l :: (Scan.scanFrom (l.start.after l.text) rest).lexemes = ls ++ l :: later := by
      rw [← hlexemes, Scan.behind, List.append_assoc, List.singleton_append]
    simpa using hboth.symm
  constructor
  · rw [hscan', hlater, Scan.behind, Scan.moved]
    simp [hconsts, Lexeme.moved]
  · intro order
    refine compile_respelled (Call.parse_paired ?_ ?_) order
    · rw [hscan, hscan']
      refine Call.Stage.read_append_paired (Call.tracks_respelled set _)
        (Call.read_const hplace ?_ hl hconsts) ?_
      · rw [hstart]
        exact hcut.widened 7
      · exact Lexeme.forall₂_moved _ _
    · rw [hscan, hscan']
      rfl

/-- **An operand and its explicit spelling mean the same.** In a list of calls, arguments in the places of
    operands can be spelled out without any effect on the image or on the complaints. In a text, a literal in
    the place of an operand can be written as a constant. Its tokens take the place of the literal among the
    others, and the text compiles to the same bytes or to the same error, in which only the places behind the
    literal on its line are moved: they are seven columns further right. -/
theorem operand_sugar (set : InstructionSet) (order : ByteOrder) :
    (∀ calls calls', List.Forall₂ (Respelled set id) calls calls' →
      Assembly.assemble set order calls' = Assembly.assemble set order calls) ∧
    ∀ text ls l later value, (Scan.ofText text).lexemes = ls ++ l :: later → l.token = .hex value →
      OperandNext set ls → ∃ front rest, text.toList = front ++ (l.text ++ rest) ∧
        l.start = Position.first.after front ∧
        (Scan.ofText (String.ofList (front ++ (Scan.constOf l.text ++ rest)))).lexemes.map Lexeme.token
          = ls.map Lexeme.token ++ [.constWord, .leftParen, .hex value, .rightParen]
            ++ later.map Lexeme.token ∧
        compile set order (String.ofList (front ++ (Scan.constOf l.text ++ rest)))
          = (compile set order text).mapError (CompileError.moved (l.start.widened 7)) := by
  constructor
  · intro calls calls' hcalls
    exact Assembly.assemble_respelled_id hcalls
  · intro text ls l later value hlexemes hl hplace
    obtain ⟨front, rest, htext, hstart, htokens, hcompile⟩ := compile_const hlexemes hl hplace
    exact ⟨front, rest, htext, hstart, htokens, hcompile order⟩

/-- A set with one instruction, which takes an operand. -/
def addSet : InstructionSet where
  instructions := [⟨1, some "add", [.operand], .plain⟩]
  vars := .empty
  enums := .empty
  jumpNames := []
  ascending := by decide
  namedOnce := by decide

theorem operandNext_add : OperandNext addSet ((Scan.ofText "add(0x1); bad();").lexemes.take 2) :=
  ⟨[], .opened ⟨"add", [], some ⟨1, 1⟩⟩, ⟨"add", [], some ⟨1, 1⟩⟩, ⟨1, some "add", [.operand], .plain⟩,
    by decide +kernel, .inl rfl, by decide +kernel, rfl⟩

/-- Literals whose low halves are negative, and one in front of a call that fails. -/
theorem operand_sugar_add :
    List.Forall₂ (Respelled addSet id)
        [⟨"add", [.hex 0x1FFFFFFFF], none⟩, ⟨"add", [.hex 0x180000002], none⟩]
        [⟨"add", [.const (-1)], none⟩, ⟨"add", [.const (-2147483646)], none⟩] ∧
      Assembly.assemble addSet .little [⟨"add", [.const (-1)], none⟩, ⟨"add", [.const (-2147483646)], none⟩]
        = Assembly.assemble addSet .little
          [⟨"add", [.hex 0x1FFFFFFFF], none⟩, ⟨"add", [.hex 0x180000002], none⟩] ∧
      ∃ front rest, "add(0x1); bad();".toList = front ++ ("0x1".toList ++ rest) ∧
        compile addSet .little (String.ofList (front ++ (Scan.constOf "0x1".toList ++ rest)))
          = .error (.calls [⟨1, "bad", some ⟨1, 18⟩, .unknownInstruction "bad"⟩]) := by
  have hcalls : List.Forall₂ (Respelled addSet id)
      [⟨"add", [.hex 0x1FFFFFFFF], none⟩, ⟨"add", [.hex 0x180000002], none⟩]
      [⟨"add", [.const (-1)], none⟩, ⟨"add", [.const (-2147483646)], none⟩] :=
    .cons ⟨rfl, .spell (.hex 0x1FFFFFFFF) (.nil []), rfl⟩
      (.cons ⟨rfl, .spell (.hex 0x180000002) (.nil []), rfl⟩ .nil)
  have hlexemes : (Scan.ofText "add(0x1); bad();").lexemes
      = (Scan.ofText "add(0x1); bad();").lexemes.take 2
        ++ ⟨.hex 1, "0x1".toList, ⟨1, 5⟩, ⟨1, 8⟩⟩ :: (Scan.ofText "add(0x1); bad();").lexemes.drop 3 := by
    decide +kernel
  have hcompile : compile addSet .little "add(0x1); bad();"
      = .error (.calls [⟨1, "bad", some ⟨1, 11⟩, .unknownInstruction "bad"⟩]) := by decide +kernel
  refine ⟨hcalls, (operand_sugar addSet .little).1 _ _ hcalls, ?_⟩
  obtain ⟨front, rest, htext, -, -, h⟩ :=
    (operand_sugar addSet .little).2 _ _ _ _ 1 hlexemes rfl operandNext_add
  refine ⟨front, rest, htext, h.trans ?_⟩
  rw [hcompile]
  rfl

/-- **The places behind an operand do move.** Both texts have the operand in its place, and both are refused for
    the same call, which stands further right behind the longer spelling. -/
theorem places_widened :
    addSet.resolve? "add" = some ⟨1, some "add", [.operand], .plain⟩ ∧
      compile addSet .little "add(0x1); bad();"
        = .error (.calls [⟨1, "bad", some ⟨1, 11⟩, .unknownInstruction "bad"⟩]) ∧
      compile addSet .little "add(Const(0x1)); bad();"
        = .error (.calls [⟨1, "bad", some ⟨1, 18⟩, .unknownInstruction "bad"⟩]) := by
  decide +kernel

end Compile
end CallScript
