import CallScript.Proofs.ViablePrefix
import CallScript.Proofs.Scanning
import Mathlib.Data.List.Forall2

/-!
# `Proofs.Moving` — the same text at other places

Where a text stands decides the places of its lexemes and nothing else. A way to move places that goes along
with the text (`Position.Shifts`) moves all that is cut from it (`scanFrom_moved`). The reader looks at the
tokens and copies the place of a name into its call. So two runs over lexemes with the same tokens stay in the
same stages, with calls that are related as soon as the relation is kept by the two things that the reader does
to a call: it begins one at a name, and pushes arguments (`Call.Tracks`). `step_paired` is one step of the two
runs, `read_paired` the whole of them, and `parse_paired` what they end in.
-/

namespace CallScript

/-! ## Moving places -/

namespace Position

/-- From the places of `dom` on, moving by `f` goes along with the text: it does not matter whether a place is
    moved before or behind a character. -/
structure Shifts (f : Position → Position) (dom : Position → Prop) : Prop where
  stays : ∀ p c, dom p → dom (p.next c)
  next : ∀ p c, dom p → f (p.next c) = (f p).next c

variable {f : Position → Position} {dom : Position → Prop} {p : Position}

theorem Shifts.after (h : Shifts f dom) (hp : dom p) (cs : List Char) :
    dom (p.after cs) ∧ f (p.after cs) = (f p).after cs := by
  induction cs generalizing p with
  | nil => exact ⟨hp, rfl⟩
  | cons c cs ih =>
      rw [after_cons, after_cons, ← h.next p c hp]
      exact ih (h.stays p c hp)

end Position

/-- The lexeme at other places. -/
def Lexeme.moved (f : Position → Position) (l : Lexeme) : Lexeme :=
  { l with start := f l.start, stop := f l.stop }

/-- The failure at another place. -/
def ScanFailure.moved (f : Position → Position) : ScanFailure → ScanFailure
  | invalid place            => invalid (f place)
  | outOfRange literal place => outOfRange literal (f place)

/-- The parse error at another place. -/
def ParseError.moved (f : Position → Position) : ParseError → ParseError
  | invalidToken place         => invalidToken (f place)
  | literalRange place literal => literalRange (f place) literal
  | unexpected place token     => unexpected (f place) token
  | unexpectedEnd              => unexpectedEnd

theorem ParseError.ofScanFailure_moved (f : Position → Position) (failure : ScanFailure) :
    ofScanFailure (failure.moved f) = (ofScanFailure failure).moved f := by
  cases failure with
  | invalid place => rfl
  | outOfRange literal place => rfl

/-- The call at another place. -/
def Call.moved (f : Position → Position) (call : Call) : Call := { call with place := call.place.map f }

namespace Scan

/-- The scan at other places. -/
def moved (f : Position → Position) (scan : Scan) : Scan :=
  ⟨scan.lexemes.map (Lexeme.moved f), scan.failure.map (ScanFailure.moved f)⟩

variable {f : Position → Position} {dom : Position → Prop}

/-- **What is cut moves with the text.** -/
theorem scanFrom_moved (h : Position.Shifts f dom) {p : Position} (hp : dom p) (cs : List Char) :
    scanFrom (f p) cs = (scanFrom p cs).moved f := by
  induction cs using stretch_induction generalizing p with
  | stop cs hext =>
      rw [scanFrom_of_extent_eq_none _ hext, scanFrom_of_extent_eq_none _ hext]
      by_cases hnil : cs = []
      · simp [moved, hnil]
      · simp [moved, hnil, ScanFailure.moved]
  | step cs s n hext ih =>
      obtain ⟨hstop, hafter⟩ := h.after hp (cs.take n)
      rw [scanFrom_of_extent _ hext, scanFrom_of_extent _ hext, ← hafter]
      cases s.meaning (cs.take n) with
      | gap => exact ih hstop
      | token t =>
          dsimp only
          rw [ih hstop]
          rfl
      | outOfRange => rfl

end Scan

/-! ## Reading at other places -/

/-- Two lexemes with the same token, at places that are related. -/
structure Lexeme.Paired (P : Position → Position → Prop) (l l' : Lexeme) : Prop where
  token : l'.token = l.token
  start : P l.start l'.start

theorem Lexeme.forall₂_moved (f : Position → Position) (ls : List Lexeme) :
    List.Forall₂ (Paired fun p p' => p' = f p) ls (ls.map (moved f)) :=
  List.forall₂_map_right_iff.mpr (List.forall₂_same.mpr fun _ _ => ⟨rfl, rfl⟩)

/-- A relation of calls that reading keeps, from names at places that are related on. -/
structure Call.Tracks (R : Call → Call → Prop) (P : Position → Position → Prop) : Prop where
  begin : ∀ name p p', P p p' → R ⟨name, [], some p⟩ ⟨name, [], some p'⟩
  push : ∀ call call' arg, R call call' → R (call.push arg) (call'.push arg)

theorem Call.tracks_moved (f : Position → Position) :
    Tracks (fun call call' => call' = call.moved f) fun p p' => p' = f p where
  begin := by
    rintro name p p' rfl
    rfl
  push := by
    rintro call call' arg rfl
    rfl

namespace Call.Stage

/-- Two stages of one kind, whose calls are related. -/
inductive Paired (R : Call → Call → Prop) : Stage → Stage → Prop
  | statement : Paired R .statement .statement
  | named {call call' : Call} (h : R call call') : Paired R (.named call) (.named call')
  | opened {call call' : Call} (h : R call call') : Paired R (.opened call) (.opened call')
  | separated {call call' : Call} (h : R call call') : Paired R (.separated call) (.separated call')
  | negated {call call' : Call} (h : R call call') (form : Option OperandForm) :
      Paired R (.negated call form) (.negated call' form)
  | operand {call call' : Call} (h : R call call') (form : OperandForm) :
      Paired R (.operand call form) (.operand call' form)
  | operandOpened {call call' : Call} (h : R call call') (form : OperandForm) :
      Paired R (.operandOpened call form) (.operandOpened call' form)
  | operandFilled {call call' : Call} (h : R call call') (arg : Argument) :
      Paired R (.operandFilled call arg) (.operandFilled call' arg)
  | argued {call call' : Call} (h : R call call') : Paired R (.argued call) (.argued call')
  | closed {call call' : Call} (h : R call call') : Paired R (.closed call) (.closed call')

variable {R : Call → Call → Prop} {P : Position → Position → Prop}

theorem Paired.eq_statement_iff {stage stage' : Stage} (h : Paired R stage stage') :
    stage = .statement ↔ stage' = .statement := by
  cases h <;> simp

theorem startArgument_paired (hR : Tracks R P) {call call' : Call} (h : R call call') (t : Token) :
    Option.Rel (Paired R) (startArgument call t) (startArgument call' t) := by
  cases t with
  | string text => exact .some (.argued (hR.push _ _ _ h))
  | hex value => exact .some (.argued (hR.push _ _ _ h))
  | integer value => exact .some (.argued (hR.push _ _ _ h))
  | minus => exact .some (.negated h none)
  | trueWord => exact .some (.argued (hR.push _ _ _ h))
  | falseWord => exact .some (.argued (hR.push _ _ _ h))
  | name name => exact .some (.argued (hR.push _ _ _ h))
  | constWord => exact .some (.operand h .const)
  | varWord => exact .some (.operand h .var)
  | leftParen | rightParen | comma | semicolon => exact .none

theorem startContent_paired {call call' : Call} (h : R call call') (form : OperandForm) (t : Token) :
    Option.Rel (Paired R) (startContent call form t) (startContent call' form t) := by
  cases t with
  | integer value => exact .some (.operandFilled h _)
  | minus => exact .some (.negated h (some form))
  | hex value =>
      cases form with
      | const => exact .some (.operandFilled h _)
      | var => exact .none
  | name name =>
      cases form with
      | const => exact .none
      | var => exact .some (.operandFilled h _)
  | string _ | trueWord | falseWord | constWord | varWord | leftParen | rightParen | comma | semicolon =>
      exact .none

theorem negate_paired (hR : Tracks R P) {call call' : Call} (h : R call call') (form : Option OperandForm)
    (value : Int64) : Paired R (negate call form value) (negate call' form value) := by
  cases form with
  | none => exact .argued (hR.push _ _ _ h)
  | some form => exact .operandFilled h _

/-- Two outcomes of a step: neither goes on, or both do, in stages that are related, and complete related
    calls if they complete any. -/
def StepPaired (R : Call → Call → Prop) : (step step' : Option (Stage × Option Call)) → Prop :=
  Option.Rel fun next next' => Paired R next.1 next'.1 ∧ Option.Rel R next.2 next'.2

theorem stepPaired_map {next next' : Option Stage} (h : Option.Rel (Paired R) next next') :
    StepPaired R (next.map (·, none)) (next'.map (·, none)) := by
  cases h with
  | none => exact .none
  | some h => exact .some ⟨h, .none⟩

/-- **One step of two paired runs.** -/
theorem step_paired (hR : Tracks R P) {stage stage' : Stage} (h : Paired R stage stage') {l l' : Lexeme}
    (hl : l.Paired P l') : StepPaired R (stage.step l) (stage'.step l') := by
  obtain ⟨t, w, p, q⟩ := l
  obtain ⟨t', w', p', q'⟩ := l'
  obtain ⟨htoken, hstart⟩ := hl
  dsimp only at htoken hstart
  subst htoken
  cases h with
  | statement =>
      cases t' with
      | name name => exact .some ⟨.named (hR.begin name p p' hstart), .none⟩
      | _ => exact .none
  | named h =>
      cases t' with
      | leftParen => exact .some ⟨.opened h, .none⟩
      | _ => exact .none
  | opened h =>
      by_cases hclose : t' = .rightParen
      · rw [hclose]
        exact .some ⟨.closed h, .none⟩
      · rw [Grammar.step_awaits (.inl rfl) hclose, Grammar.step_awaits (.inl rfl) hclose]
        exact stepPaired_map (startArgument_paired hR h t')
  | separated h => exact stepPaired_map (startArgument_paired hR h t')
  | negated h form =>
      cases t' with
      | integer value => exact .some ⟨negate_paired hR h form value, .none⟩
      | _ => exact .none
  | operand h form =>
      cases t' with
      | leftParen => exact .some ⟨.operandOpened h form, .none⟩
      | _ => exact .none
  | operandOpened h form => exact stepPaired_map (startContent_paired h form t')
  | operandFilled h arg =>
      cases t' with
      | rightParen => exact .some ⟨.argued (hR.push _ _ arg h), .none⟩
      | _ => exact .none
  | argued h =>
      cases t' with
      | comma => exact .some ⟨.separated h, .none⟩
      | rightParen => exact .some ⟨.closed h, .none⟩
      | _ => exact .none
  | closed h =>
      cases t' with
      | semicolon => exact .some ⟨.statement, .some h⟩
      | _ => exact .none

/-- Two outcomes of reading: both stop at related lexemes, or both end in related stages behind related
    calls. -/
inductive ReadPaired (R : Call → Call → Prop) (P : Position → Position → Prop) :
    (read read' : Except Lexeme (List Call × Stage)) → Prop
  | error {l l' : Lexeme} (h : l.Paired P l') : ReadPaired R P (.error l) (.error l')
  | ok {calls calls' : List Call} {stage stage' : Stage} (hcalls : List.Forall₂ R calls calls')
      (hstage : Paired R stage stage') : ReadPaired R P (.ok (calls, stage)) (.ok (calls', stage'))

/-- **Two paired runs.** -/
theorem read_paired (hR : Tracks R P) {ls ls' : List Lexeme} (hls : List.Forall₂ (Lexeme.Paired P) ls ls')
    {stage stage' : Stage} (h : Paired R stage stage') :
    ReadPaired R P (stage.read ls) (stage'.read ls') := by
  induction hls generalizing stage stage' with
  | nil => exact .ok .nil h
  | @cons l l' ls ls' hl _ ih =>
      have hstep := step_paired hR h hl
      unfold read
      generalize stage.step l = step at hstep ⊢
      generalize stage'.step l' = step' at hstep ⊢
      cases hstep with
      | none => exact .error hl
      | @some next next' hnext =>
          obtain ⟨next, call⟩ := next
          obtain ⟨next', call'⟩ := next'
          obtain ⟨hnext, hcall⟩ := hnext
          have hlater := ih hnext
          dsimp only at hcall hlater ⊢
          cases hcall with
          | none => exact hlater
          | some hcall =>
              dsimp only
              generalize next.read ls = read at hlater ⊢
              generalize next'.read ls' = read' at hlater ⊢
              cases hlater with
              | error hl => exact .error hl
              | ok hcalls hstage => exact .ok (.cons hcall hcalls) hstage

/-- Paired runs go on behind different rows of lexemes, if these lead to related calls and stages. -/
theorem read_append_paired (hR : Tracks R P) {stage stage' : Stage} {xs xs' ys ys' : List Lexeme}
    (hxs : ReadPaired R P (stage.read xs) (stage'.read xs')) (hys : List.Forall₂ (Lexeme.Paired P) ys ys') :
    ReadPaired R P (stage.read (xs ++ ys)) (stage'.read (xs' ++ ys')) := by
  rw [read_append, read_append]
  generalize stage.read xs = read at hxs ⊢
  generalize stage'.read xs' = read' at hxs ⊢
  cases hxs with
  | error hl => exact .error hl
  | @ok calls calls' next next' hcalls hnext =>
      have hlater := read_paired hR hys hnext
      dsimp only
      generalize next.read ys = read at hlater ⊢
      generalize next'.read ys' = read' at hlater ⊢
      cases hlater with
      | error hl => exact .error hl
      | ok hmore hlast => exact .ok (List.rel_append hcalls hmore) hlast

end Call.Stage

namespace Call

open Stage (ReadPaired)

variable {R : Call → Call → Prop} {f : Position → Position} {text text' : String}

/-- **Two texts that are read alike are parsed alike**: both fail in the same way, at places that are moved, or
    both succeed with related calls. -/
theorem parse_paired
    (hread : ReadPaired R (fun p p' => p' = f p) (Stage.statement.read (Scan.ofText text).lexemes)
      (Stage.statement.read (Scan.ofText text').lexemes))
    (hfailure : (Scan.ofText text').failure = (Scan.ofText text).failure.map (ScanFailure.moved f)) :
    (∃ e, parse text = .error e ∧ parse text' = .error (e.moved f)) ∨
      ∃ calls calls', parse text = .ok calls ∧ parse text' = .ok calls' ∧ List.Forall₂ R calls calls' := by
  generalize hsource : Stage.statement.read (Scan.ofText text).lexemes = read at hread
  generalize htarget : Stage.statement.read (Scan.ofText text').lexemes = read' at hread
  cases hread with
  | @error l l' h =>
      refine .inl ⟨_, Grammar.parse_of_read_error hsource, ?_⟩
      rw [Grammar.parse_of_read_error htarget, h.token, h.start]
      rfl
  | @ok calls calls' stage stage' hcalls hstage =>
      cases hcut : (Scan.ofText text).failure with
      | some failure =>
          rw [hcut] at hfailure
          refine .inl ⟨_, Grammar.parse_of_failure hsource hcut, ?_⟩
          rw [Grammar.parse_of_failure htarget hfailure, ParseError.ofScanFailure_moved]
      | none =>
          rw [hcut] at hfailure
          rw [Grammar.parse_of_end hsource hcut, Grammar.parse_of_end htarget hfailure]
          have hnil : calls = [] ↔ calls' = [] := by cases hcalls <;> simp
          by_cases hend : stage = .statement ∧ calls ≠ []
          · have hend' : stage' = .statement ∧ calls' ≠ [] :=
              ⟨hstage.eq_statement_iff.mp hend.1, fun h => hend.2 (hnil.mpr h)⟩
            rw [if_pos hend, if_pos hend']
            exact .inr ⟨calls, calls', rfl, rfl, hcalls⟩
          · have hend' : ¬ (stage' = .statement ∧ calls' ≠ []) :=
              fun h => hend ⟨hstage.eq_statement_iff.mpr h.1, fun hc => h.2 (hnil.mp hc)⟩
            rw [if_neg hend, if_neg hend']
            exact .inl ⟨_, rfl, rfl⟩

end Call
end CallScript
