import CallScript.Proofs.Lines
import CallScript.Proofs.Operands

/-!
# `Proofs.Spacing` — what stands between tokens does not matter

A `Filler` is a row of blanks and complete comments. It can be put in front of any token of a text, or behind
it. The stretches in front of it end where they did, because no word and no number goes on with a blank or a
slash (`Filler.ended`); this holds also where two tokens stood next to each other and one of them ended only
because of the other. What is behind it is cut as before, at places that are pushed on (`Position.pushed`).

The slice of a token is found by its place. Places tell slices apart because a token begins with a character
that takes a column, so no two beginnings of the text that a token follows lead to one place
(`Lexeme.Slice.unique`).
-/

namespace CallScript

open Token (Ended)

/-! ## Places -/

namespace Position

instance (p q : Position) : Decidable (p.Behind q) := inferInstanceAs (Decidable (_ ∨ _))

theorem not_behind_self (p : Position) : ¬ p.Behind p := p.not_behind_after []

/-- A character that takes a column leads to a later place. -/
theorem behind_after {c : Char} (hc : c.toNat < 0xA0) (p : Position) (cs : List Char) :
    p.Behind (p.after (c :: cs)) := by
  have hstep : p.Behind (p.next c) := by
    unfold next Behind
    split
    · exact .inl (Nat.lt_succ_self _)
    · split
      · exact .inr ⟨rfl, Nat.lt_add_of_pos_right (by decide)⟩
      · rw [Width.of, if_pos hc]
        exact .inr ⟨rfl, Nat.lt_succ_self _⟩
  have hlater := not_behind_after (p.next c) cs
  rw [after_cons]
  unfold Behind at hstep hlater ⊢
  omega

/-- What becomes of a place if `gap` is put in at `q`: a place before `q` stays, another one on the line of `q`
    is as far behind the gap as it was behind `q`, and the lines below keep their columns. -/
def pushed (q : Position) (gap : List Char) (r : Position) : Position :=
  if r.Behind q then r
  else if r.line = q.line then ⟨(q.after gap).line, (q.after gap).column + (r.column - q.column)⟩
  else ⟨(q.after gap).line + (r.line - q.line), r.column⟩

theorem pushed_self (q : Position) (gap : List Char) : q.pushed gap q = q.after gap := by
  rw [pushed, if_neg q.not_behind_self, if_pos rfl, Nat.sub_self]
  rfl

theorem shifts_pushed (q : Position) (gap : List Char) : Shifts (q.pushed gap) fun r => ¬ r.Behind q where
  stays := by
    intro r c hr hnext
    have hle := not_behind_after r [c]
    rw [after_cons, after_nil] at hle
    unfold Behind at hr hnext hle
    omega
  next := by
    intro r c hr
    have hle : q.line ≤ r.line ∧ (r.line = q.line → q.column ≤ r.column) := by
      unfold Behind at hr
      omega
    by_cases hfeed : c = '\n'
    · -- the next line is below that of `q`
      have hbelow : ¬ Behind ⟨r.line + 1, 1⟩ q := by
        unfold Behind
        show ¬ (r.line + 1 < q.line ∨ q.line = r.line + 1 ∧ 1 < q.column)
        omega
      have hne : r.line + 1 ≠ q.line := by omega
      have hline : (q.pushed gap r).line = (q.after gap).line + (r.line - q.line) := by
        rw [pushed, if_neg hr]
        by_cases hsame : r.line = q.line
        · simp [hsame]
        · simp [hsame]
      rw [next, next, if_pos hfeed, if_pos hfeed, hline, pushed, if_neg hbelow, if_neg hne,
        Nat.sub_add_comm hle.1]
      rfl
    · have hright : ∀ m, q.pushed gap ⟨r.line, r.column + m⟩
          = ⟨(q.pushed gap r).line, (q.pushed gap r).column + m⟩ := by
        intro m
        have hstays : ¬ Behind ⟨r.line, r.column + m⟩ q := by
          unfold Behind at hr ⊢
          show ¬ (r.line < q.line ∨ q.line = r.line ∧ r.column + m < q.column)
          omega
        rw [pushed, pushed, if_neg hr, if_neg hstays]
        by_cases hsame : r.line = q.line
        · have hcolumn := hle.2 hsame
          simp only [hsame, if_true, mk.injEq, true_and]
          omega
        · simp [hsame]
      rw [next, next, if_neg hfeed, if_neg hfeed]
      split
      · exact hright _
      · exact hright _

end Position

/-! ## Fillers -/

/-- A row of blanks and complete comments. Each of them is one whatever is behind it, so a line comment has its
    line feed. -/
inductive Filler : List Char → Prop
  | nil : Filler []
  | cons {w cs : List Char} (hw : ∀ ahead, IsGap w ahead) (later : Filler cs) : Filler (w ++ cs)

/-- No word and no number goes on with a blank or a comment. -/
theorem IsGap.ended {w ahead : List Char} (h : IsGap w ahead) (rest : List Char) : Ended (w ++ rest) := by
  cases h with
  | @blank c _ hc =>
      have hall : [' ', '\t', '\n', '\r', '\x0c'].all (fun d => decide (Token.isNameTail d = false)) = true := rfl
      exact Token.ended_cons rest (of_decide_eq_true (List.all_eq_true.mp hall c hc))
  | line => exact Token.ended_cons _ rfl
  | lastLine => exact Token.ended_cons _ rfl
  | block => exact Token.ended_cons _ rfl

theorem Filler.ended {gap : List Char} (h : Filler gap) (rest : List Char) :
    gap = [] ∨ Ended (gap ++ rest) := by
  cases h with
  | nil => exact .inl rfl
  | cons hw _ =>
      right
      rw [List.append_assoc]
      exact (hw []).ended _

namespace Scan

open Stretch (Replaces)

variable {p : Position} {front rest w gap : List Char} {l : Lexeme} {ls : List Lexeme}

/-- A filler is cut into no lexemes. -/
theorem cutOff_of_filler (hgap : Filler gap) (p : Position) (rest : List Char) : CutOff p gap rest [] := by
  induction hgap generalizing p with
  | nil => exact .nil p rest
  | cons hw _ ih => exact .cons (takes_of_isGap p (hw _)) (ih _)

/-- **A filler can be put in at a seam** with something behind it. -/
theorem CutOff.fill (h : CutOff p front rest ls) (hne : rest ≠ []) (hgap : Filler gap) :
    CutOff p front (gap ++ rest) ls := by
  rcases hgap.ended rest with rfl | hended
  · exact h
  · exact h.swap hne (.inl hended)

/-- **A filler can be put in behind a token**, also at the end of a text. -/
theorem CutOff.fill_behind (h : CutOff p front (w ++ rest) ls) (hw : Takes (p.after front) w rest [l])
    (hgap : Filler gap) : CutOff p (front ++ w) (gap ++ rest) (ls ++ [l]) := by
  rcases hgap.ended rest with rfl | hended
  · exact h.append hw.cutOff
  · have hreplaces : Replaces (gap ++ rest) rest := .inl hended
    have hne : w ++ rest ≠ [] := fun hnil => hw.ne_nil (List.append_eq_nil_iff.mp hnil).1
    have htoken : Takes (p.after front) w (gap ++ rest) [l] := by
      -- only a comment needs the end of the text, and a token is none
      have hnext : Takes (p.after front) w ([] ++ rest) [l] := hw
      rcases hnext.swap hreplaces with h | ⟨-, -, hnil⟩
      · exact h
      · cases hnil
    exact (h.swap_behind hne hreplaces).append htoken.cutOff

end Scan

/-! ## Slices -/

theorem Token.toNat_lt_of_isNameTail {c : Char} (h : isNameTail c = true) : c.toNat < 0xA0 := by
  simp only [isNameTail, Char.isAlphanum, Bool.or_eq_true, isAlpha_iff, decide_eq_true_eq] at h
  rcases h with ((hletter | hdigit) | rfl) | rfl
  · omega
  · have hle : c.toNat ≤ 57 := by
      simp only [Char.isDigit, Bool.and_eq_true, decide_eq_true_eq, UInt32.le_iff_toNat_le] at hdigit
      exact hdigit.2
    omega
  · decide
  · decide

/-- What the scanner finds begins with a character that takes a column. -/
theorem Stretch.Begins.exists_head {w rest : List Char} {s : Stretch} (h : Begins w rest s) :
    ∃ c cs, w = c :: cs ∧ c.toNat < 0xA0 := by
  cases h with
  | gap hs hw =>
      cases hw with
      | @blank c _ hc =>
          have hall : [' ', '\t', '\n', '\r', '\x0c'].all (fun d => decide (d.toNat < 0xA0)) = true := rfl
          exact ⟨c, [], rfl, of_decide_eq_true (List.all_eq_true.mp hall c hc)⟩
      | line => exact ⟨'/', _, rfl, by decide⟩
      | lastLine => exact ⟨'/', _, rfl, by decide⟩
      | block => exact ⟨'/', _, rfl, by decide⟩
  | @word c cs _ hc =>
      exact ⟨c, cs, rfl, Token.toNat_lt_of_isNameTail (Token.isNameTail_of_isNameHead hc)⟩
  | decimal hne hds =>
      obtain ⟨d, ds, rfl⟩ := List.exists_cons_of_ne_nil hne
      exact ⟨d, ds, rfl, Token.toNat_lt_of_isNameTail (Token.isNameTail_of_isDigit (hds d List.mem_cons_self))⟩
  | hexadecimal => exact ⟨'0', _, rfl, by decide⟩
  | string => exact ⟨'"', _, rfl, by decide⟩
  | @mark c t _ hc =>
      refine ⟨c, [], rfl, ?_⟩
      unfold Token.mark? at hc
      split at hc <;> simp_all

namespace Scan

variable {p : Position} {front rest w : List Char} {first ls : List Lexeme}

theorem Takes.exists_head (h : Takes p w rest first) : ∃ c cs, w = c :: cs ∧ c.toNat < 0xA0 := by
  cases h with
  | gap hw => exact hw.exists_head
  | token hw => exact hw.exists_head

theorem Takes.stop (h : Takes p w rest first) : ∀ l ∈ first, l.stop = p.after w := by
  cases h with
  | gap => simp
  | token => simp

/-- The lexemes in front of a seam begin before it. -/
theorem CutOff.behind (h : CutOff p front rest ls) : ∀ l ∈ ls, l.start.Behind (p.after front) := by
  induction h with
  | nil => exact fun l hl => absurd hl List.not_mem_nil
  | cons hw _ ih =>
      intro l hl
      rcases List.mem_append.mp hl with hl | hl
      · obtain ⟨c, cs, rfl, hc⟩ := hw.exists_head
        rw [hw.start l hl]
        exact Position.behind_after hc _ _
      · rw [Position.after_append]
        exact ih l hl

end Scan

/-- The lexeme is the slice of a text between `front` and `rest`: it is spelled there, and that is its place. -/
structure Lexeme.Slice (l : Lexeme) (front rest : List Char) (text : String) : Prop where
  text_eq : text.toList = front ++ (l.text ++ rest)
  start_eq : l.start = Position.first.after front

/-- Two beginnings of a text that lead to one place are the same, if a character that takes a column is behind
    the shorter one. -/
theorem Position.front_eq {c : Char} {cs ds front front' : List Char} {p : Position} (hc : c.toNat < 0xA0)
    (h : front ++ c :: cs = front' ++ ds) (hlength : front.length ≤ front'.length)
    (hplace : p.after front = p.after front') : front = front' := by
  obtain ⟨tail, rfl, htail⟩ | ⟨tail, rfl, htail⟩ := List.append_eq_append_iff.mp h
  · cases tail with
    | nil => rw [List.append_nil]
    | cons d tail =>
        obtain ⟨rfl, -⟩ := List.cons.inj htail
        have hbehind := behind_after hc (p.after front) tail
        rw [← after_append, ← hplace] at hbehind
        exact absurd hbehind (not_behind_self _)
  · rw [List.length_append] at hlength
    have hnil : tail = [] := List.length_eq_zero_iff.mp (by omega)
    rw [hnil, List.append_nil]

/-- **A token has one slice.** -/
theorem Lexeme.Slice.unique {l : Lexeme} {front front' rest rest' : List Char} {text : String} {c : Char}
    {cs : List Char} (hl : l.text = c :: cs) (hc : c.toNat < 0xA0) (h : l.Slice front rest text)
    (h' : l.Slice front' rest' text) : front = front' ∧ rest = rest' := by
  have hsplit : front ++ c :: (cs ++ rest) = front' ++ c :: (cs ++ rest') := by
    have heq := h.text_eq.symm.trans h'.text_eq
    rw [hl] at heq
    exact heq
  have hplace := h.start_eq.symm.trans h'.start_eq
  have hfront : front = front' := by
    rcases Nat.le_total front.length front'.length with hle | hle
    · exact Position.front_eq hc hsplit hle hplace
    · exact (Position.front_eq hc hsplit.symm hle hplace.symm).symm
  subst hfront
  refine ⟨rfl, ?_⟩
  have hrest := List.append_cancel_left hsplit
  rw [List.cons.injEq] at hrest
  exact List.append_cancel_left hrest.2

/-! ## Main results -/

/-- Two texts with the same tokens and spellings in the same order. They compile alike: to the same bytes, or
    with the same error, the places of which are moved. -/
structure SameTokens (f : Position → Position) (text text' : String) : Prop where
  slices : (Scan.ofText text').slices = (Scan.ofText text).slices
  failure : (Scan.ofText text').failure = (Scan.ofText text).failure.map (ScanFailure.moved f)
  compile : ∀ set order, Compile.compile set order text'
    = (Compile.compile set order text).mapError (CompileError.moved f)

namespace Scan

variable {front rest gap : List Char} {ls : List Lexeme}

theorem slices_moved (f : Position → Position) (scan : Scan) : (scan.moved f).slices = scan.slices := by
  rw [slices, moved, List.map_map]
  rfl

/-- **What is put in at a seam does not matter**, if it is a filler and the seam stays one. -/
theorem sameTokens_of_cutOff {text text' : String} (htext : text.toList = front ++ rest)
    (htext' : text'.toList = front ++ (gap ++ rest)) (hgap : Filler gap)
    (hcut : CutOff .first front rest ls) (hcut' : CutOff .first front (gap ++ rest) ls) :
    SameTokens ((Position.first.after front).pushed gap) text text' := by
  generalize hq : Position.first.after front = q
  have hscan : ofText text = Scan.behind ls (scanFrom q rest) := by
    rw [ofText, htext, hcut.scanFrom, hq]
  have hscan' : ofText text' = Scan.behind ls ((scanFrom q rest).moved (q.pushed gap)) := by
    have hseam := (hcut'.append (cutOff_of_filler hgap _ rest)).scanFrom
    rw [List.append_nil, Position.after_append, hq, ← q.pushed_self gap,
      scanFrom_moved (Position.shifts_pushed q gap) q.not_behind_self] at hseam
    rw [ofText, htext', ← List.append_assoc]
    exact hseam
  have hfailure : (ofText text').failure = (ofText text).failure.map (ScanFailure.moved (q.pushed gap)) := by
    rw [hscan, hscan']
    rfl
  refine ⟨?_, hfailure, fun set order => ?_⟩
  · rw [hscan, hscan', slices_behind, slices_behind, slices_moved]
  · -- what is in front of the seam has not moved, and what is behind it has
    have hpaired : List.Forall₂ (Lexeme.Paired fun r r' => r' = q.pushed gap r) (ofText text).lexemes
        (ofText text').lexemes := by
      rw [hscan, hscan']
      refine List.rel_append (List.forall₂_same.mpr fun l hl => ⟨rfl, ?_⟩) (Lexeme.forall₂_moved _ _)
      have hbehind := hcut.behind l hl
      rw [hq] at hbehind
      exact (if_pos hbehind).symm
    have hread := Call.Stage.read_paired (Call.tracks_respelled set (q.pushed gap)) hpaired .statement
    exact Compile.compile_respelled (Call.parse_paired hread hfailure) order

/-- **Layout between tokens does not matter.** Blanks and complete comments can be put in right before the slice
    of any token, or right behind it. -/
theorem filler_changes_nothing {text : String} {l : Lexeme} (hl : l ∈ (ofText text).lexemes)
    {front rest gap : List Char} (hslice : l.Slice front rest text) (hgap : Filler gap) :
    SameTokens (l.start.pushed gap) text (String.ofList (front ++ (gap ++ (l.text ++ rest)))) ∧
      SameTokens (l.stop.pushed gap) text (String.ofList (front ++ (l.text ++ (gap ++ rest)))) := by
  obtain ⟨ls, later, hlexemes⟩ := List.append_of_mem hl
  obtain ⟨front', rest', htext, hcut, htakes⟩ := exists_cutOff hlexemes
  have hslice' : l.Slice front' rest' text := ⟨htext, htakes.start l (List.mem_singleton_self l)⟩
  obtain ⟨c, cs, hhead, hc⟩ := htakes.exists_head
  obtain ⟨rfl, rfl⟩ := hslice.unique hhead hc hslice'
  have hne : l.text ++ rest ≠ [] := by simp [hhead]
  have hstop : l.stop = Position.first.after (front ++ l.text) := by
    rw [Position.after_append]
    exact htakes.stop l (List.mem_singleton_self l)
  constructor
  · rw [hslice.start_eq]
    exact sameTokens_of_cutOff htext String.toList_ofList hgap hcut (hcut.fill hne hgap)
  · rw [hstop]
    refine sameTokens_of_cutOff ?_ ?_ hgap (hcut.append htakes.cutOff) (hcut.fill_behind htakes hgap)
    · rw [htext, List.append_assoc]
    · rw [String.toList_ofList, List.append_assoc]

/-- A word next to a zero, where the two are no hexadecimal literal: with comments before the word, and behind
    it. -/
theorem filler_changes_nothing_zero :
    (⟨.name "xg", ['x', 'g'], ⟨1, 4⟩, ⟨1, 6⟩⟩ : Lexeme) ∈ (ofText "a(0xg);").lexemes ∧
      SameTokens (Position.pushed ⟨1, 4⟩ ['/', '*', '*', '/', '/', '/', ' ', '\n', ' ']) "a(0xg);"
        "a(0/**/// \n xg);" ∧
      SameTokens (Position.pushed ⟨1, 6⟩ ['/', '*', '*', '/', '/', '/', ' ', '\n', ' ']) "a(0xg);"
        "a(0xg/**/// \n );" := by
  have hmem : (⟨.name "xg", ['x', 'g'], ⟨1, 4⟩, ⟨1, 6⟩⟩ : Lexeme) ∈ (ofText "a(0xg);").lexemes := by
    decide +kernel
  have hgap : Filler ['/', '*', '*', '/', '/', '/', ' ', '\n', ' '] :=
    .cons (fun _ => @IsGap.block [] _ (by simp [Pattern.Unclosed]))
      (.cons (fun _ => @IsGap.line [' '] _ (by decide))
        (.cons (fun _ => @IsGap.blank ' ' _ (by decide)) .nil))
  have hslice : Lexeme.Slice ⟨.name "xg", ['x', 'g'], ⟨1, 4⟩, ⟨1, 6⟩⟩ ['a', '(', '0'] [')', ';'] "a(0xg);" :=
    ⟨by decide, by decide⟩
  exact ⟨hmem, filler_changes_nothing hmem hslice hgap⟩

end Scan
end CallScript
