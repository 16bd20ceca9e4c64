import CallScript.Proofs.Moving
import CallScript.Proofs.Tiling

/-!
# `Proofs.Seams` — cutting on both sides of a place

`CutOff p front rest ls` says that `front`, at `p` and in front of `rest`, is cut into the lexemes `ls`, and
that cutting then stands at `rest`. It is said stretch by stretch (`Takes`), each one in front of what is really
behind it, so a stretch that would go on into `rest` is not cut off. A stretch looks at very little of what is
behind it (`Begins.swap`). So `rest` can be replaced by anything that does not go on with a word or a number
(`CutOff.swap`).
The only stretch that needs the end of the text is a comment in a last line that no line feed ends; with a line
feed behind it the text can be followed by anything (`CutOff.feed`). `Call.parse_append` is what this means for
scripts: they can be put one behind the other.
-/

namespace CallScript

open Token (Ended)

/-! ## What stands behind a stretch -/

namespace Stretch

theorem lineEnd_append {body : List Char} (rest : List Char) (hbody : '\n' ∉ body) :
    lineEnd (body ++ '\n' :: rest) = body.length + 1 := by
  induction body with
  | nil => rfl
  | cons c cs ih =>
      rw [List.mem_cons, not_or] at hbody
      rw [List.cons_append, lineEnd, if_neg (Ne.symm hbody.1), ih hbody.2, List.length_cons]

theorem lineEnd_eq_length {body : List Char} (hbody : '\n' ∉ body) : lineEnd body = body.length := by
  rcases lineEnd_cases body with ⟨_, _, rfl, _, _⟩ | ⟨-, h⟩
  · simp at hbody
  · exact h

theorem closing?_append {body : List Char} (rest : List Char) (hbody : Pattern.Unclosed body) :
    closing? (body ++ '*' :: '/' :: rest) = some (body.length + 2) := by
  induction body with
  | nil => rfl
  | cons c cs ih =>
      obtain ⟨hopen, hcs⟩ := Pattern.unclosed_cons_iff.mp hbody
      rw [List.cons_append, closing?, ih hcs]
      · rfl
      · rintro ds rfl hds
        -- the mark would be closed in the body, whose end is followed by a star
        cases cs with
        | nil => cases hds
        | cons d cs =>
            cases hds
            exact hopen ⟨rfl, rfl⟩

/-- A gap is found as a gap. -/
theorem extent_of_isGap {w rest : List Char} (h : IsGap w rest) :
    ∃ s, extent (w ++ rest) = some (s, w.length) ∧ s.meaning w = .gap := by
  cases h with
  | @blank c _ hc =>
      have hblank : Token.isBlank c = true := by simpa [Token.isBlank, or_assoc] using hc
      exact ⟨blank, extent_blank rest hblank, rfl⟩
  | @line body _ hbody =>
      refine ⟨lineComment, ?_, rfl⟩
      rw [List.append_assoc, List.singleton_append]
      show some (lineComment, 2 + lineEnd (body ++ '\n' :: rest)) = _
      rw [lineEnd_append rest hbody]
      simp +arith
  | @lastLine body hbody =>
      refine ⟨lineComment, ?_, rfl⟩
      rw [List.append_nil]
      show some (lineComment, 2 + lineEnd body) = _
      rw [lineEnd_eq_length hbody]
      simp +arith
  | @block body _ hbody =>
      refine ⟨blockComment, ?_, rfl⟩
      rw [List.append_assoc]
      show (closing? (body ++ '*' :: '/' :: rest)).map (fun n => (blockComment, 2 + n)) = _
      rw [closing?_append rest hbody]
      simp +arith

/-- **The scanner finds what a text begins with**, and so it is determined by `Begins`. -/
theorem extent_of_begins {w rest : List Char} {s : Stretch} (h : Begins w rest s) :
    ∃ s', extent (w ++ rest) = some (s', w.length) ∧ s'.meaning w = s.meaning w := by
  cases h with
  | gap hs hw =>
      obtain ⟨s', hext, hmean⟩ := extent_of_isGap hw
      refine ⟨s', hext, hmean.trans ?_⟩
      rcases hs with rfl | rfl | rfl <;> rfl
  | word hc hcs hrest => exact ⟨_, extent_word hc hcs hrest, rfl⟩
  | decimal hne hds hrest hhex =>
      refine ⟨_, ?_, rfl⟩
      obtain ⟨d, ds, rfl⟩ := List.exists_cons_of_ne_nil hne
      obtain ⟨hd, hds⟩ := List.forall_mem_cons.mp hds
      rw [List.cons_append] at hhex ⊢
      rw [extent_digit _ hd, hhex, if_neg (Nat.lt_irrefl 0), run_append hds hrest, List.length_cons,
        Nat.add_comm]
  | @hexadecimal ds _ hne hds hrest =>
      refine ⟨_, ?_, rfl⟩
      have hrun : hexRun ('0' :: ('x' :: ds ++ rest)) = ds.length := run_append hds hrest
      rw [List.cons_append, extent_digit _ rfl, hrun, if_pos (List.length_pos_iff.mpr hne)]
      simp +arith
  | string hbody => exact ⟨_, extent_string rest hbody, rfl⟩
  | mark hc => exact ⟨_, extent_mark rest hc, rfl⟩

/-- `rest'` can stand where `rest` does: it goes on with no word and no number, or no word and no number can
    end in front of `rest`, because a digit would go on with it. -/
def Replaces (rest' rest : List Char) : Prop := Ended rest' ∨ ∃ c ∈ rest.head?, c.isDigit = true

variable {front rest rest' w : List Char} {s : Stretch}

/-- A class of characters that go on with words or numbers still ends where it did. -/
theorem Replaces.stops (h : Replaces rest' rest) {p : Char → Bool}
    (hdigit : ∀ c, c.isDigit = true → p c = true) (htail : ∀ c, p c = true → Token.isNameTail c = true)
    (hstop : ∀ c ∈ (front ++ rest).head?, p c = false) : ∀ c ∈ (front ++ rest').head?, p c = false := by
  cases front with
  | cons d front => exact hstop
  | nil =>
      intro c hc
      rw [List.nil_append] at hstop hc
      rcases h with hended | ⟨d, hd, hisDigit⟩
      · have hnot := hended c hc
        by_contra hp
        rw [htail c (by simpa using hp)] at hnot
        cases hnot
      · have hfalse := hstop d hd
        rw [hdigit d hisDigit] at hfalse
        cases hfalse

theorem hexRun_eq_zero_iff {cs : List Char} :
    hexRun cs = 0 ↔ ∀ es, cs = '0' :: 'x' :: es → ∀ c ∈ es.head?, Numeral.isHexDigit c = false := by
  constructor
  · rintro hzero es rfl c hc
    obtain ⟨es, rfl⟩ := List.head?_eq_some_iff.mp hc
    have hrun : run Numeral.isHexDigit (c :: es) = 0 := hzero
    by_contra hhex
    rw [run, if_pos (by simpa using hhex)] at hrun
    cases hrun
  · intro h
    unfold hexRun
    split
    · rename_i es
      exact run_append (fun _ hd => absurd hd List.not_mem_nil) (h es rfl)
    · rfl

/-- Digits that do not begin a hexadecimal literal still do not. -/
theorem Replaces.hexRun (h : Replaces rest' rest) {ds : List Char} (hne : ds ≠ [])
    (hds : ∀ d ∈ ds, d.isDigit = true) (hstop : ∀ c ∈ (front ++ rest).head?, c.isDigit = false)
    (hzero : hexRun (ds ++ (front ++ rest)) = 0) : hexRun (ds ++ (front ++ rest')) = 0 := by
  rw [hexRun_eq_zero_iff] at hzero ⊢
  intro es heq
  obtain ⟨d, ds, rfl⟩ := List.exists_cons_of_ne_nil hne
  cases ds with
  | cons e ds =>
      -- the second character would be an `x`, but it is a digit
      have he := hds e (by simp)
      simp only [List.cons_append, List.cons.injEq] at heq
      rw [heq.2.1] at he
      cases he
  | nil =>
      rw [List.singleton_append, List.cons.injEq] at heq
      obtain ⟨rfl, heq⟩ := heq
      cases front with
      | cons x front =>
          rw [List.cons_append, List.cons.injEq] at heq
          obtain ⟨rfl, rfl⟩ := heq
          exact h.stops (fun _ => Numeral.isHexDigit_of_isDigit) (fun _ => Token.isNameTail_of_isHexDigit)
            (hzero (front ++ rest) rfl)
      | nil =>
          -- an `x` goes on with a word, and a digit would go on with the number
          rw [List.nil_append] at heq
          rw [heq] at h
          rcases h with hended | ⟨c, hc, hdigit⟩
          · have hnot : Token.isNameTail 'x' = false := hended 'x' rfl
            cases hnot
          · have hnot := hstop c hc
            rw [hdigit] at hnot
            cases hnot

theorem Begins.ne_nil (h : Begins w rest s) : w ≠ [] := by
  cases h with
  | gap hs hw => cases hw <;> simp
  | decimal hne hds hrest hhex => exact hne
  | word | hexadecimal | string | mark => simp

/-- A comment up to the end of a text that no line feed ends. -/
def OpenLine (w : List Char) : Prop := ∃ body, w = '/' :: '/' :: body ∧ '\n' ∉ body

/-- **A stretch stays what it is** if what is behind it is replaced, unless it is a comment that needs the end
    of the text. -/
theorem Begins.swap (h : Begins w (front ++ rest) s) (hreplaces : Replaces rest' rest) :
    Begins w (front ++ rest') s ∨ (front ++ rest = [] ∧ OpenLine w ∧ s.meaning w = .gap) := by
  generalize hahead : front ++ rest = ahead at h
  cases h with
  | gap hs hw =>
      have hmean : s.meaning w = .gap := by rcases hs with rfl | rfl | rfl <;> rfl
      cases hw with
      | blank hc => exact .inl (.gap hs (.blank hc))
      | line hbody => exact .inl (.gap hs (.line hbody))
      | lastLine hbody => exact .inr ⟨rfl, ⟨_, rfl, hbody⟩, hmean⟩
      | block hbody => exact .inl (.gap hs (.block hbody))
  | word hc hcs hrest =>
      subst hahead
      exact .inl (.word hc hcs
        (hreplaces.stops (fun _ => Token.isNameTail_of_isDigit) (fun _ h => h) hrest))
  | decimal hne hds hrest hhex =>
      subst hahead
      refine .inl (.decimal hne hds ?_ (hreplaces.hexRun hne hds hrest hhex))
      exact hreplaces.stops (fun _ h => h) (fun _ => Token.isNameTail_of_isDigit) hrest
  | hexadecimal hne hds hrest =>
      subst hahead
      refine .inl (.hexadecimal hne hds ?_)
      exact hreplaces.stops (fun _ => Numeral.isHexDigit_of_isDigit) (fun _ => Token.isNameTail_of_isHexDigit) hrest
  | string hbody => exact .inl (.string hbody)
  | mark hc => exact .inl (.mark hc)

end Stretch

/-! ## Cutting up to a place -/

namespace Scan

open Stretch (Begins Replaces OpenLine)

/-- The stretch `w`, at `p` and in front of `rest`, is cut off: as a gap, or as one lexeme. -/
inductive Takes (p : Position) (w rest : List Char) : List Lexeme → Prop
  | gap {s : Stretch} (hw : Begins w rest s) (hmean : s.meaning w = .gap) : Takes p w rest []
  | token {s : Stretch} {t : Token} (hw : Begins w rest s) (hmean : s.meaning w = .token t) :
      Takes p w rest [⟨t, w, p, p.after w⟩]

/-- `front`, at `p` and in front of `rest`, is cut into the lexemes `ls` up to its end. -/
inductive CutOff : Position → (front rest : List Char) → List Lexeme → Prop
  | nil (p : Position) (rest : List Char) : CutOff p [] rest []
  | cons {p : Position} {w front rest : List Char} {first ls : List Lexeme}
      (hw : Takes p w (front ++ rest) first) (later : CutOff (p.after w) front rest ls) :
      CutOff p (w ++ front) rest (first ++ ls)

variable {p : Position} {front rest rest' w : List Char} {first ls : List Lexeme}

theorem Takes.ne_nil (h : Takes p w rest first) : w ≠ [] := by
  cases h with
  | gap hw => exact hw.ne_nil
  | token hw => exact hw.ne_nil

theorem Takes.start (h : Takes p w rest first) : ∀ l ∈ first, l.start = p := by
  cases h with
  | gap => simp
  | token => simp

theorem Takes.exists_begins {l : Lexeme} (h : Takes p w rest [l]) :
    ∃ s, Begins w rest s ∧ s.meaning w = .token l.token := by
  cases h with
  | token hw hmean => exact ⟨_, hw, hmean⟩

/-- **One stretch is cut off**, and what is behind it is cut as if it stood alone. -/
theorem Takes.scanFrom (h : Takes p w rest first) :
    Scan.scanFrom p (w ++ rest) = behind first (Scan.scanFrom (p.after w) rest) := by
  cases h with
  | gap hw hmean =>
      obtain ⟨s', hext, hmean'⟩ := Stretch.extent_of_begins hw
      rw [scanFrom_of_extent _ hext, List.take_left, List.drop_left, hmean', hmean, behind_nil]
  | token hw hmean =>
      obtain ⟨s', hext, hmean'⟩ := Stretch.extent_of_begins hw
      rw [scanFrom_of_extent _ hext, List.take_left, List.drop_left, hmean', hmean]

/-- What is behind a stretch can be replaced, unless it is a comment that needs the end of the text. -/
theorem Takes.swap (h : Takes p w (front ++ rest) first) (hreplaces : Replaces rest' rest) :
    Takes p w (front ++ rest') first ∨ (front ++ rest = [] ∧ OpenLine w ∧ first = []) := by
  cases h with
  | gap hw hmean =>
      rcases hw.swap hreplaces with hw | ⟨hnil, hopen, -⟩
      · exact .inl (.gap hw hmean)
      · exact .inr ⟨hnil, hopen, rfl⟩
  | token hw hmean =>
      rcases hw.swap hreplaces with hw | ⟨-, -, hgap⟩
      · exact .inl (.token hw hmean)
      · rw [hmean] at hgap
        cases hgap

theorem Takes.cutOff (h : Takes p w rest first) : CutOff p w rest first := by
  have hcut : CutOff p (w ++ []) rest (first ++ []) := .cons h (.nil _ rest)
  rw [List.append_nil, List.append_nil] at hcut
  exact hcut

theorem takes_of_isGap (p : Position) (h : IsGap w rest) : Takes p w rest [] :=
  .gap (.gap (.inl rfl) h) rfl

theorem CutOff.eq_nil (h : CutOff p [] rest ls) : ls = [] := by
  generalize hfront : ([] : List Char) = front at h
  cases h with
  | nil => rfl
  | cons hw => exact absurd (List.append_eq_nil_iff.mp hfront.symm).1 hw.ne_nil

/-- **What is behind a seam is cut as if it stood alone.** -/
theorem CutOff.scanFrom (h : CutOff p front rest ls) :
    Scan.scanFrom p (front ++ rest) = behind ls (Scan.scanFrom (p.after front) rest) := by
  induction h with
  | nil p rest => rfl
  | cons hw _ ih => rw [List.append_assoc, hw.scanFrom, ih, behind_behind, Position.after_append]

theorem CutOff.append {a b : List Char} {xs ys : List Lexeme} (ha : CutOff p a (b ++ rest) xs)
    (hb : CutOff (p.after a) b rest ys) : CutOff p (a ++ b) rest (xs ++ ys) := by
  generalize hahead : b ++ rest = ahead at ha
  induction ha with
  | nil p _ => exact hb
  | cons hw _ ih =>
      subst hahead
      rw [Position.after_append] at hb
      rw [← List.append_assoc] at hw
      rw [List.append_assoc, List.append_assoc]
      exact .cons hw (ih hb rfl)

/-- **What is behind a seam can be replaced**, from some place on. -/
theorem CutOff.swap_behind (h : CutOff p front (w ++ rest) ls) (hne : w ++ rest ≠ [])
    (hreplaces : Replaces rest' rest) : CutOff p front (w ++ rest') ls := by
  generalize hahead : w ++ rest = ahead at h
  induction h with
  | nil p _ => exact .nil p (w ++ rest')
  | cons hw _ ih =>
      subst hahead
      rw [← List.append_assoc] at hw
      rcases hw.swap hreplaces with hw | ⟨hnil, -⟩
      · rw [List.append_assoc] at hw
        exact .cons hw (ih rfl)
      · rw [List.append_assoc] at hnil
        exact absurd (List.append_eq_nil_iff.mp hnil).2 hne

theorem CutOff.swap (h : CutOff p front rest ls) (hne : rest ≠ []) (hreplaces : Replaces rest' rest) :
    CutOff p front rest' ls :=
  CutOff.swap_behind (w := []) h hne hreplaces

/-- **A line feed behind a text closes it**, and anything can follow. -/
theorem CutOff.feed (h : CutOff p front [] ls) (rest : List Char) : CutOff p (front ++ ['\n']) rest ls := by
  have hfeed : Replaces ('\n' :: rest) [] := .inl (Token.ended_cons rest rfl)
  obtain ⟨last, hend⟩ : ∃ last : List Char, [] = last := ⟨[], rfl⟩
  rw [hend] at h
  induction h with
  | nil p _ => exact (takes_of_isGap p (.blank (by decide))).cutOff
  | @cons p w front _ first ls hw later ih =>
      subst hend
      rcases hw.swap hfeed with hw | ⟨hnil, ⟨body, rfl, hbody⟩, rfl⟩
      · rw [List.append_assoc]
        refine .cons ?_ (ih rfl)
        rw [List.append_assoc]
        exact hw
      · -- the comment takes the line feed in, and nothing is behind it
        rw [List.append_nil] at hnil
        subst hnil
        rw [later.eq_nil, List.append_nil]
        exact (takes_of_isGap p (.line hbody)).cutOff

/-- A text without a failure is cut off whole. -/
theorem cutOff_of_failure {cs : List Char} (h : (Scan.scanFrom p cs).failure = none) :
    CutOff p cs [] (Scan.scanFrom p cs).lexemes := by
  induction cs using stretch_induction generalizing p with
  | stop cs hext =>
      rw [scanFrom_of_extent_eq_none p hext] at h ⊢
      by_cases hnil : cs = []
      · rw [hnil]
        exact .nil p []
      · rw [if_neg hnil] at h
        cases h
  | step cs s n hext ih =>
      have hbegins := Stretch.begins_of_extent hext
      rw [← List.append_nil (cs.drop n)] at hbegins
      rw [scanFrom_of_extent p hext] at h ⊢
      nth_rewrite 1 [← List.take_append_drop n cs]
      cases hmean : s.meaning (cs.take n) with
      | gap =>
          rw [hmean] at h
          exact .cons (.gap hbegins hmean) (ih h)
      | token t =>
          rw [hmean] at h
          exact .cons (.token hbegins hmean) (ih h)
      | outOfRange =>
          rw [hmean] at h
          cases h

/-- **Every lexeme is at a seam**: what is in front of it is cut into the lexemes before it. -/
theorem exists_cutOff {cs : List Char} {l : Lexeme} {later : List Lexeme}
    (h : (Scan.scanFrom p cs).lexemes = ls ++ l :: later) :
    ∃ front rest, cs = front ++ (l.text ++ rest) ∧ CutOff p front (l.text ++ rest) ls ∧
      Takes (p.after front) l.text rest [l] := by
  induction cs using stretch_induction generalizing p ls with
  | stop cs hext =>
      rw [lexemes_of_extent_eq_none p hext] at h
      simp at h
  | step cs s n hext ih =>
      have hbegins := Stretch.begins_of_extent hext
      -- behind a stretch, the seam is found in the rest of the text
      have hbehind : ∀ {first ls : List Lexeme}, Takes p (cs.take n) (cs.drop n) first →
          (Scan.scanFrom (p.after (cs.take n)) (cs.drop n)).lexemes = ls ++ l :: later →
          ∃ front rest, cs = front ++ (l.text ++ rest) ∧ CutOff p front (l.text ++ rest) (first ++ ls) ∧
            Takes (p.after front) l.text rest [l] := by
        intro first ls hfirst hls
        obtain ⟨front, rest, hcs, hcut, htakes⟩ := ih hls
        rw [hcs] at hfirst
        refine ⟨cs.take n ++ front, rest, ?_, .cons hfirst hcut, ?_⟩
        · rw [List.append_assoc, ← hcs, List.take_append_drop]
        · rw [Position.after_append]
          exact htakes
      rw [scanFrom_of_extent p hext] at h
      cases hmean : s.meaning (cs.take n) with
      | gap =>
          rw [hmean] at h
          exact hbehind (.gap hbegins hmean) h
      | token t =>
          rw [hmean] at h
          change _ :: (Scan.scanFrom _ _).lexemes = _ at h
          cases ls with
          | nil =>
              -- the lexeme is the first one
              rw [List.nil_append, List.cons.injEq] at h
              obtain ⟨rfl, -⟩ := h
              exact ⟨[], cs.drop n, (List.take_append_drop n cs).symm, .nil p _, .token hbegins hmean⟩
          | cons first ls =>
              rw [List.cons_append, List.cons.injEq] at h
              obtain ⟨rfl, h⟩ := h
              exact hbehind (.token hbegins hmean) h
      | outOfRange =>
          rw [hmean] at h
          simp at h

end Scan

/-! ## One script behind another -/

namespace Position

/-- The same column, `n` lines further down. -/
def down (n : Nat) (p : Position) : Position := ⟨p.line + n, p.column⟩

theorem shifts_down (n : Nat) : Shifts (down n) fun _ => True where
  stays := by
    intro p c _
    trivial
  next := by
    intro p c _
    rw [next, next, down]
    split
    · simp [down, Nat.add_right_comm]
    · split <;> rfl

theorem line_after (p : Position) (cs : List Char) : (p.after cs).line = p.line + cs.count '\n' := by
  induction cs generalizing p with
  | nil => rfl
  | cons c cs ih =>
      rw [after_cons, ih, List.count_cons, next]
      by_cases hc : c = '\n'
      · simp +arith [hc]
      · by_cases htab : c = '\t'
        · simp [htab]
        · simp [hc, htab]

/-- Behind a line feed, a text begins a number of lines further down. -/
theorem after_feed (cs : List Char) : first.after (cs ++ ['\n']) = down (1 + cs.count '\n') first := by
  rw [after_append, after_cons, after_nil, next, if_pos rfl, line_after]
  simp [down, first, Nat.add_comm, Nat.add_left_comm]

end Position

namespace Call

theorem eq_map_of_forall₂ {f : Call → Call} {calls calls' : List Call}
    (h : List.Forall₂ (fun call call' => call' = f call) calls calls') : calls' = calls.map f := by
  induction h with
  | nil => rfl
  | cons hcall _ ih => rw [hcall, ih, List.map_cons]

/-- **Moved lexemes are read to moved calls.** -/
theorem read_moved (f : Position → Position) {ls : List Lexeme} {calls : List Call}
    (h : Stage.statement.read ls = .ok (calls, .statement)) :
    Stage.statement.read (ls.map (Lexeme.moved f)) = .ok (calls.map (Call.moved f), .statement) := by
  have hread := Stage.read_paired (tracks_moved f) (Lexeme.forall₂_moved f ls) .statement
  rw [h] at hread
  generalize Stage.statement.read (ls.map (Lexeme.moved f)) = read' at hread ⊢
  cases hread with
  | ok hcalls hstage =>
      cases hstage
      rw [eq_map_of_forall₂ hcalls]

/-- **Scripts can be put one behind the other**, with a line feed between them. The calls are those of the one
    and then those of the other. The places of the first ones stay; those of the others keep their columns, and
    move down by the lines of the text in front. -/
theorem parse_append {a b : String} {xs ys : List Call} (ha : parse a = .ok xs) (hb : parse b = .ok ys) :
    parse (a ++ "\n" ++ b)
      = .ok (xs ++ ys.map (moved (Position.down (1 + a.toList.count '\n')))) := by
  obtain ⟨hfailure, hxs, hread⟩ := Grammar.parse_eq_ok_iff.mp ha
  obtain ⟨hfailure', -, hread'⟩ := Grammar.parse_eq_ok_iff.mp hb
  have hscan : Scan.ofText (a ++ "\n" ++ b)
      = Scan.behind (Scan.ofText a).lexemes
        ((Scan.ofText b).moved (Position.down (1 + a.toList.count '\n'))) := by
    have hcut := ((Scan.cutOff_of_failure hfailure).feed b.toList).scanFrom
    rw [Position.after_feed, Scan.scanFrom_moved (Position.shifts_down _) trivial] at hcut
    rw [Scan.ofText, String.toList_append, String.toList_append]
    exact hcut
  refine Grammar.parse_eq_ok_iff.mpr ⟨?_, ?_, ?_⟩
  · rw [hscan]
    show (Scan.ofText b).failure.map _ = none
    rw [hfailure', Option.map_none]
  · simp [hxs]
  · rw [hscan]
    show Stage.statement.read ((Scan.ofText a).lexemes ++ (Scan.ofText b).lexemes.map (Lexeme.moved _)) = _
    rw [Stage.read_append, hread]
    dsimp only
    rw [read_moved _ hread']

/-- A first text that ends in a comment without a line feed, and a second one that begins with an empty line. -/
theorem parse_append_comment :
    parse "a();\n// to b" = .ok [⟨"a", [], some ⟨1, 1⟩⟩] ∧
      parse "\n b(1);" = .ok [⟨"b", [.int 1], some ⟨2, 2⟩⟩] ∧
      parse ("a();\n// to b" ++ "\n" ++ "\n b(1);")
        = .ok [⟨"a", [], some ⟨1, 1⟩⟩, ⟨"b", [.int 1], some ⟨4, 2⟩⟩] := by
  have ha : parse "a();\n// to b" = .ok [⟨"a", [], some ⟨1, 1⟩⟩] := by decide +kernel
  have hb : parse "\n b(1);" = .ok [⟨"b", [.int 1], some ⟨2, 2⟩⟩] := by decide +kernel
  exact ⟨ha, hb, parse_append ha hb⟩

end Call
end CallScript
