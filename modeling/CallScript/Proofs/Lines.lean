import CallScript.Proofs.Printing

/-!
# `Proofs.Lines` — a text is cut line by line

A listing shows its calls one per line, behind tabs and in front of empty lines. `LaidOut` is what that means
for the text alone, without regard to the indents that it comes from. Tabs and empty lines are gaps; the rest
is cut line by line, because nothing that begins in a line and is closed there looks at what is behind the
line feed (`extent_append`, and `scanFrom_append` for all that is cut). So two layouts of the same lines have
the same tokens with the same spellings, `slices_of_laidOut`, though at other places.
-/

namespace CallScript

/-! ## Places -/

namespace Scan

/-- What the lexemes of a scan say and how they are spelled, without their places. -/
def slices (scan : Scan) : List (Token × List Char) := scan.lexemes.map fun l => (l.token, l.text)

theorem slices_behind (ls : List Lexeme) (scan : Scan) :
    (behind ls scan).slices = ls.map (fun l => (l.token, l.text)) ++ scan.slices := by
  rw [slices, behind, List.map_append]
  rfl

/-- **Where a text stands does not matter** to what it is cut into. -/
theorem slices_scanFrom (p p' : Position) (cs : List Char) :
    (scanFrom p cs).slices = (scanFrom p' cs).slices ∧
      ((scanFrom p cs).failure = none → (scanFrom p' cs).failure = none) := by
  induction cs using stretch_induction generalizing p p' with
  | stop cs hext =>
      rw [scanFrom_of_extent_eq_none p hext, scanFrom_of_extent_eq_none p' hext]
      refine ⟨rfl, fun h => ?_⟩
      by_cases hnil : cs = []
      · exact if_pos hnil
      · rw [if_neg hnil] at h
        cases h
  | step cs s n hext ih =>
      obtain ⟨hslices, hfailure⟩ := ih (p.after (cs.take n)) (p'.after (cs.take n))
      rw [scanFrom_of_extent p hext, scanFrom_of_extent p' hext]
      cases s.meaning (cs.take n) with
      | gap => exact ⟨hslices, hfailure⟩
      | token t =>
          refine ⟨?_, hfailure⟩
          rw [slices_behind, slices_behind, hslices]
          rfl
      | outOfRange => exact ⟨rfl, nofun⟩

end Scan

/-! ## Whole lines -/

/-- A row of characters that is empty or ends with a line feed. -/
def EndsLine (cs : List Char) : Prop := ∀ c ∈ cs.getLast?, c = '\n'

theorem EndsLine.drop {cs : List Char} (h : EndsLine cs) (n : Nat) : EndsLine (cs.drop n) := by
  intro c hc
  rw [List.getLast?_drop] at hc
  split at hc
  · cases hc
  · exact h c hc

theorem EndsLine.tail {c : Char} {cs : List Char} (h : EndsLine (c :: cs)) : EndsLine cs := h.drop 1

/-- Before the line feed that ends it, a line goes on. -/
theorem EndsLine.ne_nil {c : Char} {cs : List Char} (h : EndsLine (c :: cs)) (hc : c ≠ '\n') : cs ≠ [] := by
  rintro rfl
  exact hc (h c rfl)

namespace Stretch

variable {cs : List Char} (rest : List Char)

theorem run_append_of_endsLine {p : Char → Bool} (hcs : EndsLine cs) (hne : cs ≠ []) (hp : p '\n' = false) :
    run p (cs ++ rest) = run p cs := by
  induction cs with
  | nil => exact absurd rfl hne
  | cons c cs ih =>
      rw [List.cons_append, run, run]
      by_cases hc : p c = true
      · have hfeed : c ≠ '\n' := by
          rintro rfl
          rw [hp] at hc
          cases hc
        rw [if_pos hc, if_pos hc, ih hcs.tail (hcs.ne_nil hfeed)]
      · rw [if_neg hc, if_neg hc]

theorem hexRun_append_of_endsLine {c : Char} (hcs : EndsLine (c :: cs)) (hc : c ≠ '\n') :
    hexRun (c :: cs ++ rest) = hexRun (c :: cs) := by
  obtain ⟨d, ds, rfl⟩ := List.exists_cons_of_ne_nil (hcs.ne_nil hc)
  by_cases hhex : c = '0' ∧ d = 'x'
  · obtain ⟨rfl, rfl⟩ := hhex
    exact run_append_of_endsLine rest hcs.tail.tail (hcs.tail.ne_nil (by decide)) rfl
  · have hzero : ∀ es, hexRun (c :: d :: es) = 0 := by
      intro es
      unfold hexRun
      split
      · rename_i heq
        cases heq
        exact absurd ⟨rfl, rfl⟩ hhex
      · rfl
    rw [hzero ds]
    exact hzero (ds ++ rest)

theorem quoteEnd?_append_of_eq_some {m : Nat} (h : quoteEnd? cs = some m) :
    quoteEnd? (cs ++ rest) = some m := by
  obtain ⟨body, behind, rfl, hbody, rfl⟩ := exists_of_quoteEnd? h
  rw [List.append_assoc, List.cons_append]
  exact quoteEnd?_append (behind ++ rest) hbody

theorem lineEnd_append_of_endsLine (hcs : EndsLine cs) (hne : cs ≠ []) :
    lineEnd (cs ++ rest) = lineEnd cs := by
  induction cs with
  | nil => exact absurd rfl hne
  | cons c cs ih =>
      rw [List.cons_append, lineEnd, lineEnd]
      by_cases hc : c = '\n'
      · rw [if_pos hc, if_pos hc]
      · rw [if_neg hc, if_neg hc, ih hcs.tail (hcs.ne_nil hc)]

theorem lineEnd_le_length (cs : List Char) : lineEnd cs ≤ cs.length := by
  induction cs with
  | nil => exact Nat.le_refl 0
  | cons c cs ih =>
      rw [lineEnd, List.length_cons]
      split <;> omega

theorem hexRun_le_length (c : Char) (cs : List Char) :
    2 + hexRun (c :: cs) ≤ (c :: cs).length ∨ hexRun (c :: cs) = 0 := by
  unfold hexRun
  split
  · rename_i ds heq
    have hle := run_le_length Numeral.isHexDigit ds
    rw [heq, List.length_cons, List.length_cons]
    left
    omega
  · exact .inr rfl

/-- A stretch is a part of the text. -/
theorem extent_le_length {s : Stretch} {n : Nat} (h : extent cs = some (s, n)) : n ≤ cs.length := by
  cases cs with
  | nil => cases h
  | cons c cs =>
      have htail := run_le_length Token.isNameTail cs
      have hdigits := run_le_length Char.isDigit cs
      have hhex := hexRun_le_length c cs
      rw [List.length_cons] at hhex ⊢
      unfold extent at h
      dsimp only at h
      split at h
      · cases h
        omega
      split at h
      · cases h
        omega
      split at h
      · split at h
        · cases h
          omega
        · cases h
          omega
      split at h
      · obtain ⟨m, hm, heq⟩ := Option.map_eq_some_iff.mp h
        cases heq
        obtain ⟨body, behind, rfl, -, rfl⟩ := exists_of_quoteEnd? hm
        simp only [List.length_append, List.length_cons]
        omega
      split at h
      · split at h
        · rename_i ds
          cases h
          have hle := lineEnd_le_length ds
          rw [List.length_cons]
          omega
        · obtain ⟨m, hm, heq⟩ := Option.map_eq_some_iff.mp h
          cases heq
          have hle := closing?_le_length hm
          rw [List.length_cons]
          omega
        · cases h
      · obtain ⟨t, -, heq⟩ := Option.map_eq_some_iff.mp h
        cases heq
        omega

/-- **What begins in a line does not look behind it.** -/
theorem extent_append (hcs : EndsLine cs) {s : Stretch} {n : Nat} (h : extent cs = some (s, n)) :
    extent (cs ++ rest) = some (s, n) := by
  cases cs with
  | nil => cases h
  | cons c cs =>
      by_cases hblank : Token.isBlank c = true
      · rw [extent_blank cs hblank] at h
        rw [List.cons_append, extent_blank _ hblank, h]
      have hfeed : c ≠ '\n' := by
        rintro rfl
        exact hblank rfl
      have hne := hcs.ne_nil hfeed
      have hhex := hexRun_append_of_endsLine rest hcs hfeed
      rw [List.cons_append] at hhex ⊢
      unfold extent at h ⊢
      dsimp only at h ⊢
      rw [if_neg hblank] at h ⊢
      by_cases hhead : Token.isNameHead c = true
      · rw [if_pos hhead] at h ⊢
        rw [run_append_of_endsLine rest hcs.tail hne rfl]
        exact h
      rw [if_neg hhead] at h ⊢
      by_cases hdigit : c.isDigit = true
      · rw [if_pos hdigit] at h ⊢
        rw [hhex, run_append_of_endsLine rest hcs.tail hne rfl]
        exact h
      rw [if_neg hdigit] at h ⊢
      by_cases hquote : c = '"'
      · rw [if_pos hquote] at h ⊢
        obtain ⟨m, hm, heq⟩ := Option.map_eq_some_iff.mp h
        exact Option.map_eq_some_iff.mpr ⟨m, quoteEnd?_append_of_eq_some rest hm, heq⟩
      rw [if_neg hquote] at h ⊢
      by_cases hslash : c = '/'
      · rw [if_pos hslash] at h ⊢
        split at h
        · rename_i ds
          -- the comment goes to the line feed, which the line has
          have hds : ds ≠ [] := hcs.tail.ne_nil (by decide)
          show some (lineComment, 2 + lineEnd (ds ++ rest)) = some (s, n)
          rw [lineEnd_append_of_endsLine rest hcs.tail.tail hds]
          exact h
        · obtain ⟨m, hm, heq⟩ := Option.map_eq_some_iff.mp h
          exact Option.map_eq_some_iff.mpr ⟨m, closing?_append_of_eq_some rest hm, heq⟩
        · cases h
      · rw [if_neg hslash] at h ⊢
        exact h

end Stretch

namespace Scan

/-- **Lines are cut off in front of what is behind them**, if nothing in them fails. -/
theorem scanFrom_append {cs : List Char} (hcs : EndsLine cs) (p : Position) (rest : List Char)
    (h : (scanFrom p cs).failure = none) :
    scanFrom p (cs ++ rest) = behind (scanFrom p cs).lexemes (scanFrom (p.after cs) rest) := by
  induction cs using stretch_induction generalizing p with
  | stop cs hext =>
      rw [scanFrom_of_extent_eq_none p hext] at h ⊢
      by_cases hnil : cs = []
      · rw [hnil]
        rfl
      · rw [if_neg hnil] at h
        cases h
  | step cs s n hext ih =>
      have hle := Stretch.extent_le_length hext
      have hafter : p.after cs = (p.after (cs.take n)).after (cs.drop n) := by
        rw [← Position.after_append, List.take_append_drop]
      rw [scanFrom_of_extent p (Stretch.extent_append rest hcs hext), List.take_append_of_le_length hle,
        List.drop_append_of_le_length hle, hafter]
      rw [scanFrom_of_extent p hext] at h ⊢
      cases hmean : s.meaning (cs.take n) with
      | gap =>
          rw [hmean] at h
          exact ih (hcs.drop n) _ h
      | token t =>
          rw [hmean] at h
          dsimp only
          rw [ih (hcs.drop n) _ h, behind_behind]
          rfl
      | outOfRange =>
          rw [hmean] at h
          cases h

end Scan

/-! ## Layouts -/

/-- The text shows the lines: each one behind tabs, and in front of a line feed and empty lines. -/
inductive LaidOut : (lines : List String) → (text : String) → Prop
  | nil : LaidOut [] ""
  | cons {line text : String} {lines : List String} (depth empty : Nat) (later : LaidOut lines text) :
      LaidOut (line :: lines)
        (Indent.tabs depth ++ line ++ "\n" ++ String.ofList (List.replicate empty '\n') ++ text)

/-- Indents lay lines out. -/
theorem Indent.laidOut_layout (level : Nat) (lines : List (Indent × String)) :
    LaidOut (lines.map Prod.snd) (layout level lines) := by
  induction lines generalizing level with
  | nil => exact .nil
  | cons entry lines ih =>
      obtain ⟨indent, line⟩ := entry
      have hgap : gap indent
          = String.ofList (List.replicate (if indent = .scopeEnd then 1 else 0) '\n') := by
        cases indent <;> rfl
      rw [layout, hgap]
      exact .cons _ _ (ih (step level indent))

namespace Scan

/-- The slices of a line, which do not depend on the text around it. -/
def lineSlices (line : String) : List (Token × List Char) := (ofText (line ++ "\n")).slices

/-- Blanks are passed over. -/
theorem scanFrom_blanks {w : List Char} (hw : ∀ c ∈ w, Token.isBlank c = true) (p : Position)
    (rest : List Char) : scanFrom p (w ++ rest) = scanFrom (p.after w) rest := by
  obtain ⟨ls, hls, hscan⟩ := cuts_blanks rest hw p
  rw [hscan, List.map_eq_nil_iff.mp hls, behind_nil]

theorem isBlank_of_mem_feeds {n : Nat} {c : Char} (h : c ∈ List.replicate n '\n') :
    Token.isBlank c = true := by
  rw [(List.mem_replicate.mp h).2]
  rfl

/-- **A layout is cut into the slices of its lines**, wherever it puts them. -/
theorem slices_of_laidOut {lines : List String} {text : String} (h : LaidOut lines text)
    (hlines : ∀ line ∈ lines, (ofText (line ++ "\n")).failure = none) (p : Position) :
    (scanFrom p text.toList).slices = lines.flatMap lineSlices ∧
      (scanFrom p text.toList).failure = none := by
  induction h generalizing p with
  | nil =>
      rw [String.toList_empty, scanFrom]
      exact ⟨rfl, rfl⟩
  | @cons line text lines depth empty _ ih =>
      obtain ⟨hline, hlater⟩ := List.forall_mem_cons.mp hlines
      -- the tabs, the line with its line feed, the empty lines, and the lines behind them
      have hsplit : (Indent.tabs depth ++ line ++ "\n" ++ String.ofList (List.replicate empty '\n')
          ++ text).toList = (Indent.tabs depth).toList ++ ((line ++ "\n").toList
            ++ (List.replicate empty '\n' ++ text.toList)) := by simp
      have hends : EndsLine (line ++ "\n").toList := by
        intro c hc
        rw [String.toList_append, List.getLast?_append] at hc
        exact (Option.some.inj hc).symm
      obtain ⟨hslices, hfailure⟩ :=
        slices_scanFrom .first (p.after (Indent.tabs depth).toList) (line ++ "\n").toList
      rw [hsplit, scanFrom_blanks (fun _ => Grammar.isBlank_of_mem_tabs), scanFrom_append hends _ _
        (hfailure hline), scanFrom_blanks (fun _ => isBlank_of_mem_feeds), slices_behind]
      obtain ⟨hslices', hfailure'⟩ := ih hlater (((p.after (Indent.tabs depth).toList).after
        (line ++ "\n").toList).after (List.replicate empty '\n'))
      refine ⟨?_, hfailure'⟩
      rw [hslices', List.flatMap_cons, lineSlices, ofText, hslices]
      rfl

/-- A printed call is a line that is cut without a failure. -/
theorem failure_print {call : Call} (h : call.Printable) : (ofText (call.print ++ "\n")).failure = none := by
  obtain ⟨ls, -, hscan⟩ := Grammar.cuts_call h ['\n'] .first
  have hfeed := scanFrom_blanks (fun _ => isBlank_of_mem_feeds (n := 1))
    (Position.first.after call.print.toList) []
  rw [List.append_nil, scanFrom] at hfeed
  rw [ofText, String.toList_append]
  show (scanFrom .first (call.print.toList ++ ['\n'])).failure = none
  rw [hscan]
  exact congrArg failure hfeed

end Scan
end CallScript
