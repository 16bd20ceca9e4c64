import CallScript.Proofs.Patterns
import Mathlib.Data.List.TakeWhile

/-!
# `Proofs.Tiling` — a text is tiled by its longest matches

Cutting a text leaves nothing out. What it passes over are single blanks and whole comments (`IsGap`), and
what it takes is the longest beginning of the rest that any token pattern matches (`Longest`).
`Begins` says what the scanner finds at a place and what stands behind it, and `begins_of_extent` that this
is what it finds. One step of cutting follows from it: the `longest_` lemmas, one for each kind of token,
`denotes_of_begins` for what the step takes, `nothing_of_extent` for the place where nothing begins.
`Scan.tiled_by_longest_matches` is the whole run, by induction over the text that is left.
-/

namespace CallScript

open Pattern (Unclosed)

/-! ## Pieces of a text -/

/-- One blank or one complete comment, in front of `ahead`. A line comment ends with its line, or else with
    the text; a block comment ends at the first closing mark. -/
inductive IsGap : (w ahead : List Char) → Prop
  | blank {c : Char} {ahead : List Char} (hc : c ∈ [' ', '\t', '\n', '\r', '\x0c']) : IsGap [c] ahead
  | line {body ahead : List Char} (hbody : '\n' ∉ body) : IsGap ('/' :: '/' :: body ++ ['\n']) ahead
  | lastLine {body : List Char} (hbody : '\n' ∉ body) : IsGap ('/' :: '/' :: body) []
  | block {body ahead : List Char} (hbody : Unclosed body) :
      IsGap ('/' :: '*' :: body ++ ['*', '/']) ahead

/-- `w` is the longest beginning of a text that a pattern matches. -/
def Longest (l : Language Char) (w text : List Char) : Prop :=
  w <+: text ∧ w ∈ l ∧ ∀ v, v <+: text → v ∈ l → v.length ≤ w.length

/-- What a slice of the text is as a token. A keyword is the whole word; every other word is a name. -/
def Denotes (w : List Char) : Token → Prop
  | .name text     => w ∈ Pattern.name ∧ w ∉ Pattern.keyword ∧ text.toList = w
  | .integer value => w ∈ Pattern.decimal ∧ value.toInt = Numeral.value 10 w
  | .hex value     => w ∈ Pattern.hexadecimal ∧ value.toNat = Numeral.value 16 (w.drop 2)
  | .string text   => w ∈ Pattern.string ∧ w = '"' :: text.toList ++ ['"']
  | .trueWord      => w = "true".toList
  | .falseWord     => w = "false".toList
  | .constWord     => w = "Const".toList
  | .varWord       => w = "Var".toList
  | .leftParen     => w = ['(']
  | .rightParen    => w = [')']
  | .comma         => w = [',']
  | .semicolon     => w = [';']
  | .minus         => w = ['-']

/-- A literal that no token can hold. -/
def OutOfRange (w : List Char) : Prop :=
  w ∈ Pattern.decimal ∧ 0x8000000000000000 ≤ Numeral.value 10 w ∨
    w ∈ Pattern.hexadecimal ∧ 0x10000000000000000 ≤ Numeral.value 16 (w.drop 2)

/-- No token, no blank and no comment begins a text. -/
def NothingBegins (text : List Char) : Prop :=
  ∀ v, v <+: text →
    v ∉ Pattern.token ∧ v ∉ Pattern.blank ∧ v ∉ Pattern.lineComment ∧ v ∉ Pattern.blockComment

/-! ## What the scanner finds -/

namespace Stretch

theorem take_run (p : Char → Bool) (cs : List Char) : cs.take (run p cs) = cs.takeWhile p := by
  induction cs with
  | nil => rfl
  | cons c cs ih =>
      rw [run, List.takeWhile_cons]
      by_cases hc : p c = true
      · simp [hc, ih]
      · simp [hc]

theorem drop_run (p : Char → Bool) (cs : List Char) : cs.drop (run p cs) = cs.dropWhile p := by
  induction cs with
  | nil => rfl
  | cons c cs ih =>
      rw [run, List.dropWhile_cons]
      by_cases hc : p c = true
      · simp [hc, ih]
      · simp [hc]

/-- What is behind a run of a class does not begin with that class. -/
theorem head?_dropWhile {p : Char → Bool} {cs : List Char} :
    ∀ c ∈ (cs.dropWhile p).head?, p c = false := by
  intro c hc
  have hnot := List.head?_dropWhile_not p cs
  rw [hc] at hnot
  simpa using hnot

/-- A line ends at the first line feed, or there is none. -/
theorem lineEnd_cases (cs : List Char) :
    (∃ body rest, cs = body ++ '\n' :: rest ∧ '\n' ∉ body ∧ lineEnd cs = body.length + 1) ∨
      ('\n' ∉ cs ∧ lineEnd cs = cs.length) := by
  induction cs with
  | nil => exact .inr ⟨List.not_mem_nil, rfl⟩
  | cons c cs ih =>
      rw [lineEnd]
      by_cases hc : c = '\n'
      · exact .inl ⟨[], cs, by rw [hc]; rfl, List.not_mem_nil, if_pos hc⟩
      · rw [if_neg hc]
        rcases ih with ⟨body, rest, rfl, hbody, hend⟩ | ⟨hcs, hend⟩
        · refine .inl ⟨c :: body, rest, rfl, ?_, by rw [hend]; rfl⟩
          simp [Ne.symm hc, hbody]
        · refine .inr ⟨?_, by rw [hend]; rfl⟩
          simp [Ne.symm hc, hcs]

/-- A block comment ends at the first closing mark. -/
theorem exists_of_closing? {cs : List Char} {m : Nat} (h : closing? cs = some m) :
    ∃ body rest, cs = body ++ '*' :: '/' :: rest ∧ Unclosed body ∧ m = body.length + 2 := by
  fun_induction closing? cs generalizing m with
  | case1 rest =>
      cases h
      exact ⟨[], rest, rfl, by simp [Unclosed], rfl⟩
  | case2 c cs hopen ih =>
      obtain ⟨k, hk, rfl⟩ := Option.map_eq_some_iff.mp h
      obtain ⟨body, rest, rfl, hbody, rfl⟩ := ih hk
      refine ⟨c :: body, rest, rfl, Pattern.unclosed_cons_iff.mpr ⟨?_, hbody⟩, rfl⟩
      rintro ⟨rfl, hslash⟩
      obtain ⟨later, rfl⟩ := List.head?_eq_some_iff.mp hslash
      exact hopen _ rfl rfl
  | case3 => cases h

theorem unclosed_of_closing? {cs : List Char} (h : closing? cs = none) : Unclosed cs := by
  fun_induction closing? cs with
  | case1 => cases h
  | case2 c cs hopen ih =>
      refine Pattern.unclosed_cons_iff.mpr ⟨?_, ih (Option.map_eq_none_iff.mp h)⟩
      rintro ⟨rfl, hslash⟩
      obtain ⟨later, rfl⟩ := List.head?_eq_some_iff.mp hslash
      exact hopen _ rfl rfl
  | case3 => simp [Unclosed]

/-- `w` is what a text `w ++ rest` begins with, as a stretch of the given kind. -/
inductive Begins : (w rest : List Char) → Stretch → Prop
  | gap {w rest : List Char} {s : Stretch} (hs : s = blank ∨ s = lineComment ∨ s = blockComment)
      (hw : IsGap w rest) : Begins w rest s
  | word {c : Char} {cs rest : List Char} (hc : Token.isNameHead c = true)
      (hcs : ∀ d ∈ cs, Token.isNameTail d = true) (hrest : ∀ d ∈ rest.head?, Token.isNameTail d = false) :
      Begins (c :: cs) rest word
  | decimal {ds rest : List Char} (hne : ds ≠ []) (hds : ∀ d ∈ ds, d.isDigit = true)
      (hrest : ∀ d ∈ rest.head?, d.isDigit = false) (hhex : hexRun (ds ++ rest) = 0) :
      Begins ds rest decimal
  | hexadecimal {ds rest : List Char} (hne : ds ≠ []) (hds : ∀ d ∈ ds, Numeral.isHexDigit d = true)
      (hrest : ∀ d ∈ rest.head?, Numeral.isHexDigit d = false) :
      Begins ('0' :: 'x' :: ds) rest hexadecimal
  | string {body rest : List Char} (hbody : '"' ∉ body) : Begins ('"' :: body ++ ['"']) rest string
  | mark {c : Char} {t : Token} {rest : List Char} (hc : Token.mark? c = some t) : Begins [c] rest (mark t)

theorem begins_word {c : Char} {cs : List Char} (hc : Token.isNameHead c = true) :
    Begins ((c :: cs).take (1 + run Token.isNameTail cs)) ((c :: cs).drop (1 + run Token.isNameTail cs))
      word := by
  rw [Nat.add_comm, List.take_succ_cons, List.drop_succ_cons, take_run, drop_run]
  exact .word hc (fun d hd => List.mem_takeWhile_imp hd) head?_dropWhile

theorem begins_decimal {c : Char} {cs : List Char} (hc : c.isDigit = true) (hhex : hexRun (c :: cs) = 0) :
    Begins ((c :: cs).take (1 + run Char.isDigit cs)) ((c :: cs).drop (1 + run Char.isDigit cs))
      decimal := by
  have hsplit : c :: cs.takeWhile Char.isDigit ++ cs.dropWhile Char.isDigit = c :: cs := by
    rw [List.cons_append, List.takeWhile_append_dropWhile]
  rw [Nat.add_comm, List.take_succ_cons, List.drop_succ_cons, take_run, drop_run]
  refine .decimal (List.cons_ne_nil _ _) ?_ head?_dropWhile (by rw [hsplit, hhex])
  exact List.forall_mem_cons.mpr ⟨hc, fun d hd => List.mem_takeWhile_imp hd⟩

theorem begins_hexadecimal {cs : List Char} (h : 0 < hexRun cs) :
    Begins (cs.take (2 + hexRun cs)) (cs.drop (2 + hexRun cs)) hexadecimal := by
  unfold hexRun at h ⊢
  split at h
  · rename_i ds
    rw [Nat.add_comm, List.take_succ_cons, List.take_succ_cons, List.drop_succ_cons, List.drop_succ_cons,
      take_run, drop_run]
    refine .hexadecimal ?_ (fun d hd => List.mem_takeWhile_imp hd) head?_dropWhile
    rw [← take_run]
    intro hnil
    have hlength := congrArg List.length hnil
    have hle := run_le_length Numeral.isHexDigit ds
    rw [List.length_take, List.length_nil] at hlength
    omega
  · exact absurd h (Nat.lt_irrefl 0)

theorem begins_string {cs : List Char} {m : Nat} (h : quoteEnd? cs = some m) :
    Begins (('"' :: cs).take (1 + m)) (('"' :: cs).drop (1 + m)) string := by
  obtain ⟨body, rest, rfl, hbody, rfl⟩ := exists_of_quoteEnd? h
  have htake : ('"' :: (body ++ '"' :: rest)).take (1 + (body.length + 1)) = '"' :: body ++ ['"'] := by
    simp [Nat.add_comm 1, List.take_append]
  rw [htake]
  exact .string hbody

theorem begins_lineComment (cs : List Char) :
    Begins (('/' :: '/' :: cs).take (2 + lineEnd cs)) (('/' :: '/' :: cs).drop (2 + lineEnd cs))
      lineComment := by
  rw [Nat.add_comm, List.take_succ_cons, List.take_succ_cons, List.drop_succ_cons, List.drop_succ_cons]
  refine .gap (.inr (.inl rfl)) ?_
  rcases lineEnd_cases cs with ⟨body, rest, rfl, hbody, hend⟩ | ⟨hcs, hend⟩
  · have htake : (body ++ '\n' :: rest).take (body.length + 1) = body ++ ['\n'] := by
      simp [List.take_append]
    rw [hend, htake]
    exact .line hbody
  · rw [hend, List.take_length, List.drop_length]
    exact .lastLine hcs

theorem begins_blockComment {cs : List Char} {m : Nat} (h : closing? cs = some m) :
    Begins (('/' :: '*' :: cs).take (2 + m)) (('/' :: '*' :: cs).drop (2 + m)) blockComment := by
  obtain ⟨body, rest, rfl, hbody, rfl⟩ := exists_of_closing? h
  have htake : (body ++ '*' :: '/' :: rest).take (body.length + 2) = body ++ ['*', '/'] := by
    simp [List.take_append]
  rw [Nat.add_comm, List.take_succ_cons, List.take_succ_cons, htake]
  exact .gap (.inr (.inr rfl)) (.block hbody)

/-- **What the scanner finds** is what the text begins with. -/
theorem begins_of_extent {cs : List Char} {s : Stretch} {n : Nat} (h : extent cs = some (s, n)) :
    Begins (cs.take n) (cs.drop n) s := by
  cases cs with
  | nil => cases h
  | cons c cs =>
      -- in the order in which the scanner looks at the first character
      unfold extent at h
      dsimp only at h
      split at h
      · rename_i hblank
        cases h
        refine .gap (.inl rfl) (.blank ?_)
        simpa [Token.isBlank, or_assoc] using hblank
      split at h
      · rename_i hhead
        cases h
        exact begins_word hhead
      split at h
      · rename_i hdigit
        split at h
        · rename_i hhex
          cases h
          exact begins_hexadecimal hhex
        · rename_i hhex
          cases h
          exact begins_decimal hdigit (Nat.eq_zero_of_not_pos hhex)
      split at h
      · rename_i hquote
        obtain ⟨m, hm, heq⟩ := Option.map_eq_some_iff.mp h
        cases heq
        subst hquote
        exact begins_string hm
      split at h
      · rename_i hslash
        subst hslash
        split at h
        · cases h
          exact begins_lineComment _
        · obtain ⟨m, hm, heq⟩ := Option.map_eq_some_iff.mp h
          cases heq
          exact begins_blockComment hm
        · cases h
      · obtain ⟨t, ht, heq⟩ := Option.map_eq_some_iff.mp h
        cases heq
        exact .mark ht

/-! ## Longest matches -/

/-- A beginning made of a class is no longer than the run of that class. -/
theorem length_le_of_run {p : Char → Bool} {v w rest : List Char} (hv : v <+: w ++ rest)
    (hall : ∀ c ∈ v, p c = true) (hrest : ∀ c ∈ rest.head?, p c = false) : v.length ≤ w.length := by
  by_contra hlt
  rw [Nat.not_le] at hlt
  cases rest with
  | nil =>
      have hle := hv.length_le
      rw [List.append_nil] at hle
      omega
  | cons c rest =>
      -- the character behind `w` would be one of the class
      obtain ⟨t, ht⟩ := hv
      have hleft : (v ++ t)[w.length]? = v[w.length]? := List.getElem?_append_left hlt
      have hc : v[w.length]? = some c := by
        rw [← hleft, ht, List.getElem?_append_right (Nat.le_refl _)]
        simp
      have htrue := hall c (List.mem_of_getElem? hc)
      rw [hrest c rfl] at htrue
      cases htrue

theorem mark?_class {c : Char} {t : Token} (h : Token.mark? c = some t) :
    Token.isNameHead c = false ∧ c.isDigit = false ∧ c ≠ '"' := by
  unfold Token.mark? at h
  split at h <;> cases h <;> decide

theorem isDigit_class {c : Char} (h : c.isDigit = true) : Token.isNameHead c = false ∧ c ≠ '"' := by
  refine ⟨Token.not_isNameHead_of_isDigit h, ?_⟩
  rintro rfl
  cases h

theorem longest_word {c : Char} {cs rest : List Char} (hc : Token.isNameHead c = true)
    (hcs : ∀ d ∈ cs, Token.isNameTail d = true) (hrest : ∀ d ∈ rest.head?, Token.isNameTail d = false) :
    Longest Pattern.token (c :: cs) (c :: cs ++ rest) := by
  refine ⟨List.prefix_append _ _, ?_, fun v hv hmem => ?_⟩
  · exact .inl (.inl (.inl (.inr (Pattern.mem_name_iff.mpr ⟨c, cs, rfl, hc, hcs⟩))))
  · obtain ⟨d, v, rfl, hcases⟩ := Pattern.mem_token_cases hmem
    have hlater := (List.cons_prefix_cons.mp hv).2
    obtain rfl := (List.cons_prefix_cons.mp hv).1
    rcases hcases with ⟨-, hall⟩ | ⟨hdigit, -⟩ | ⟨rfl, -⟩ | ⟨rfl, -⟩ | ⟨t, -, rfl⟩
    · exact Nat.succ_le_succ (length_le_of_run hlater hall hrest)
    · rw [(isDigit_class hdigit).1] at hc
      cases hc
    · cases hc
    · cases hc
    · exact Nat.succ_le_succ (Nat.zero_le _)

theorem longest_decimal {d : Char} {ds rest : List Char} (hd : d.isDigit = true)
    (hds : ∀ e ∈ ds, e.isDigit = true) (hrest : ∀ e ∈ rest.head?, e.isDigit = false)
    (hhex : hexRun (d :: ds ++ rest) = 0) : Longest Pattern.token (d :: ds) (d :: ds ++ rest) := by
  refine ⟨List.prefix_append _ _, ?_, fun v hv hmem => ?_⟩
  · refine .inl (.inl (.inr (Pattern.mem_decimal_iff.mpr ⟨List.cons_ne_nil d ds, ?_⟩)))
    exact List.forall_mem_cons.mpr ⟨hd, hds⟩
  · obtain ⟨e, v, rfl, hcases⟩ := Pattern.mem_token_cases hmem
    have hlater := (List.cons_prefix_cons.mp hv).2
    obtain rfl := (List.cons_prefix_cons.mp hv).1
    rcases hcases with ⟨hhead, -⟩ | ⟨-, hall⟩ | ⟨rfl, es, rfl, hes, hall⟩ | ⟨hquote, -⟩ | ⟨t, -, rfl⟩
    · rw [(isDigit_class hd).1] at hhead
      cases hhead
    · exact Nat.succ_le_succ (length_le_of_run hlater hall hrest)
    · -- then the scanner would have seen the hexadecimal literal
      obtain ⟨t, ht⟩ := hv
      rw [← ht] at hhex
      have hzero : run Numeral.isHexDigit (es ++ t) = 0 := hhex
      cases es with
      | nil => exact absurd rfl hes
      | cons e es =>
          rw [List.cons_append, run, if_pos (hall e List.mem_cons_self)] at hzero
          cases hzero
    · exact absurd hquote (isDigit_class hd).2
    · exact Nat.succ_le_succ (Nat.zero_le _)

theorem longest_hexadecimal {ds rest : List Char} (hne : ds ≠ [])
    (hds : ∀ d ∈ ds, Numeral.isHexDigit d = true) (hrest : ∀ d ∈ rest.head?, Numeral.isHexDigit d = false) :
    Longest Pattern.token ('0' :: 'x' :: ds) ('0' :: 'x' :: ds ++ rest) := by
  refine ⟨List.prefix_append _ _, ?_, fun v hv hmem => ?_⟩
  · exact .inl (.inr (Pattern.mem_hexadecimal_iff.mpr ⟨ds, rfl, hne, hds⟩))
  · obtain ⟨c, v, rfl, hcases⟩ := Pattern.mem_token_cases hmem
    have hlater := (List.cons_prefix_cons.mp hv).2
    obtain rfl := (List.cons_prefix_cons.mp hv).1
    rcases hcases with ⟨hhead, -⟩ | ⟨-, hall⟩ | ⟨-, es, rfl, -, hall⟩ | ⟨hquote, -⟩ | ⟨t, -, rfl⟩
    · cases hhead
    · -- of the digits, only the leading zero stands in front of the `x`
      cases v with
      | nil => exact Nat.succ_le_succ (Nat.zero_le _)
      | cons e v =>
          obtain rfl := (List.cons_prefix_cons.mp hlater).1
          cases hall 'x' List.mem_cons_self
    · have hes := (List.cons_prefix_cons.mp hlater).2
      exact Nat.succ_le_succ (Nat.succ_le_succ (length_le_of_run hes hall hrest))
    · cases hquote
    · exact Nat.succ_le_succ (Nat.zero_le _)

theorem longest_string {body : List Char} (rest : List Char) (hbody : '"' ∉ body) :
    Longest Pattern.token ('"' :: body ++ ['"']) ('"' :: body ++ ['"'] ++ rest) := by
  refine ⟨List.prefix_append _ _, .inr (Pattern.mem_string_iff.mpr ⟨body, rfl, hbody⟩), fun v hv hmem => ?_⟩
  obtain ⟨c, v, rfl, hcases⟩ := Pattern.mem_token_cases hmem
  have hlater := (List.cons_prefix_cons.mp hv).2
  obtain rfl := (List.cons_prefix_cons.mp hv).1
  rcases hcases with ⟨hhead, -⟩ | ⟨hdigit, -⟩ | ⟨hzero, -⟩ | ⟨-, body', rfl, hbody'⟩ | ⟨t, -, rfl⟩
  · cases hhead
  · cases hdigit
  · cases hzero
  · have hpre : body' <+: body ++ '"' :: rest := by
      have hall := (List.prefix_append body' ['"']).trans hlater
      simpa using hall
    have hle : body'.length ≤ body.length := by
      refine length_le_of_run (p := (· ≠ '"')) hpre (fun c hc => ?_) (by simp)
      rw [decide_eq_true_eq]
      rintro rfl
      exact hbody' hc
    simpa using hle
  · exact Nat.succ_le_succ (Nat.zero_le _)

theorem longest_mark {c : Char} {t : Token} (rest : List Char) (hc : Token.mark? c = some t) :
    Longest Pattern.token [c] ([c] ++ rest) := by
  refine ⟨List.prefix_append _ _, ?_, fun v hv hmem => ?_⟩
  · exact .inl (.inl (.inl (.inl (.inr (Pattern.mem_mark_iff.mpr ⟨c, t, rfl, hc⟩)))))
  · obtain ⟨d, v, rfl, hcases⟩ := Pattern.mem_token_cases hmem
    obtain rfl := (List.cons_prefix_cons.mp hv).1
    obtain ⟨hhead', hdigit', hquote'⟩ := mark?_class hc
    rcases hcases with ⟨hhead, -⟩ | ⟨hdigit, -⟩ | ⟨rfl, -⟩ | ⟨hquote, -⟩ | ⟨t, -, rfl⟩
    · rw [hhead'] at hhead
      cases hhead
    · rw [hdigit'] at hdigit
      cases hdigit
    · cases hdigit'
    · exact absurd hquote hquote'
    · exact Nat.le_refl 1

/-- **Where the scanner finds nothing, no pattern matches.** -/
theorem nothing_of_extent {cs : List Char} (h : extent cs = none) : NothingBegins cs := by
  intro v hv
  refine ⟨fun hmem => ?_, fun hmem => ?_, fun hmem => ?_, fun hmem => ?_⟩
  · obtain ⟨c, v, rfl, hcases⟩ := Pattern.mem_token_cases hmem
    obtain ⟨t, rfl⟩ := hv
    rcases hcases with ⟨hhead, -⟩ | ⟨hdigit, -⟩ | ⟨rfl, -⟩ | ⟨rfl, body, rfl, hbody⟩ | ⟨t, ht, rfl⟩
    · rw [List.cons_append, extent_nameHead _ hhead] at h
      cases h
    · rw [List.cons_append, extent_digit _ hdigit] at h
      split at h <;> cases h
    · rw [List.cons_append, extent_digit _ rfl] at h
      split at h <;> cases h
    · have hext := extent_string t hbody
      rw [List.cons_append] at hext
      rw [hext] at h
      cases h
    · rw [List.singleton_append, extent_mark _ ht] at h
      cases h
  · obtain ⟨c, hc, rfl⟩ := hmem
    obtain ⟨t, rfl⟩ := hv
    have hblank : Token.isBlank c = true := by simpa [Token.isBlank, or_assoc] using hc
    rw [List.singleton_append, extent_blank _ hblank] at h
    cases h
  · obtain ⟨_, ⟨_, rfl, body, -, rfl⟩, tail, -, rfl⟩ := hmem
    obtain ⟨t, rfl⟩ := hv
    cases h
  · obtain ⟨body, rfl, -⟩ := Pattern.mem_blockComment_iff.mp hmem
    obtain ⟨t, rfl⟩ := hv
    have hnone : closing? (body ++ ['*', '/'] ++ t) = none := Option.map_eq_none_iff.mp h
    exact unclosed_of_closing? hnone ⟨body, t, rfl⟩

/-! ## What a stretch says -/

theorem denotes_ofWord {w : List Char} (hw : w ∈ Pattern.name) : Denotes w (Token.ofWord w) := by
  unfold Token.ofWord
  split
  · assumption
  split
  · assumption
  split
  · assumption
  split
  · assumption
  · rename_i htrue hfalse hconst hvar
    refine ⟨hw, fun hkey => ?_, String.toList_ofList⟩
    rcases Pattern.mem_keyword_iff.mp hkey with h | h | h | h
    · exact htrue h
    · exact hfalse h
    · exact hconst h
    · exact hvar h

theorem denotes_mark {c : Char} {t : Token} (h : Token.mark? c = some t) : Denotes [c] t := by
  unfold Token.mark? at h
  split at h <;> cases h <;> rfl

/-- **A stretch says what its text is**: a gap nothing, and a token what its slice denotes, unless it is a
    literal out of range. -/
theorem denotes_of_begins {w rest : List Char} {s : Stretch} (h : Begins w rest s) :
    match s.meaning w with
    | .gap => IsGap w rest
    | .token t => Longest Pattern.token w (w ++ rest) ∧ Denotes w t
    | .outOfRange => Longest Pattern.token w (w ++ rest) ∧ OutOfRange w := by
  cases h with
  | gap hs hw => rcases hs with rfl | rfl | rfl <;> exact hw
  | word hc hcs hrest =>
      refine ⟨longest_word hc hcs hrest, denotes_ofWord ?_⟩
      exact Pattern.mem_name_iff.mpr ⟨_, _, rfl, hc, hcs⟩
  | decimal hne hds hrest hhex =>
      have hlongest : Longest Pattern.token w (w ++ rest) := by
        obtain ⟨d, ds, rfl⟩ := List.exists_cons_of_ne_nil hne
        obtain ⟨hd, hds⟩ := List.forall_mem_cons.mp hds
        exact longest_decimal hd hds hrest hhex
      have hmem := Pattern.mem_decimal_iff.mpr ⟨hne, hds⟩
      rw [meaning, decimalMeaning]
      by_cases hrange : Numeral.value 10 w < 0x8000000000000000
      · rw [if_pos hrange]
        exact ⟨hlongest, hmem, Int64.toInt_ofNat_of_lt hrange⟩
      · rw [if_neg hrange]
        exact ⟨hlongest, .inl ⟨hmem, Nat.le_of_not_lt hrange⟩⟩
  | @hexadecimal ds _ hne hds hrest =>
      have hlongest := longest_hexadecimal hne hds hrest
      have hmem := Pattern.mem_hexadecimal_iff.mpr ⟨ds, rfl, hne, hds⟩
      rw [meaning, hexMeaning]
      by_cases hrange : Numeral.value 16 (('0' :: 'x' :: ds).drop 2) < 0x10000000000000000
      · rw [if_pos hrange]
        exact ⟨hlongest, hmem, UInt64.toNat_ofNat_of_lt' hrange⟩
      · rw [if_neg hrange]
        exact ⟨hlongest, .inr ⟨hmem, Nat.le_of_not_lt hrange⟩⟩
  | @string body _ hbody =>
      refine ⟨longest_string rest hbody, Pattern.mem_string_iff.mpr ⟨_, rfl, hbody⟩, ?_⟩
      simp
  | mark hc => exact ⟨longest_mark rest hc, denotes_mark hc⟩

end Stretch

/-! ## The whole text -/

/-- A piece of a text: one that is passed over, or a token. -/
inductive Piece
  | gap (text : List Char)
  | lexeme (l : Lexeme)

namespace Piece

/-- The slice of the text that a piece is. -/
def text : Piece → List Char
  | gap w => w
  | lexeme l => l.text

/-- The token of a piece, if it is one. -/
def lexeme? : Piece → Option Lexeme
  | gap _ => none
  | lexeme l => some l

/-- A piece is what it should be between `front` and `ahead`: a gap, or else the longest match there, with
    the token that it denotes and the places where it begins and ends. -/
def Fits (front ahead : List Char) : Piece → Prop
  | gap w => IsGap w ahead
  | lexeme l => Longest Pattern.token l.text (l.text ++ ahead) ∧ Denotes l.text l.token ∧
      l.start = Position.first.after front ∧ l.stop = Position.first.after (front ++ l.text)

end Piece

namespace Scan

/-- Why cutting stops behind `front`, where `rest` is left. -/
def Stops (front rest : List Char) : Option ScanFailure → Prop
  | none => rest = []
  | some (.invalid p) => rest ≠ [] ∧ NothingBegins rest ∧ p = Position.first.after front
  | some (.outOfRange literal p) => Longest Pattern.token literal.toList rest ∧ OutOfRange literal.toList ∧
      p = Position.first.after (front ++ literal.toList)

/-- Pieces from left to right, each of them fitting between what is in front of it and what is ahead. -/
def Tiled (front rest : List Char) (pieces : List Piece) : Prop :=
  ∀ before piece after, pieces = before ++ piece :: after →
    piece.Fits (front ++ before.flatMap Piece.text) (after.flatMap Piece.text ++ rest)

theorem Tiled.cons {front rest : List Char} {piece : Piece} {pieces : List Piece}
    (hpiece : piece.Fits front (pieces.flatMap Piece.text ++ rest))
    (hpieces : Tiled (front ++ piece.text) rest pieces) : Tiled front rest (piece :: pieces) := by
  intro before piece' after heq
  cases before with
  | nil =>
      cases heq
      rw [List.flatMap_nil, List.append_nil]
      exact hpiece
  | cons first before =>
      injection heq with hfirst heq
      subst hfirst
      have hfits := hpieces before piece' after heq
      rw [List.append_assoc] at hfits
      exact hfits

/-- The run of the scanner behind `front`. -/
theorem exists_tiled (front cs : List Char) : ∃ pieces rest,
    cs = pieces.flatMap Piece.text ++ rest ∧
    (scanFrom (Position.first.after front) cs).lexemes = pieces.filterMap Piece.lexeme? ∧
    Tiled front rest pieces ∧
    Stops (front ++ pieces.flatMap Piece.text) rest (scanFrom (Position.first.after front) cs).failure := by
  -- along the stretches: one step takes one of them, and `front` grows by it
  induction cs using stretch_induction generalizing front with
  | stop cs hext =>
      rw [scanFrom_of_extent_eq_none _ hext]
      refine ⟨[], cs, rfl, rfl, by simp [Tiled], ?_⟩
      by_cases hnil : cs = []
      · rw [if_pos hnil]
        exact hnil
      · rw [if_neg hnil]
        exact ⟨hnil, Stretch.nothing_of_extent hext, by simp⟩
  | step cs s n hext ih =>
      have hmeans := Stretch.denotes_of_begins (Stretch.begins_of_extent hext)
      rw [scanFrom_of_extent _ hext, ← Position.after_append]
      obtain ⟨pieces, rest, hrest, hlexemes, htiled, hstops⟩ := ih (front ++ cs.take n)
      have hcs : cs = cs.take n ++ pieces.flatMap Piece.text ++ rest := by
        rw [List.append_assoc, ← hrest, List.take_append_drop]
      rw [List.append_assoc] at hstops
      cases hmean : s.meaning (cs.take n) with
      | gap =>
          rw [hmean, hrest] at hmeans
          exact ⟨.gap (cs.take n) :: pieces, rest, hcs, hlexemes, .cons hmeans htiled, hstops⟩
      | token t =>
          rw [hmean, hrest] at hmeans
          refine ⟨.lexeme ⟨t, cs.take n, _, Position.first.after (front ++ cs.take n)⟩ :: pieces, rest,
            hcs, ?_, .cons ⟨hmeans.1, hmeans.2, rfl, rfl⟩ htiled, hstops⟩
          exact congrArg (List.cons _) hlexemes
      | outOfRange =>
          rw [hmean, List.take_append_drop] at hmeans
          refine ⟨[], cs, rfl, rfl, by simp [Tiled], ?_⟩
          rw [Stops, String.toList_ofList]
          exact ⟨hmeans.1, hmeans.2, by simp⟩

/-- **A text is tiled by its longest matches.** Up to where cutting stops, it is a row of pieces, and the
    lexemes are those of them that are tokens, in order. All others are single blanks and complete comments.
    Each token is the longest beginning of what is left that any token pattern matches; its word is a
    keyword only as a whole, and it starts and stops where all the characters in front lead. Cutting stops at
    the end of the text, or at the first place behind such pieces where no pattern matches, or at a literal
    out of range. -/
theorem tiled_by_longest_matches (text : String) : ∃ pieces rest,
    text.toList = pieces.flatMap Piece.text ++ rest ∧
    (ofText text).lexemes = pieces.filterMap Piece.lexeme? ∧
    (∀ before piece after, pieces = before ++ piece :: after →
      piece.Fits (before.flatMap Piece.text) (after.flatMap Piece.text ++ rest)) ∧
    Stops (pieces.flatMap Piece.text) rest (ofText text).failure :=
  exists_tiled [] text.toList

end Scan
end CallScript
