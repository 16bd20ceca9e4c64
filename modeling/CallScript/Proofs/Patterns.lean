import CallScript.Proofs.Scanning
import Mathlib.Computability.Language

/-!
# `Proofs.Patterns` — the patterns of tokens and comments

What a text can begin with is given here by patterns alone, as languages made of single characters by
union, concatenation and repetition. Each pattern has a lemma that says in plain words which texts it
matches: `mem_name_iff`, `mem_decimal_iff`, `mem_hexadecimal_iff`, `mem_string_iff`, `mem_mark_iff`. The
pattern of block comments speaks of stars that are not yet followed by a slash, and
`mem_blockComment_iff` says that it means the first closing mark.

The scanner knows no patterns: that it takes the longest match of them is proved in `Proofs.Tiling`.
-/

namespace CallScript

open scoped Computability

/-! ## Patterns -/

namespace Pattern

/-- One character out of a class. -/
def one (p : Char → Bool) : Language Char := {w | ∃ c, p c = true ∧ w = [c]}

/-- One character between two others. -/
def between (a b : Char) : Language Char := one fun c => a ≤ c && c ≤ b

/-- One given text. -/
def exactly (text : String) : Language Char := {w | w = text.toList}

/-- One or more times. -/
def many (l : Language Char) : Language Char := l * l∗

/-- A decimal digit. -/
def digit : Language Char := between '0' '9'

/-- A hexadecimal digit. -/
def hexDigit : Language Char := digit + between 'a' 'f' + between 'A' 'F'

/-- The first character of a name. -/
def nameHead : Language Char := between 'a' 'z' + between 'A' 'Z' + exactly "_"

/-- A later character of a name. -/
def nameTail : Language Char := nameHead + digit + exactly "-"

/-- The words that are no names. -/
def keyword : Language Char := exactly "true" + exactly "false" + exactly "Const" + exactly "Var"

/-- Punctuation. -/
def mark : Language Char := exactly "(" + exactly ")" + exactly "," + exactly ";" + exactly "-"

/-- Names, and with them the keywords. -/
def name : Language Char := nameHead * nameTail∗

/-- Decimal literals. -/
def decimal : Language Char := many digit

/-- Hexadecimal literals. -/
def hexadecimal : Language Char := exactly "0x" * many hexDigit

/-- String literals: no escapes, the next quote ends it. -/
def string : Language Char := exactly "\"" * (one (· ≠ '"'))∗ * exactly "\""

/-- Everything that is a token. -/
def token : Language Char := keyword + mark + name + decimal + hexadecimal + string

/-- White space. -/
def blank : Language Char := one fun c => c ∈ [' ', '\t', '\n', '\r', '\x0c']

/-- Line comments, with or without the end of their line. -/
def lineComment : Language Char := exactly "//" * (one (· ≠ '\n'))∗ * (1 + exactly "\n")

/-- Block comments. Inside there are characters other than stars, and stars in front of a character that
    is neither a star nor a slash. -/
def blockComment : Language Char :=
  exactly "/*" * (one (· ≠ '*') + many (exactly "*") * one (fun c => c ≠ '*' && c ≠ '/'))∗
    * many (exactly "*") * exactly "/"

variable {p : Char → Bool} {w : List Char}

theorem mem_one_iff : w ∈ one p ↔ ∃ c, p c = true ∧ w = [c] := Iff.rfl

theorem mem_exactly_iff {text : String} : w ∈ exactly text ↔ w = text.toList := Iff.rfl

/-- A class repeated is any row of its characters. -/
theorem mem_kstar_one_iff : w ∈ (one p)∗ ↔ ∀ c ∈ w, p c = true := by
  rw [Language.mem_kstar]
  constructor
  · rintro ⟨ws, rfl, hws⟩ c hc
    obtain ⟨v, hv, hcv⟩ := List.mem_flatten.mp hc
    obtain ⟨d, hd, rfl⟩ := hws v hv
    rw [List.mem_singleton.mp hcv]
    exact hd
  · intro h
    refine ⟨w.map fun c => [c], ?_, ?_⟩
    · simp [← List.flatMap_def]
    · intro v hv
      obtain ⟨c, hc, rfl⟩ := List.mem_map.mp hv
      exact ⟨c, h c hc, rfl⟩

theorem mem_many_one_iff : w ∈ many (one p) ↔ w ≠ [] ∧ ∀ c ∈ w, p c = true := by
  rw [many, Language.mem_mul]
  constructor
  · rintro ⟨_, ⟨c, hc, rfl⟩, cs, hcs, rfl⟩
    rw [mem_kstar_one_iff] at hcs
    exact ⟨List.cons_ne_nil _ _, List.forall_mem_cons.mpr ⟨hc, hcs⟩⟩
  · rintro ⟨hne, hall⟩
    cases w with
    | nil => exact absurd rfl hne
    | cons c cs =>
        obtain ⟨hc, hcs⟩ := List.forall_mem_cons.mp hall
        exact ⟨[c], ⟨c, hc, rfl⟩, cs, mem_kstar_one_iff.mpr hcs, rfl⟩

/-! ### Classes -/

theorem one_add_one (p q : Char → Bool) : one p + one q = one fun c => p c || q c := by
  ext w
  simp only [Language.mem_add, mem_one_iff, Bool.or_eq_true]
  constructor
  · rintro (⟨c, hc, rfl⟩ | ⟨c, hc, rfl⟩)
    · exact ⟨c, .inl hc, rfl⟩
    · exact ⟨c, .inr hc, rfl⟩
  · rintro ⟨c, hc | hc, rfl⟩
    · exact .inl ⟨c, hc, rfl⟩
    · exact .inr ⟨c, hc, rfl⟩

theorem exactly_eq_one {text : String} {c : Char} (h : text.toList = [c]) :
    exactly text = one (· = c) := by
  ext w
  simp [mem_exactly_iff, mem_one_iff, h]

theorem digit_eq : digit = one Char.isDigit := rfl

theorem hexDigit_eq : hexDigit = one Numeral.isHexDigit := by
  rw [hexDigit, digit_eq, between, between, one_add_one, one_add_one]
  rfl

theorem nameHead_eq : nameHead = one Token.isNameHead := by
  rw [nameHead, between, between, exactly_eq_one (c := '_') rfl, one_add_one, one_add_one]
  refine congrArg one (funext fun c => ?_)
  rw [Bool.eq_iff_iff]
  simp only [Token.isNameHead, Bool.or_eq_true, Bool.and_eq_true, decide_eq_true_eq, Token.isAlpha_iff,
    Char.le_def, UInt32.le_iff_toNat_le]
  exact or_congr_left or_comm

theorem nameTail_eq : nameTail = one Token.isNameTail := by
  rw [nameTail, nameHead_eq, digit_eq, exactly_eq_one (c := '-') rfl, one_add_one, one_add_one]
  refine congrArg one (funext fun c => ?_)
  rw [Token.isNameHead, Token.isNameTail, Char.isAlphanum]
  cases c.isAlpha <;> cases c.isDigit <;> simp

theorem mem_nameTail_iff {c : Char} : [c] ∈ nameTail ↔ Token.isNameTail c = true := by
  rw [nameTail_eq, mem_one_iff]
  constructor
  · rintro ⟨d, hd, heq⟩
    rw [List.cons.inj heq |>.1]
    exact hd
  · intro hc
    exact ⟨c, hc, rfl⟩

/-! ### Tokens in plain words -/

theorem mem_name_iff : w ∈ name ↔
    ∃ c cs, w = c :: cs ∧ Token.isNameHead c = true ∧ ∀ d ∈ cs, Token.isNameTail d = true := by
  rw [name, nameHead_eq, nameTail_eq, Language.mem_mul]
  constructor
  · rintro ⟨_, ⟨c, hc, rfl⟩, cs, hcs, rfl⟩
    exact ⟨c, cs, rfl, hc, mem_kstar_one_iff.mp hcs⟩
  · rintro ⟨c, cs, rfl, hc, hcs⟩
    exact ⟨[c], ⟨c, hc, rfl⟩, cs, mem_kstar_one_iff.mpr hcs, rfl⟩

theorem mem_decimal_iff : w ∈ decimal ↔ w ≠ [] ∧ ∀ c ∈ w, c.isDigit = true := by
  rw [decimal, digit_eq, mem_many_one_iff]

theorem mem_hexadecimal_iff : w ∈ hexadecimal ↔
    ∃ ds, w = '0' :: 'x' :: ds ∧ ds ≠ [] ∧ ∀ d ∈ ds, Numeral.isHexDigit d = true := by
  rw [hexadecimal, hexDigit_eq, Language.mem_mul]
  constructor
  · rintro ⟨_, rfl, ds, hds, rfl⟩
    exact ⟨ds, rfl, mem_many_one_iff.mp hds⟩
  · rintro ⟨ds, rfl, hds⟩
    exact ⟨_, rfl, ds, mem_many_one_iff.mpr hds, rfl⟩

theorem mem_string_iff : w ∈ string ↔ ∃ body, w = '"' :: body ++ ['"'] ∧ '"' ∉ body := by
  rw [string, Language.mem_mul]
  constructor
  · rintro ⟨_, ⟨_, rfl, body, hbody, rfl⟩, _, rfl, rfl⟩
    refine ⟨body, rfl, fun hmem => ?_⟩
    have hquote := mem_kstar_one_iff.mp hbody '"' hmem
    simp at hquote
  · rintro ⟨body, rfl, hbody⟩
    refine ⟨'"' :: body, ⟨_, rfl, body, mem_kstar_one_iff.mpr fun c hc => ?_, rfl⟩, _, rfl, rfl⟩
    simp only [decide_eq_true_eq]
    rintro rfl
    exact hbody hc

theorem mem_mark_iff : w ∈ mark ↔ ∃ c t, w = [c] ∧ Token.mark? c = some t := by
  simp only [mark, Language.mem_add, mem_exactly_iff]
  constructor
  · rintro ((((rfl | rfl) | rfl) | rfl) | rfl)
    · exact ⟨'(', _, rfl, rfl⟩
    · exact ⟨')', _, rfl, rfl⟩
    · exact ⟨',', _, rfl, rfl⟩
    · exact ⟨';', _, rfl, rfl⟩
    · exact ⟨'-', _, rfl, rfl⟩
  · rintro ⟨c, t, rfl, h⟩
    unfold Token.mark? at h
    split at h <;> cases h <;> decide

theorem mem_keyword_iff : w ∈ keyword ↔
    w = "true".toList ∨ w = "false".toList ∨ w = "Const".toList ∨ w = "Var".toList := by
  simp only [keyword, Language.mem_add, mem_exactly_iff, or_assoc]

theorem keyword_le_name (h : w ∈ keyword) : w ∈ name := by
  rw [mem_keyword_iff] at h
  rcases h with rfl | rfl | rfl | rfl <;>
    exact mem_name_iff.mpr ⟨_, _, rfl, by decide, List.all_eq_true.mp (by decide)⟩

/-- A word that is no keyword makes a name. -/
theorem ofWord_eq_name_iff {text : String} : Token.ofWord text.toList = .name text ↔ text.toList ∉ keyword := by
  rw [mem_keyword_iff, not_or, not_or, not_or]
  constructor
  · intro h
    unfold Token.ofWord at h
    grind
  · rintro ⟨htrue, hfalse, hconst, hvar⟩
    exact (if_neg htrue).trans ((if_neg hfalse).trans ((if_neg hconst).trans ((if_neg hvar).trans
      (congrArg Token.name String.ofList_toList))))

/-- **The identifiers are the names that are no keywords.** -/
theorem isIdentifier_iff_mem {text : String} :
    Token.isIdentifier text = true ↔ text.toList ∈ name ∧ text.toList ∉ keyword := by
  rw [Token.isIdentifier_iff, mem_name_iff, ← ofWord_eq_name_iff]
  constructor
  · rintro ⟨c, cs, hcs, hc, htail, hword⟩
    exact ⟨⟨c, cs, hcs, hc, htail⟩, hcs ▸ hword⟩
  · rintro ⟨⟨c, cs, hcs, hc, htail⟩, hword⟩
    exact ⟨c, cs, hcs, hc, htail, hcs ▸ hword⟩

/-- **What a token can begin with**, by its first character. -/
theorem mem_token_cases (h : w ∈ token) : ∃ c v, w = c :: v ∧
    (Token.isNameHead c = true ∧ (∀ d ∈ v, Token.isNameTail d = true) ∨
      c.isDigit = true ∧ (∀ d ∈ v, d.isDigit = true) ∨
      (c = '0' ∧ ∃ ds, v = 'x' :: ds ∧ ds ≠ [] ∧ ∀ d ∈ ds, Numeral.isHexDigit d = true) ∨
      (c = '"' ∧ ∃ body, v = body ++ ['"'] ∧ '"' ∉ body) ∨
      ∃ t, Token.mark? c = some t ∧ v = []) := by
  simp only [token, Language.mem_add] at h
  rcases h with ((((h | h) | h) | h) | h) | h
  · obtain ⟨c, cs, rfl, hc, hcs⟩ := mem_name_iff.mp (keyword_le_name h)
    exact ⟨c, cs, rfl, .inl ⟨hc, hcs⟩⟩
  · obtain ⟨c, t, rfl, ht⟩ := mem_mark_iff.mp h
    exact ⟨c, [], rfl, .inr (.inr (.inr (.inr ⟨t, ht, rfl⟩)))⟩
  · obtain ⟨c, cs, rfl, hc, hcs⟩ := mem_name_iff.mp h
    exact ⟨c, cs, rfl, .inl ⟨hc, hcs⟩⟩
  · obtain ⟨hne, hall⟩ := mem_decimal_iff.mp h
    cases w with
    | nil => exact absurd rfl hne
    | cons c v => exact ⟨c, v, rfl, .inr (.inl (List.forall_mem_cons.mp hall))⟩
  · obtain ⟨ds, rfl, hds⟩ := mem_hexadecimal_iff.mp h
    exact ⟨'0', _, rfl, .inr (.inr (.inl ⟨rfl, ds, rfl, hds⟩))⟩
  · obtain ⟨body, rfl, hbody⟩ := mem_string_iff.mp h
    exact ⟨'"', _, rfl, .inr (.inr (.inr (.inl ⟨rfl, body, rfl, hbody⟩)))⟩

/-! ### Block comments -/

/-- There is no closing mark in a text. -/
def Unclosed (body : List Char) : Prop := ¬ ['*', '/'] <:+: body

theorem unclosed_cons_iff {c : Char} {cs : List Char} :
    Unclosed (c :: cs) ↔ ¬ (c = '*' ∧ cs.head? = some '/') ∧ Unclosed cs := by
  rw [Unclosed, List.infix_cons_iff, not_or, List.cons_prefix_cons]
  refine and_congr_left' (not_congr (and_congr eq_comm ?_))
  cases cs with
  | nil => simp
  | cons d ds => simp [List.cons_prefix_cons, eq_comm]

/-- Stars in front of anything but a slash close nothing. -/
theorem unclosed_stars_append {stars cs : List Char} (hstars : ∀ c ∈ stars, c = '*')
    (hhead : cs.head? ≠ some '/') (hcs : Unclosed cs) : Unclosed (stars ++ cs) := by
  induction stars with
  | nil => exact hcs
  | cons c stars ih =>
      have hlater := (List.forall_mem_cons.mp hstars).2
      refine unclosed_cons_iff.mpr ⟨?_, ih hlater⟩
      rintro ⟨-, hslash⟩
      cases stars with
      | nil => exact hhead hslash
      | cons d stars =>
          have hd : d = '*' := hlater d List.mem_cons_self
          rw [hd] at hslash
          cases hslash

theorem mem_stars_iff : w ∈ many (exactly "*") ↔ w ≠ [] ∧ ∀ c ∈ w, c = '*' := by
  rw [exactly_eq_one (c := '*') rfl, mem_many_one_iff]
  simp

/-- What may be repeated inside a block comment. -/
theorem mem_inside_iff :
    w ∈ one (· ≠ '*') + many (exactly "*") * one (fun c => c ≠ '*' && c ≠ '/') ↔
      (∃ c, c ≠ '*' ∧ w = [c]) ∨
        ∃ stars c, stars ≠ [] ∧ (∀ d ∈ stars, d = '*') ∧ c ≠ '*' ∧ c ≠ '/' ∧ w = stars ++ [c] := by
  simp only [Language.mem_add, mem_one_iff, Language.mem_mul, mem_stars_iff, decide_eq_true_eq,
    Bool.and_eq_true]
  refine or_congr_right ⟨?_, ?_⟩
  · rintro ⟨stars, ⟨hne, hstars⟩, _, ⟨c, ⟨hstar, hslash⟩, rfl⟩, rfl⟩
    exact ⟨stars, c, hne, hstars, hstar, hslash, rfl⟩
  · rintro ⟨stars, c, hne, hstars, hstar, hslash, rfl⟩
    exact ⟨stars, ⟨hne, hstars⟩, [c], ⟨c, ⟨hstar, hslash⟩, rfl⟩, rfl⟩

/-- The inside of a block comment closes nothing, even with stars behind it. -/
theorem unclosed_of_inside {stars : List Char} (hstars : ∀ c ∈ stars, c = '*')
    (h : w ∈ (one (· ≠ '*') + many (exactly "*") * one (fun c => c ≠ '*' && c ≠ '/'))∗) :
    Unclosed (w ++ stars) := by
  obtain ⟨ws, rfl, hws⟩ := Language.mem_kstar.mp h
  clear h
  induction ws with
  | nil =>
      rw [List.flatten_nil, List.nil_append, ← List.append_nil stars]
      exact unclosed_stars_append hstars (by simp) (by simp [Unclosed])
  | cons v ws ih =>
      obtain ⟨hv, hws⟩ := List.forall_mem_cons.mp hws
      have hlater := ih hws
      rw [List.flatten_cons, List.append_assoc]
      rcases mem_inside_iff.mp hv with ⟨c, hc, rfl⟩ | ⟨ss, c, -, hss, hstar, hslash, rfl⟩
      · exact unclosed_cons_iff.mpr ⟨fun hclose => hc hclose.1, hlater⟩
      · rw [List.append_assoc, List.singleton_append]
        refine unclosed_stars_append hss ?_ (unclosed_cons_iff.mpr ⟨fun hclose => hstar hclose.1, hlater⟩)
        rw [List.head?_cons]
        exact fun heq => hslash (Option.some.inj heq)

/-- What closes nothing is the inside of a block comment, up to stars at its end. -/
theorem exists_inside_of_unclosed {body : List Char} (h : Unclosed body) : ∃ v stars,
    body = v ++ stars ∧ (∀ c ∈ stars, c = '*') ∧
      v ∈ (one (· ≠ '*') + many (exactly "*") * one (fun c => c ≠ '*' && c ≠ '/'))∗ := by
  -- along the text: a star is kept back until it is known what stands behind it
  induction body using List.reverseRecOn with
  | nil => exact ⟨[], [], rfl, by simp, Language.nil_mem_kstar _⟩
  | append_singleton body c ih =>
      have hbody : Unclosed body := fun hclose => h (hclose.trans (List.prefix_append _ _).isInfix)
      obtain ⟨v, stars, rfl, hstars, hv⟩ := ih hbody
      obtain ⟨vs, rfl, hvs⟩ := Language.mem_kstar.mp hv
      by_cases hc : c = '*'
      · refine ⟨vs.flatten, stars ++ [c], List.append_assoc _ _ _, ?_, hv⟩
        intro d hd
        rcases List.mem_append.mp hd with hd | hd
        · exact hstars d hd
        · exact (List.mem_singleton.mp hd).trans hc
      · refine ⟨(vs ++ [stars ++ [c]]).flatten, [], by simp, by simp, Language.join_mem_kstar ?_⟩
        intro y hy
        rcases List.mem_append.mp hy with hy | hy
        · exact hvs y hy
        · rw [List.mem_singleton.mp hy]
          apply mem_inside_iff.mpr
          rcases List.eq_nil_or_concat' stars with rfl | ⟨ss, s, rfl⟩
          · exact .inl ⟨c, hc, rfl⟩
          · refine .inr ⟨ss ++ [s], c, by simp, hstars, hc, ?_, rfl⟩
            -- a slash behind a star would close the comment
            rintro rfl
            apply h
            rw [hstars s (by simp)]
            exact ⟨vs.flatten ++ ss, [], by simp⟩

/-- **A block comment ends at the first closing mark** behind its opening one. -/
theorem mem_blockComment_iff :
    w ∈ blockComment ↔ ∃ body, w = '/' :: '*' :: body ++ ['*', '/'] ∧ Unclosed body := by
  simp only [blockComment, Language.mem_mul, mem_exactly_iff]
  constructor
  · rintro ⟨_, ⟨_, ⟨_, rfl, v, hv, rfl⟩, stars, hstars, rfl⟩, _, rfl, rfl⟩
    obtain ⟨hne, hstars⟩ := mem_stars_iff.mp hstars
    obtain ⟨ss, s, rfl⟩ := (List.eq_nil_or_concat' stars).resolve_left hne
    have hs : s = '*' := hstars s (by simp)
    refine ⟨v ++ ss, by simp [hs], unclosed_of_inside (fun c hc => hstars c (by simp [hc])) hv⟩
  · rintro ⟨body, rfl, hbody⟩
    obtain ⟨v, stars, rfl, hstars, hv⟩ := exists_inside_of_unclosed hbody
    refine ⟨'/' :: '*' :: (v ++ (stars ++ ['*'])), ⟨'/' :: '*' :: v, ⟨_, rfl, v, hv, rfl⟩,
      stars ++ ['*'], mem_stars_iff.mpr ⟨by simp, ?_⟩, rfl⟩, ['/'], rfl, by simp⟩
    intro c hc
    rcases List.mem_append.mp hc with hc | hc
    · exact hstars c hc
    · exact List.mem_singleton.mp hc

end Pattern
end CallScript
