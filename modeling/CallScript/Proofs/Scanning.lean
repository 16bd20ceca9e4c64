import CallScript.Proofs.Numeral
import CallScript.Token.Scan

/-!
# `Proofs.Scanning` — what a written token is cut into

`Cuts w rest ts` says that `w`, in front of `rest`, is cut into the tokens `ts` wherever it stands, and
that `rest` is then cut as if it stood alone. It composes (`Cuts.append`), so a printed text is followed
token by token. Words and numbers are only cut where they end if nothing behind them goes on with them:
that is `Ended`, and it holds in front of blanks and marks.

`isIdentifier_iff` turns the scanner's own test for names into the grammar of names.
-/

namespace CallScript

/-! ## How far a stretch reaches -/

namespace Stretch

theorem run_append {p : Char → Bool} {ds rest : List Char} (hds : ∀ c ∈ ds, p c = true)
    (hrest : ∀ c ∈ rest.head?, p c = false) : run p (ds ++ rest) = ds.length := by
  induction ds with
  | nil =>
      cases rest with
      | nil => rfl
      | cons c cs =>
          rw [List.nil_append, run, hrest c rfl]
          rfl
  | cons d ds ih =>
      rw [List.cons_append, run, if_pos (hds d List.mem_cons_self),
        ih fun c hc => hds c (List.mem_cons_of_mem d hc), List.length_cons]

theorem run_le_length (p : Char → Bool) (cs : List Char) : run p cs ≤ cs.length := by
  induction cs with
  | nil => exact Nat.le_refl 0
  | cons c cs ih =>
      rw [run, List.length_cons]
      split
      · exact Nat.succ_le_succ ih
      · exact Nat.zero_le _

theorem run_eq_length {p : Char → Bool} {cs : List Char} (h : run p cs = cs.length) :
    ∀ c ∈ cs, p c = true := by
  induction cs with
  | nil => exact fun c hc => absurd hc List.not_mem_nil
  | cons c cs ih =>
      rw [run] at h
      split at h
      · rename_i hc
        rw [List.length_cons, Nat.add_right_cancel_iff] at h
        intro d hd
        rcases List.mem_cons.mp hd with rfl | hd
        · exact hc
        · exact ih h d hd
      · cases h

theorem quoteEnd?_append {body : List Char} (rest : List Char) (hbody : '"' ∉ body) :
    quoteEnd? (body ++ '"' :: rest) = some (body.length + 1) := by
  induction body with
  | nil => rfl
  | cons c cs ih =>
      rw [List.mem_cons, not_or] at hbody
      rw [List.cons_append, quoteEnd?, if_neg (Ne.symm hbody.1), ih hbody.2]
      rfl

/-- A block comment that is closed does not look at what is behind it. -/
theorem closing?_append_of_eq_some {cs : List Char} (rest : List Char) {m : Nat} (h : closing? cs = some m) :
    closing? (cs ++ rest) = some m := by
  fun_induction closing? cs generalizing m with
  | case1 cs => exact h
  | case2 c cs hnot ih =>
      obtain ⟨k, hk, rfl⟩ := Option.map_eq_some_iff.mp h
      rw [List.cons_append, closing?, ih hk]
      · rfl
      · intro ds hc hds
        -- an opening star would have to be closed by what is behind, but `cs` is closed already
        subst hc
        cases cs with
        | nil => cases hk
        | cons d cs =>
            cases hds
            exact hnot cs rfl rfl
  | case3 => cases h

theorem closing?_le_length {cs : List Char} {m : Nat} (h : closing? cs = some m) : m ≤ cs.length := by
  fun_induction closing? cs generalizing m with
  | case1 cs =>
      cases h
      simp
  | case2 c cs _ ih =>
      obtain ⟨k, hk, rfl⟩ := Option.map_eq_some_iff.mp h
      exact Nat.succ_le_succ (ih hk)
  | case3 => cases h

end Stretch

namespace Token

theorem not_isBlank_of_isNameTail {c : Char} (h : isNameTail c = true) : isBlank c = false := by
  rw [Bool.eq_false_iff]
  intro hblank
  simp only [isBlank, Bool.or_eq_true, decide_eq_true_eq] at hblank
  rcases hblank with (((rfl | rfl) | rfl) | rfl) | rfl <;> cases h

theorem isNameTail_of_isNameHead {c : Char} (h : isNameHead c = true) : isNameTail c = true := by
  simp only [isNameHead, isNameTail, Bool.or_eq_true, decide_eq_true_eq, Char.isAlphanum] at h ⊢
  rcases h with h | h
  · exact .inl (.inl (.inl h))
  · exact .inl (.inr h)

theorem isNameTail_of_isDigit {c : Char} (h : c.isDigit = true) : isNameTail c = true := by
  simp [isNameTail, Char.isAlphanum, h]

theorem isAlpha_iff {c : Char} :
    c.isAlpha = true ↔ 65 ≤ c.toNat ∧ c.toNat ≤ 90 ∨ 97 ≤ c.toNat ∧ c.toNat ≤ 122 := by
  show (decide (c.val ≥ 65 ∧ c.val ≤ 90) || decide (c.val ≥ 97) && decide (c.val ≤ 122)) = true ↔ _
  simp only [Bool.or_eq_true, Bool.and_eq_true, decide_eq_true_eq, ge_iff_le, UInt32.le_iff_toNat_le]
  exact Iff.rfl

theorem isNameTail_of_isHexDigit {c : Char} (h : Numeral.isHexDigit c = true) : isNameTail c = true := by
  simp only [Numeral.isHexDigit, isNameTail, Char.isAlphanum, isAlpha_iff, Bool.or_eq_true,
    Bool.and_eq_true, decide_eq_true_eq, Char.le_def, UInt32.le_iff_toNat_le] at h ⊢
  rcases h with (hdigit | ⟨hle, hge⟩) | ⟨hle, hge⟩
  · exact .inl (.inl (.inr hdigit))
  · exact .inl (.inl (.inl (.inr ⟨hle, Nat.le_trans hge (by decide)⟩)))
  · exact .inl (.inl (.inl (.inl ⟨hle, Nat.le_trans hge (by decide)⟩)))

theorem not_isNameHead_of_isDigit {c : Char} (h : c.isDigit = true) : isNameHead c = false := by
  rw [Bool.eq_false_iff]
  intro hc
  simp only [isNameHead, Bool.or_eq_true, decide_eq_true_eq, isAlpha_iff] at hc
  rcases hc with hc | rfl
  · have hle : c.toNat ≤ 57 := by
      simp only [Char.isDigit, Bool.and_eq_true, decide_eq_true_eq, UInt32.le_iff_toNat_le] at h
      exact h.2
    omega
  · cases h

/-- Nothing at the beginning of `rest` goes on with a word or a number. -/
def Ended (rest : List Char) : Prop := ∀ c ∈ rest.head?, isNameTail c = false

theorem ended_nil : Ended [] := fun _ h => nomatch h

theorem ended_cons {c : Char} (rest : List Char) (h : isNameTail c = false) : Ended (c :: rest) := by
  intro d hd
  rw [← Option.some.inj hd]
  exact h

end Token

open Token (Ended)

namespace Stretch

/-! ## What a written token begins with -/

theorem extent_blank {c : Char} (rest : List Char) (hc : Token.isBlank c = true) :
    extent (c :: rest) = some (blank, 1) := by
  unfold extent
  dsimp only
  rw [if_pos hc]

theorem extent_nameHead {c : Char} (cs : List Char) (hc : Token.isNameHead c = true) :
    extent (c :: cs) = some (word, 1 + run Token.isNameTail cs) := by
  have hblank := Token.not_isBlank_of_isNameTail (Token.isNameTail_of_isNameHead hc)
  unfold extent
  dsimp only
  rw [if_neg (Bool.eq_false_iff.mp hblank), if_pos hc]

theorem extent_digit {c : Char} (cs : List Char) (hc : c.isDigit = true) :
    extent (c :: cs)
      = if 0 < hexRun (c :: cs) then some (hexadecimal, 2 + hexRun (c :: cs))
        else some (decimal, 1 + run Char.isDigit cs) := by
  have hblank := Token.not_isBlank_of_isNameTail (Token.isNameTail_of_isDigit hc)
  have hhead := Token.not_isNameHead_of_isDigit hc
  unfold extent
  dsimp only
  rw [if_neg (Bool.eq_false_iff.mp hblank), if_neg (Bool.eq_false_iff.mp hhead), if_pos hc]

theorem extent_word {c : Char} {cs rest : List Char} (hc : Token.isNameHead c = true)
    (hcs : ∀ d ∈ cs, Token.isNameTail d = true) (hrest : Ended rest) :
    extent (c :: cs ++ rest) = some (word, (c :: cs).length) := by
  rw [List.cons_append, extent_nameHead _ hc, run_append hcs hrest, List.length_cons, Nat.add_comm]

/-- A row of digits does not begin like a hexadecimal literal. -/
theorem hexRun_digits {ds rest : List Char} (hds : ∀ d ∈ ds, d.isDigit = true) (hne : ds ≠ [])
    (hrest : Ended rest) : hexRun (ds ++ rest) = 0 := by
  unfold hexRun
  split
  · rename_i cs heq
    cases ds with
    | nil => exact absurd rfl hne
    | cons d ds =>
        injection heq with _ heq
        cases ds with
        | nil =>
            -- the `x` behind a lone zero would be the beginning of `rest`
            have hx : Token.isNameTail 'x' = false :=
              hrest 'x' (by rw [show rest = 'x' :: cs from heq]; rfl)
            cases hx
        | cons e ds =>
            injection heq with heq
            have hx : e.isDigit = true := hds e (by simp)
            rw [heq] at hx
            cases hx
  · rfl

theorem extent_decimal {ds rest : List Char} (hds : ∀ d ∈ ds, d.isDigit = true) (hne : ds ≠ [])
    (hrest : Ended rest) : extent (ds ++ rest) = some (decimal, ds.length) := by
  have hhex := hexRun_digits hds hne hrest
  cases ds with
  | nil => exact absurd rfl hne
  | cons d ds =>
      have hd : d.isDigit = true := hds d List.mem_cons_self
      have hrun : run Char.isDigit (ds ++ rest) = ds.length := by
        -- what ends a word ends a number, since digits go on with both
        refine run_append (fun c hc => hds c (List.mem_cons_of_mem d hc)) fun c hc => ?_
        rw [Bool.eq_false_iff]
        intro hdigit
        exact Bool.eq_false_iff.mp (hrest c hc) (Token.isNameTail_of_isDigit hdigit)
      rw [List.cons_append] at hhex ⊢
      rw [extent_digit _ hd, hhex, if_neg (Nat.lt_irrefl 0), hrun, List.length_cons, Nat.add_comm]

theorem extent_hex {ds rest : List Char} (hds : ∀ d ∈ ds, Numeral.isHexDigit d = true) (hne : ds ≠ [])
    (hrest : Ended rest) :
    extent ('0' :: 'x' :: ds ++ rest) = some (hexadecimal, ('0' :: 'x' :: ds).length) := by
  have hrun : hexRun ('0' :: 'x' :: ds ++ rest) = ds.length := by
    show run Numeral.isHexDigit (ds ++ rest) = ds.length
    refine run_append hds fun c hc => ?_
    rw [Bool.eq_false_iff]
    intro hdigit
    exact Bool.eq_false_iff.mp (hrest c hc) (Token.isNameTail_of_isHexDigit hdigit)
  have hpos : 0 < ds.length := List.length_pos_iff.mpr hne
  rw [List.cons_append] at hrun ⊢
  rw [extent_digit _ rfl, hrun, if_pos hpos, List.length_cons, List.length_cons, Nat.add_comm]

theorem extent_string {body : List Char} (rest : List Char) (hbody : '"' ∉ body) :
    extent ('"' :: body ++ ['"'] ++ rest) = some (string, ('"' :: body ++ ['"']).length) := by
  rw [List.append_assoc, List.cons_append, List.singleton_append]
  show (quoteEnd? (body ++ '"' :: rest)).map (fun n => (string, 1 + n)) = _
  rw [quoteEnd?_append rest hbody]
  simp [Nat.add_comm]

theorem extent_mark {c : Char} {t : Token} (rest : List Char) (h : Token.mark? c = some t) :
    extent (c :: rest) = some (mark t, 1) := by
  unfold Token.mark? at h
  split at h <;> first | cases h; rfl | cases h

end Stretch

/-! ## Cutting stretch by stretch -/

namespace Scan

/-- The scan of a text with some lexemes in front. -/
def behind (ls : List Lexeme) (scan : Scan) : Scan := ⟨ls ++ scan.lexemes, scan.failure⟩

@[simp] theorem behind_nil (scan : Scan) : behind [] scan = scan := rfl

@[simp] theorem behind_behind (xs ys : List Lexeme) (scan : Scan) :
    behind xs (behind ys scan) = behind (xs ++ ys) scan := by
  simp [behind]

/-- Cutting goes by what the text begins with. -/
theorem scanFrom_of_extent (p : Position) {cs : List Char} {s : Stretch} {n : Nat}
    (hext : Stretch.extent cs = some (s, n)) :
    scanFrom p cs =
      match s.meaning (cs.take n) with
      | .gap => scanFrom (p.after (cs.take n)) (cs.drop n)
      | .token t =>
          behind [⟨t, cs.take n, p, p.after (cs.take n)⟩] (scanFrom (p.after (cs.take n)) (cs.drop n))
      | .outOfRange => ⟨[], some (.outOfRange (String.ofList (cs.take n)) (p.after (cs.take n)))⟩ := by
  cases cs with
  | nil => cases hext
  | cons c cs =>
      rw [scanFrom]
      split
      · rename_i hnone
        rw [hext] at hnone
        cases hnone
      · rename_i s' n' hsome
        rw [hext] at hsome
        cases hsome
        rfl

/-- Cutting stops where nothing begins. -/
theorem scanFrom_of_extent_eq_none (p : Position) {cs : List Char} (hext : Stretch.extent cs = none) :
    scanFrom p cs = ⟨[], if cs = [] then none else some (.invalid p)⟩ := by
  cases cs with
  | nil => rw [scanFrom, if_pos rfl]
  | cons c cs =>
      rw [scanFrom, if_neg (List.cons_ne_nil c cs)]
      split
      · rfl
      · rename_i hsome
        rw [hext] at hsome
        cases hsome

/-- Induction along the stretches of a text: what is behind one is shorter, since a stretch takes a
    character at least. -/
theorem stretch_induction {motive : List Char → Prop}
    (stop : ∀ cs, Stretch.extent cs = none → motive cs)
    (step : ∀ cs s n, Stretch.extent cs = some (s, n) → motive (cs.drop n) → motive cs)
    (cs : List Char) : motive cs := by
  induction hlen : cs.length using Nat.strongRecOn generalizing cs with
  | ind k ih =>
      subst hlen
      cases hext : Stretch.extent cs with
      | none => exact stop cs hext
      | some q =>
          have hpos := Stretch.extent_pos hext
          have hne : cs ≠ [] := by
            rintro rfl
            cases hext
          have hlt : (cs.drop q.2).length < cs.length := by
            have := List.length_pos_iff.mpr hne
            rw [List.length_drop]
            omega
          exact step cs q.1 q.2 hext (ih _ hlt _ rfl)

/-- `w`, in front of `rest`, is cut into the tokens `ts`, and `rest` as if it stood alone. -/
def Cuts (w rest : List Char) (ts : List Token) : Prop :=
  ∀ p : Position, ∃ ls : List Lexeme, ls.map Lexeme.token = ts ∧
    scanFrom p (w ++ rest) = behind ls (scanFrom (p.after w) rest)

theorem Cuts.nil (rest : List Char) : Cuts [] rest [] := fun _ => ⟨[], rfl, rfl⟩

theorem Cuts.append {v w rest : List Char} {ts us : List Token} (hv : Cuts v (w ++ rest) ts)
    (hw : Cuts w rest us) : Cuts (v ++ w) rest (ts ++ us) := by
  intro p
  obtain ⟨xs, hxs, hv⟩ := hv p
  obtain ⟨ys, hys, hw⟩ := hw (p.after v)
  refine ⟨xs ++ ys, by rw [List.map_append, hxs, hys], ?_⟩
  rw [List.append_assoc, hv, hw, behind_behind, Position.after_append]

/-- What is cut into nothing can stand in front of anything. -/
theorem Cuts.gap {v w rest : List Char} {us : List Token} (hv : Cuts v (w ++ rest) [])
    (hw : Cuts w rest us) : Cuts (v ++ w) rest us := hv.append hw

/-- A gap is cut into nothing. -/
theorem cuts_gap {w rest : List Char} {s : Stretch}
    (hext : Stretch.extent (w ++ rest) = some (s, w.length)) (hmean : s.meaning w = .gap) :
    Cuts w rest [] := by
  intro p
  refine ⟨[], rfl, ?_⟩
  rw [scanFrom_of_extent p hext, List.take_left, List.drop_left, hmean, behind_nil]

/-- A stretch that means a token is cut off as the lexeme of that token. -/
theorem scanFrom_of_token (p : Position) {w rest : List Char} {s : Stretch} {t : Token}
    (hext : Stretch.extent (w ++ rest) = some (s, w.length)) (hmean : s.meaning w = .token t) :
    scanFrom p (w ++ rest) = behind [⟨t, w, p, p.after w⟩] (scanFrom (p.after w) rest) := by
  rw [scanFrom_of_extent p hext, List.take_left, List.drop_left, hmean]

/-- A stretch that means a token is cut into that token. -/
theorem cuts_token {w rest : List Char} {s : Stretch} {t : Token}
    (hext : Stretch.extent (w ++ rest) = some (s, w.length)) (hmean : s.meaning w = .token t) :
    Cuts w rest [t] := by
  intro p
  exact ⟨[⟨t, w, p, p.after w⟩], rfl, scanFrom_of_token p hext hmean⟩

/-- A text that is cut to its end has no failure. -/
theorem exists_ofText_of_cuts {text : String} {ts : List Token} (h : Cuts text.toList [] ts) :
    ∃ ls, ls.map Lexeme.token = ts ∧ ofText text = ⟨ls, none⟩ := by
  obtain ⟨ls, htokens, hscan⟩ := h .first
  refine ⟨ls, htokens, ?_⟩
  rw [List.append_nil] at hscan
  rw [ofText, hscan, scanFrom, behind, List.append_nil]

/-! ### Blanks and marks -/

theorem cuts_blank {c : Char} (rest : List Char) (hc : Token.isBlank c = true) : Cuts [c] rest [] :=
  cuts_gap (Stretch.extent_blank rest hc) rfl

theorem cuts_blanks {cs : List Char} (rest : List Char) (hcs : ∀ c ∈ cs, Token.isBlank c = true) :
    Cuts cs rest [] := by
  induction cs with
  | nil => exact .nil rest
  | cons c cs ih =>
      exact .append (cuts_blank (cs ++ rest) (hcs c List.mem_cons_self))
        (ih fun d hd => hcs d (List.mem_cons_of_mem c hd))

theorem cuts_mark {c : Char} {t : Token} (rest : List Char) (h : Token.mark? c = some t) :
    Cuts [c] rest [t] := cuts_token (Stretch.extent_mark rest h) rfl

/-! ### Literals -/

theorem cuts_string {body : List Char} (rest : List Char) (hbody : '"' ∉ body) :
    Cuts ('"' :: body ++ ['"']) rest [.string (String.ofList body)] := by
  refine cuts_token (Stretch.extent_string rest hbody) ?_
  simp [Stretch.meaning]

/-- **A printed natural number is cut into its token** if a token can hold it. -/
theorem cuts_decimalDigits {n : Nat} {rest : List Char} (hn : n < 0x8000000000000000) (hrest : Ended rest) :
    Cuts (Numeral.decimalDigits n) rest [.integer (Int64.ofNat n)] := by
  refine cuts_token (Stretch.extent_decimal (fun _ => Numeral.isDigit_of_mem_decimalDigits)
    (Numeral.decimalDigits_ne_nil n) hrest) ?_
  rw [Stretch.meaning, Numeral.value_decimalDigits, Stretch.decimalMeaning, if_pos hn]

/-- **A printed hexadecimal number is cut into its token.** -/
theorem cuts_hex (v : UInt64) {rest : List Char} (hrest : Ended rest) :
    Cuts ('0' :: 'x' :: Numeral.hexDigits v.toNat) rest [.hex v] := by
  refine cuts_token (Stretch.extent_hex (fun _ => Numeral.isHexDigit_of_mem_hexDigits)
    (Numeral.hexDigits_ne_nil _) hrest) ?_
  show Stretch.hexMeaning (Numeral.value 16 (Numeral.hexDigits v.toNat)) = _
  rw [Numeral.value_hexDigits, Stretch.hexMeaning, if_pos v.toNat_lt, UInt64.ofNat_toNat]

/-! ### Words and names -/

theorem cuts_word {c : Char} {cs rest : List Char} (hc : Token.isNameHead c = true)
    (hcs : ∀ d ∈ cs, Token.isNameTail d = true) (hrest : Ended rest) :
    Cuts (c :: cs) rest [Token.ofWord (c :: cs)] :=
  cuts_token (Stretch.extent_word hc hcs hrest) rfl

end Scan

namespace Stretch

/-- Only a name head begins a word. -/
theorem extent_eq_word {cs : List Char} {n : Nat} (h : extent cs = some (word, n)) :
    ∃ c ds, cs = c :: ds ∧ Token.isNameHead c = true ∧ n = 1 + run Token.isNameTail ds := by
  unfold extent at h
  grind [Option.map_eq_some_iff]

/-- Only a quote begins a string. -/
theorem extent_eq_string {cs : List Char} {n : Nat} (h : extent cs = some (string, n)) :
    ∃ ds m, cs = '"' :: ds ∧ quoteEnd? ds = some m ∧ n = 1 + m := by
  unfold extent at h
  grind [Option.map_eq_some_iff]

/-- Only punctuation is a mark. -/
theorem extent_eq_mark {cs : List Char} {t : Token} {n : Nat} (h : extent cs = some (mark t, n)) :
    ∃ c, Token.mark? c = some t := by
  unfold extent at h
  grind [Option.map_eq_some_iff]

theorem mark?_ne_name {c : Char} {text : String} : Token.mark? c ≠ some (.name text) := by
  unfold Token.mark?
  split <;> simp

theorem mark?_ne_string {c : Char} {text : String} : Token.mark? c ≠ some (.string text) := by
  unfold Token.mark?
  split <;> simp

/-- Only a word means a name, and the name is the word. -/
theorem name_of_meaning {cs w : List Char} {s : Stretch} {n : Nat} {text : String}
    (hext : extent cs = some (s, n)) (h : s.meaning w = .token (.name text)) :
    s = word ∧ Token.ofWord w = .name text := by
  cases s with
  | word => exact ⟨rfl, Meaning.token.inj h⟩
  | mark t =>
      rw [Meaning.token.inj h] at hext
      obtain ⟨c, hc⟩ := extent_eq_mark hext
      exact absurd hc mark?_ne_name
  | decimal =>
      simp only [meaning, decimalMeaning] at h
      split at h <;> cases h
  | hexadecimal =>
      simp only [meaning, hexMeaning] at h
      split at h <;> cases h
  | blank | lineComment | blockComment | string => cases h

theorem ofWord_ne_string {w : List Char} {text : String} : Token.ofWord w ≠ .string text := by
  unfold Token.ofWord
  repeat' split
  all_goals nofun

/-- Only a literal means a string, and the string is what stands between its quotes. -/
theorem string_of_meaning {cs w : List Char} {s : Stretch} {n : Nat} {text : String}
    (hext : extent cs = some (s, n)) (h : s.meaning w = .token (.string text)) :
    s = string ∧ text = String.ofList (w.drop 1).dropLast := by
  cases s with
  | string => exact ⟨rfl, (Token.string.inj (Meaning.token.inj h)).symm⟩
  | word => exact absurd (Meaning.token.inj h) ofWord_ne_string
  | mark t =>
      rw [Meaning.token.inj h] at hext
      obtain ⟨c, hc⟩ := extent_eq_mark hext
      exact absurd hc mark?_ne_string
  | decimal =>
      simp only [meaning, decimalMeaning] at h
      split at h <;> cases h
  | hexadecimal =>
      simp only [meaning, hexMeaning] at h
      split at h <;> cases h
  | blank | lineComment | blockComment => cases h

/-- A literal ends at the first quote behind its opening one. -/
theorem exists_of_quoteEnd? {cs : List Char} {m : Nat} (h : quoteEnd? cs = some m) :
    ∃ body rest, cs = body ++ '"' :: rest ∧ '"' ∉ body ∧ m = body.length + 1 := by
  induction cs generalizing m with
  | nil => cases h
  | cons c cs ih =>
      unfold quoteEnd? at h
      split at h
      · rename_i hc
        cases h
        exact ⟨[], cs, by rw [hc]; rfl, List.not_mem_nil, rfl⟩
      · rename_i hc
        obtain ⟨k, hk, rfl⟩ := Option.map_eq_some_iff.mp h
        obtain ⟨body, rest, rfl, hbody, rfl⟩ := ih hk
        exact ⟨c :: body, rest, rfl, by simp [Ne.symm hc, hbody], rfl⟩

end Stretch

/-- A word that makes a name makes the name of that text. -/
theorem Token.eq_of_ofWord {w : List Char} {text : String} (h : Token.ofWord w = .name text) :
    w = text.toList := by
  unfold Token.ofWord at h
  split at h
  · cases h
  split at h
  · cases h
  split at h
  · cases h
  split at h
  · cases h
  · rw [← Token.name.inj h, String.toList_ofList]

namespace Scan

theorem lexemes_of_extent_eq_none (p : Position) {cs : List Char} (hext : Stretch.extent cs = none) :
    (scanFrom p cs).lexemes = [] := by
  rw [scanFrom_of_extent_eq_none p hext]

/-- **A lexeme is a stretch of the text** that means its token. -/
theorem exists_extent_of_mem {p : Position} {cs : List Char} {l : Lexeme}
    (hl : l ∈ (scanFrom p cs).lexemes) :
    ∃ w s n, w.length ≤ cs.length ∧ Stretch.extent w = some (s, n) ∧
      s.meaning (w.take n) = .token l.token := by
  -- along the stretches of the text: the lexeme is the first one, or one behind it
  induction cs using stretch_induction generalizing p with
  | stop cs hext =>
      rw [lexemes_of_extent_eq_none p hext] at hl
      exact absurd hl List.not_mem_nil
  | step cs s n hext ih =>
      have hle : (cs.drop n).length ≤ cs.length := by
        rw [List.length_drop]
        exact Nat.sub_le _ _
      have later : ∀ q, l ∈ (scanFrom q (cs.drop n)).lexemes → ∃ w s n, w.length ≤ cs.length ∧
          Stretch.extent w = some (s, n) ∧ s.meaning (w.take n) = .token l.token := by
        intro q hq
        obtain ⟨w, s', n', hw, h⟩ := ih hq
        exact ⟨w, s', n', Nat.le_trans hw hle, h⟩
      rw [scanFrom_of_extent p hext] at hl
      split at hl
      · exact later _ hl
      · rename_i t hmean
        rcases List.mem_cons.mp hl with rfl | hl
        · exact ⟨cs, s, n, Nat.le_refl _, hext, hmean⟩
        · exact later _ hl
      · exact absurd hl List.not_mem_nil

/-- A name that was cut from a text is no longer than the text. -/
theorem length_le_of_mem {p : Position} {cs : List Char} {l : Lexeme} {text : String}
    (hl : l ∈ (scanFrom p cs).lexemes) (ht : l.token = .name text) :
    text.toList.length ≤ cs.length := by
  obtain ⟨w, s, n, hle, hext, hmean⟩ := exists_extent_of_mem hl
  rw [ht] at hmean
  rw [← Token.eq_of_ofWord (Stretch.name_of_meaning hext hmean).2, List.length_take]
  omega

/-- **A string that was cut from a text has no quote in it.** -/
theorem quote_not_mem_of_mem {p : Position} {cs : List Char} {l : Lexeme} {text : String}
    (hl : l ∈ (scanFrom p cs).lexemes) (ht : l.token = .string text) : '"' ∉ text.toList := by
  obtain ⟨w, s, n, -, hext, hmean⟩ := exists_extent_of_mem hl
  rw [ht] at hmean
  obtain ⟨rfl, rfl⟩ := Stretch.string_of_meaning hext hmean
  obtain ⟨ds, m, rfl, hm, rfl⟩ := Stretch.extent_eq_string hext
  obtain ⟨body, rest, rfl, hbody, rfl⟩ := Stretch.exists_of_quoteEnd? hm
  have htake : (('"' :: (body ++ '"' :: rest)).take (1 + (body.length + 1))).drop 1 = body ++ ['"'] := by
    rw [Nat.add_comm, List.take_succ_cons, List.drop_succ_cons, List.drop_zero,
      List.take_length_add_append]
    rfl
  rw [String.toList_ofList, htake, List.dropLast_concat]
  exact hbody

/-- A text that is cut into a single name, its own, is one word. -/
theorem extent_of_scanFrom_eq {p : Position} {l : Lexeme} {text : String}
    (h : scanFrom p text.toList = ⟨[l], none⟩) (ht : l.token = .name text) :
    Stretch.extent text.toList = some (.word, text.toList.length) ∧
      Token.ofWord text.toList = .name text := by
  have hmem : l ∈ (scanFrom p text.toList).lexemes := by
    rw [h]
    exact List.mem_singleton_self l
  cases hext : Stretch.extent text.toList with
  | none =>
      rw [lexemes_of_extent_eq_none p hext] at hmem
      exact absurd hmem List.not_mem_nil
  | some q =>
      obtain ⟨s, n⟩ := q
      have hpos := Stretch.extent_pos hext
      rw [scanFrom_of_extent p hext] at h hmem
      split at h
      · -- a gap in front leaves too little for the name
        rename_i hmean
        rw [hmean] at hmem
        have hle := length_le_of_mem hmem ht
        rw [List.length_drop] at hle
        have hnil : text.toList = [] := List.length_eq_zero_iff.mp (by omega)
        rw [hnil] at hext
        cases hext
      · rename_i t hmean
        injection h with h _
        injection h with h _
        rw [← h] at ht
        rw [show t = .name text from ht] at hmean
        obtain ⟨rfl, hword⟩ := Stretch.name_of_meaning hext hmean
        have htake := Token.eq_of_ofWord hword
        rw [htake] at hword
        obtain ⟨c, ds, hcs, _, hn⟩ := Stretch.extent_eq_word hext
        have hlen := congrArg List.length htake
        have hrun := Stretch.run_le_length Token.isNameTail ds
        rw [hcs, List.length_take, List.length_cons] at hlen
        refine ⟨?_, hword⟩
        rw [show n = text.toList.length by rw [hcs, List.length_cons]; omega]
      · injection h with h _
        cases h

end Scan

open Scan in
/-- **The names are the words that are no keywords.** -/
theorem Token.isIdentifier_iff {text : String} :
    Token.isIdentifier text = true ↔
      ∃ c cs, text.toList = c :: cs ∧ Token.isNameHead c = true ∧
        (∀ d ∈ cs, Token.isNameTail d = true) ∧ Token.ofWord (c :: cs) = .name text := by
  unfold Token.isIdentifier
  constructor
  · intro h
    split at h
    · rename_i l hscan
      obtain ⟨hext, hword⟩ := extent_of_scanFrom_eq hscan (of_decide_eq_true h)
      obtain ⟨c, cs, hcs, hc, hn⟩ := Stretch.extent_eq_word hext
      refine ⟨c, cs, hcs, hc, Stretch.run_eq_length ?_, hcs ▸ hword⟩
      rw [hcs, List.length_cons] at hn
      omega
    · cases h
  · rintro ⟨c, cs, hcs, hc, htail, hword⟩
    obtain ⟨ls, hls, hscan⟩ := cuts_word hc htail ended_nil .first
    obtain ⟨l, rfl, hl⟩ := List.map_eq_singleton_iff.mp hls
    have hof : Scan.ofText text = ⟨[l], none⟩ := by
      rw [Scan.ofText, hcs, ← List.append_nil (c :: cs), hscan, scanFrom]
      rfl
    rw [hof]
    simp [hl, hword]

end CallScript
