import CallScript.Listing.Field
import CallScript.Proofs.Dumping
import Mathlib.Tactic.Ring

/-!
# `Proofs.Lexicon` — names and numbers are read as they are written

A text is a name of its own if the scanner cuts it into itself. `Token.isIdentifier_decides_names` says that
this is the grammar of names, less the keywords, and that a name is still cut off as itself in front of
anything that does not go on with it.

A row of digits stands for `Numeral.positional`, which gives each digit the weight of its place; the scanner
reads from the left and never looks at places (`value_eq_positional`). Literals have no sign, so what
the parser negates is never the smallest number. `Scan.numbers_exact` puts this together with the other
direction: a number that a listing prints is read back wherever an argument can stand
(`Argument.ReadFrom`).
-/

namespace CallScript

open Token (Ended ended_nil ended_cons)

/-! ## Names -/

namespace Scan

/-- **A name is cut off as itself** in front of what does not go on with it. -/
theorem scanFrom_name (p : Position) {name : String} {rest : List Char}
    (hname : Token.isIdentifier name = true) (hrest : Ended rest) :
    scanFrom p (name.toList ++ rest)
      = behind [⟨.name name, name.toList, p, p.after name.toList⟩]
        (scanFrom (p.after name.toList) rest) := by
  obtain ⟨c, cs, hcs, hc, htail, hword⟩ := Token.isIdentifier_iff.mp hname
  have hext : Stretch.extent (name.toList ++ rest) = some (.word, name.toList.length) := by
    rw [hcs]
    exact Stretch.extent_word hc htail hrest
  have hmean : Stretch.meaning name.toList .word = .token (.name name) := by
    rw [hcs, Stretch.meaning, hword]
  exact scanFrom_of_token p hext hmean

end Scan

open Scan in
/-- **The test for names decides the grammar of names.** A text passes it exactly if it matches the pattern of
    names and is none of the keywords. In front of a character that no name goes on with, whatever is behind
    that, such a text is then the first lexeme, as the name that it is, and the rest is cut as if it stood
    alone. -/
theorem Token.isIdentifier_decides_names (text : String) :
    (isIdentifier text = true ↔ text.toList ∈ Pattern.name ∧ text.toList ∉ Pattern.keyword) ∧
    (isIdentifier text = true → ∀ (c : Char) (rest : List Char), [c] ∉ Pattern.nameTail →
      ofText (text ++ String.ofList (c :: rest))
        = behind [⟨.name text, text.toList, .first, Position.first.after text.toList⟩]
          (scanFrom (Position.first.after text.toList) (c :: rest))) := by
  refine ⟨Pattern.isIdentifier_iff_mem, ?_⟩
  intro htext c rest hc
  have hended : Ended (c :: rest) := by
    apply ended_cons rest
    rw [Pattern.mem_nameTail_iff] at hc
    exact Bool.eq_false_iff.mpr hc
  rw [ofText, String.toList_append, String.toList_ofList]
  exact scanFrom_name .first htext hended

/-- A name with a hyphen passes, and is cut off in front of a parenthesis even if nothing begins behind that; a
    keyword does not pass. -/
theorem Token.isIdentifier_decides_names_state :
    isIdentifier "state-2" = true ∧ isIdentifier "true" = false ∧
      (Scan.ofText "state-2(%").lexemes.head?
        = some ⟨.name "state-2", "state-2".toList, .first, Position.first.after "state-2".toList⟩ := by
  have hstate : isIdentifier "state-2" = true := by
    rw [(isIdentifier_decides_names _).1, Pattern.mem_name_iff, Pattern.mem_keyword_iff]
    exact ⟨⟨'s', _, rfl, by decide, List.all_eq_true.mp rfl⟩, by decide⟩
  refine ⟨hstate, ?_, ?_⟩
  · rw [Bool.eq_false_iff, ne_eq, (isIdentifier_decides_names _).1, Pattern.mem_keyword_iff]
    exact fun h => h.2 (.inl rfl)
  · have hparen : ['('] ∉ Pattern.nameTail := by
      rw [Pattern.mem_nameTail_iff]
      decide
    have hscan := (isIdentifier_decides_names "state-2").2 hstate '(' ['%'] hparen
    rw [show "state-2" ++ String.ofList ['(', '%'] = "state-2(%" by decide] at hscan
    rw [hscan]
    rfl

/-! ## Numbers -/

namespace Numeral

/-- The digits in the order of what they count for. -/
def digitRow : List Char :=
  ['0', '1', '2', '3', '4', '5', '6', '7', '8', '9', 'A', 'B', 'C', 'D', 'E', 'F']

/-- What a digit counts for: its place in the row of digits. Small letters count like capitals. -/
def rank (c : Char) : Nat := digitRow.idxOf c.toUpper

/-- The number that a row of digits stands for in base `b`, each digit with the weight of its place. -/
def positional (b : Nat) : List Char → Nat
  | [] => 0
  | d :: ds => rank d * b ^ ds.length + positional b ds

theorem digitValue_eq_rank {c : Char} (h : isHexDigit c = true) : digitValue c = rank c := by
  -- the last of the digits is `f`, so there is only a short row of characters to look at
  have hrow : ∀ n < 103, isHexDigit (Char.ofNat n) = true →
      digitValue (Char.ofNat n) = rank (Char.ofNat n) := by
    decide +kernel
  have hlt : c.toNat < 103 := by
    simp only [isHexDigit, Char.isDigit, Bool.or_eq_true, Bool.and_eq_true, decide_eq_true_eq, Char.le_def,
      UInt32.le_iff_toNat_le] at h
    show c.val.toNat < 103
    rcases h with (⟨-, hle⟩ | ⟨-, hle⟩) | ⟨-, hle⟩
    · exact Nat.lt_of_le_of_lt hle (by decide)
    · exact Nat.lt_of_le_of_lt hle (by decide)
    · exact Nat.lt_of_le_of_lt hle (by decide)
  have hc := hrow c.toNat hlt
  rw [Char.ofNat_toNat] at hc
  exact hc h

/-- Reading from the left adds up the places: what was read before them moves up by all of them. -/
theorem foldl_eq_positional (b n : Nat) {ds : List Char} (hds : ∀ d ∈ ds, isHexDigit d = true) :
    ds.foldl (fun n c => b * n + digitValue c) n = n * b ^ ds.length + positional b ds := by
  induction ds generalizing n with
  | nil => simp [positional]
  | cons d ds ih =>
      obtain ⟨hd, hds⟩ := List.forall_mem_cons.mp hds
      rw [List.foldl_cons, ih _ hds, digitValue_eq_rank hd, positional, List.length_cons]
      ring

/-- **The scanner reads a row of digits as what it stands for.** -/
theorem value_eq_positional (b : Nat) {ds : List Char} (hds : ∀ d ∈ ds, isHexDigit d = true) :
    value b ds = positional b ds := by
  rw [value, foldl_eq_positional b 0 hds, Nat.zero_mul, Nat.zero_add]

end Numeral

namespace Scan

variable {text : String}

/-- The scan of a text that is one token and nothing else. -/
def single (text : String) (t : Token) : Scan :=
  ⟨[⟨t, text.toList, .first, Position.first.after text.toList⟩], none⟩

/-- The scan of a text that is one literal out of range. -/
def refused (text : String) : Scan := ⟨[], some (.outOfRange text (Position.first.after text.toList))⟩

theorem ofText_eq_single {s : Stretch} {t : Token}
    (hext : Stretch.extent text.toList = some (s, text.toList.length))
    (hmean : s.meaning text.toList = .token t) : ofText text = single text t := by
  rw [ofText, scanFrom_of_extent .first hext, List.take_length, List.drop_length, hmean, scanFrom]
  rfl

theorem ofText_eq_refused {s : Stretch} (hext : Stretch.extent text.toList = some (s, text.toList.length))
    (hmean : s.meaning text.toList = .outOfRange) : ofText text = refused text := by
  rw [ofText, scanFrom_of_extent .first hext, List.take_length, hmean, refused, String.ofList_toList]

/-- A text that is one literal is its token below a bound, and else out of range. -/
theorem ofText_literal {s : Stretch} {v bound : Nat} {t : Token}
    (hext : Stretch.extent text.toList = some (s, text.toList.length))
    (hmean : s.meaning text.toList = if v < bound then .token t else .outOfRange) :
    (v < bound → ofText text = single text t) ∧ (bound ≤ v → ofText text = refused text) := by
  constructor
  · intro hlt
    apply ofText_eq_single hext
    rw [hmean, if_pos hlt]
  · intro hge
    apply ofText_eq_refused hext
    rw [hmean, if_neg (Nat.not_lt_of_le hge)]

/-- **A decimal literal is the number that it stands for**, or out of range. -/
theorem ofText_decimal (htext : text.toList ∈ Pattern.decimal) :
    (Numeral.positional 10 text.toList ≤ 2 ^ 63 - 1 →
      ∃ v : Int64, v.toInt = Numeral.positional 10 text.toList ∧ ofText text = single text (.integer v)) ∧
    (2 ^ 63 - 1 < Numeral.positional 10 text.toList → ofText text = refused text) := by
  obtain ⟨hne, hdigits⟩ := Pattern.mem_decimal_iff.mp htext
  have hext := Stretch.extent_decimal hdigits hne ended_nil
  rw [List.append_nil] at hext
  have hvalue := Numeral.value_eq_positional 10 fun d hd => Numeral.isHexDigit_of_isDigit (hdigits d hd)
  have hmean : Stretch.decimal.meaning text.toList
      = if Numeral.value 10 text.toList < 0x8000000000000000
        then .token (.integer (Int64.ofNat (Numeral.value 10 text.toList))) else .outOfRange := rfl
  obtain ⟨hbelow, habove⟩ := ofText_literal hext hmean
  rw [← hvalue]
  constructor
  · intro hle
    have hlt : Numeral.value 10 text.toList < 0x8000000000000000 := by omega
    exact ⟨_, Int64.toInt_ofNat_of_lt hlt, hbelow hlt⟩
  · intro hgt
    apply habove
    omega

/-- **A hexadecimal literal is the number that its digits stand for**, or out of range. -/
theorem ofText_hexadecimal (htext : text.toList ∈ Pattern.hexadecimal) :
    (Numeral.positional 16 (text.toList.drop 2) ≤ 2 ^ 64 - 1 →
      ∃ v : UInt64, v.toNat = Numeral.positional 16 (text.toList.drop 2) ∧
        ofText text = single text (.hex v)) ∧
    (2 ^ 64 - 1 < Numeral.positional 16 (text.toList.drop 2) → ofText text = refused text) := by
  obtain ⟨ds, hds, hne, hdigits⟩ := Pattern.mem_hexadecimal_iff.mp htext
  have hext := Stretch.extent_hex hdigits hne ended_nil
  rw [List.append_nil, ← hds] at hext
  have hdrop : text.toList.drop 2 = ds := by
    rw [hds]
    rfl
  have hvalue := Numeral.value_eq_positional 16 hdigits
  rw [← hdrop] at hvalue
  have hmean : Stretch.hexadecimal.meaning text.toList
      = if Numeral.value 16 (text.toList.drop 2) < 0x10000000000000000
        then .token (.hex (UInt64.ofNat (Numeral.value 16 (text.toList.drop 2)))) else .outOfRange := rfl
  obtain ⟨hbelow, habove⟩ := ofText_literal hext hmean
  rw [← hvalue]
  constructor
  · intro hle
    have hlt : Numeral.value 16 (text.toList.drop 2) < 0x10000000000000000 := by omega
    exact ⟨_, UInt64.toNat_ofNat_of_lt' hlt, hbelow hlt⟩
  · intro hgt
    apply habove
    omega

end Scan

/-- **What the parser negates is not the smallest number**: behind a sign it goes on with a literal only, and
    the literals of a text have no sign of their own. -/
theorem Call.Stage.step_negated_exact {text : String} {l : Lexeme} (hl : l ∈ (Scan.ofText text).lexemes)
    {call : Call} {form : Option OperandForm} {next : Stage × Option Call}
    (hstep : (negated call form).step l = some next) :
    ∃ v : Int64, l.token = .integer v ∧ next = (negate call form v, none) ∧ (-v).toInt = -v.toInt := by
  have hwritten := Scan.written_of_mem hl
  cases htoken : l.token with
  | integer v =>
      rw [htoken] at hwritten
      rw [Grammar.step_negated htoken] at hstep
      exact ⟨v, rfl, (Option.some.inj hstep).symm, Numeral.toInt_neg_of_nonneg hwritten⟩
  | name | hex | string | trueWord | falseWord | constWord | varWord | leftParen | rightParen | comma
  | semicolon | minus => simp [step, htoken] at hstep

/-! ## Arguments in their places -/

/-- The text of a call with `text` for one of its arguments, between others. -/
def Call.around (name : String) (before : List Argument) (text : String) (after : List Argument) : String :=
  name ++ "(" ++ ", ".intercalate (before.map Argument.print ++ text :: after.map Argument.print) ++ ");"

/-- A text is read as an argument wherever one can stand: in every call, and between any other arguments. -/
def Argument.ReadFrom (text : String) (arg : Argument) : Prop :=
  ∀ (name : String) (before after : List Argument), Token.isIdentifier name = true →
    (∀ a ∈ before ++ after, a.Printable) →
    Call.parse (Call.around name before text after) = .ok [⟨name, before ++ arg :: after, some .first⟩]

theorem Call.printArgs_eq (args : List Argument) :
    printArgs args = ", ".intercalate (args.map Argument.print) := by
  induction args with
  | nil => rfl
  | cons arg args ih =>
      cases args with
      | nil => rw [printArgs, List.map_singleton, String.intercalate_singleton]
      | cons next args =>
          show arg.print ++ ", " ++ printArgs (next :: args) = _
          rw [ih]
          exact String.intercalate_cons_cons.symm

theorem Call.around_print (name : String) (before after : List Argument) (arg : Argument) :
    around name before arg.print after = print ⟨name, before ++ arg :: after, none⟩ := by
  rw [around, print, printArgs_eq, List.map_append, List.map_cons]

namespace Grammar

/-- **A printed call is read back**, from the place where its name stands. -/
theorem parse_print {call : Call} (hcall : call.Printable) :
    Call.parse call.print = .ok [{ call with place := some .first }] := by
  obtain ⟨ls, htokens, hof⟩ := Scan.exists_ofText_of_cuts (cuts_call hcall [])
  obtain ⟨l, later, rfl, -, -⟩ := List.map_eq_cons_iff.mp htokens
  -- the name stands in front, so its lexeme starts where the text does
  have hstart : l.start = .first := by
    have hlist : call.print.toList
        = call.name.toList ++ '(' :: ((Call.printArgs call.args).toList ++ [')', ';']) := by
      simp [Call.print]
    rw [Scan.ofText, hlist, Scan.scanFrom_name .first hcall.1 (ended_cons _ rfl)] at hof
    have hlexemes := congrArg Scan.lexemes hof
    exact congrArg Lexeme.start (List.cons.inj hlexemes).1.symm
  have hread := read_call htokens (read_nil .statement)
  rw [List.append_nil, hstart, call_ofCall hcall] at hread
  rw [parse_eq_ok_iff, hof]
  exact ⟨rfl, List.cons_ne_nil _ _, hread⟩

end Grammar

theorem Call.printable_between {name : String} {before after : List Argument} {arg : Argument}
    (hname : Token.isIdentifier name = true) (hothers : ∀ a ∈ before ++ after, a.Printable)
    (harg : arg.Printable) (place : Option Position) :
    (⟨name, before ++ arg :: after, place⟩ : Call).Printable := by
  refine ⟨hname, ?_⟩
  intro a ha
  rw [List.mem_append, List.mem_cons] at ha
  rcases ha with hbefore | rfl | hafter
  · exact hothers a (List.mem_append_left _ hbefore)
  · exact harg
  · exact hothers a (List.mem_append_right _ hafter)

/-- **A printed argument is read as what it was printed for.** -/
theorem Argument.readFrom_print (arg : Argument) (harg : arg.Printable) : ReadFrom arg.print arg := by
  intro name before after hname hothers
  rw [Call.around_print]
  exact Grammar.parse_print (Call.printable_between hname hothers harg none)

/-! ## Main result -/

namespace Scan

open Argument (ReadFrom)
open Call (Stage)

/-- **Numbers are exact.** A row of decimal digits, whatever its length and its leading zeros, is cut into the
    integer that it stands for, up to the largest signed number of 64 bits, and beyond that is out of range. A
    hexadecimal literal is cut into the number that its digits stand for, up to the largest unsigned one. What
    the parser negates has a negative in the same range. And the decimal text of every signed word, on its own
    or as an operand, and the hexadecimal text of every unsigned word are read back as the same number wherever
    an argument can stand. -/
theorem numbers_exact :
    (∀ text : String, text.toList ∈ Pattern.decimal →
      (Numeral.positional 10 text.toList ≤ 2 ^ 63 - 1 →
        ∃ v : Int64, v.toInt = Numeral.positional 10 text.toList ∧ ofText text = single text (.integer v)) ∧
      (2 ^ 63 - 1 < Numeral.positional 10 text.toList → ofText text = refused text)) ∧
    (∀ text : String, text.toList ∈ Pattern.hexadecimal →
      (Numeral.positional 16 (text.toList.drop 2) ≤ 2 ^ 64 - 1 →
        ∃ v : UInt64, v.toNat = Numeral.positional 16 (text.toList.drop 2) ∧
          ofText text = single text (.hex v)) ∧
      (2 ^ 64 - 1 < Numeral.positional 16 (text.toList.drop 2) → ofText text = refused text)) ∧
    (∀ (text : String) (l : Lexeme), l ∈ (ofText text).lexemes →
      ∀ call form next, (Stage.negated call form).step l = some next →
        ∃ v : Int64, l.token = .integer v ∧ next = (Stage.negate call form v, none) ∧
          (-v).toInt = -v.toInt) ∧
    (∀ (set : InstructionSet) (w : Int32),
      ((Field.signed w).argument set).print = Numeral.decimal w.toInt ∧
      ∃ v : Int64, v.toInt = w.toInt ∧ ReadFrom (Numeral.decimal w.toInt) (.int v) ∧
        ReadFrom ("Const(" ++ Numeral.decimal w.toInt ++ ")") (.const v) ∧
        ReadFrom ("Var(" ++ Numeral.decimal w.toInt ++ ")") (.var (.index v))) ∧
    ∀ (set : InstructionSet) (w : UInt32),
      ((Field.unsigned w).argument set).print = Numeral.hex w.toNat ∧
      ∃ v : UInt64, v.toNat = w.toNat ∧ ReadFrom (Numeral.hex w.toNat) (.hex v) := by
  refine ⟨fun text htext => ofText_decimal htext, fun text htext => ofText_hexadecimal htext, ?_, ?_, ?_⟩
  · intro text l hl call form next hstep
    exact Stage.step_negated_exact hl hstep
  · intro set w
    have hmin := Numeral.toInt64_ne_minValue w
    rw [← Int32.toInt_toInt64]
    exact ⟨rfl, w.toInt64, rfl, Argument.readFrom_print (.int w.toInt64) hmin,
      Argument.readFrom_print (.const w.toInt64) hmin, Argument.readFrom_print (.var (.index w.toInt64)) hmin⟩
  · intro set w
    rw [← UInt32.toNat_toUInt64]
    exact ⟨rfl, w.toUInt64, rfl, Argument.readFrom_print (.hex w.toUInt64) trivial⟩

/-- The largest literals and the smallest that are out of range, with leading zeros and letters of either case;
    a sign in front of the largest; the smallest and the largest word in a call. -/
theorem numbers_exact_limits :
    (∃ v : Int64, v.toInt = 9223372036854775807 ∧
      ofText "009223372036854775807" = single "009223372036854775807" (.integer v)) ∧
    ofText "9223372036854775808" = refused "9223372036854775808" ∧
    (∃ v : UInt64, v.toNat = 18446744073709551615 ∧
      ofText "0xfffffFFFFFFFFFFF" = single "0xfffffFFFFFFFFFFF" (.hex v)) ∧
    ofText "0x10000000000000000" = refused "0x10000000000000000" ∧
    (-Int64.maxValue).toInt = -9223372036854775807 ∧
    (∃ v : Int64, v.toInt = -2147483648 ∧
      Call.parse "set(true, -2147483648);" = .ok [⟨"set", [.bool true, .int v], some .first⟩]) ∧
    ∃ v : UInt64, v.toNat = 4294967295 ∧
      Call.parse "set(0xFFFFFFFF, true);" = .ok [⟨"set", [.hex v, .bool true], some .first⟩] := by
  obtain ⟨hdecimal, hhex, hnegated, hsigned, hunsigned⟩ := numbers_exact
  have hset : Token.isIdentifier "set" = true := by decide +kernel
  refine ⟨?_, ?_, ?_, ?_, ?_, ?_, ?_⟩
  · refine (hdecimal "009223372036854775807" ?_).1 (by decide)
    exact Pattern.mem_decimal_iff.mpr ⟨by decide, List.all_eq_true.mp rfl⟩
  · refine (hdecimal "9223372036854775808" ?_).2 (by decide)
    exact Pattern.mem_decimal_iff.mpr ⟨by decide, List.all_eq_true.mp rfl⟩
  · refine (hhex "0xfffffFFFFFFFFFFF" ?_).1 (by decide)
    exact Pattern.mem_hexadecimal_iff.mpr ⟨_, rfl, by decide, List.all_eq_true.mp rfl⟩
  · refine (hhex "0x10000000000000000" ?_).2 (by decide)
    exact Pattern.mem_hexadecimal_iff.mpr ⟨_, rfl, by decide, List.all_eq_true.mp rfl⟩
  · -- behind a sign, at the only lexeme of the text
    have hmem : ⟨.integer Int64.maxValue, "9223372036854775807".toList, .first, ⟨1, 20⟩⟩
        ∈ (ofText "9223372036854775807").lexemes := by decide +kernel
    obtain ⟨v, hv, -, hneg⟩ := hnegated _ _ hmem ⟨"set", [], none⟩ none _ rfl
    cases hv
    exact hneg
  · obtain ⟨-, v, hv, hread, -⟩ := hsigned .empty Int32.minValue
    refine ⟨v, hv, ?_⟩
    exact hread "set" [.bool true] [] hset (by simp [Argument.Printable])
  · obtain ⟨-, v, hv, hread⟩ := hunsigned .empty 0xFFFFFFFF
    refine ⟨v, hv, ?_⟩
    exact hread "set" [] [.bool true] hset (by simp [Argument.Printable])

end Scan
end CallScript
