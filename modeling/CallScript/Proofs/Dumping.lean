import CallScript.Call.Dump
import CallScript.Proofs.Names
import CallScript.Proofs.Printing
import CallScript.Proofs.Tiling
import Mathlib.Data.List.Basic

/-!
# `Proofs.Dumping` — a dump shows one script only

A string is dumped as it is, so it may hold parentheses, line feeds and what looks like other calls. The
dump can still be taken apart, because of what a script can hold: the tokens of a text are `Token.Written`,
so the calls it is parsed into are printable, which is `printable_of_parse`. Of printable arguments, a
string ends at the next quote, any other value at the next parenthesis, and a name is no number.

Each of `Argument.dump_append_inj`, `Call.dumpArgs_append_inj` and `Call.dump_append_inj` says that a dump
ends where it ends whatever is behind it. Two dumps that agree are then taken apart in step.
-/

namespace CallScript

/-! ## What scripts hold -/

/-- A token as a text can have it: a name is no keyword, a number has no sign, a string ends at its quote. -/
def Token.Written : Token → Prop
  | name text     => isIdentifier text = true
  | integer value => 0 ≤ value.toInt
  | string text   => '"' ∉ text.toList
  | hex _ | trueWord | falseWord | constWord | varWord | leftParen | rightParen | comma | semicolon | minus => True

theorem Denotes.written {w : List Char} {t : Token} (h : Denotes w t) : t.Written := by
  cases t with
  | name text =>
      obtain ⟨hname, hkeyword, rfl⟩ := h
      exact Pattern.isIdentifier_iff_mem.mpr ⟨hname, hkeyword⟩
  | integer value =>
      show 0 ≤ value.toInt
      rw [h.2]
      exact Int.natCast_nonneg _
  | string text =>
      obtain ⟨hstring, rfl⟩ := h
      obtain ⟨body, hbody, hquote⟩ := Pattern.mem_string_iff.mp hstring
      rw [List.append_cancel_right_eq, List.cons.injEq] at hbody
      show '"' ∉ text.toList
      rw [hbody.2]
      exact hquote
  | hex | trueWord | falseWord | constWord | varWord | leftParen | rightParen | comma | semicolon | minus =>
      trivial

/-- **The tokens of a text are written tokens.** -/
theorem Scan.written_of_mem {text : String} {l : Lexeme} (hl : l ∈ (ofText text).lexemes) :
    l.token.Written := by
  obtain ⟨pieces, rest, -, hlexemes, htiled, -⟩ := exists_tiled [] text.toList
  have hmem : l ∈ pieces.filterMap Piece.lexeme? := by
    rw [← hlexemes]
    exact hl
  obtain ⟨piece, hpiece, heq⟩ := List.mem_filterMap.mp hmem
  obtain ⟨before, after, hsplit⟩ := List.append_of_mem hpiece
  have hfits := htiled before piece after hsplit
  cases piece with
  | gap w => cases heq
  | lexeme k =>
      cases heq
      exact hfits.2.1.written

/-- A number without a sign can be negated: only the smallest number cannot. -/
theorem Numeral.toInt_neg_of_nonneg {v : Int64} (h : 0 ≤ v.toInt) : (-v).toInt = -v.toInt := by
  have hlt := v.toInt_lt
  rw [Int64.toInt_neg, Int.bmod_eq_of_le] <;> omega

namespace Grammar

theorem SignedTree.value_ne_minValue (number : SignedTree) (h : ∀ t ∈ number.leaves, t.Written) :
    number.value ≠ Int64.minValue := by
  -- a literal is at most the largest number, so its negative is above the smallest
  have hmin : Int64.minValue.toInt = -0x8000000000000000 := rfl
  cases number with
  | plain value =>
      have hnonneg : 0 ≤ value.toInt := h (.integer value) (by simp [leaves])
      intro heq
      rw [SignedTree.value] at heq
      rw [heq, hmin] at hnonneg
      omega
  | negated value =>
      have hnonneg : 0 ≤ value.toInt := h (.integer value) (by simp [leaves])
      have hlt := value.toInt_lt
      intro heq
      have hint := congrArg Int64.toInt heq
      rw [SignedTree.value, Numeral.toInt_neg_of_nonneg hnonneg, hmin] at hint
      omega

theorem signedLow_ne_minValue (value : UInt64) : signedLow value ≠ Int64.minValue :=
  Numeral.toInt64_ne_minValue _

/-- What a tree with written leaves denotes can be printed. -/
theorem printable_argument (a : ArgTree) (h : ∀ t ∈ a.leaves, t.Written) : a.argument.Printable := by
  cases a with
  | string text => exact ⟨h (.string text) (by simp [ArgTree.leaves]), rfl⟩
  | hex | trueWord | falseWord => trivial
  | signed number => exact number.value_ne_minValue h
  | name text => exact h (.name text) (by simp [ArgTree.leaves])
  | constSigned number => exact number.value_ne_minValue fun t ht => h t (by simp [ArgTree.leaves, ht])
  | constHex value => exact signedLow_ne_minValue value
  | varName text => exact h (.name text) (by simp [ArgTree.leaves])
  | varSigned number => exact number.value_ne_minValue fun t ht => h t (by simp [ArgTree.leaves, ht])

theorem printable_call_of_leaves {t : CallTree} (h : ∀ token ∈ t.leaves, token.Written) (place : Position) :
    (t.call place).Printable := by
  refine ⟨h (.name t.name) (by simp [CallTree.leaves]), ?_⟩
  intro arg harg
  obtain ⟨a, ha, rfl⟩ := List.mem_map.mp harg
  refine printable_argument a fun token htoken => h token ?_
  exact List.mem_append_left _ (List.mem_append_right _ (mem_argLeaves ha htoken))

theorem printable_of_reads {ts : List CallTree} {ls : List Lexeme} {calls : List Call}
    (h : Reads ts ls calls) (hls : ∀ l ∈ ls, l.token.Written) : ∀ call ∈ calls, call.Printable := by
  induction h with
  | nil => simp
  | @cons t ts l ls rest calls htokens _ ih =>
      intro call hcall
      rcases List.mem_cons.mp hcall with rfl | hcall
      · refine printable_call_of_leaves (fun token htoken => ?_) l.start
        rw [← htokens] at htoken
        obtain ⟨k, hk, rfl⟩ := List.mem_map.mp htoken
        exact hls k (List.mem_append_left _ hk)
      · exact ih (fun k hk => hls k (List.mem_append_right _ hk)) call hcall

/-- **What is parsed can be printed.** -/
theorem printable_of_parse {text : String} {calls : List Call} (h : Call.parse text = .ok calls) :
    ∀ call ∈ calls, call.Printable := by
  obtain ⟨-, -, hread⟩ := parse_eq_ok_iff.mp h
  obtain ⟨ts, hreads⟩ := reads_of_read behind_statement hread
  exact printable_of_reads hreads fun l hl => Scan.written_of_mem hl

end Grammar

/-! ## Arguments -/

/-- A row of characters up to the first `c` is known, and so is what is behind it. -/
theorem append_cons_inj {c : Char} {xs ys us vs : List Char} (hxs : c ∉ xs) (hys : c ∉ ys)
    (h : xs ++ c :: us = ys ++ c :: vs) : xs = ys ∧ us = vs := by
  induction xs generalizing ys with
  | nil =>
      cases ys with
      | nil => exact ⟨rfl, (List.cons.inj h).2⟩
      | cons y ys => exact absurd (List.cons.inj h).1 fun heq => hys (heq ▸ List.mem_cons_self)
  | cons x xs ih =>
      cases ys with
      | nil => exact absurd (List.cons.inj h).1.symm fun heq => hxs (heq ▸ List.mem_cons_self)
      | cons y ys =>
          obtain ⟨rfl, htail⟩ := List.cons.inj h
          obtain ⟨rfl, hus⟩ := ih (fun hc => hxs (List.mem_cons_of_mem _ hc))
            (fun hc => hys (List.mem_cons_of_mem _ hc)) htail
          exact ⟨rfl, hus⟩

theorem Token.isNameTail_of_mem {name : String} (h : isIdentifier name = true) {c : Char}
    (hc : c ∈ name.toList) : isNameTail c = true := by
  obtain ⟨d, ds, hds, hd, htail, -⟩ := isIdentifier_iff.mp h
  rw [hds] at hc
  rcases List.mem_cons.mp hc with rfl | hc
  · exact isNameTail_of_isNameHead hd
  · exact htail c hc

namespace Argument

/-- The kind of an argument in its dump. -/
def label : Argument → List Char
  | int _   => ['I', 'N', 'T']
  | hex _   => ['H', 'E', 'X']
  | bool _  => ['B', 'O', 'O', 'L']
  | str _ _ => ['S', 'T', 'R']
  | enum _  => ['E', 'N', 'U', 'M']
  | var _   => ['V', 'A', 'R']
  | const _ => ['C', 'O', 'N', 'S', 'T']

/-- The value of an argument in its dump. -/
def content : Argument → List Char
  | int value          => (Numeral.decimal value.toInt).toList
  | hex value          => (Numeral.hex value.toNat).toList
  | bool true          => ['t', 'r', 'u', 'e']
  | bool false         => ['f', 'a', 'l', 's', 'e']
  | str text _         => '"' :: text.toList ++ ['"']
  | enum name          => name.toList
  | var (.named name)  => name.toList
  | var (.index value) => (Numeral.decimal value.toInt).toList
  | const value        => (Numeral.decimal value.toInt).toList

theorem toList_dump (arg : Argument) :
    arg.dump.toList = '(' :: arg.label ++ ' ' :: (arg.content ++ [')']) := by
  cases arg with
  | bool value => cases value <;> rfl
  | str text slot =>
      rw [dump, String.toList_append, String.toList_append, content, List.append_assoc, List.append_assoc]
      rfl
  | var v =>
      cases v with
      | named name =>
          rw [dump, String.toList_append, String.toList_append]
          rfl
      | index value =>
          rw [dump, String.toList_append, String.toList_append]
          rfl
  | int | hex | enum | const =>
      rw [dump, String.toList_append, String.toList_append]
      rfl

/-- The argument of the given kind and value. Kinds are told apart by their first letters. -/
def ofDump? (label content : List Char) : Option Argument :=
  match label.headD ' ' with
  | 'I' => (Numeral.integer? content).map fun i => int (Int64.ofInt i)
  | 'H' => some (hex (UInt64.ofNat (Numeral.value 16 (content.drop 2))))
  | 'B' => some (bool (content = ['t', 'r', 'u', 'e']))
  | 'S' => some (str (String.ofList (content.drop 1).dropLast) none)
  | 'E' => some (enum (String.ofList content))
  | 'V' => some (var (((Numeral.integer? content).map fun i => Variable.index (Int64.ofInt i)).getD
      (.named (String.ofList content))))
  | _   => (Numeral.integer? content).map fun i => const (Int64.ofInt i)

/-- A name is no number. -/
theorem integer?_name {name : String} (h : Token.isIdentifier name = true) :
    Numeral.integer? name.toList = none := by
  obtain ⟨c, cs, hcs, hc, -, -⟩ := Token.isIdentifier_iff.mp h
  have hdigit : c.isDigit = false := by
    rw [Bool.eq_false_iff]
    intro hd
    rw [Token.not_isNameHead_of_isDigit hd] at hc
    cases hc
  rw [hcs]
  unfold Numeral.integer?
  split
  · rename_i heq
    cases heq
    cases hc
  · rename_i heq
    cases heq
    cases hc
  · simp [Numeral.natural?, hdigit]

/-- **An argument is known from its dump.** -/
theorem ofDump?_eq {arg : Argument} (h : arg.Printable) : ofDump? arg.label arg.content = some arg := by
  cases arg with
  | int value =>
      show (Numeral.integer? (Numeral.decimal value.toInt).toList).map (fun i => int (Int64.ofInt i)) = _
      rw [Numeral.integer?_decimal, Option.map_some, Int64.ofInt_toInt]
  | const value =>
      show (Numeral.integer? (Numeral.decimal value.toInt).toList).map (fun i => const (Int64.ofInt i)) = _
      rw [Numeral.integer?_decimal, Option.map_some, Int64.ofInt_toInt]
  | hex value =>
      show some (hex (UInt64.ofNat (Numeral.value 16 ((Numeral.hex value.toNat).toList.drop 2)))) = _
      rw [Numeral.hex, String.toList_ofList]
      show some (hex (UInt64.ofNat (Numeral.value 16 (Numeral.hexDigits value.toNat)))) = _
      rw [Numeral.value_hexDigits, UInt64.ofNat_toNat]
  | bool value => cases value <;> rfl
  | str text slot =>
      obtain ⟨-, rfl⟩ := h
      show some (str (String.ofList (text.toList ++ ['"']).dropLast) none) = _
      rw [List.dropLast_concat, String.ofList_toList]
  | enum name =>
      show some (enum (String.ofList name.toList)) = _
      rw [String.ofList_toList]
  | var v =>
      cases v with
      | named name =>
          show some (var (((Numeral.integer? name.toList).map fun i => Variable.index (Int64.ofInt i)).getD
            (.named (String.ofList name.toList)))) = _
          rw [integer?_name h, String.ofList_toList]
          rfl
      | index value =>
          show some (var (((Numeral.integer? (Numeral.decimal value.toInt).toList).map
            fun i => Variable.index (Int64.ofInt i)).getD _)) = _
          rw [Numeral.integer?_decimal, Option.map_some, Option.getD_some, Int64.ofInt_toInt]

theorem blank_not_mem_label (arg : Argument) : ' ' ∉ arg.label := by
  cases arg <;> simp [label]

/-- A value that is no string is spelled with letters, digits, underscores and hyphens. -/
theorem isNameTail_of_mem_content {arg : Argument} (h : arg.Printable) (hstr : arg.label ≠ ['S', 'T', 'R'])
    {c : Char} (hc : c ∈ arg.content) : Token.isNameTail c = true := by
  cases arg with
  | int value => exact InstructionSet.isNameTail_of_mem_decimal hc
  | const value => exact InstructionSet.isNameTail_of_mem_decimal hc
  | hex value =>
      rw [content, Numeral.hex, String.toList_ofList, List.mem_cons, List.mem_cons] at hc
      rcases hc with rfl | rfl | hc
      · rfl
      · rfl
      · exact Token.isNameTail_of_isHexDigit (Numeral.isHexDigit_of_mem_hexDigits hc)
  | bool value =>
      have hall : ∀ b, (bool b).content.all Token.isNameTail = true := by decide
      exact List.all_eq_true.mp (hall value) c hc
  | str text slot => exact absurd rfl hstr
  | enum name => exact Token.isNameTail_of_mem h hc
  | var v =>
      cases v with
      | named name => exact Token.isNameTail_of_mem h hc
      | index value => exact InstructionSet.isNameTail_of_mem_decimal hc

/-- Where a value ends is known if its kind is. -/
theorem content_append_inj {a b : Argument} (ha : a.Printable) (hb : b.Printable) (hlabel : a.label = b.label)
    {xs ys : List Char} (h : a.content ++ ')' :: xs = b.content ++ ')' :: ys) :
    a.content = b.content ∧ xs = ys := by
  by_cases hstr : a.label = ['S', 'T', 'R']
  · -- a string ends at the next quote
    obtain ⟨text, slot, rfl⟩ : ∃ text slot, a = str text slot := by cases a <;> simp [label] at hstr ⊢
    obtain ⟨text', slot', rfl⟩ : ∃ text slot, b = str text slot := by
      rw [hlabel] at hstr
      cases b <;> simp [label] at hstr ⊢
    simp only [content, List.cons_append, List.append_assoc, List.nil_append, List.cons.injEq, true_and] at h
    obtain ⟨htext, hrest⟩ := append_cons_inj ha.1 hb.1 h
    exact ⟨by rw [content, content, htext], (List.cons.inj hrest).2⟩
  · -- any other value has no parenthesis in it
    have hend : ∀ {arg : Argument}, arg.Printable → arg.label ≠ ['S', 'T', 'R'] → ')' ∉ arg.content := by
      intro arg harg hlabel hmem
      cases isNameTail_of_mem_content harg hlabel hmem
    exact append_cons_inj (hend ha hstr) (hend hb (hlabel ▸ hstr)) h

/-- **No dump of an argument is the beginning of another.** -/
theorem dump_append_inj {a b : Argument} (ha : a.Printable) (hb : b.Printable) {xs ys : List Char}
    (h : a.dump.toList ++ xs = b.dump.toList ++ ys) : a = b ∧ xs = ys := by
  simp only [toList_dump, List.cons_append, List.append_assoc, List.nil_append, List.cons.injEq, true_and] at h
  obtain ⟨hlabel, h⟩ := append_cons_inj a.blank_not_mem_label b.blank_not_mem_label h
  obtain ⟨hcontent, hrest⟩ := content_append_inj ha hb hlabel h
  have hdump := ofDump?_eq ha
  rw [hlabel, hcontent, ofDump?_eq hb] at hdump
  exact ⟨(Option.some.inj hdump).symm, hrest⟩

end Argument

/-! ## Calls -/

namespace Call

/-- **No row of dumped arguments is the beginning of another**, up to its bracket. -/
theorem dumpArgs_append_inj {as bs : List Argument} (has : ∀ a ∈ as, a.Printable)
    (hbs : ∀ b ∈ bs, b.Printable) {xs ys : List Char}
    (h : (dumpArgs as).toList ++ ']' :: xs = (dumpArgs bs).toList ++ ']' :: ys) : as = bs ∧ xs = ys := by
  induction as generalizing bs with
  | nil =>
      cases bs with
      | nil => exact ⟨rfl, (List.cons.inj h).2⟩
      | cons b bs => simp [dumpArgs, Argument.toList_dump] at h
  | cons a as ih =>
      cases bs with
      | nil => simp [dumpArgs, Argument.toList_dump] at h
      | cons b bs =>
          obtain ⟨ha, has'⟩ := List.forall_mem_cons.mp has
          obtain ⟨hb, hbs'⟩ := List.forall_mem_cons.mp hbs
          simp only [dumpArgs, String.toList_append, List.append_assoc] at h
          obtain ⟨rfl, htail⟩ := Argument.dump_append_inj ha hb h
          obtain ⟨rfl, hrest⟩ := ih has' hbs' (List.append_cancel_left htail)
          exact ⟨rfl, hrest⟩

theorem toList_dump_append (call : Call) (xs : List Char) : call.dump.toList ++ xs
    = "(INST ".toList ++ (call.name.toList ++ ' ' :: ("[ ".toList ++
      ((dumpArgs call.args).toList ++ ']' :: (" )".toList ++ xs)))) := by
  rw [dump]
  simp only [String.toList_append, List.append_assoc]
  rfl

/-- **No dump of a call is the beginning of another**, and the dump says all but the place. -/
theorem dump_append_inj {a b : Call} (ha : a.Printable) (hb : b.Printable) {xs ys : List Char}
    (h : a.dump.toList ++ xs = b.dump.toList ++ ys) : a.unplaced = b.unplaced ∧ xs = ys := by
  have hblank : ∀ {call : Call}, call.Printable → ' ' ∉ call.name.toList := by
    intro call hcall hmem
    cases Token.isNameTail_of_mem hcall.1 hmem
  rw [toList_dump_append, toList_dump_append] at h
  obtain ⟨hname, htail⟩ := append_cons_inj (hblank ha) (hblank hb) (List.append_cancel_left h)
  obtain ⟨hargs, hrest⟩ := dumpArgs_append_inj ha.2 hb.2 (List.append_cancel_left htail)
  refine ⟨?_, List.append_cancel_left hrest⟩
  rw [unplaced, unplaced, String.toList_inj.mp hname, hargs]

/-- **Calls are known from their dump**, except for their places. -/
theorem unplaced_eq_of_dumpAll_eq {as bs : List Call} (has : ∀ a ∈ as, a.Printable)
    (hbs : ∀ b ∈ bs, b.Printable) (h : (dumpAll as).toList = (dumpAll bs).toList) :
    as.map unplaced = bs.map unplaced := by
  induction as generalizing bs with
  | nil =>
      cases bs with
      | nil => rfl
      | cons b bs => simp [dumpAll, dump] at h
  | cons a as ih =>
      cases bs with
      | nil => simp [dumpAll, dump] at h
      | cons b bs =>
          obtain ⟨ha, has⟩ := List.forall_mem_cons.mp has
          obtain ⟨hb, hbs⟩ := List.forall_mem_cons.mp hbs
          simp only [dumpAll, String.toList_append, List.append_assoc] at h
          obtain ⟨hcall, htail⟩ := dump_append_inj ha hb h
          rw [List.map_cons, List.map_cons, hcall, ih has hbs (List.append_cancel_left htail)]

/-- The dump does not show places. -/
theorem dumpAll_map_unplaced (calls : List Call) : dumpAll (calls.map unplaced) = dumpAll calls := by
  induction calls with
  | nil => rfl
  | cons call calls ih =>
      rw [List.map_cons, dumpAll, dumpAll, ih]
      rfl

/-- **The dump is unambiguous.** Two scripts have the same dump if and only if they are the same calls with
    the same arguments. -/
theorem dumpAll_eq_iff {text text' : String} {calls calls' : List Call} (h : parse text = .ok calls)
    (h' : parse text' = .ok calls') :
    dumpAll calls = dumpAll calls' ↔ calls.map unplaced = calls'.map unplaced := by
  constructor
  · intro hdump
    exact unplaced_eq_of_dumpAll_eq (Grammar.printable_of_parse h) (Grammar.printable_of_parse h')
      (congrArg String.toList hdump)
  · intro hcalls
    rw [← dumpAll_map_unplaced calls, hcalls, dumpAll_map_unplaced]

/-- A string that looks like the end of its call, in two layouts. A name is dumped otherwise than a string of
    the same letters. -/
theorem dumpAll_eq_iff_layouts :
    parse "log(\"a) ] )\", Var(-1));" = .ok [⟨"log", [.str "a) ] )" none, .var (.index (-1))], some ⟨1, 1⟩⟩] ∧
      parse "// index\n log(\"a) ] )\",Var(- 1));"
        = .ok [⟨"log", [.str "a) ] )" none, .var (.index (-1))], some ⟨2, 2⟩⟩] ∧
      dumpAll [⟨"log", [.str "a) ] )" none, .var (.index (-1))], some ⟨1, 1⟩⟩]
        = dumpAll [⟨"log", [.str "a) ] )" none, .var (.index (-1))], some ⟨2, 2⟩⟩] ∧
      parse "log(a, Var(-1));" = .ok [⟨"log", [.enum "a", .var (.index (-1))], some ⟨1, 1⟩⟩] ∧
      parse "log(\"a\", Var(-1));" = .ok [⟨"log", [.str "a" none, .var (.index (-1))], some ⟨1, 1⟩⟩] ∧
      dumpAll [⟨"log", [.enum "a", .var (.index (-1))], some ⟨1, 1⟩⟩]
        ≠ dumpAll [⟨"log", [.str "a" none, .var (.index (-1))], some ⟨1, 1⟩⟩] := by
  have h : parse "log(\"a) ] )\", Var(-1));"
      = .ok [⟨"log", [.str "a) ] )" none, .var (.index (-1))], some ⟨1, 1⟩⟩] := by decide +kernel
  have h' : parse "// index\n log(\"a) ] )\",Var(- 1));"
      = .ok [⟨"log", [.str "a) ] )" none, .var (.index (-1))], some ⟨2, 2⟩⟩] := by decide +kernel
  have hname : parse "log(a, Var(-1));"
      = .ok [⟨"log", [.enum "a", .var (.index (-1))], some ⟨1, 1⟩⟩] := by decide +kernel
  have hstring : parse "log(\"a\", Var(-1));"
      = .ok [⟨"log", [.str "a" none, .var (.index (-1))], some ⟨1, 1⟩⟩] := by decide +kernel
  refine ⟨h, h', (dumpAll_eq_iff h h').mpr rfl, hname, hstring, ?_⟩
  intro hdump
  exact absurd ((dumpAll_eq_iff hname hstring).mp hdump) (by decide)

end Call
end CallScript
