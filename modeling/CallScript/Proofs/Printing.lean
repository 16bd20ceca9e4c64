import CallScript.Call.Print
import CallScript.Listing.Indentation
import CallScript.Proofs.Grammar
import CallScript.Proofs.Scanning

/-!
# `Proofs.Printing` — printed calls read back

A call whose name is an identifier and whose arguments a script can hold is printed as text that is cut
into the leaves of its tree: `cuts_arg` for one argument, `cuts_call` for a call, `cuts_printLines` for
indented lines. By the completeness of the grammar the lines are then read as the calls that were
printed, which is `parse_printLines`. Only the places of the calls are new.
-/

namespace CallScript

open Token (Ended ended_cons)
open Scan (Cuts)

/-! ## What can be printed -/

/-- An argument that a script can hold as it is printed: the smallest number has no literal, a string must
    end at its own quote and have no slot yet, and a word must be a name. -/
def Argument.Printable : Argument → Prop
  | int value | const value | var (.index value) => value ≠ Int64.minValue
  | hex _ | bool _ => True
  | str text slot => '"' ∉ text.toList ∧ slot = none
  | enum name | var (.named name) => Token.isIdentifier name = true

/-- A word of 32 bits is far from the smallest number. -/
theorem Numeral.toInt64_ne_minValue (w : Int32) : w.toInt64 ≠ Int64.minValue := by
  intro hw
  have hle := w.le_toInt
  have hmin : w.toInt = -0x8000000000000000 := by
    rw [← Int32.toInt_toInt64, hw]
    rfl
  omega

/-- A call that a script can hold as it is printed. -/
def Call.Printable (call : Call) : Prop :=
  Token.isIdentifier call.name = true ∧ ∀ arg ∈ call.args, arg.Printable

namespace Grammar

/-- The tree of a number: a negative one is written with a sign. -/
def SignedTree.ofInt (value : Int64) : SignedTree :=
  if value.toInt < 0 then .negated (-value) else .plain value

/-- The tree of an argument as it is printed. -/
def ArgTree.ofArgument : Argument → ArgTree
  | .int value          => .signed (.ofInt value)
  | .hex value          => .hex value
  | .bool true          => .trueWord
  | .bool false         => .falseWord
  | .str text _         => .string text
  | .enum text          => .name text
  | .var (.named text)  => .varName text
  | .var (.index value) => .varSigned (.ofInt value)
  | .const value        => .constSigned (.ofInt value)

/-- The tree of a call as it is printed. -/
def CallTree.ofCall (call : Call) : CallTree := ⟨call.name, call.args.map ArgTree.ofArgument⟩

theorem SignedTree.value_ofInt (value : Int64) : (SignedTree.ofInt value).value = value := by
  unfold SignedTree.ofInt
  split
  · exact Int64.neg_neg
  · rfl

/-- The tree of a printable argument denotes it. -/
theorem argument_ofArgument {arg : Argument} (h : arg.Printable) :
    (ArgTree.ofArgument arg).argument = arg := by
  cases arg with
  | int value => rw [ArgTree.ofArgument, ArgTree.argument, SignedTree.value_ofInt]
  | const value => rw [ArgTree.ofArgument, ArgTree.argument, SignedTree.value_ofInt]
  | str text slot => rw [h.2]; rfl
  | bool value => cases value <;> rfl
  | hex value => rfl
  | enum name => rfl
  | var v =>
      cases v with
      | named name => rfl
      | index value => rw [ArgTree.ofArgument, ArgTree.argument, SignedTree.value_ofInt]

/-- The tree of a printable call denotes it, at the place where it is read. -/
theorem call_ofCall {call : Call} (h : call.Printable) (place : Position) :
    (CallTree.ofCall call).call place = { call with place := some place } := by
  simp only [CallTree.call, CallTree.ofCall, Call.mk.injEq, true_and, and_true]
  rw [List.map_map]
  exact (List.map_congr_left fun arg harg => argument_ofArgument (h.2 arg harg)).trans (List.map_id _)

/-! ## Arguments -/

/-- **A printed integer is cut into the leaves of its tree.** -/
theorem cuts_decimal {value : Int64} {rest : List Char} (hvalue : value ≠ Int64.minValue)
    (hrest : Ended rest) :
    Cuts (Numeral.decimal value.toInt).toList rest (SignedTree.ofInt value).leaves := by
  have hlt := value.toInt_lt
  have hle := value.le_toInt
  have hmin : value.toInt ≠ -0x8000000000000000 := fun h => hvalue (Int64.toInt_inj.mp h)
  -- the digits of the smallest number, without its sign, would be out of range
  have hnat : value.toInt.natAbs < 0x8000000000000000 := by omega
  have hdigits := Scan.cuts_decimalDigits hnat hrest
  rw [Numeral.toList_decimal, SignedTree.ofInt]
  by_cases hneg : value.toInt < 0
  · have hval : Int64.ofNat value.toInt.natAbs = -value := by
      apply Int64.toInt_inj.mp
      rw [Int64.toInt_ofNat_of_lt hnat, Int64.toInt_neg, Int.bmod_eq_of_le] <;> omega
    rw [if_pos hneg, if_pos hneg, ← hval]
    exact .append (Scan.cuts_mark _ rfl) hdigits
  · have hval : Int64.ofNat value.toInt.natAbs = value := by
      apply Int64.toInt_inj.mp
      rw [Int64.toInt_ofNat_of_lt hnat]
      omega
    rw [if_neg hneg, if_neg hneg]
    rw [hval] at hdigits
    exact hdigits

/-- **A name is cut into itself.** -/
theorem cuts_name {name : String} {rest : List Char} (hname : Token.isIdentifier name = true)
    (hrest : Ended rest) : Cuts name.toList rest [.name name] := by
  obtain ⟨c, cs, hcs, hc, htail, hword⟩ := Token.isIdentifier_iff.mp hname
  rw [hcs, ← hword]
  exact Scan.cuts_word hc htail hrest

/-- A keyword in front of a parenthesis, what stands in it, and its end are cut one after the other. -/
theorem cuts_form {word content rest : List Char} {keyword : Token} {tokens : List Token}
    (hword : ∀ cs, Ended cs → Cuts word cs [keyword])
    (hcontent : ∀ cs, Ended cs → Cuts content cs tokens) :
    Cuts (word ++ '(' :: content ++ [')']) rest ([keyword, .leftParen] ++ tokens ++ [.rightParen]) := by
  rw [show word ++ '(' :: content ++ [')'] = word ++ (['('] ++ (content ++ [')'])) by simp,
    show [keyword, .leftParen] ++ tokens ++ [.rightParen]
      = [keyword] ++ ([.leftParen] ++ (tokens ++ [.rightParen])) by simp]
  refine .append (hword _ (ended_cons _ rfl)) (.append (Scan.cuts_mark _ rfl) (.append ?_ ?_))
  · exact hcontent _ (ended_cons _ rfl)
  · exact Scan.cuts_mark _ rfl

theorem cuts_constWord (cs : List Char) (hcs : Ended cs) : Cuts "Const".toList cs [.constWord] :=
  Scan.cuts_word (by decide) (List.all_eq_true.mp (by decide)) hcs

theorem cuts_varWord (cs : List Char) (hcs : Ended cs) : Cuts "Var".toList cs [.varWord] :=
  Scan.cuts_word (by decide) (List.all_eq_true.mp (by decide)) hcs

/-- **A printed argument is cut into the leaves of its tree.** -/
theorem cuts_arg {arg : Argument} {rest : List Char} (harg : arg.Printable) (hrest : Ended rest) :
    Cuts arg.print.toList rest (ArgTree.ofArgument arg).leaves := by
  cases arg with
  | int value => exact cuts_decimal harg hrest
  | hex value =>
      rw [Argument.print, Numeral.hex, String.toList_ofList]
      exact Scan.cuts_hex value hrest
  | bool value =>
      cases value with
      | true => exact Scan.cuts_word (by decide) (List.all_eq_true.mp (by decide)) hrest
      | false => exact Scan.cuts_word (by decide) (List.all_eq_true.mp (by decide)) hrest
  | str text slot =>
      have h := Scan.cuts_string rest harg.1
      rw [String.ofList_toList] at h
      rw [show (Argument.str text slot).print.toList = '"' :: text.toList ++ ['"'] by simp [Argument.print]]
      exact h
  | enum name => exact cuts_name harg hrest
  | const value =>
      rw [show (Argument.const value).print.toList
        = "Const".toList ++ '(' :: (Numeral.decimal value.toInt).toList ++ [')'] by simp [Argument.print]]
      exact cuts_form cuts_constWord fun cs hcs => cuts_decimal harg hcs
  | var v =>
      cases v with
      | named name =>
          rw [show (Argument.var (.named name)).print.toList = "Var".toList ++ '(' :: name.toList ++ [')']
            by simp [Argument.print]]
          exact cuts_form cuts_varWord fun cs hcs => cuts_name harg hcs
      | index value =>
          rw [show (Argument.var (.index value)).print.toList
            = "Var".toList ++ '(' :: (Numeral.decimal value.toInt).toList ++ [')'] by simp [Argument.print]]
          exact cuts_form cuts_varWord fun cs hcs => cuts_decimal harg hcs

/-! ## Calls -/

/-- Printed arguments are cut into their leaves, with the commas between them. -/
theorem cuts_args {args : List Argument} {rest : List Char} (hargs : ∀ arg ∈ args, arg.Printable)
    (hrest : Ended rest) :
    Cuts (Call.printArgs args).toList rest (argLeaves (args.map ArgTree.ofArgument)) := by
  induction args with
  | nil => exact .nil rest
  | cons arg args ih =>
      have harg := hargs arg List.mem_cons_self
      have hlater := ih fun a ha => hargs a (List.mem_cons_of_mem arg ha)
      cases args with
      | nil =>
          rw [Call.printArgs, List.map_singleton, argLeaves, moreLeaves, List.flatMap_nil, List.append_nil]
          exact cuts_arg harg hrest
      | cons next args =>
          rw [show (Call.printArgs (arg :: next :: args)).toList
              = arg.print.toList ++ ([','] ++ ([' '] ++ (Call.printArgs (next :: args)).toList)) by
                simp [Call.printArgs],
            show argLeaves ((arg :: next :: args).map ArgTree.ofArgument)
              = (ArgTree.ofArgument arg).leaves
                ++ ([.comma] ++ argLeaves ((next :: args).map ArgTree.ofArgument)) by
                simp [argLeaves, moreLeaves]]
          exact .append (cuts_arg harg (ended_cons _ rfl)) (.append (Scan.cuts_mark _ rfl)
            (.gap (Scan.cuts_blank _ rfl) hlater))

/-- **A printed call is cut into the leaves of its tree.** -/
theorem cuts_call {call : Call} (hcall : call.Printable) (rest : List Char) :
    Cuts call.print.toList rest (CallTree.ofCall call).leaves := by
  rw [show call.print.toList
      = call.name.toList ++ (['('] ++ ((Call.printArgs call.args).toList ++ ([')'] ++ [';']))) by
        simp [Call.print],
    show (CallTree.ofCall call).leaves
      = [.name call.name] ++ ([.leftParen] ++ (argLeaves (call.args.map ArgTree.ofArgument)
        ++ ([.rightParen] ++ [.semicolon]))) by
        simp [CallTree.leaves, CallTree.ofCall]]
  exact .append (cuts_name hcall.1 (ended_cons _ rfl)) (.append (Scan.cuts_mark _ rfl)
    (.append (cuts_args hcall.2 (ended_cons _ rfl)) (.append (Scan.cuts_mark _ rfl) (Scan.cuts_mark _ rfl))))

/-! ## Lines -/

/-- Calls with the indents of their lines, as text. -/
def printLines (level : Nat) (lines : List (Indent × Call)) : String :=
  Indent.layout level (lines.map fun line => (line.1, line.2.print))

theorem isBlank_of_mem_tabs {depth : Nat} {c : Char} (h : c ∈ (Indent.tabs depth).toList) :
    Token.isBlank c = true := by
  rw [Indent.tabs, String.toList_ofList] at h
  rw [(List.mem_replicate.mp h).2]
  rfl

theorem isBlank_of_mem_gap {indent : Indent} {c : Char} (h : c ∈ (Indent.gap indent).toList) :
    Token.isBlank c = true := by
  cases indent with
  | scopeEnd =>
      rw [List.mem_singleton.mp h]
      rfl
  | plain | blockBegin | blockEnd | scopeBegin | cell | cellEnd => exact absurd h List.not_mem_nil

/-- **Printed lines are cut into the leaves of their calls**: indentation and empty lines are gaps. -/
theorem cuts_printLines (level : Nat) {lines : List (Indent × Call)}
    (hlines : ∀ line ∈ lines, line.2.Printable) :
    Cuts (printLines level lines).toList []
      ((lines.map fun line => CallTree.ofCall line.2).flatMap CallTree.leaves) := by
  induction lines generalizing level with
  | nil => exact .nil []
  | cons line lines ih =>
      obtain ⟨indent, call⟩ := line
      rw [show (printLines level ((indent, call) :: lines)).toList
          = (Indent.tabs (Indent.depth level indent)).toList ++ (call.print.toList ++ (['\n']
            ++ ((Indent.gap indent).toList ++ (printLines (Indent.step level indent) lines).toList))) by
            simp [printLines, Indent.layout],
        List.map_cons, List.flatMap_cons]
      refine .gap (Scan.cuts_blanks _ fun _ => isBlank_of_mem_tabs) ?_
      refine .append (cuts_call (hlines _ List.mem_cons_self) _) ?_
      refine .gap (Scan.cuts_blank _ rfl) ?_
      refine .gap (Scan.cuts_blanks _ fun _ => isBlank_of_mem_gap) ?_
      exact ih (Indent.step level indent) fun line hline => hlines line (List.mem_cons_of_mem _ hline)

theorem reads_unplaced {ts : List CallTree} {ls : List Lexeme} {calls : List Call}
    (h : Reads ts ls calls) :
    calls.map Call.unplaced = ts.map fun t => ⟨t.name, t.args.map ArgTree.argument, none⟩ := by
  induction h with
  | nil => rfl
  | cons _ _ ih =>
      rw [List.map_cons, List.map_cons, ih]
      rfl

/-- **Printed calls are read back**, with the places where they now stand. -/
theorem parse_printLines {level : Nat} {lines : List (Indent × Call)} (hne : lines ≠ [])
    (hlines : ∀ line ∈ lines, line.2.Printable) :
    ∃ calls, Call.parse (printLines level lines) = .ok calls ∧
      calls.map Call.unplaced = lines.map fun line => line.2.unplaced := by
  obtain ⟨ls, htokens, hof⟩ := Scan.exists_ofText_of_cuts (cuts_printLines level hlines)
  obtain ⟨calls, hreads⟩ := exists_reads htokens
  refine ⟨calls, parse_eq_ok_iff.mpr ?_, ?_⟩
  · rw [hof]
    refine ⟨rfl, ?_, read_of_reads hreads⟩
    rintro rfl
    have hlength := reads_length hreads
    rw [List.length_map] at hlength
    exact hne (List.length_eq_zero_iff.mp hlength.symm)
  · rw [reads_unplaced hreads, List.map_map]
    exact List.map_congr_left fun line hline =>
      congrArg Call.unplaced (call_ofCall (hlines line hline) .first)

end Grammar
end CallScript
