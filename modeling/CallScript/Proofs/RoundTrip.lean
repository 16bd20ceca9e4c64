import CallScript.Proofs.Disassembling

/-!
# `Proofs.RoundTrip` — texts and data, there and back

Compiling and listing are each other's inverses up to what a listing does not show. Three theorems say
how far that goes:

* `decompile_compile_stable` — compiled data is listed as a text that compiles to the same data;
* `compile_decompile_normalizes` — a listed text compiles exactly if its statements are recompilable, and
  then to their normal forms;
* `decompile_fixpoint` — what a listed text compiles to is listed as the same text.

The two directions meet at the statements: `Listing.decompile_of_decode` and `Listing.of_decompile` for
listing, `Listing.compile_text_iff` for compiling what was listed.
-/

namespace CallScript

open Assembly (Assembled)

/-! ## From data to text -/

namespace Listing

variable {set : InstructionSet} {order : ByteOrder} {permissive : Bool} {data : List UInt8}
  {ss : List Statement}

/-- A listing shows instructions and fields, not the offsets where they were found. -/
theorem text_relocate (offset : Nat) (ss : List Statement) :
    text set (Reading.relocate order offset ss) = text set ss := by
  have hlines : ∀ offset, (Reading.relocate order offset ss).map
      (fun s => (s.instruction.indent, (s.call set).print))
        = ss.map fun s => (s.instruction.indent, (s.call set).print) := by
    induction ss with
    | nil => exact fun _ => rfl
    | cons s ss ih =>
        intro offset
        exact congrArg (List.cons _) (ih (offset + (s.bytes order).length))
  rw [text, hlines, text]

theorem text_normal (ss : List Statement) : text set (ss.map Statement.normal) = text set ss := by
  rw [text, List.map_map, text]
  refine congrArg (Indent.layout 0) (List.map_congr_left fun s _ => ?_)
  show (s.instruction.indent, (s.normal.call set).print) = _
  rw [Statement.call_normal]

/-- **Data whose code is made of well-formed statements is listed as them.** -/
theorem decompile_of_decode {image : Image} (hdecode : Image.decode order data = .ok image)
    (hcode : image.code = ss.flatMap (Statement.bytes order))
    (hss : ∀ s ∈ ss, s.WellFormed set permissive) :
    decompile set permissive order data = .ok (text set ss) := by
  obtain ⟨⟨order', offset, rest⟩, hc, hrest⟩ := Image.decode_code_iff.mp ⟨image, hdecode, hcode⟩
  obtain ⟨count, table, -, hafter⟩ := Reading.codeCursor_eq_ok_iff.mp hc
  have horder : order' = order := hafter.order
  have hrest : rest = ss.flatMap (Statement.bytes order) := hrest
  subst horder hrest
  rw [decompile, Reading.ofData_of_codeCursor hc, Reading.ofCode_bytes hss]
  exact congrArg Except.ok (text_relocate offset ss)

/-- The statements of data that is listed are well-formed, and its code is made of them. -/
theorem of_decompile {t : String} (h : decompile set permissive order data = .ok t)
    (hss : (Reading.ofData set permissive order data).statements = ss) :
    (∃ image, Image.decode order data = .ok image ∧ image.code = ss.flatMap (Statement.bytes order)) ∧
      (∀ s ∈ ss, s.WellFormed set permissive) ∧ t = text set ss := by
  obtain ⟨hfault, rfl⟩ := decompile_eq_ok_iff.mp h
  cases hc : Reading.codeCursor order data with
  | error cause =>
      rw [Reading.ofData, hc] at hfault
      cases hfault
  | ok c =>
      rw [Reading.ofData_of_codeCursor hc] at hfault hss
      obtain ⟨hwf, hrest⟩ := Reading.of_ofCode hfault
      obtain ⟨count, table, -, hafter⟩ := Reading.codeCursor_eq_ok_iff.mp hc
      rw [hss, show c.order = order from hafter.order] at hrest
      rw [hss] at hwf
      exact ⟨Image.decode_code_iff.mpr ⟨c, hc, hrest⟩, hwf, by rw [Reading.ofData_of_codeCursor hc, hss]⟩

/-! ## From text to data -/

/-- **A listed text is a script of the calls of its statements.** -/
theorem parse_text (hne : ss ≠ []) : ∃ calls, Call.parse (text set ss) = .ok calls ∧
    calls.map Call.unplaced = (ss.map (Statement.call set)).map Call.unplaced := by
  have htext : text set ss
      = Grammar.printLines 0 (ss.map fun s => (s.instruction.indent, s.call set)) := by
    rw [text, Grammar.printLines, List.map_map]
    rfl
  rw [htext]
  have hlines : ∀ line ∈ ss.map fun s => (s.instruction.indent, s.call set), line.2.Printable := by
    intro line hline
    obtain ⟨s, -, rfl⟩ := List.mem_map.mp hline
    exact s.printable_call
  obtain ⟨calls, hparse, hcalls⟩ :=
    Grammar.parse_printLines (fun hnil => hne (List.map_eq_nil_iff.mp hnil)) hlines
  refine ⟨calls, hparse, hcalls.trans ?_⟩
  rw [List.map_map, List.map_map]
  rfl

/-- Nothing at all is listed as no script. -/
theorem parse_text_nil {calls : List Call} : Call.parse (text set []) ≠ .ok calls := by
  intro h
  obtain ⟨-, hne, hread⟩ := Grammar.parse_eq_ok_iff.mp h
  have hscan : (Scan.ofText (text set [])).lexemes = [] := by
    show (Scan.scanFrom .first []).lexemes = []
    rw [Scan.scanFrom]
  rw [hscan] at hread
  cases hread
  exact hne rfl

/-- **A listed text is compiled exactly if the calls of its statements all have fragments.** -/
theorem compile_text_iff : Compile.compile set order (text set ss) = .ok data ↔
    ss ≠ [] ∧ ∃ fs, Assembled set order (ss.map (Statement.call set)) fs ∧
      (Assembly.layout 0 fs).encode order = data := by
  rw [Compile.compile_eq_ok_iff]
  constructor
  · rintro ⟨calls, fs, hparse, hfs, hdata⟩
    have hne : ss ≠ [] := by
      rintro rfl
      exact parse_text_nil hparse
    -- the text has one reading, and it is that of the calls that were printed
    obtain ⟨calls', hparse', hcalls⟩ := parse_text hne
    cases hparse.symm.trans hparse'
    exact ⟨hne, fs, hfs.of_unplaced hcalls, hdata⟩
  · rintro ⟨hne, fs, hfs, hdata⟩
    obtain ⟨calls, hparse, hcalls⟩ := parse_text hne
    exact ⟨calls, fs, hparse, hfs.of_unplaced hcalls.symm, hdata⟩

/-- The calls of statements have fragments exactly if each statement is recompilable. -/
theorem exists_assembled_iff (hset : set.NoBorrowedName) (hss : ∀ s ∈ ss, s.WellFormed set permissive) :
    (∃ fs, Assembled set order (ss.map (Statement.call set)) fs) ↔ ∀ s ∈ ss, s.Recompilable set := by
  induction ss with
  | nil => exact ⟨nofun, fun _ => ⟨[], .nil⟩⟩
  | cons s ss ih =>
      have hs := hss s List.mem_cons_self
      have ih := ih fun s' hs' => hss s' (List.mem_cons_of_mem s hs')
      rw [List.forall_mem_cons, ← ih, ← Statement.exists_assemble_call_iff hset hs]
      constructor
      · rintro ⟨_, hfs⟩
        cases hfs with
        | cons hf hfs => exact ⟨⟨_, hf⟩, _, hfs⟩
      · rintro ⟨⟨f, hf⟩, fs, hfs⟩
        exact ⟨f :: fs, .cons hf hfs⟩

/-- **Recompiled code is the code of the normal forms.** -/
theorem code_of_assembled (hset : set.NoBorrowedName) (hss : ∀ s ∈ ss, s.WellFormed set permissive)
    {fs : List Fragment} (h : Assembled set order (ss.map (Statement.call set)) fs) :
    fs.flatMap Fragment.code = (ss.map Statement.normal).flatMap (Statement.bytes order) := by
  induction ss generalizing fs with
  | nil =>
      cases h
      rfl
  | cons s ss ih =>
      cases h with
      | cons hf hfs =>
          obtain ⟨-, -, hcode⟩ := (Statement.assemble_call_iff hset (hss s List.mem_cons_self)).mp hf
          have hlater := ih (fun s' hs' => hss s' (List.mem_cons_of_mem s hs')) hfs
          rw [List.flatMap_cons, hcode, hlater]
          rfl

end Listing

/-! ## There and back -/

namespace RoundTrip

variable {set : InstructionSet} {order : ByteOrder} {permissive : Bool}

/-- A literal ends at the next quote, so no string of a script has one in it. -/
theorem quote_not_mem_of_parse {source : String} {calls : List Call} (h : Call.parse source = .ok calls)
    {call : Call} (hcall : call ∈ calls) {text : String} {slot : Option Nat}
    (harg : .str text slot ∈ call.args) : '"' ∉ text.toList := by
  obtain ⟨l, hl, htoken⟩ := Grammar.exists_string_of_parse h hcall harg
  exact Scan.quote_not_mem_of_mem hl htoken

/-- The strings of a script come back from their slots if no literal has a zero in it. -/
theorem plain_of_parse {text : String} {calls : List Call} (hparse : Call.parse text = .ok calls)
    (hzero : ∀ l ∈ (Scan.ofText text).lexemes, ∀ s, l.token = .string s → '\x00' ∉ s.toList) :
    ∀ call ∈ calls, ∀ arg ∈ call.args, Call.Plain arg := by
  intro call hcall arg harg s hs c hc
  cases arg with
  | str s' slot =>
      cases hs
      refine ⟨?_, ?_⟩
      · rintro rfl
        exact quote_not_mem_of_parse hparse hcall harg hc
      · rintro rfl
        obtain ⟨l, hl, htoken⟩ := Grammar.exists_string_of_parse hparse hcall harg
        exact hzero l hl s htoken hc
  | int | hex | bool | enum | var | const => cases hs

/-- Statements are no more than the bytes that hold them. -/
theorem length_le_length_code (order : ByteOrder) (ss : List Statement) :
    ss.length ≤ (ss.flatMap (Statement.bytes order)).length := by
  induction ss with
  | nil => exact Nat.le_refl 0
  | cons s ss ih =>
      rw [List.flatMap_cons, List.length_append, List.length_cons, Statement.bytes, List.length_append,
        ByteOrder.length_intBytes]
      omega

/-! ### A small set -/

/-- A set whose only instruction is entered in the jump table and has an argument of each kind that a
    listing does not show in full. -/
def markSet : InstructionSet where
  instructions := [⟨1, some "mark", [.fixedString 4, .operand, .bool, .enum "color"], .plain⟩]
  vars := ⟨[("x", 3)], by decide⟩
  enums := ⟨[("color", ⟨[("red", 4)], by decide⟩)], by decide⟩
  jumpNames := ["mark"]
  ascending := List.pairwise_singleton _ _
  namedOnce := List.pairwise_singleton _ _

theorem noBorrowedName_markSet : markSet.NoBorrowedName := by
  intro i hi opcode hname
  cases List.mem_singleton.mp hi
  have hlist := congrArg String.toList (Option.some.inj hname)
  rw [Instruction.unknownName, String.toList_append] at hlist
  cases (List.cons.inj hlist).1

theorem groupsConfigured_markSet : markSet.GroupsConfigured := by
  intro i hi group hgroup
  cases List.mem_singleton.mp hi
  have hcolor : group = "color" := by simpa using hgroup
  rw [hcolor]
  decide

/-- One statement of `markSet`, with nothing as the compiler would write it: no label in the table, a slot
    with a quote and a high byte, an odd tag and an odd truth value. -/
def roughData : List UInt8 :=
  [0, 0, 0, 0] ++ [1, 0, 0, 0, 34, 0, 255, 0, 7, 0, 0, 0, 3, 0, 0, 0, 5, 0, 0, 0, 4, 0, 0, 0]

/-- The same statement in normal form, behind its label. -/
def markData : List UInt8 :=
  [1, 0, 0, 0] ++ padTo 32 [63, 63] ++ [0, 0, 0, 0]
    ++ [1, 0, 0, 0, 63, 63, 0, 0, 2, 0, 0, 0, 3, 0, 0, 0, 1, 0, 0, 0, 4, 0, 0, 0]

/-! ### Main results -/

/-- **Compiled data is stable.** If every enum group in use is configured and no instruction has the
    generated name of another opcode, then what a text without zeros in its strings compiles to is listed
    as a text that compiles to the same data. -/
theorem decompile_compile_stable (hset : set.NoBorrowedName) (hgroups : set.GroupsConfigured)
    (text : String) (data : List UInt8)
    (hzero : ∀ l ∈ (Scan.ofText text).lexemes, ∀ s, l.token = .string s → '\x00' ∉ s.toList)
    (hcompile : Compile.compile set order text = .ok data) (hsize : data.length < UInt32.size) :
    ∃ listed, Listing.decompile set true order data = .ok listed ∧
      Compile.compile set order listed = .ok data := by
  obtain ⟨calls, fs, hparse, hfs, rfl⟩ := Compile.compile_eq_ok_iff.mp hcompile
  obtain ⟨ss, hss, hcode, hassembled⟩ :=
    Assembly.exists_statements hset hgroups (plain_of_parse hparse hzero) hfs
  have hne : ss ≠ [] := by
    rintro rfl
    cases hassembled
    cases hfs
    exact (Grammar.parse_eq_ok_iff.mp hparse).2.1 rfl
  obtain ⟨image, hdecode, himage⟩ :=
    Image.exists_decode_encode (Nat.lt_of_le_of_lt (Image.length_jumpTable_le _) hsize)
  rw [Assembly.layout_code, ← hcode] at himage
  exact ⟨Listing.text set ss, Listing.decompile_of_decode hdecode himage hss,
    Listing.compile_text_iff.mpr ⟨hne, fs, hassembled, rfl⟩⟩

/-- A text that is listed with other words than it was written in. -/
theorem decompile_compile_stable_mark :
    Compile.compile markSet .little "mark(\"??\", x, true, 4); // the end" = .ok markData ∧
      ∃ listed, Listing.decompile markSet true .little markData = .ok listed ∧
        Compile.compile markSet .little listed = .ok markData := by
  have hcompile : Compile.compile markSet .little "mark(\"??\", x, true, 4); // the end"
      = .ok markData := by decide +kernel
  have htokens : (Scan.ofText "mark(\"??\", x, true, 4); // the end").lexemes.map Lexeme.token
      = [.name "mark", .leftParen, .string "??", .comma, .name "x", .comma, .trueWord, .comma, .integer 4,
        .rightParen, .semicolon] := by decide +kernel
  refine ⟨hcompile, decompile_compile_stable noBorrowedName_markSet groupsConfigured_markSet _ _ ?_
    hcompile (by decide)⟩
  intro l hl s hs
  have hmem := List.mem_map_of_mem (f := Lexeme.token) hl
  rw [htokens, hs] at hmem
  have hs : s = "??" := by simpa using hmem
  rw [hs]
  decide

/-- **Recompiling a listed text normalizes the data.** It succeeds exactly if the statements of the data,
    which its code is made of, are recompilable, and then the code is that of their normal forms. In a normal
    form truth is the word 1 and its opposite 0, and the tag of an operand is 0 or 2. -/
theorem compile_decompile_normalizes (hset : set.NoBorrowedName) (data : List UInt8)
    (hsize : data.length < UInt32.size) (text : String)
    (htext : Listing.decompile set permissive order data = .ok text) (ss : List Statement)
    (hss : (Reading.ofData set permissive order data).statements = ss) (hne : ss ≠ []) :
    (∃ image, Image.decode order data = .ok image ∧ image.code = ss.flatMap (Statement.bytes order)) ∧
    (∀ s ∈ ss, s.WellFormed set permissive) ∧
    ((∃ data', Compile.compile set order text = .ok data') ↔ ∀ s ∈ ss, s.Recompilable set) ∧
    (∀ data', Compile.compile set order text = .ok data' → ∃ image,
      Image.decode order data' = .ok image ∧
        image.code = ss.flatMap fun s => s.normal.bytes order) ∧
    (∀ s : Statement, s.normal.bytes order = order.intBytes s.instruction.opcode
      ++ s.fields.flatMap fun field => field.normal.bytes order) ∧
    ∀ field : Field, field.normal.bytes order = match field with
      | .bool w => order.intBytes (if 0 < w then 1 else 0)
      | .text slot => Quoted.normal slot
      | .operand tag w => order.bytes (if tag = 0 then 0 else 2) ++ order.intBytes w
      | field => field.bytes order := by
  obtain ⟨hdecode, hwf, rfl⟩ := Listing.of_decompile htext hss
  refine ⟨hdecode, hwf, ?_, fun data' hdata' => ?_, Statement.bytes_normal order, Field.bytes_normal⟩
  · rw [← Listing.exists_assembled_iff hset hwf]
    constructor
    · rintro ⟨data', hdata'⟩
      obtain ⟨-, fs, hfs, -⟩ := Listing.compile_text_iff.mp hdata'
      exact ⟨fs, hfs⟩
    · rintro ⟨fs, hfs⟩
      exact ⟨_, Listing.compile_text_iff.mpr ⟨hne, fs, hfs, rfl⟩⟩
  · obtain ⟨-, fs, hfs, rfl⟩ := Listing.compile_text_iff.mp hdata'
    -- the new table has an entry for some of the statements at most, and they all fit in the old data
    have hcount : (Assembly.layout 0 fs).jumpTable.length < UInt32.size := by
      obtain ⟨image, himage, hcode⟩ := hdecode
      have hlength := Image.length_code_le himage
      have hss := length_le_length_code order ss
      have hfs := hfs.length_eq
      have htable := Assembly.length_jumpTable_layout 0 fs
      rw [hcode] at hlength
      rw [List.length_map] at hfs
      omega
    obtain ⟨image, himage, hcode⟩ := Image.exists_decode_encode hcount
    refine ⟨image, himage, ?_⟩
    rw [hcode, Assembly.layout_code, Listing.code_of_assembled hset hwf hfs, List.flatMap_map]

/-- A statement in which every kind of field changes. -/
theorem compile_decompile_normalizes_mark :
    Listing.decompile markSet false .little roughData = .ok "mark(\"??\", Var(x), true, red);\n" ∧
      ∃ data image, Compile.compile markSet .little "mark(\"??\", Var(x), true, red);\n" = .ok data ∧
        Image.decode .little data = .ok image ∧
        image.code = [1, 0, 0, 0, 63, 63, 0, 0, 2, 0, 0, 0, 3, 0, 0, 0, 1, 0, 0, 0, 4, 0, 0, 0] := by
  have htext : Listing.decompile markSet false .little roughData
      = .ok "mark(\"??\", Var(x), true, red);\n" := by decide +kernel
  have hss : (Reading.ofData markSet false .little roughData).statements
      = [⟨4, ⟨1, some "mark", [.fixedString 4, .operand, .bool, .enum "color"], .plain⟩,
        [.text [34, 0, 255, 0], .operand 7 3, .bool 5, .enum ⟨[("red", 4)], by decide⟩ 4]⟩] := by decide +kernel
  obtain ⟨-, -, hiff, hcode, -⟩ := compile_decompile_normalizes noBorrowedName_markSet _ (by decide) _ htext _
    hss (List.cons_ne_nil _ _)
  obtain ⟨data, hdata⟩ := hiff.mpr fun s hs => by
    cases List.mem_singleton.mp hs
    refine ⟨fun slot hslot => ?_, fun name _ _ => ⟨_, _, rfl, by decide⟩⟩
    have hslot : slot = [34, 0, 255, 0] := by simpa using hslot
    rw [hslot]
    decide
  obtain ⟨image, himage, hcode⟩ := hcode data hdata
  exact ⟨htext, data, image, hdata, himage, hcode.trans (by decide)⟩

/-- **A listed text is a fixpoint.** What it compiles to is listed as the same text, although the data may
    differ from the data that was listed first. -/
theorem decompile_fixpoint (hset : set.NoBorrowedName) (data data' : List UInt8) (text : String)
    (htext : Listing.decompile set permissive order data = .ok text)
    (hcompile : Compile.compile set order text = .ok data') (hsize : data'.length < UInt32.size) :
    Listing.decompile set permissive order data' = .ok text := by
  obtain ⟨-, hwf, rfl⟩ := Listing.of_decompile htext rfl
  obtain ⟨-, fs, hfs, rfl⟩ := Listing.compile_text_iff.mp hcompile
  obtain ⟨image, hdecode, hcode⟩ :=
    Image.exists_decode_encode (Nat.lt_of_le_of_lt (Image.length_jumpTable_le _) hsize)
  rw [Assembly.layout_code, Listing.code_of_assembled hset hwf hfs] at hcode
  -- the new code is that of the normal forms, which are listed as the statements were
  rw [← Listing.text_normal]
  refine Listing.decompile_of_decode hdecode hcode fun s hs => ?_
  obtain ⟨s', hs', rfl⟩ := List.mem_map.mp hs
  exact (hwf s' hs').normal

/-- Data that is not compiled to itself, but listed as what it is compiled to. -/
theorem decompile_fixpoint_mark :
    Listing.decompile markSet false .little roughData = .ok "mark(\"??\", Var(x), true, red);\n" ∧
      Compile.compile markSet .little "mark(\"??\", Var(x), true, red);\n" = .ok markData ∧
      Listing.decompile markSet false .little markData = .ok "mark(\"??\", Var(x), true, red);\n" := by
  have htext : Listing.decompile markSet false .little roughData
      = .ok "mark(\"??\", Var(x), true, red);\n" := by decide +kernel
  have hcompile : Compile.compile markSet .little "mark(\"??\", Var(x), true, red);\n"
      = .ok markData := by decide +kernel
  exact ⟨htext, hcompile, decompile_fixpoint noBorrowedName_markSet _ _ _ htext hcompile (by decide)⟩

end RoundTrip
end CallScript
