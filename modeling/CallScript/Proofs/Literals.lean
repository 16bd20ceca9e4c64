import CallScript.Proofs.Layout
import CallScript.Proofs.Recoding
import CallScript.Proofs.RoundTrip

/-!
# `Proofs.Literals` — what becomes of a string literal

A literal is kept in two places. As a label it fills the slot of a name, and is read back up to the first
zero; as an argument it fills a slot in the code, and is listed without its zeros. Nothing else of it is
lost: whatever else could be is refused when the call is checked. So both come back as they were written
exactly if they have no zero (`compile_literals`).

Labels come back through `Image.slotText_label`. For arguments, the statements that are read are
matched with the calls that were written: the code of a call and the bytes of a statement in the same
place have the same opcode, hence the same instruction and the same size (`Call.readAs_of_code`), and
so one after the other to the end (`Assembly.Assembled.readAs`).
-/

namespace CallScript

/-! ## Zeros -/

namespace Quoted

/-- A text up to its first zero. -/
def upToZero (text : String) : String := String.ofList (text.toList.takeWhile (· ≠ '\x00'))

/-- A text without its zeros. -/
def withoutZeros (text : String) : String := String.ofList (text.toList.filter (· ≠ '\x00'))

theorem ofList_eq_iff {cs : List Char} {text : String} : String.ofList cs = text ↔ cs = text.toList := by
  constructor
  · rintro rfl
    exact String.toList_ofList.symm
  · rintro rfl
    exact String.ofList_toList

theorem upToZero_eq_self_iff {text : String} : upToZero text = text ↔ '\x00' ∉ text.toList := by
  rw [upToZero, ofList_eq_iff, Image.takeWhile_zero_eq_self_iff]

theorem withoutZeros_eq_self_iff {text : String} : withoutZeros text = text ↔ '\x00' ∉ text.toList := by
  rw [withoutZeros, ofList_eq_iff, List.filter_eq_self]
  simp only [decide_eq_true_eq, ne_eq, List.forall_mem_ne']

end Quoted

/-! ## Labels in their slots -/

/-- **A label is read back up to its first zero.** -/
theorem Image.slotText_label {label : String}
    (hlength : (Utf8.encode label.toList).length ≤ Call.maxLabelLength) :
    slotText (padTo nameSize (storedName label)) = Quoted.upToZero label := by
  have hfits : (Utf8.encode (label.toList.takeWhile (· ≠ '\x00'))).length ≤ nameSize - 1 := by
    rw [← Utf8.takeWhile_encode]
    exact Nat.le_trans (List.takeWhile_sublist _).length_le hlength
  rw [slotText_storedName, Utf8.cut_of_length_le hfits, Quoted.upToZero]

namespace Call

variable {set : InstructionSet} {order : ByteOrder}

/-- The label of a call: its first argument, if it is entered in the jump table. -/
def label? (set : InstructionSet) (call : Call) : Option String :=
  if call.isEntered set then call.args.head?.bind stringText? else none

theorem label?_eq_of_assemble {call : Call} {f : Fragment} (h : call.assemble set order = .ok f) :
    f.label = call.label? set ∧ ∀ label, f.label = some label → call.HasLabel label := by
  rcases label_of_assemble h with ⟨hentered, label, hlabel, hcall⟩ | ⟨hentered, hlabel⟩
  · refine ⟨?_, fun label' h' => ?_⟩
    · obtain ⟨⟨slot, later, hargs⟩, -⟩ := hcall
      rw [hlabel, label?, if_pos hentered, hargs]
      rfl
    · cases hlabel.symm.trans h'
      exact hcall
  · refine ⟨?_, fun label' h' => ?_⟩
    · rw [hlabel, label?, hentered, if_neg (by decide)]
    · cases hlabel.symm.trans h'

end Call

namespace Assembly

variable {set : InstructionSet} {order : ByteOrder} {calls : List Call} {fs : List Fragment}

/-- The labels of calls as they were written, in order. -/
def labels (set : InstructionSet) (calls : List Call) : List String := calls.filterMap (Call.label? set)

/-- **The stored jump table holds the labels of the calls**, each up to its first zero. -/
theorem Assembled.storedNames (h : Assembled set order calls fs) (base : Nat) :
    ((layout base fs).jumpTable.map Image.storedEntry).map JumpEntry.name
      = (labels set calls).map Quoted.upToZero := by
  induction h generalizing base with
  | nil => rfl
  | @cons call f calls fs hf _ ih =>
      obtain ⟨hlabel, hcall⟩ := Call.label?_eq_of_assemble hf
      have hlater := ih (base + f.code.length)
      rw [labels] at hlater ⊢
      rw [layout, List.filterMap_cons, ← hlabel]
      cases hf : f.label with
      | none => exact hlater
      | some label =>
          obtain ⟨-, -, hlength⟩ := hcall label hf
          exact congr (congrArg List.cons (Image.slotText_label hlength)) hlater

end Assembly

/-! ## From calls to statements -/

namespace Field

variable {set : InstructionSet} {order : ByteOrder}

/-- Fields and arguments of the same types and the same bytes agree place by place, since a type fixes the
    number of bytes. -/
theorem exists_codedAs_of_coded {fields : List Field} {types : List ArgType} {args : List Argument}
    (htyped : List.Forall₂ (HasType set) fields types)
    (hcoded : Call.Coded set order types args (fields.flatMap (bytes order))) {j : Nat} {type : ArgType}
    (hj : types[j]? = some type) :
    ∃ field arg, fields[j]? = some field ∧ args[j]? = some arg ∧ field.HasType set type ∧
      Call.CodedAs set order type arg (field.bytes order) := by
  induction htyped generalizing args j with
  | nil => simp at hj
  | @cons field first fields types hfield _ ih =>
      generalize hbytes : (field :: fields).flatMap (bytes order) = bs at hcoded
      cases hcoded with
      | @cons _ _ arg args head later harg hlater =>
          have hlength : (field.bytes order).length = head.length := by
            rw [hfield.length_bytes, harg.length_eq]
          obtain ⟨hhead, hrest⟩ := List.append_inj hbytes hlength
          cases j with
          | zero =>
              cases hj
              exact ⟨field, arg, rfl, rfl, hfield, hhead ▸ harg⟩
          | succ j =>
              have hrest : fields.flatMap (bytes order) = later := hrest
              exact ih (hrest ▸ hlater) hj

end Field

namespace Call

variable {set : InstructionSet} {order : ByteOrder} {call : Call} {s : Statement}

/-- `s` is what the code of a call is read as: a statement of the instruction that the call names, whose
    fields have the bytes of the call's arguments. -/
structure ReadAs (set : InstructionSet) (order : ByteOrder) (call : Call) (s : Statement) : Prop where
  named : set.resolve? call.name = some s.instruction
  typed : List.Forall₂ (Field.HasType set) s.fields s.instruction.args
  coded : Coded set order s.instruction.args call.givenArgs (s.fields.flatMap (Field.bytes order))

/-- **The code of a call is read as one statement**, with nothing over and nothing missing. -/
theorem readAs_of_code {f : Fragment} {rest rest' : List UInt8} (hf : call.assemble set order = .ok f)
    (hs : s.WellFormed set true) (h : f.code ++ rest = s.bytes order ++ rest') :
    call.ReadAs set order s ∧ rest = rest' := by
  obtain ⟨i, bs, hi, hcoded, -, hcode⟩ := assemble_eq_ok_iff.mp hf
  rw [hcode, Statement.bytes, List.append_assoc, List.append_assoc] at h
  obtain ⟨hopcode, hargs⟩ := List.append_inj h (by simp)
  -- the opcode says which instruction it is, and the instruction how many bytes there are
  have hinstruction : i = s.instruction := by
    have hfor := InstructionSet.instructionFor_of_resolve? hi
    rw [ByteOrder.intBytes_inj hopcode, hs.listed] at hfor
    exact (Option.some.inj hfor).symm
  subst hinstruction
  have hlength : bs.length = (s.fields.flatMap (Field.bytes order)).length := by
    rw [hcoded.length_eq, Field.length_flatMap_bytes hs.typed]
  obtain ⟨hbytes, hrest⟩ := List.append_inj hargs hlength
  exact ⟨⟨hi, hs.typed, hbytes ▸ hcoded⟩, hrest⟩

end Call

/-- **The code of calls is read as one statement for each call.** -/
theorem Assembly.Assembled.readAs {set : InstructionSet} {order : ByteOrder} {calls : List Call}
    {fs : List Fragment} {ss : List Statement} (h : Assembled set order calls fs)
    (hss : ∀ s ∈ ss, s.WellFormed set true)
    (hcode : fs.flatMap Fragment.code = ss.flatMap (Statement.bytes order)) :
    List.Forall₂ (Call.ReadAs set order) calls ss := by
  induction h generalizing ss with
  | nil =>
      have hlength := RoundTrip.length_le_length_code order ss
      rw [← hcode] at hlength
      cases List.length_eq_zero_iff.mp (Nat.le_zero.mp hlength)
      exact .nil
  | cons hf _ ih =>
      cases ss with
      | nil =>
          obtain ⟨i, bs, -, hbytes, -⟩ := Call.code_of_assemble hf
          have hlength := congrArg List.length hcode
          rw [List.flatMap_cons, hbytes] at hlength
          simp at hlength
      | cons s ss =>
          obtain ⟨hs, hrest⟩ := Call.readAs_of_code hf (hss s List.mem_cons_self) hcode
          exact .cons hs (ih (fun s' hs' => hss s' (List.mem_cons_of_mem s hs')) hrest)

/-! ## Arguments in their slots -/

namespace Call

variable {set : InstructionSet} {order : ByteOrder} {call : Call} {s : Statement}

/-- What a statement prints for the strings of a call: each literal without its zeros, so that it is the
    literal as it was written if and only if that has none. -/
def PrintsLiterals (set : InstructionSet) (call : Call) (s : Statement) : Prop :=
  set.resolve? call.name = some s.instruction ∧
    ∀ (j capacity : Nat), s.instruction.args[j]? = some (.fixedString capacity) →
      ∃ text slot printed, call.args[j]? = some (.str text slot) ∧
        (s.call set).args[j]?.map Argument.print = some printed ∧
        printed = "\"" ++ Quoted.withoutZeros text ++ "\"" ∧
        (printed = "\"" ++ text ++ "\"" ↔ '\x00' ∉ text.toList)

/-- The slot of a literal is listed as the literal without its zeros. -/
theorem argument_of_codedAs_fixedString {capacity : Nat} {field : Field} {arg : Argument}
    (htype : field.HasType set (.fixedString capacity))
    (hcoded : CodedAs set order (.fixedString capacity) arg (field.bytes order))
    (hquote : ∀ text slot, arg = .str text slot → '"' ∉ text.toList) :
    ∃ text slot, arg = .str text slot ∧
      field.argument set = .str (Quoted.withoutZeros text) none := by
  obtain ⟨fitted, hfit, hcode⟩ := hcoded
  cases arg with
  | str text slot =>
      cases hfit
      cases htype with
      | @text _ bytes hslot =>
          generalize hbytes : (Field.text bytes).bytes order = bs at hcode
          cases hcode with
          | str hascii hfits =>
              refine ⟨text, slot, rfl, ?_⟩
              have hslot : bytes = padTo capacity (text.toList.map Quoted.asciiByte) := hbytes
              have hchars : ∀ c ∈ text.toList, c.toNat < 0x80 ∧ c ≠ '"' := by
                intro c hc
                refine ⟨isAscii_iff.mp hascii c hc, ?_⟩
                rintro rfl
                exact hquote text slot rfl hc
              rw [Field.argument, hslot, Quoted.body_asciiByte hchars, Quoted.withoutZeros]
  | int | hex | bool | enum | var | const => cases hfit

theorem getElem?_of_givenArgs {j : Nat} {arg : Argument} (h : call.givenArgs[j]? = some arg) :
    call.args[j]? = some arg := by
  rwa [givenArgs_of_ne_nil (List.ne_nil_of_mem (List.mem_of_getElem? h))] at h

/-- **A statement prints the literals of the call that it is read from.** -/
theorem ReadAs.printsLiterals (h : call.ReadAs set order s)
    (hquote : ∀ text slot, .str text slot ∈ call.args → '"' ∉ text.toList) :
    call.PrintsLiterals set s := by
  refine ⟨h.named, fun j capacity hj => ?_⟩
  obtain ⟨field, arg, hfield, harg, htype, hcoded⟩ := Field.exists_codedAs_of_coded h.typed h.coded hj
  have harg := getElem?_of_givenArgs harg
  obtain ⟨text, slot, rfl, hshown⟩ := argument_of_codedAs_fixedString htype hcoded
    fun text slot heq => hquote text slot (heq ▸ List.mem_of_getElem? harg)
  refine ⟨text, slot, _, harg, ?_, rfl, ?_⟩
  · rw [Statement.call, List.getElem?_map, hfield, Option.map_some, hshown]
    rfl
  · rw [String.append_left_inj, String.append_right_inj, Quoted.withoutZeros_eq_self_iff]

end Call

/-! ## Main result -/

/-- **What becomes of the literals of a compiled text.** The stored jump table has the labels as they were
    written, each up to its first zero, and a listing prints each string argument as it was written,
    without its zeros. So labels and strings come back as they were exactly if no zero is in them. -/
theorem Compile.compile_literals {set : InstructionSet} {order : ByteOrder} {text : String}
    {data : List UInt8} (hcompile : compile set order text = .ok data) (hsize : data.length < UInt32.size) :
    ∃ calls image, Call.parse text = .ok calls ∧ Image.decode order data = .ok image ∧
      image.jumpTable.map JumpEntry.name = (Assembly.labels set calls).map Quoted.upToZero ∧
      (image.jumpTable.map JumpEntry.name = Assembly.labels set calls ↔
        ∀ label ∈ Assembly.labels set calls, '\x00' ∉ label.toList) ∧
      ∀ listed, Listing.decompile set true order data = .ok listed →
        listed = Listing.text set (Reading.ofData set true order data).statements ∧
        List.Forall₂ (Call.PrintsLiterals set) calls (Reading.ofData set true order data).statements := by
  obtain ⟨calls, fs, hparse, hfs, rfl⟩ := compile_eq_ok_iff.mp hcompile
  have hdecode : Image.decode order ((Assembly.layout 0 fs).encode order) = .ok _ :=
    Image.decode_encode (Nat.lt_of_le_of_lt (Image.length_jumpTable_le _) hsize)
  have hnames := hfs.storedNames 0
  refine ⟨calls, _, hparse, hdecode, hnames, ?_, fun listed hlisted => ?_⟩
  · rw [hnames]
    constructor
    · intro h label hlabel
      have hself := List.map_inj_left.mp (h.trans (List.map_id _).symm) label hlabel
      exact Quoted.upToZero_eq_self_iff.mp hself
    · intro h
      have hself : ∀ label ∈ Assembly.labels set calls, Quoted.upToZero label = label :=
        fun label hlabel => Quoted.upToZero_eq_self_iff.mpr (h label hlabel)
      exact (List.map_congr_left hself).trans (List.map_id _)
  · obtain ⟨⟨image, hdecode', hcode⟩, hwf, htext⟩ := Listing.of_decompile hlisted rfl
    cases hdecode.symm.trans hdecode'
    rw [Assembly.layout_code] at hcode
    have hquote : ∀ call ∈ calls, ∀ text slot, .str text slot ∈ call.args → '"' ∉ text.toList :=
      fun call hcall text slot harg => RoundTrip.quote_not_mem_of_parse hparse hcall harg
    refine ⟨htext, ((List.forall₂_and_left _ _).mpr ⟨hquote, hfs.readAs hwf hcode⟩).imp ?_⟩
    rintro call s ⟨hcall, hs⟩
    exact hs.printsLiterals hcall

/-- A state and a wait, compiled. -/
def Compile.idleData : List UInt8 :=
  [1, 0, 0, 0] ++ padTo 32 [73, 100, 108, 101] ++ [0, 0, 0, 0]
    ++ [1, 0, 0, 0] ++ padTo 16 [73, 100, 108, 101] ++ [2, 0, 0, 0, 3, 0, 0, 0]

theorem Compile.compile_literals_idle :
    compile Assembly.stageSet .little "state(\"Idle\"); wait(3);" = .ok idleData ∧
      ∃ calls image, Call.parse "state(\"Idle\"); wait(3);" = .ok calls ∧
        Image.decode .little idleData = .ok image ∧ image.jumpTable.map JumpEntry.name = ["Idle"] ∧
        List.Forall₂ (Call.PrintsLiterals Assembly.stageSet) calls
          (Reading.ofData Assembly.stageSet true .little idleData).statements := by
  have hcompile : compile Assembly.stageSet .little "state(\"Idle\"); wait(3);" = .ok idleData := by
    decide +kernel
  have hcalls : Call.parse "state(\"Idle\"); wait(3);"
      = .ok [⟨"state", [.str "Idle" none], some ⟨1, 1⟩⟩, ⟨"wait", [.int 3], some ⟨1, 16⟩⟩] := by
    decide +kernel
  have hlisted : Listing.decompile Assembly.stageSet true .little idleData
      = .ok "state(\"Idle\");\nwait(3);\n" := by decide +kernel
  obtain ⟨calls, image, hparse, hdecode, hnames, -, hprints⟩ := compile_literals hcompile (by decide)
  refine ⟨hcompile, calls, image, hparse, hdecode, ?_, (hprints _ hlisted).2⟩
  cases hcalls.symm.trans hparse
  rw [hnames]
  decide +kernel

/-- The same set, and a label with a zero in it, compiled. -/
def Compile.zeroData : List UInt8 :=
  [1, 0, 0, 0] ++ padTo 32 [97, 0, 98] ++ [0, 0, 0, 0] ++ [1, 0, 0, 0] ++ padTo 16 [97, 0, 98]

/-- Neither place gives back a literal with a zero: the label ends before it, the string lacks it. -/
theorem Compile.compile_literals_zero :
    compile Assembly.stageSet .little "state(\"a\x00b\");" = .ok zeroData ∧
      Image.decode .little zeroData = .ok ⟨[⟨"a", 0⟩], [1, 0, 0, 0] ++ padTo 16 [97, 0, 98]⟩ ∧
      Listing.decompile Assembly.stageSet true .little zeroData = .ok "state(\"ab\");\n" := by
  decide +kernel

end CallScript
