import CallScript.Proofs.Assembling
import CallScript.Proofs.Code

/-!
# `Proofs.Recompiling` — what a listed statement is assembled to

A listing does not show all that the code holds: a boolean is shown as a truth value, an operand as a
constant or a variable, a string without its zeros and with question marks for what a literal cannot
hold. `Statement.normal` is a statement with everything else forgotten. A listed statement is assembled
to the bytes of its normal form (`Statement.assemble_call_iff`), unless one of its slots has no zero or
the label that it needs is not there or too long (`Statement.Recompilable`).
-/

namespace CallScript

/-! ## String slots -/

namespace Quoted

/-- The byte that a listing shows for a byte of a slot: a quote and what is not ASCII become `?`. -/
def kept (b : UInt8) : UInt8 :=
  if b.toNat = '"'.toNat ∨ 0x80 ≤ b.toNat then UInt8.ofNat '?'.toNat else b

/-- The bytes of a slot that are not zeros. -/
def filled (slot : List UInt8) : List UInt8 := slot.filter (· ≠ 0)

/-- A slot with the bytes that a listing shows in front, and zeros behind them. -/
def normal (slot : List UInt8) : List UInt8 := padTo slot.length ((filled slot).map kept)

/-- The byte of an ASCII character. -/
def asciiByte (c : Char) : UInt8 := UInt8.ofNat c.toNat

theorem kept_lt (b : UInt8) : (kept b).toNat < 0x80 := by
  unfold kept
  split
  · decide
  · omega

theorem kept_ne_quote (b : UInt8) : (kept b).toNat ≠ '"'.toNat := by
  unfold kept
  split
  · decide
  · omega

theorem kept_of_ascii {b : UInt8} (hlt : b.toNat < 0x80) (hquote : b.toNat ≠ '"'.toNat) : kept b = b := by
  rw [kept, if_neg]
  omega

theorem kept_kept (b : UInt8) : kept (kept b) = kept b := kept_of_ascii (kept_lt b) (kept_ne_quote b)

theorem kept_ne_zero {b : UInt8} (h : b ≠ 0) : kept b ≠ 0 := by
  unfold kept
  split
  · decide
  · exact h

theorem toNat_ofNat_kept (b : UInt8) : (Char.ofNat (kept b).toNat).toNat = (kept b).toNat := by
  have hvalid : (kept b).toNat.isValidChar := .inl (Nat.lt_trans (kept_lt b) (by decide))
  rw [Char.ofNat, dif_pos hvalid]
  rfl

theorem shown?_of_ne_zero {b : UInt8} (h : b ≠ 0) : shown? b = some (Char.ofNat (kept b).toNat) := by
  unfold shown? kept
  rw [if_neg h]
  split
  · rfl
  · rfl

/-- **A slot is shown as the bytes kept of those that are not zeros.** -/
theorem body_eq (slot : List UInt8) :
    body slot = (filled slot).map fun b => Char.ofNat (kept b).toNat := by
  induction slot with
  | nil => rfl
  | cons b slot ih =>
      rw [body, filled] at *
      by_cases hb : b = 0
      · -- zeros are left out on both sides
        subst hb
        rw [List.filterMap_cons, List.filter_cons]
        exact ih
      · rw [List.filterMap_cons, shown?_of_ne_zero hb, List.filter_cons, if_pos (decide_eq_true hb),
          List.map_cons, ← ih]

theorem length_ofList_body (slot : List UInt8) :
    (String.ofList (body slot)).length = (filled slot).length := by
  rw [String.length_ofList, body_eq, List.length_map]

theorem lt_of_mem_body {slot : List UInt8} {c : Char} (h : c ∈ body slot) :
    c.toNat < 0x80 ∧ c ≠ '"' := by
  rw [body_eq] at h
  obtain ⟨b, -, rfl⟩ := List.mem_map.mp h
  refine ⟨?_, fun hquote => kept_ne_quote b ?_⟩
  · rw [toNat_ofNat_kept]
    exact kept_lt b
  · rw [← toNat_ofNat_kept, hquote]

theorem asciiByte_body (slot : List UInt8) : (body slot).map asciiByte = (filled slot).map kept := by
  rw [body_eq, List.map_map]
  refine List.map_congr_left fun b _ => ?_
  show UInt8.ofNat (Char.ofNat (kept b).toNat).toNat = kept b
  rw [toNat_ofNat_kept, UInt8.ofNat_toNat]

/-- What fills a slot up is not part of what it holds. -/
theorem filled_padTo (size : Nat) (bs : List UInt8) : filled (padTo size bs) = filled bs := by
  rw [filled, padTo, List.filter_append, List.filter_replicate_of_neg (by decide), List.append_nil, filled]

theorem filled_eq_self {bs : List UInt8} (h : ∀ b ∈ bs, b ≠ 0) : filled bs = bs :=
  List.filter_eq_self.mpr fun b hb => decide_eq_true (h b hb)

theorem toNat_asciiByte {c : Char} (h : c.toNat < 0x80) : (asciiByte c).toNat = c.toNat :=
  UInt8.toNat_ofNat_of_lt' (Nat.lt_trans h (by decide))

theorem asciiByte_eq_zero_iff {c : Char} (h : c.toNat < 0x80) : asciiByte c = 0 ↔ c = '\x00' := by
  rw [← UInt8.toNat_inj, toNat_asciiByte h, ← Char.toNat_inj]
  rfl

theorem ofNat_asciiByte {c : Char} (h : c.toNat < 0x80) : Char.ofNat (asciiByte c).toNat = c := by
  rw [toNat_asciiByte h, Char.ofNat_toNat]

theorem kept_asciiByte {c : Char} (h : c.toNat < 0x80) (hquote : c ≠ '"') :
    kept (asciiByte c) = asciiByte c := by
  have hnat := toNat_asciiByte h
  refine kept_of_ascii ?_ ?_
  · rwa [hnat]
  · rw [hnat]
    exact fun h => hquote (Char.toNat_inj.mp h)

/-- **A slot that holds an ASCII text with no quote is shown as the text without its zeros.** -/
theorem body_asciiByte {size : Nat} {cs : List Char} (hcs : ∀ c ∈ cs, c.toNat < 0x80 ∧ c ≠ '"') :
    body (padTo size (cs.map asciiByte)) = cs.filter (· ≠ '\x00') := by
  have hfilled : filled (cs.map asciiByte) = (cs.filter (· ≠ '\x00')).map asciiByte := by
    rw [filled, List.filter_map]
    refine congrArg _ (List.filter_congr fun c hc => ?_)
    exact decide_eq_decide.mpr (not_congr (asciiByte_eq_zero_iff (hcs c hc).1))
  rw [body_eq, filled_padTo, hfilled, List.map_map]
  refine (List.map_congr_left fun c hc => ?_).trans (List.map_id _)
  obtain ⟨hlt, hquote⟩ := hcs c (List.mem_of_mem_filter hc)
  show Char.ofNat (kept (asciiByte c)).toNat = c
  rw [kept_asciiByte hlt hquote, ofNat_asciiByte hlt]

/-- A slot that holds a text with no quote and no zero is shown as that text. -/
theorem body_padTo {size : Nat} {cs : List Char}
    (hcs : ∀ c ∈ cs, c.toNat < 0x80 ∧ c ≠ '"' ∧ c ≠ '\x00') :
    body (padTo size (cs.map asciiByte)) = cs := by
  rw [body_asciiByte fun c hc => ⟨(hcs c hc).1, (hcs c hc).2.1⟩]
  exact List.filter_eq_self.mpr fun c hc => decide_eq_true (hcs c hc).2.2

theorem length_normal (slot : List UInt8) : (normal slot).length = slot.length := by
  refine length_padTo ?_
  rw [List.length_map]
  exact List.length_filter_le _ _

theorem filled_normal (slot : List UInt8) : filled (normal slot) = (filled slot).map kept := by
  rw [normal, filled_padTo]
  refine filled_eq_self fun b hb => ?_
  obtain ⟨b', hb', rfl⟩ := List.mem_map.mp hb
  exact kept_ne_zero (of_decide_eq_true (List.mem_filter.mp hb').2)

theorem body_normal (slot : List UInt8) : body (normal slot) = body slot := by
  rw [body_eq, filled_normal, body_eq, List.map_map]
  refine List.map_congr_left fun b _ => ?_
  show Char.ofNat (kept (kept b)).toNat = Char.ofNat (kept b).toNat
  rw [kept_kept]

/-- A slot has room for what it shows, with a zero behind it, if it has a zero at all. -/
theorem length_filled_lt_iff {slot : List UInt8} : (filled slot).length < slot.length ↔ 0 ∈ slot := by
  rw [filled, List.length_filter_lt_length_iff_exists]
  constructor
  · rintro ⟨b, hb, hzero⟩
    rw [decide_eq_true_iff, not_not] at hzero
    exact hzero ▸ hb
  · intro h
    exact ⟨0, h, by decide⟩

end Quoted

/-! ## Fields -/

namespace Call

variable {set : InstructionSet} {order : ByteOrder}

theorem EncodesTo.unique {arg : Argument} {bs bs' : List UInt8} (h : EncodesTo set order arg bs)
    (h' : EncodesTo set order arg bs') : bs = bs' := by
  have hbs : encodeArg set order 0 arg = .ok bs := encodeArg_eq_ok_iff.mpr h
  have hbs' : encodeArg set order 0 arg = .ok bs' := encodeArg_eq_ok_iff.mpr h'
  exact Except.ok.inj (hbs.symm.trans hbs')

/-- An argument that is known to have bytes has no others. -/
theorem codedAs_iff_eq {type : ArgType} {arg fitted : Argument} {bs bs' : List UInt8}
    (hfit : type.fit? arg = some fitted) (h : EncodesTo set order fitted bs') :
    CodedAs set order type arg bs ↔ bs = bs' := by
  constructor
  · rintro ⟨fitted', hfit', hbs⟩
    cases hfit.symm.trans hfit'
    exact hbs.unique h
  · rintro rfl
    exact ⟨fitted, hfit, h⟩

/-- No printable call has a nameless word for its argument: such a word is no identifier. -/
theorem givenArgs_of_printable {call : Call} (h : call.Printable) : call.givenArgs = call.args := by
  rw [givenArgs, if_neg]
  intro hargs
  have hempty : Token.isIdentifier "" = true := h.2 (.enum "") (hargs ▸ List.mem_singleton_self _)
  exact absurd hempty (by decide +kernel)

end Call

namespace Field

variable {set : InstructionSet} {order : ByteOrder}

/-- A field with what a listing does not show forgotten. -/
def normal : Field → Field
  | bool w => bool (if 0 < w then 1 else 0)
  | text slot => text (Quoted.normal slot)
  | operand tag w => operand (if tag = constTag then constTag else varTag) w
  | field => field

/-- The bytes of a normal form, in numbers. -/
theorem bytes_normal (field : Field) : field.normal.bytes order = match field with
    | bool w => order.intBytes (if 0 < w then 1 else 0)
    | text slot => Quoted.normal slot
    | operand tag w => order.bytes (if tag = 0 then 0 else 2) ++ order.intBytes w
    | field => field.bytes order := by
  cases field <;> rfl

/-- A field whose argument can be encoded again: a slot must keep a zero at its end. -/
def Recodable : Field → Prop
  | text slot => 0 ∈ slot
  | _ => True

/-- **A listing shows a field as it shows its normal form.** -/
theorem argument_normal (field : Field) : field.normal.argument set = field.argument set := by
  cases field with
  | bool w =>
      rw [normal]
      by_cases hw : 0 < w
      · rw [if_pos hw, argument, argument, decide_eq_true hw]
        rfl
      · rw [if_neg hw, argument, argument, decide_eq_false hw]
        rfl
  | text slot => rw [normal, argument, argument, Quoted.body_normal]
  | operand tag w =>
      rw [normal]
      by_cases htag : tag = constTag
      · rw [if_pos htag, htag]
      · rw [if_neg htag, argument, argument, if_neg htag, if_neg (by decide)]
  | signed w | unsigned w | enum members w => rfl

theorem hasType_normal {field : Field} {type : ArgType} (h : field.HasType set type) :
    field.normal.HasType set type := by
  cases h with
  | bool w => exact .bool _
  | signed w width => exact .signed w width
  | unsigned w width => exact .unsigned w width
  | enum w hgroup => exact .enum w hgroup
  | text hslot => exact .text ((Quoted.length_normal _).trans hslot)
  | operand tag w => exact .operand _ w

/-- **An argument of a listing is one that a script can hold.** -/
theorem printable_argument (field : Field) : (field.argument set).Printable := by
  cases field with
  | bool w => trivial
  | signed w => exact Numeral.toInt64_ne_minValue w
  | unsigned w => trivial
  | enum members w =>
      rw [argument]
      split
      · rename_i name hname
        have hname := (Option.filter_eq_some_iff.mp hname).2
        rw [Bool.and_eq_true] at hname
        exact hname.1
      · exact Numeral.toInt64_ne_minValue w
  | text slot =>
      refine ⟨fun hquote => ?_, rfl⟩
      rw [String.toList_ofList] at hquote
      exact (Quoted.lt_of_mem_body hquote).2 rfl
  | operand tag w =>
      rw [argument]
      split
      · exact Numeral.toInt64_ne_minValue w
      · split
        · rename_i name hname
          exact (Option.filter_eq_some_iff.mp hname).2
        · exact Numeral.toInt64_ne_minValue w

theorem isAscii_body (slot : List UInt8) : Call.isAscii (String.ofList (Quoted.body slot)) = true := by
  rw [Call.isAscii_iff, String.toList_ofList]
  exact fun c hc => (Quoted.lt_of_mem_body hc).1

/-- A string of a listing is encoded if its slot has a zero. -/
theorem encodesTo_text_iff {slot bs : List UInt8} :
    Call.EncodesTo set order (.str (String.ofList (Quoted.body slot)) (some slot.length)) bs ↔
      0 ∈ slot ∧ bs = Quoted.normal slot := by
  have hbytes : padTo slot.length
      ((String.ofList (Quoted.body slot)).toList.map fun c => UInt8.ofNat c.toNat) = Quoted.normal slot := by
    rw [String.toList_ofList, Quoted.normal, ← Quoted.asciiByte_body]
    rfl
  constructor
  · intro h
    cases h with
    | str _ hfits =>
        -- what is shown is always ASCII: only the room for it can be missing
        rw [Quoted.length_ofList_body] at hfits
        exact ⟨Quoted.length_filled_lt_iff.mp hfits, hbytes⟩
  · rintro ⟨hzero, rfl⟩
    rw [← hbytes]
    refine .str (isAscii_body slot) ?_
    rw [Quoted.length_ofList_body]
    exact Quoted.length_filled_lt_iff.mpr hzero

theorem codedAs_enum_iff {members : SymbolTable Int32} {group : String} {w : Int32} {bs : List UInt8} :
    Call.CodedAs set order (.enum group) ((enum members w).argument set) bs ↔ bs = order.intBytes w := by
  rw [argument]
  split
  · -- a name is shown only if its value over all groups is the word, whichever group it came from
    rename_i name hname
    have hname := (Option.filter_eq_some_iff.mp hname).2
    rw [Bool.and_eq_true, beq_iff_eq] at hname
    exact Call.codedAs_iff_eq rfl (.enum hname.2)
  · exact Call.codedAs_iff_eq rfl (.int w)

theorem codedAs_operand_iff {tag : UInt32} {w : Int32} {bs : List UInt8} :
    Call.CodedAs set order .operand ((operand tag w).argument set) bs ↔
      bs = (operand tag w).normal.bytes order := by
  rw [argument, normal, bytes]
  by_cases htag : tag = constTag
  · rw [if_pos htag, if_pos htag]
    exact Call.codedAs_iff_eq rfl (.const w)
  · rw [if_neg htag, if_neg htag]
    split
    · -- configured variables are looked up first, so a name is never taken for a number
      rename_i name hname
      have hvalue : set.variableValue? name = some w :=
        SymbolTable.get?_of_nameOf? (Option.filter_eq_some_iff.mp hname).1
      exact Call.codedAs_iff_eq rfl (.named (by rw [hvalue, Option.some_or]))
    · exact Call.codedAs_iff_eq rfl (.index w)

/-- A listed argument is a string exactly if its field is a slot. -/
theorem stringText?_argument (field : Field) :
    Call.stringText? (field.argument set) = match field with
      | text slot => some (String.ofList (Quoted.body slot))
      | _ => none := by
  cases field with
  | bool w | signed w | unsigned w | text slot => rfl
  | enum members w =>
      rw [argument]
      split <;> rfl
  | operand tag w =>
      rw [argument]
      split
      · rfl
      · split <;> rfl

/-- **A listed argument is encoded as the normal form of its field**, if it can be encoded. -/
theorem codedAs_argument_iff {field : Field} {type : ArgType} {bs : List UInt8}
    (htype : field.HasType set type) :
    Call.CodedAs set order type (field.argument set) bs ↔
      field.Recodable ∧ bs = field.normal.bytes order := by
  cases htype with
  | bool w =>
      have hword : (bool w).normal.bytes order = order.bytes (if decide (0 < w) then 1 else 0) := by
        by_cases hw : 0 < w
        · rw [normal, if_pos hw, if_pos (decide_eq_true hw)]
          rfl
        · rw [normal, if_neg hw, if_neg (by simpa using hw)]
          rfl
      rw [and_iff_right (show (bool w).Recodable from trivial), hword]
      exact Call.codedAs_iff_eq rfl (.bool _)
  | signed w width =>
      rw [and_iff_right (show (signed w).Recodable from trivial)]
      exact Call.codedAs_iff_eq rfl (.int w)
  | unsigned w width =>
      have hword : (unsigned w).normal.bytes order = order.bytes w.toUInt64.toUInt32 := by
        rw [UInt32.toUInt32_toUInt64]
        rfl
      rw [and_iff_right (show (unsigned w).Recodable from trivial), hword]
      exact Call.codedAs_iff_eq rfl (.hex _)
  | @enum _ members w hgroup =>
      rw [and_iff_right (show (enum members w).Recodable from trivial)]
      exact codedAs_enum_iff
  | @text capacity slot hslot =>
      rw [← hslot]
      constructor
      · rintro ⟨fitted, hfit, h⟩
        cases hfit
        exact encodesTo_text_iff.mp h
      · intro h
        exact ⟨_, rfl, encodesTo_text_iff.mpr h⟩
  | operand tag w =>
      rw [and_iff_right (show (operand tag w).Recodable from trivial)]
      exact codedAs_operand_iff

/-- **Listed arguments are encoded as the normal forms of their fields**, if each can be encoded. -/
theorem coded_arguments_iff {fields : List Field} {types : List ArgType} {bs : List UInt8}
    (htypes : List.Forall₂ (HasType set) fields types) :
    Call.Coded set order types (fields.map (argument set)) bs ↔
      (∀ field ∈ fields, field.Recodable) ∧ bs = fields.flatMap fun field => field.normal.bytes order := by
  induction htypes generalizing bs with
  | nil =>
      constructor
      · intro h
        cases h
        exact ⟨nofun, rfl⟩
      · rintro ⟨-, rfl⟩
        exact .nil
  | @cons field type fields types htype _ ih =>
      rw [List.forall_mem_cons]
      constructor
      · intro h
        cases h with
        | cons harg hlater =>
            obtain ⟨hfield, rfl⟩ := (codedAs_argument_iff htype).mp harg
            obtain ⟨hfields, rfl⟩ := ih.mp hlater
            exact ⟨⟨hfield, hfields⟩, rfl⟩
      · rintro ⟨⟨hfield, hfields⟩, rfl⟩
        exact .cons ((codedAs_argument_iff htype).mpr ⟨hfield, rfl⟩) (ih.mpr ⟨hfields, rfl⟩)

end Field

/-! ## Statements -/

namespace Statement

variable {set : InstructionSet} {order : ByteOrder} {permissive : Bool} {s : Statement}

/-- A statement with what a listing does not show forgotten. -/
def normal (s : Statement) : Statement := { s with fields := s.fields.map Field.normal }

theorem bytes_normal (order : ByteOrder) (s : Statement) : s.normal.bytes order
    = order.intBytes s.instruction.opcode ++ s.fields.flatMap fun field => field.normal.bytes order := by
  rw [bytes, normal, List.flatMap_map]

/-- **A listing shows a statement as it shows its normal form.** -/
theorem call_normal (s : Statement) : s.normal.call set = s.call set := by
  rw [call, call, normal]
  dsimp only
  rw [List.map_map]
  exact congrArg (Call.mk _ · none) (List.map_congr_left fun field _ => field.argument_normal)

theorem WellFormed.normal (h : s.WellFormed set permissive) : s.normal.WellFormed set permissive where
  listed := h.listed
  typed := List.forall₂_map_left_iff.mpr (h.typed.imp fun _ _ => Field.hasType_normal)

/-- **A listed statement is a call that a script can hold.** -/
theorem printable_call (s : Statement) : (s.call set).Printable := by
  refine ⟨InstructionSet.isIdentifier_displayName s.instruction, fun arg harg => ?_⟩
  obtain ⟨field, -, rfl⟩ := List.mem_map.mp harg
  exact field.printable_argument

theorem givenArgs_call (s : Statement) : (s.call set).givenArgs = (s.call set).args :=
  Call.givenArgs_of_printable s.printable_call

/-- **What a listed statement is assembled to**: the bytes of its normal form, with its label. -/
theorem assemble_call_iff (hset : set.NoBorrowedName) (hs : s.WellFormed set permissive) {f : Fragment} :
    (s.call set).assemble set order = .ok f ↔ (∀ field ∈ s.fields, field.Recodable) ∧
      Call.checked set s.instruction (s.call set).args = .ok ⟨s.instruction.opcode, f.label⟩ ∧
      f.code = s.normal.bytes order := by
  have hresolve : set.resolve? (s.call set).name = some s.instruction :=
    InstructionSet.resolve?_displayName hset hs.listed
  rw [Call.assemble_eq_ok_iff, hresolve, givenArgs_call, bytes_normal]
  constructor
  · rintro ⟨i, bs, hi, hcoded, hlabel, hcode⟩
    cases hi
    obtain ⟨hfields, rfl⟩ := (Field.coded_arguments_iff hs.typed).mp hcoded
    exact ⟨hfields, hlabel, hcode⟩
  · rintro ⟨hfields, hlabel, hcode⟩
    exact ⟨_, _, rfl, (Field.coded_arguments_iff hs.typed).mpr ⟨hfields, rfl⟩, hlabel, hcode⟩

/-- A statement that can be compiled again as it is listed: every slot has a zero, and the name of a jump
    table entry is a string in front with room for it in the table. -/
structure Recompilable (set : InstructionSet) (s : Statement) : Prop where
  slots : ∀ slot, Field.text slot ∈ s.fields → 0 ∈ slot
  label : ∀ name, s.instruction.name = some name → set.isJumpName name = true →
    ∃ slot later, s.fields = Field.text slot :: later ∧ (slot.filter (· ≠ 0)).length ≤ 31

theorem exists_labelOf_iff {fields : List Field} :
    (∃ label, Call.labelOf (fields.map (Field.argument set)) = .ok label) ↔
      ∃ slot later, fields = Field.text slot :: later ∧ (slot.filter (· ≠ 0)).length ≤ 31 := by
  cases fields with
  | nil => exact ⟨nofun, nofun⟩
  | cons field later =>
      simp only [List.map_cons, Call.labelOf_cons_eq_ok_iff, Field.stringText?_argument]
      cases field with
      | text slot =>
          have hlength := Quoted.length_ofList_body slot
          constructor
          · rintro ⟨label, hlabel, -, hle⟩
            cases hlabel
            exact ⟨slot, later, rfl, hlength ▸ hle⟩
          · rintro ⟨slot, later, heq, hle⟩
            cases heq
            exact ⟨_, rfl, Field.isAscii_body slot, Nat.le_trans (Nat.le_of_eq hlength) hle⟩
      | bool | signed | unsigned | enum | operand => exact ⟨nofun, nofun⟩

theorem forall_recodable_iff {fields : List Field} :
    (∀ field ∈ fields, field.Recodable) ↔ ∀ slot, Field.text slot ∈ fields → 0 ∈ slot := by
  constructor
  · intro h slot hslot
    exact h _ hslot
  · intro h field hfield
    cases field with
    | text slot => exact h slot hfield
    | bool | signed | unsigned | enum | operand => trivial

/-- A listed statement is not refused for its label if it needs none or has a usable one. -/
theorem exists_checked_call_iff : (∃ label, Call.checked set s.instruction (s.call set).args
    = .ok ⟨s.instruction.opcode, label⟩) ↔ ∀ name, s.instruction.name = some name →
      set.isJumpName name = true → ∃ slot later, s.fields = Field.text slot :: later ∧
        (slot.filter (· ≠ 0)).length ≤ 31 := by
  rw [Call.exists_checked_iff, Call.hasLabel_iff, call, exists_labelOf_iff]
  constructor
  · intro h name hname hjump
    exact h ⟨name, hname, hjump⟩
  · rintro h ⟨name, hname, hjump⟩
    exact h name hname hjump

/-- **A listed statement is assembled exactly if it is recompilable.** -/
theorem exists_assemble_call_iff (hset : set.NoBorrowedName) (hs : s.WellFormed set permissive) :
    (∃ f, (s.call set).assemble set order = .ok f) ↔ s.Recompilable set := by
  constructor
  · rintro ⟨f, hf⟩
    obtain ⟨hfields, hchecked, -⟩ := (assemble_call_iff hset hs).mp hf
    exact ⟨forall_recodable_iff.mp hfields, exists_checked_call_iff.mp ⟨f.label, hchecked⟩⟩
  · intro h
    have hfields := forall_recodable_iff.mpr h.slots
    obtain ⟨label, hchecked⟩ := exists_checked_call_iff.mpr h.label
    exact ⟨⟨s.normal.bytes order, label⟩, (assemble_call_iff hset hs).mpr ⟨hfields, hchecked, rfl⟩⟩

end Statement
end CallScript
