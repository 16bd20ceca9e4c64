import CallScript.Proofs.Recompiling

/-!
# `Proofs.Disassembling` — the statement in the code of a call

The code of a call can be read back: it is the bytes of a statement in normal form
(`Call.exists_statement`), and that statement, listed and assembled, makes the same fragment with the same
label. Two things could stand in the way. An enum group that is not configured does not hinder encoding,
but its word cannot be read; and a string with a zero in it is not the string that is listed.
-/

namespace CallScript

/-- Every enum group that some instruction's argument is of is configured. -/
def InstructionSet.GroupsConfigured (set : InstructionSet) : Prop :=
  ∀ i ∈ set.instructions, ∀ group, ArgType.enum group ∈ i.args → (set.group? group).isSome = true

namespace Call

variable {set : InstructionSet} {order : ByteOrder}

/-- An argument that is no string, or one whose characters all come back from a slot. -/
def Plain (arg : Argument) : Prop :=
  ∀ text, stringText? arg = some text → ∀ c ∈ text.toList, c ≠ '"' ∧ c ≠ '\x00'

/-- A field that is listed as it is, which encodes to `bs`, in the place of an argument. -/
structure Restores (set : InstructionSet) (order : ByteOrder) (type : ArgType) (arg : Argument)
    (bs : List UInt8) (field : Field) : Prop where
  typed     : field.HasType set type
  bytes     : field.bytes order = bs
  normal    : field.normal = field
  recodable : field.Recodable
  text      : stringText? (field.argument set) = stringText? arg

/-- The slot of a plain string is listed as that string. -/
theorem restores_str {text : String} {slot : Option Nat} {capacity : Nat} (hplain : Plain (.str text slot))
    (hascii : isAscii text = true) (hfits : text.length < capacity) :
    Restores set order (.fixedString capacity) (.str text slot)
      (padTo capacity (text.toList.map Quoted.asciiByte))
      (.text (padTo capacity (text.toList.map Quoted.asciiByte))) := by
  have hbody : Quoted.body (padTo capacity (text.toList.map Quoted.asciiByte)) = text.toList := by
    refine Quoted.body_padTo fun c hc => ⟨?_, hplain text rfl c hc⟩
    exact isAscii_iff.mp hascii c hc
  have hlength : (padTo capacity (text.toList.map Quoted.asciiByte)).length = capacity := by
    refine length_padTo ?_
    rw [List.length_map]
    exact Nat.le_of_lt hfits
  refine ⟨.text hlength, rfl, ?_, ?_, ?_⟩
  · rw [Field.normal, Quoted.normal, ← Quoted.asciiByte_body, hbody, hlength]
  · refine List.mem_append_right _ (List.mem_replicate.mpr ⟨?_, rfl⟩)
    rw [List.length_map]
    exact Nat.sub_ne_zero_of_lt hfits
  · rw [Field.argument, hbody, String.ofList_toList]
    rfl

/-- The word of an operand is listed as a constant or a variable, as its tag says. -/
theorem restores_operand {arg : Argument} {tag : UInt32} (w : Int32) (htag : tag = constTag ∨ tag = varTag)
    (harg : stringText? arg = none) :
    Restores set order .operand arg (order.bytes tag ++ order.intBytes w) (.operand tag w) := by
  refine ⟨.operand tag w, rfl, ?_, trivial, ?_⟩
  · rcases htag with rfl | rfl <;> rfl
  · rw [Field.stringText?_argument, harg]

/-- **The bytes of an argument are those of a field**, in normal form. -/
theorem exists_restores {type : ArgType} {arg : Argument} {bs : List UInt8}
    (hgroup : ∀ group, type = .enum group → (set.group? group).isSome = true) (hplain : Plain arg)
    (h : CodedAs set order type arg bs) : ∃ field, Restores set order type arg bs field := by
  obtain ⟨fitted, hfit, hcode⟩ := h
  -- each type takes its own kinds of arguments; all others were refused when the argument was fitted
  cases type with
  | bool =>
      cases arg with
      | bool b =>
          cases hfit
          cases hcode
          refine ⟨.bool (if b then 1 else 0), .bool _, ?_, ?_, trivial, rfl⟩
          · cases b <;> rfl
          · cases b <;> rfl
      | int | hex | str | enum | var | const => cases hfit
  | signed width =>
      cases arg with
      | int value =>
          cases hfit
          cases hcode with
          | int w => exact ⟨.signed w, .signed w width, rfl, rfl, trivial, rfl⟩
      | hex | bool | str | enum | var | const => cases hfit
  | unsigned width =>
      cases arg with
      | hex value =>
          cases hfit
          cases hcode
          exact ⟨.unsigned value.toUInt32, .unsigned _ width, rfl, rfl, trivial, rfl⟩
      | int | bool | str | enum | var | const => cases hfit
  | enum group =>
      obtain ⟨members, hmembers⟩ := Option.isSome_iff_exists.mp (hgroup group rfl)
      have hword : ∀ w : Int32, stringText? arg = none →
          Restores set order (.enum group) arg (order.intBytes w) (.enum members w) := fun w harg =>
        ⟨.enum w hmembers, rfl, rfl, trivial, by rw [Field.stringText?_argument, harg]⟩
      cases arg with
      | enum name =>
          cases hfit
          cases hcode with
          | @enum _ w hvalue => exact ⟨_, hword w rfl⟩
      | int value =>
          cases hfit
          cases hcode with
          | int w => exact ⟨_, hword w rfl⟩
      | hex | bool | str | var | const => cases hfit
  | fixedString capacity =>
      cases arg with
      | str text slot =>
          cases hfit
          cases hcode with
          | str hascii hfits => exact ⟨_, restores_str hplain hascii hfits⟩
      | int | hex | bool | enum | var | const => cases hfit
  | operand =>
      have hconst : ∀ value : Int64, stringText? arg = none → EncodesTo set order (.const value) bs →
          ∃ field, Restores set order .operand arg bs field := by
        intro value harg hcode
        cases hcode with
        | const w => exact ⟨_, restores_operand w (.inl rfl) harg⟩
      have hvar : ∀ v : Variable, stringText? arg = none → EncodesTo set order (.var v) bs →
          ∃ field, Restores set order .operand arg bs field := by
        intro v harg hcode
        cases hcode with
        | index w => exact ⟨_, restores_operand w (.inr rfl) harg⟩
        | @named _ w _ => exact ⟨_, restores_operand w (.inr rfl) harg⟩
      -- plain numbers were fitted to constants, and bare words to variables
      cases arg with
      | const value | int value | hex value =>
          cases hfit
          exact hconst _ rfl hcode
      | var v | enum name =>
          cases hfit
          exact hvar _ rfl hcode
      | bool | str => cases hfit

/-- **The bytes of arguments are those of fields**, in normal form and with the same label. -/
theorem exists_fields {types : List ArgType} {args : List Argument} {bs : List UInt8}
    (hgroups : ∀ group, ArgType.enum group ∈ types → (set.group? group).isSome = true)
    (hplain : ∀ arg ∈ args, Plain arg) (h : Coded set order types args bs) :
    ∃ fields, List.Forall₂ (Field.HasType set) fields types ∧
      fields.flatMap (Field.bytes order) = bs ∧
      (∀ field ∈ fields, field.normal = field ∧ field.Recodable) ∧
      labelOf (fields.map (Field.argument set)) = labelOf args := by
  induction h with
  | nil => exact ⟨[], .nil, rfl, nofun, rfl⟩
  | @cons type types arg args bs later harg _ ih =>
      obtain ⟨field, hfield⟩ := exists_restores
        (fun group htype => hgroups group (htype ▸ List.mem_cons_self)) (hplain arg List.mem_cons_self) harg
      obtain ⟨fields, htypes, hbytes, hnormal, -⟩ := ih
        (fun group hgroup => hgroups group (List.mem_cons_of_mem type hgroup))
        (fun arg' harg' => hplain arg' (List.mem_cons_of_mem arg harg'))
      refine ⟨field :: fields, .cons hfield.typed htypes, ?_, ?_, labelOf_congr hfield.text⟩
      · rw [List.flatMap_cons, hfield.bytes, hbytes]
      · rw [List.forall_mem_cons]
        exact ⟨⟨hfield.normal, hfield.recodable⟩, hnormal⟩

/-- **The code of a call is a statement**, which is assembled to the same fragment when it is listed. -/
theorem exists_statement (hset : set.NoBorrowedName) (hgroups : set.GroupsConfigured) {call : Call}
    {f : Fragment} (hplain : ∀ arg ∈ call.args, Plain arg) (hf : call.assemble set order = .ok f) :
    ∃ s : Statement, s.WellFormed set true ∧ s.bytes order = f.code ∧
      (s.call set).assemble set order = .ok f := by
  obtain ⟨i, bs, hi, hcoded, hchecked, hcode⟩ := assemble_eq_ok_iff.mp hf
  have hfor := InstructionSet.instructionFor_of_resolve? hi
  -- an instruction that is not configured has no arguments, and so no groups
  have hgroups' : ∀ group, ArgType.enum group ∈ i.args → (set.group? group).isSome = true := by
    intro group hgroup
    obtain ⟨-, hmem | ⟨-, -, hunknown⟩⟩ := InstructionSet.instructionFor_cases hfor
    · exact hgroups i (InstructionSet.mem_of_instruction? hmem).1 group hgroup
    · rw [hunknown] at hgroup
      cases hgroup
  have hplain' : ∀ arg ∈ call.givenArgs, Plain arg := by
    intro arg harg
    unfold givenArgs at harg
    split at harg
    · cases harg
    · exact hplain arg harg
  obtain ⟨fields, htypes, hbytes, hnormal, hlabel⟩ := exists_fields hgroups' hplain' hcoded
  have hwf : Statement.WellFormed set true ⟨0, i, fields⟩ := ⟨hfor, htypes⟩
  have hcode' : Statement.bytes order ⟨0, i, fields⟩ = f.code := by
    rw [hcode, Statement.bytes, hbytes]
  have hfixed : fields.map Field.normal = fields :=
    (List.map_congr_left fun field hfield => (hnormal field hfield).1).trans (List.map_id fields)
  refine ⟨_, hwf, hcode', (Statement.assemble_call_iff hset hwf).mpr ⟨?_, ?_, ?_⟩⟩
  · exact fun field hfield => (hnormal field hfield).2
  · rw [← hchecked, checked, checked, ← hlabel]
    rfl
  · rw [Statement.normal, hfixed, hcode']

end Call

/-- **The code of a script is made of statements**, which are assembled to the same fragments when they
    are listed. -/
theorem Assembly.exists_statements {set : InstructionSet} {order : ByteOrder} (hset : set.NoBorrowedName)
    (hgroups : set.GroupsConfigured) {calls : List Call} {fs : List Fragment}
    (hplain : ∀ call ∈ calls, ∀ arg ∈ call.args, Call.Plain arg) (h : Assembled set order calls fs) :
    ∃ ss : List Statement, (∀ s ∈ ss, s.WellFormed set true) ∧
      ss.flatMap (Statement.bytes order) = fs.flatMap Fragment.code ∧
      Assembled set order (ss.map (Statement.call set)) fs := by
  induction h with
  | nil => exact ⟨[], nofun, rfl, .nil⟩
  | @cons call f calls fs hf _ ih =>
      obtain ⟨s, hs, hbytes, hassemble⟩ :=
        Call.exists_statement hset hgroups (hplain call List.mem_cons_self) hf
      obtain ⟨ss, hss, hcode, hfs⟩ := ih fun call' hcall' => hplain call' (List.mem_cons_of_mem call hcall')
      refine ⟨s :: ss, List.forall_mem_cons.mpr ⟨hs, hss⟩, ?_, .cons hassemble hfs⟩
      rw [List.flatMap_cons, List.flatMap_cons, hbytes, hcode]

end CallScript
