import CallScript.Proofs.Code

/-!
# `Proofs.Splitting` — which code can be listed, and what is wrong with other code

Code has no marks between its instructions: where one ends follows from its opcode. Here it is said
without reading it what code can be listed. It has to be a row of *complete* instructions
(`Statement.Complete`), each with as many bytes as its opcode asks for. Other code has complete
instructions up to some place and a *defect* there (`Statement.Defect`), which is in the opcode, or in the
first argument that is cut off or of an unknown group.

Reading meets that description step by step: `Field.read_eq_error_iff` for an argument,
`Field.readAll_eq_error_iff` for the arguments of an instruction, `Statement.read_eq_error_iff` for an
instruction and `Reading.fault_eq_some_iff` for the whole. `Listing.decompile_first_defect` puts it behind
a jump table.
-/

namespace CallScript

/-! ## Refused reads -/

namespace Cursor

variable {c : Cursor} {t : Truncation}

theorem read_eq_error_iff {n : Nat} :
    c.read n = .error t ↔ c.rest.length < n ∧ t = ⟨c.offset, n, c.rest.length⟩ := by
  by_cases h : c.rest.length < n
  · rw [read_eq_error h]
    exact ⟨fun heq => ⟨h, (Except.error.inj heq).symm⟩, fun ⟨_, heq⟩ => congrArg _ heq.symm⟩
  · rw [read_eq_ok (Nat.le_of_not_lt h)]
    exact ⟨nofun, fun ⟨hlt, _⟩ => absurd hlt h⟩

theorem readWord_eq_error_iff :
    c.readWord = .error t ↔ c.rest.length < 4 ∧ t = ⟨c.offset, 4, c.rest.length⟩ := by
  unfold readWord
  split
  · rename_i b₀ b₁ b₂ b₃ rest hrest
    refine ⟨nofun, fun ⟨hlt, _⟩ => ?_⟩
    rw [hrest] at hlt
    simp only [List.length_cons] at hlt
    omega
  · rename_i hshort
    have hlt : c.rest.length < 4 := by
      match hrest : c.rest with
      | [] | [_] | [_, _] | [_, _, _] => simp
      | b₀ :: b₁ :: b₂ :: b₃ :: rest => exact absurd hrest (hshort b₀ b₁ b₂ b₃ rest)
    exact ⟨fun heq => ⟨hlt, (Except.error.inj heq).symm⟩, fun ⟨_, heq⟩ => congrArg _ heq.symm⟩

theorem readInt_eq_error_iff :
    c.readInt = .error t ↔ c.rest.length < 4 ∧ t = ⟨c.offset, 4, c.rest.length⟩ := by
  rw [readInt, map_eq_error_iff, readWord_eq_error_iff]

theorem exists_readWord (h : 4 ≤ c.rest.length) : ∃ p, c.readWord = .ok p := by
  cases hread : c.readWord with
  | ok p => exact ⟨p, rfl⟩
  | error t => exact absurd (readWord_eq_error_iff.mp hread).1 (Nat.not_lt.mpr h)

theorem exists_readInt (h : 4 ≤ c.rest.length) : ∃ p, c.readInt = .ok p := by
  obtain ⟨p, hread⟩ := exists_readWord h
  exact ⟨_, map_eq_ok_iff.mpr ⟨p, hread, rfl⟩⟩

end Cursor

/-! ## Arguments -/

/-- Whether arguments of a type can be listed: the group of an enum has to be configured. -/
def ArgType.Listable (set : InstructionSet) : ArgType → Prop
  | .enum group => ∃ members, set.group? group = some members
  | .bool | .signed _ | .unsigned _ | .fixedString _ | .operand => True

namespace Field

variable {set : InstructionSet} {c next : Cursor} {type : ArgType} {types : List ArgType} {fault : Fault}

/-- What is wrong with an argument at `offset`, where the bytes `left` are left. -/
inductive Defect (set : InstructionSet) (offset : Nat) (left : List UInt8) : ArgType → Fault → Prop
  /-- An argument in one piece is cut off. -/
  | cut {type : ArgType} (hpiece : type ≠ .operand) (hleft : left.length < type.size) :
      Defect set offset left type (.truncated ⟨offset, type.size, left.length⟩)
  /-- The tag of an operand is cut off. -/
  | tag (hleft : left.length < 4) : Defect set offset left .operand (.truncated ⟨offset, 4, left.length⟩)
  /-- The word behind the tag of an operand is cut off. -/
  | word (htag : 4 ≤ left.length) (hleft : left.length < 8) :
      Defect set offset left .operand (.truncated ⟨offset + 4, 4, left.length - 4⟩)
  /-- The word of an enum is there, but its group is not configured. -/
  | group {group : String} (hword : 4 ≤ left.length) (hnone : set.group? group = none) :
      Defect set offset left (.enum group) (.unknownGroup group)

/-- The first argument of the given types that has a defect, where `bs` are the bytes from `offset` on:
    those before it are all there and can be listed. -/
def FirstDefect (set : InstructionSet) (offset : Nat) (bs : List UInt8) (types : List ArgType)
    (fault : Fault) : Prop :=
  ∃ before type after args left, types = before ++ type :: after ∧ bs = args ++ left ∧
    args.length = ArgType.totalSize before ∧ (∀ type' ∈ before, type'.Listable set) ∧
    Defect set (offset + args.length) left type fault

theorem HasType.listable {field : Field} (h : field.HasType set type) : type.Listable set := by
  cases h with
  | enum w hgroup => exact ⟨_, hgroup⟩
  | bool | signed | unsigned | text | operand => trivial

theorem forall_listable {fields : List Field} (h : List.Forall₂ (HasType set) fields types) :
    ∀ type ∈ types, type.Listable set := by
  induction h with
  | nil => nofun
  | cons hfield _ ih => exact List.forall_mem_cons.mpr ⟨hfield.listable, ih⟩

/-- Any bytes that are as many as a type says are those of a field. -/
theorem exists_hasType (order : ByteOrder) {bs : List UInt8} (htype : type.Listable set)
    (hlength : bs.length = type.size) :
    ∃ field : Field, field.HasType set type ∧ field.bytes order = bs := by
  cases type with
  | bool =>
      obtain ⟨w, rfl⟩ := order.exists_intBytes hlength
      exact ⟨_, .bool w, rfl⟩
  | signed width =>
      obtain ⟨w, rfl⟩ := order.exists_intBytes hlength
      exact ⟨_, .signed w width, rfl⟩
  | unsigned width =>
      obtain ⟨w, rfl⟩ := order.exists_bytes hlength
      exact ⟨_, .unsigned w width, rfl⟩
  | enum group =>
      obtain ⟨w, rfl⟩ := order.exists_intBytes hlength
      obtain ⟨members, hgroup⟩ := htype
      exact ⟨_, .enum w hgroup, rfl⟩
  | fixedString capacity => exact ⟨_, .text hlength, rfl⟩
  | operand =>
      have htake : (bs.take 4).length = 4 := by rw [List.length_take, hlength]; rfl
      have hdrop : (bs.drop 4).length = 4 := by rw [List.length_drop, hlength]; rfl
      obtain ⟨tag, htag⟩ := order.exists_bytes htake
      obtain ⟨w, hw⟩ := order.exists_intBytes hdrop
      refine ⟨_, .operand tag w, ?_⟩
      rw [bytes, ← htag, ← hw, List.take_append_drop]

/-- Any bytes that are as many as types say are those of fields. -/
theorem exists_forall₂_hasType (order : ByteOrder) {bs : List UInt8}
    (htypes : ∀ type ∈ types, type.Listable set) (hlength : bs.length = ArgType.totalSize types) :
    ∃ fields, List.Forall₂ (HasType set) fields types ∧ fields.flatMap (bytes order) = bs := by
  induction types generalizing bs with
  | nil => exact ⟨[], .nil, (List.length_eq_zero_iff.mp hlength).symm⟩
  | cons type types ih =>
      rw [ArgType.totalSize] at hlength
      have htake : (bs.take type.size).length = type.size := by rw [List.length_take]; omega
      have hdrop : (bs.drop type.size).length = ArgType.totalSize types := by rw [List.length_drop]; omega
      obtain ⟨htype, hlater⟩ := List.forall_mem_cons.mp htypes
      obtain ⟨field, hfield, hbytes⟩ := exists_hasType order htype htake
      obtain ⟨fields, hfields, hrest⟩ := ih hlater hdrop
      refine ⟨field :: fields, .cons hfield hfields, ?_⟩
      rw [List.flatMap_cons, hbytes, hrest, List.take_append_drop]

/-- **Arguments are read if they can be listed and their bytes are there.** -/
theorem exists_readAll_iff :
    (∃ fields, readAll set c types = (fields, .ok next)) ↔ (∀ type ∈ types, type.Listable set) ∧
      ∃ args, args.length = ArgType.totalSize types ∧ c.After args next := by
  constructor
  · rintro ⟨fields, h⟩
    obtain ⟨htyped, hafter⟩ := readAll_eq_ok_iff.mp h
    exact ⟨forall_listable htyped, _, length_flatMap_bytes htyped, hafter⟩
  · rintro ⟨htypes, args, hlength, hafter⟩
    obtain ⟨fields, hfields, rfl⟩ := exists_forall₂_hasType c.order htypes hlength
    exact ⟨fields, readAll_eq_ok_iff.mpr ⟨hfields, hafter⟩⟩

/-- An argument in one piece that can be listed has no defect but being cut off. -/
theorem defect_piece_iff {offset : Nat} {left : List UInt8} (hpiece : type ≠ .operand)
    (htype : type.Listable set) : Defect set offset left type fault ↔
      left.length < type.size ∧ fault = .truncated ⟨offset, type.size, left.length⟩ := by
  constructor
  · intro h
    cases h with
    | cut _ hleft => exact ⟨hleft, rfl⟩
    | tag | word => exact absurd rfl hpiece
    | group _ hnone =>
        obtain ⟨members, hsome⟩ := htype
        rw [hnone] at hsome
        cases hsome
  · rintro ⟨hleft, rfl⟩
    exact .cut hpiece hleft

theorem orTruncated_eq_error_iff {α : Type} {x : Except Truncation α} :
    orTruncated x = .error fault ↔ ∃ t, x = .error t ∧ fault = .truncated t := by
  cases x with
  | error t => exact ⟨fun h => ⟨t, rfl, (Except.error.inj h).symm⟩, by rintro ⟨_, ⟨⟩, rfl⟩; rfl⟩
  | ok a => exact ⟨nofun, nofun⟩

/-- A field that is one read of the cursor is refused when that read is. -/
theorem read_by_eq_error_iff {α : Type} {x : Except Truncation (α × Cursor)} {make : α → Field} {n : Nat}
    (hx : ∀ t, x = .error t ↔ c.rest.length < n ∧ t = ⟨c.offset, n, c.rest.length⟩) :
    (orTruncated x >>= fun p => (pure (make p.1, p.2) : Except Fault (Field × Cursor))) = .error fault ↔
      c.rest.length < n ∧ fault = .truncated ⟨c.offset, n, c.rest.length⟩ := by
  rw [bind_eq_error_iff, orTruncated_eq_error_iff]
  constructor
  · rintro (⟨t, ht, rfl⟩ | ⟨_, _, h⟩)
    · obtain ⟨hlt, rfl⟩ := (hx t).mp ht
      exact ⟨hlt, rfl⟩
    · cases h
  · rintro ⟨hlt, rfl⟩
    exact .inl ⟨_, (hx _).mpr ⟨hlt, rfl⟩, rfl⟩

theorem read_enum_eq_error_iff {group : String} :
    read set c (.enum group) = .error fault ↔ Defect set c.offset c.rest (.enum group) fault := by
  rw [read, bind_eq_error_iff, orTruncated_eq_error_iff]
  constructor
  · rintro (⟨t, ht, rfl⟩ | ⟨⟨w, next⟩, hw, h⟩)
    · obtain ⟨hlt, rfl⟩ := Cursor.readInt_eq_error_iff.mp ht
      exact .cut ArgType.noConfusion hlt
    · have hlength := Cursor.length_of_readInt (orTruncated_eq_ok_iff.mp hw)
      dsimp only at h
      split at h
      · cases h
      · rename_i hnone
        cases h
        exact .group (by omega) hnone
  · intro h
    cases h with
    | cut _ hlt => exact .inl ⟨_, Cursor.readInt_eq_error_iff.mpr ⟨hlt, rfl⟩, rfl⟩
    | group hword hnone =>
        obtain ⟨p, hread⟩ := Cursor.exists_readInt hword
        refine .inr ⟨p, orTruncated_eq_ok_iff.mpr hread, ?_⟩
        dsimp only
        rw [hnone]
        rfl

theorem read_operand_eq_error_iff :
    read set c .operand = .error fault ↔ Defect set c.offset c.rest .operand fault := by
  -- behind the tag, the word is four bytes further on and has four bytes less
  have hword : ∀ {tag : UInt32} {next : Cursor}, c.readWord = .ok (tag, next) →
      next.offset = c.offset + 4 ∧ next.rest.length = c.rest.length - 4 ∧ 4 ≤ c.rest.length := by
    intro tag next htag
    have hoffset := (Cursor.readWord_eq_ok_iff.mp htag).offset
    have hlength := Cursor.length_of_readWord htag
    rw [ByteOrder.length_bytes] at hoffset
    omega
  rw [read, bind_eq_error_iff, orTruncated_eq_error_iff]
  constructor
  · rintro (⟨t, ht, rfl⟩ | ⟨⟨tag, next⟩, htag, h⟩)
    · obtain ⟨hlt, rfl⟩ := Cursor.readWord_eq_error_iff.mp ht
      exact .tag hlt
    · obtain ⟨hoffset, hlength, hle⟩ := hword (orTruncated_eq_ok_iff.mp htag)
      obtain ⟨hlt, rfl⟩ := (read_by_eq_error_iff fun _ => Cursor.readInt_eq_error_iff).mp h
      rw [hoffset, hlength]
      exact .word hle (by omega)
  · intro h
    cases h with
    | cut hpiece _ => exact absurd rfl hpiece
    | tag hlt => exact .inl ⟨_, Cursor.readWord_eq_error_iff.mpr ⟨hlt, rfl⟩, rfl⟩
    | word htag hlt =>
        obtain ⟨⟨tag, next⟩, hread⟩ := Cursor.exists_readWord htag
        obtain ⟨hoffset, hlength, -⟩ := hword hread
        refine .inr ⟨(tag, next), orTruncated_eq_ok_iff.mpr hread, ?_⟩
        rw [← hoffset, ← hlength]
        exact (read_by_eq_error_iff fun _ => Cursor.readInt_eq_error_iff).mpr ⟨by omega, rfl⟩

/-- **Reading refuses an argument exactly for its defect.** -/
theorem read_eq_error_iff :
    read set c type = .error fault ↔ Defect set c.offset c.rest type fault := by
  cases type with
  | bool | signed =>
      refine Iff.trans ?_ (Iff.symm (defect_piece_iff ArgType.noConfusion trivial))
      exact read_by_eq_error_iff fun _ => Cursor.readInt_eq_error_iff
  | unsigned width =>
      refine Iff.trans ?_ (Iff.symm (defect_piece_iff ArgType.noConfusion trivial))
      exact read_by_eq_error_iff fun _ => Cursor.readWord_eq_error_iff
  | fixedString capacity =>
      refine Iff.trans ?_ (Iff.symm (defect_piece_iff ArgType.noConfusion trivial))
      exact read_by_eq_error_iff fun _ => Cursor.read_eq_error_iff
  | enum group => exact read_enum_eq_error_iff
  | operand => exact read_operand_eq_error_iff

/-- Arguments behind others that were read are read from there on. -/
theorem readAll_append {before : List ArgType} {fields : List Field}
    (h : readAll set c before = (fields, .ok next)) (types : List ArgType) :
    readAll set c (before ++ types)
      = (fields ++ (readAll set next types).1, (readAll set next types).2) := by
  induction before generalizing c fields with
  | nil =>
      cases h
      rfl
  | cons type before ih =>
      rw [readAll] at h
      rw [List.cons_append, readAll]
      split at h
      · cases h
      · rename_i field middle _
        injection h with hfields hresult
        subst hfields
        dsimp only
        rw [ih (Prod.ext rfl hresult)]
        rfl

/-- Where reading arguments stops, the ones before were read and the next one is refused. -/
theorem exists_read_eq_error (h : (readAll set c types).2 = .error fault) :
    ∃ before type after fields middle, types = before ++ type :: after ∧
      readAll set c before = (fields, .ok middle) ∧ read set middle type = .error fault := by
  induction types generalizing c with
  | nil => cases h
  | cons type types ih =>
      rw [readAll] at h
      split at h
      · rename_i fault' hread
        cases h
        exact ⟨[], type, types, [], c, rfl, rfl, hread⟩
      · rename_i field next hread
        obtain ⟨before, type', after, fields, middle, rfl, hbefore, hread'⟩ := ih h
        refine ⟨type :: before, type', after, field :: fields, middle, rfl, ?_, hread'⟩
        rw [readAll, hread]
        dsimp only
        rw [hbefore]

/-- **Reading arguments stops at the first defect.** -/
theorem readAll_eq_error_iff :
    (readAll set c types).2 = .error fault ↔ FirstDefect set c.offset c.rest types fault := by
  constructor
  · intro h
    obtain ⟨before, type, after, fields, middle, rfl, hbefore, hread⟩ := exists_read_eq_error h
    obtain ⟨hlistable, args, hlength, hafter⟩ := exists_readAll_iff.mp ⟨fields, hbefore⟩
    refine ⟨before, type, after, args, middle.rest, rfl, hafter.rest, hlength, hlistable, ?_⟩
    rw [← hafter.offset]
    exact read_eq_error_iff.mp hread
  · rintro ⟨before, type, after, args, left, rfl, hrest, hlength, hlistable, hdefect⟩
    have hafter : c.After args ⟨c.order, c.offset + args.length, left⟩ := ⟨rfl, rfl, hrest⟩
    obtain ⟨fields, hbefore⟩ := exists_readAll_iff.mpr ⟨hlistable, args, hlength, hafter⟩
    rw [readAll_append hbefore, readAll, read_eq_error_iff.mpr hdefect]

end Field

/-! ## Instructions -/

namespace Statement

variable {set : InstructionSet} {permissive : Bool} {order : ByteOrder} {c next : Cursor} {e : ListingError}

/-- A complete instruction: the opcode of a configured one and the bytes of its arguments, which can all be
    listed. If undefined opcodes are permitted, each of them is an instruction of its own. -/
inductive Complete (set : InstructionSet) (permissive : Bool) (order : ByteOrder) : List UInt8 → Prop
  | configured {opcode : Int32} {i : Instruction} {args : List UInt8}
      (hi : set.instruction? opcode = some i) (htypes : ∀ type ∈ i.args, type.Listable set)
      (hlength : args.length = ArgType.totalSize i.args) :
      Complete set permissive order (order.intBytes opcode ++ args)
  | undefined {opcode : Int32} (hnone : set.instruction? opcode = none) (hpermissive : permissive = true) :
      Complete set permissive order (order.intBytes opcode)

/-- What is wrong with the instruction at `offset`, where the bytes from there on are not those of a
    complete one. -/
inductive Defect (set : InstructionSet) (permissive : Bool) (order : ByteOrder) (offset : Nat) :
    List UInt8 → ListingError → Prop
  /-- The opcode is cut off. -/
  | opcode {bs : List UInt8} (hsome : bs ≠ []) (hshort : bs.length < 4) :
      Defect set permissive order offset bs (.malformed ⟨offset, 4, bs.length⟩)
  /-- The opcode is not configured, and has to be. -/
  | undefined {opcode : Int32} {later : List UInt8} (hnone : set.instruction? opcode = none)
      (hstrict : permissive = false) :
      Defect set permissive order offset (order.intBytes opcode ++ later) (.unknownOpcode opcode offset)
  /-- The first argument with a defect is cut off. -/
  | cutShort {opcode : Int32} {i : Instruction} {later : List UInt8} {cause : Truncation}
      (hi : set.instruction? opcode = some i)
      (hargs : Field.FirstDefect set (offset + 4) later i.args (.truncated cause)) :
      Defect set permissive order offset (order.intBytes opcode ++ later)
        (.cutShort i.displayName offset cause)
  /-- The first argument with a defect is of an unknown group. -/
  | unknownGroup {opcode : Int32} {i : Instruction} {later : List UInt8} {group : String}
      (hi : set.instruction? opcode = some i)
      (hargs : Field.FirstDefect set (offset + 4) later i.args (.unknownGroup group)) :
      Defect set permissive order offset (order.intBytes opcode ++ later) (.unknownGroup opcode group)

theorem Complete.ne_nil {chunk : List UInt8} (h : Complete set permissive order chunk) : chunk ≠ [] := by
  cases h with
  | configured | undefined =>
      intro hnil
      have hlength := congrArg List.length hnil
      simp at hlength

theorem Defect.ne_nil {offset : Nat} {bs : List UInt8} (h : Defect set permissive order offset bs e) :
    bs ≠ [] := by
  cases h with
  | opcode hsome _ => exact hsome
  | undefined | cutShort | unknownGroup =>
      intro hnil
      have hlength := congrArg List.length hnil
      simp at hlength

/-- The bytes of a well-formed statement are a complete instruction. -/
theorem WellFormed.complete {s : Statement} (h : s.WellFormed set permissive) (order : ByteOrder) :
    Complete set permissive order (s.bytes order) := by
  obtain ⟨-, hi | ⟨hnone, hpermissive, hi⟩⟩ := InstructionSet.instructionFor_cases h.listed
  · exact .configured hi (Field.forall_listable h.typed) (Field.length_flatMap_bytes h.typed)
  · have hargs : s.instruction.args = [] := congrArg Instruction.args hi
    have hfields : s.fields = [] := by
      have htyped := h.typed
      rwa [hargs, List.forall₂_nil_right_iff] at htyped
    rw [bytes, hfields, List.flatMap_nil, List.append_nil]
    exact .undefined hnone hpermissive

/-- A complete instruction is made of the bytes of a well-formed statement. -/
theorem Complete.exists_statement {chunk : List UInt8} (h : Complete set permissive order chunk) :
    ∃ s : Statement, s.WellFormed set permissive ∧ s.bytes order = chunk := by
  cases h with
  | @configured opcode i args hi htypes hlength =>
      obtain ⟨fields, htyped, rfl⟩ := Field.exists_forall₂_hasType order htypes hlength
      have hopcode : i.opcode = opcode := (InstructionSet.mem_of_instruction? hi).2
      refine ⟨⟨0, i, fields⟩, ⟨?_, htyped⟩, by rw [bytes, hopcode]⟩
      rw [hopcode, instructionFor, hi]
  | @undefined opcode hnone hpermissive =>
      refine ⟨⟨0, Instruction.unknown opcode, []⟩, ⟨?_, .nil⟩, List.append_nil _⟩
      show instructionFor set permissive opcode = _
      rw [instructionFor, hnone]
      exact if_pos hpermissive

theorem WellFormed.read_append {s : Statement} (h : s.WellFormed set permissive) (offset : Nat)
    (rest : List UInt8) : read set permissive ⟨order, offset, s.bytes order ++ rest⟩
      = (some { s with offset := offset }, .ok ⟨order, offset + (s.bytes order).length, rest⟩) :=
  read_eq_ok_iff.mpr ⟨_, rfl, rfl, ⟨h.listed, h.typed⟩, ⟨rfl, rfl, rfl⟩⟩

/-- Complete instructions do not begin one another, since both are what is read in the same place. -/
theorem Complete.append_inj {chunk chunk' rest rest' : List UInt8}
    (h : Complete set permissive order chunk) (h' : Complete set permissive order chunk')
    (happend : chunk ++ rest = chunk' ++ rest') : chunk = chunk' ∧ rest = rest' := by
  obtain ⟨s, hs, rfl⟩ := h.exists_statement
  obtain ⟨s', hs', rfl⟩ := h'.exists_statement
  have hread : read set permissive ⟨order, 0, s.bytes order ++ rest⟩ = _ := hs.read_append 0 rest
  rw [happend, hs'.read_append 0 rest'] at hread
  simp only [Prod.mk.injEq, Option.some.injEq, Statement.mk.injEq, true_and, Except.ok.injEq,
    Cursor.mk.injEq] at hread
  obtain ⟨⟨hinstruction, hfields⟩, -, hrest⟩ := hread
  exact ⟨by rw [bytes, bytes, hinstruction, hfields], hrest.symm⟩

/-- Bytes that are too few for an opcode have no other defect. -/
theorem defect_short_iff {offset : Nat} {bs : List UInt8} (hshort : bs.length < 4) :
    Defect set permissive order offset bs e ↔ bs ≠ [] ∧ e = .malformed ⟨offset, 4, bs.length⟩ := by
  constructor
  · intro h
    cases h with
    | opcode hsome _ => exact ⟨hsome, rfl⟩
    | undefined | cutShort | unknownGroup =>
        rw [List.length_append, ByteOrder.length_intBytes] at hshort
        omega
  · rintro ⟨hsome, rfl⟩
    exact .opcode hsome hshort

theorem instructionFor_eq_none_iff {opcode : Int32} :
    instructionFor set permissive opcode = none ↔ set.instruction? opcode = none ∧ permissive = false := by
  unfold instructionFor
  cases set.instruction? opcode with
  | some i => exact ⟨nofun, nofun⟩
  | none => cases permissive <;> simp

/-- An instruction with an argument that has a defect is configured. -/
theorem instruction?_of_firstDefect {opcode : Int32} {i : Instruction} {offset : Nat} {bs : List UInt8}
    {fault : Field.Fault} (hi : instructionFor set permissive opcode = some i)
    (h : Field.FirstDefect set offset bs i.args fault) :
    i.opcode = opcode ∧ set.instruction? opcode = some i := by
  obtain ⟨hopcode, hsome | ⟨-, -, rfl⟩⟩ := InstructionSet.instructionFor_cases hi
  · exact ⟨hopcode, hsome⟩
  · obtain ⟨before, type, after, -, -, hargs, -⟩ := h
    cases before <;> cases hargs

/-- Behind an opcode, the defect is that it is not configured or the first one of its arguments. -/
theorem defect_behind_opcode_iff {offset : Nat} {opcode : Int32} {later : List UInt8} :
    Defect set permissive order offset (order.intBytes opcode ++ later) e ↔
      (instructionFor set permissive opcode = none ∧ e = .unknownOpcode opcode offset) ∨
      ∃ i fault, instructionFor set permissive opcode = some i ∧
        Field.FirstDefect set (offset + 4) later i.args fault ∧ e = errorOf i offset fault := by
  constructor
  · intro h
    generalize hbs : order.intBytes opcode ++ later = bs at h
    -- the opcode of the defect is the one in front
    have hsame : ∀ {opcode' later'}, bs = order.intBytes opcode' ++ later' →
        opcode = opcode' ∧ later = later' := by
      intro opcode' later' hbs'
      obtain ⟨hopcode, hlater⟩ := List.append_inj (hbs.trans hbs') (by simp)
      exact ⟨ByteOrder.intBytes_inj hopcode, hlater⟩
    cases h with
    | opcode _ hshort =>
        rw [← hbs, List.length_append, ByteOrder.length_intBytes] at hshort
        omega
    | undefined hnone hstrict =>
        obtain ⟨rfl, rfl⟩ := hsame rfl
        exact .inl ⟨instructionFor_eq_none_iff.mpr ⟨hnone, hstrict⟩, rfl⟩
    | @cutShort _ i _ cause hi hargs =>
        obtain ⟨rfl, rfl⟩ := hsame rfl
        exact .inr ⟨i, .truncated cause, by rw [instructionFor, hi], hargs, rfl⟩
    | @unknownGroup _ i _ group hi hargs =>
        obtain ⟨rfl, rfl⟩ := hsame rfl
        refine .inr ⟨i, .unknownGroup group, by rw [instructionFor, hi], hargs, ?_⟩
        rw [errorOf, (InstructionSet.mem_of_instruction? hi).2]
  · rintro (⟨hnone, rfl⟩ | ⟨i, fault, hi, hargs, rfl⟩)
    · obtain ⟨hnone, hstrict⟩ := instructionFor_eq_none_iff.mp hnone
      exact .undefined hnone hstrict
    · obtain ⟨rfl, hi⟩ := instruction?_of_firstDefect hi hargs
      cases fault with
      | truncated cause => exact .cutShort hi hargs
      | unknownGroup group => exact .unknownGroup hi hargs

/-- **Reading refuses an instruction exactly for its defect.** -/
theorem read_eq_error_iff (hsome : c.rest ≠ []) :
    (read set permissive c).2 = .error e ↔ Defect set permissive c.order c.offset c.rest e := by
  unfold read
  cases hopcode : c.readInt with
  | error t =>
      obtain ⟨hshort, rfl⟩ := Cursor.readInt_eq_error_iff.mp hopcode
      rw [defect_short_iff hshort]
      exact ⟨fun h => ⟨hsome, (Except.error.inj h).symm⟩, fun ⟨_, h⟩ => congrArg _ h.symm⟩
  | ok p =>
      obtain ⟨opcode, body⟩ := p
      have hafter := Cursor.readInt_eq_ok_iff.mp hopcode
      have hoffset := hafter.offset
      rw [ByteOrder.length_intBytes] at hoffset
      rw [hafter.rest, defect_behind_opcode_iff, ← hoffset]
      dsimp only
      cases hi : instructionFor set permissive opcode with
      | none =>
          constructor
          · intro h
            exact .inl ⟨rfl, (Except.error.inj h).symm⟩
          · rintro (⟨-, rfl⟩ | ⟨_, _, h, -⟩)
            · rfl
            · cases h
      | some i =>
          dsimp only
          rw [mapError_eq_error_iff]
          constructor
          · rintro ⟨fault, hfault, rfl⟩
            exact .inr ⟨i, fault, rfl, Field.readAll_eq_error_iff.mp hfault, rfl⟩
          · rintro (⟨h, -⟩ | ⟨_, fault, h, hargs, rfl⟩)
            · cases h
            · cases h
              exact ⟨fault, Field.readAll_eq_error_iff.mpr hargs, rfl⟩

end Statement

/-! ## Code -/

namespace Reading

variable {set : InstructionSet} {permissive : Bool} {order : ByteOrder} {c next : Cursor} {e : ListingError}
  {chunks : List (List UInt8)} {code : List UInt8}

/-- Code split into complete instructions, with nothing between them and nothing left. -/
def Splits (set : InstructionSet) (permissive : Bool) (order : ByteOrder) (chunks : List (List UInt8))
    (code : List UInt8) : Prop :=
  chunks.flatten = code ∧ ∀ chunk ∈ chunks, Statement.Complete set permissive order chunk

/-- **Code can be split in one way only.** -/
theorem Splits.unique {chunks' : List (List UInt8)} (h : Splits set permissive order chunks code)
    (h' : Splits set permissive order chunks' code) : chunks = chunks' := by
  obtain ⟨rfl, hchunks⟩ := h
  obtain ⟨hcode, hchunks'⟩ := h'
  induction chunks generalizing chunks' with
  | nil =>
      cases chunks' with
      | nil => rfl
      | cons chunk' later' =>
          rw [List.flatten_cons, List.flatten_nil, List.append_eq_nil_iff] at hcode
          exact absurd hcode.1 (hchunks' chunk' List.mem_cons_self).ne_nil
  | cons chunk later ih =>
      obtain ⟨hchunk, hlater⟩ := List.forall_mem_cons.mp hchunks
      cases chunks' with
      | nil =>
          rw [List.flatten_cons, List.flatten_nil] at hcode
          exact absurd (List.append_eq_nil_iff.mp hcode.symm).1 hchunk.ne_nil
      | cons chunk' later' =>
          obtain ⟨hchunk', hlater'⟩ := List.forall_mem_cons.mp hchunks'
          rw [List.flatten_cons, List.flatten_cons] at hcode
          -- both begin with the same chunk, since neither of the two begins the other
          obtain ⟨rfl, hrest⟩ := hchunk'.append_inj hchunk hcode
          rw [ih hlater hrest hlater']

/-- Code is split into complete instructions exactly if it is made of well-formed statements. -/
theorem exists_splits_iff : (∃ chunks, Splits set permissive order chunks code) ↔
    ∃ ss : List Statement, (∀ s ∈ ss, s.WellFormed set permissive) ∧
      code = ss.flatMap (Statement.bytes order) := by
  constructor
  · rintro ⟨chunks, rfl, hchunks⟩
    induction chunks with
    | nil => exact ⟨[], nofun, rfl⟩
    | cons chunk later ih =>
        obtain ⟨hchunk, hlater⟩ := List.forall_mem_cons.mp hchunks
        obtain ⟨s, hs, rfl⟩ := hchunk.exists_statement
        obtain ⟨ss, hss, hcode⟩ := ih hlater
        refine ⟨s :: ss, List.forall_mem_cons.mpr ⟨hs, hss⟩, ?_⟩
        rw [List.flatten_cons, hcode, List.flatMap_cons]
  · rintro ⟨ss, hss, rfl⟩
    refine ⟨ss.map (Statement.bytes order), List.flatMap_def.symm, fun chunk hchunk => ?_⟩
    obtain ⟨s, hs, rfl⟩ := List.mem_map.mp hchunk
    exact (hss s hs).complete order

theorem fault_of_error (hsome : c.rest ≠ []) (h : (Statement.read set permissive c).2 = .error e) :
    (ofCode set permissive c).fault = some e := by
  have hend : ¬ c.atEnd = true := fun hend => hsome (List.isEmpty_iff.mp hend)
  rw [ofCode, if_neg hend]
  split
  · rename_i hread
    rw [hread] at h
    exact congrArg some (Except.error.inj h)
  · rename_i hread
    rw [hread] at h
    cases h

/-- Reading goes over well-formed statements until it is at the end or meets an instruction that it
    refuses. -/
theorem exists_stop (c : Cursor) : ∃ (ss : List Statement) (stop : Cursor),
    (∀ s ∈ ss, s.WellFormed set permissive) ∧ c.After (ss.flatMap (Statement.bytes c.order)) stop ∧
      (stop.rest = [] ∨ stop.rest ≠ [] ∧ ∃ e, (Statement.read set permissive stop).2 = .error e) := by
  -- along the reading itself: at the end, at an instruction that is refused, behind one that is read
  fun_induction ofCode set permissive c with
  | case1 c hend => exact ⟨[], c, List.forall_mem_nil _, .nil c, .inl (List.isEmpty_iff.mp hend)⟩
  | case2 c hend found e hread =>
      have hsome : c.rest ≠ [] := fun hnil => hend (List.isEmpty_iff.mpr hnil)
      exact ⟨[], c, List.forall_mem_nil _, .nil c, .inr ⟨hsome, e, by rw [hread]⟩⟩
  | case3 c hend found next hread later ih =>
      obtain ⟨s, -, -, hs, hafter⟩ := Statement.read_eq_ok_iff.mp hread
      obtain ⟨ss, stop, hss, hlater, hstop⟩ := ih
      rw [hafter.order] at hlater
      exact ⟨s :: ss, stop, List.forall_mem_cons.mpr ⟨hs, hss⟩, hafter.trans hlater, hstop⟩

/-- **Code has no fault exactly if it can be split.** -/
theorem fault_eq_none_iff :
    (ofCode set permissive c).fault = none ↔ ∃ chunks, Splits set permissive c.order chunks c.rest := by
  rw [exists_splits_iff]
  constructor
  · intro h
    exact ⟨_, of_ofCode h⟩
  · rintro ⟨ss, hss, hrest⟩
    have hafter : c.After (ss.flatMap (Statement.bytes c.order)) ⟨c.order, _, []⟩ :=
      ⟨rfl, rfl, by rw [hrest, List.append_nil]⟩
    rw [ofCode_of_after hss hafter, ofCode_of_end rfl]

/-- **The fault of code is the defect behind its complete instructions.** -/
theorem fault_eq_some_iff :
    (ofCode set permissive c).fault = some e ↔ ∃ chunks before rest, c.rest = before ++ rest ∧
      Splits set permissive c.order chunks before ∧
      Statement.Defect set permissive c.order (c.offset + before.length) rest e := by
  constructor
  · intro h
    -- reading cannot have come to the end, and where it stopped the error is the one that is given
    obtain ⟨ss, stop, hss, hafter, hend | ⟨hsome, e', herror⟩⟩ := exists_stop c
    · rw [ofCode_of_after hss hafter, ofCode_of_end hend] at h
      cases h
    · rw [ofCode_of_after hss hafter, fault_of_error hsome herror] at h
      cases h
      obtain ⟨chunks, hchunks⟩ := exists_splits_iff.mpr ⟨ss, hss, rfl⟩
      refine ⟨chunks, _, stop.rest, hafter.rest, hchunks, ?_⟩
      rw [← hafter.offset, ← hafter.order]
      exact (Statement.read_eq_error_iff hsome).mp herror
  · rintro ⟨chunks, before, rest, hrest, hchunks, hdefect⟩
    obtain ⟨ss, hss, rfl⟩ := exists_splits_iff.mp ⟨chunks, hchunks⟩
    have hafter : c.After (ss.flatMap (Statement.bytes c.order)) ⟨c.order, _, rest⟩ := ⟨rfl, rfl, hrest⟩
    have hsome : rest ≠ [] := hdefect.ne_nil
    rw [ofCode_of_after hss hafter]
    exact fault_of_error hsome ((Statement.read_eq_error_iff hsome).mpr hdefect)

end Reading

/-! ## Main result -/

namespace Listing

variable {set : InstructionSet} {permissive : Bool} {order : ByteOrder}

/-- **Exactly the code that can be split is listed, and else the first defect is reported.** Behind a count
    and a table of as many entries, the code is listed exactly if it is a row of complete instructions, and
    it is so in one way only. It is refused with an error exactly if there are complete instructions in
    front and an instruction with that defect behind them; offsets are counted from the beginning of the
    data. -/
theorem decompile_first_defect {count : UInt32} {table code : List UInt8}
    (htable : table.length = count.toNat * Image.entrySize) :
    ((∃ t, decompile set permissive order (order.bytes count ++ table ++ code) = .ok t) ↔
      ∃ chunks, Reading.Splits set permissive order chunks code) ∧
    (∀ chunks chunks', Reading.Splits set permissive order chunks code →
      Reading.Splits set permissive order chunks' code → chunks = chunks') ∧
    (∀ e, decompile set permissive order (order.bytes count ++ table ++ code) = .error e ↔
      ∃ chunks before rest, code = before ++ rest ∧ Reading.Splits set permissive order chunks before ∧
        Statement.Defect set permissive order (4 + table.length + before.length) rest e) := by
  have hread : Reading.ofData set permissive order (order.bytes count ++ table ++ code)
      = Reading.ofCode set permissive ⟨order, 4 + table.length, code⟩ :=
    Reading.ofData_of_codeCursor (Reading.codeCursor_append htable)
  refine ⟨?_, fun chunks chunks' h h' => h.unique h', fun e => ?_⟩
  · simp only [decompile_eq_ok_iff, hread, exists_and_left, exists_eq, and_true]
    exact Reading.fault_eq_none_iff
  · rw [decompile_eq_error_iff, hread]
    exact Reading.fault_eq_some_iff

/-- An instruction with an argument in two pieces and one of a group. -/
def gate : Instruction := ⟨2, some "gate", [.operand, .enum "Side"], .plain⟩

/-- A set in which that group is not configured. -/
def gateSet : InstructionSet where
  instructions := [⟨1, some "wait", [.signed .w32], .plain⟩, gate]
  vars := .empty
  enums := .empty
  jumpNames := []
  ascending := by decide
  namedOnce := by decide

/-- Data with one entry in its table. -/
def gateData (code : List UInt8) : List UInt8 := ByteOrder.little.bytes 1 ++ List.replicate 36 0 ++ code

/-- A wait is complete. A gate behind it has the defect that its word is cut off behind the tag, or, if all
    its bytes are there, that its group is unknown. -/
theorem decompile_first_defect_gate :
    (∃ t, decompile gateSet false .little (gateData [1, 0, 0, 0, 3, 0, 0, 0]) = .ok t) ∧
    decompile gateSet false .little (gateData [1, 0, 0, 0, 3, 0, 0, 0, 2, 0, 0, 0, 2, 0, 0, 0, 9, 9])
      = .error (.cutShort "gate" 48 ⟨56, 4, 2⟩) ∧
    decompile gateSet false .little
      (gateData [1, 0, 0, 0, 3, 0, 0, 0, 2, 0, 0, 0, 2, 0, 0, 0, 9, 9, 9, 9, 0, 0, 0, 0])
      = .error (.unknownGroup 2 "Side") := by
  have htable : (List.replicate 36 (0 : UInt8)).length = (1 : UInt32).toNat * Image.entrySize := by decide
  have hwait : Reading.Splits gateSet false .little [[1, 0, 0, 0, 3, 0, 0, 0]] [1, 0, 0, 0, 3, 0, 0, 0] := by
    refine ⟨rfl, List.forall_mem_singleton.mpr ?_⟩
    show Statement.Complete gateSet false .little (ByteOrder.little.intBytes 1 ++ [3, 0, 0, 0])
    exact .configured rfl (List.forall_mem_singleton.mpr trivial) rfl
  have hgate : gateSet.instruction? 2 = some gate := rfl
  have hname : gate.displayName = "gate" := by decide +kernel
  refine ⟨(decompile_first_defect htable).1.mpr ⟨_, hwait⟩,
    ((decompile_first_defect htable).2.2 _).mpr ⟨_, _, [2, 0, 0, 0, 2, 0, 0, 0, 9, 9], rfl, hwait, ?_⟩,
    ((decompile_first_defect htable).2.2 _).mpr
      ⟨_, _, [2, 0, 0, 0, 2, 0, 0, 0, 9, 9, 9, 9, 0, 0, 0, 0], rfl, hwait, ?_⟩⟩
  · rw [← hname]
    show Statement.Defect gateSet false .little 48 (ByteOrder.little.intBytes 2 ++ [2, 0, 0, 0, 9, 9]) _
    exact .cutShort hgate ⟨[], .operand, _, [], _, rfl, rfl, rfl, nofun, .word (by decide) (by decide)⟩
  · show Statement.Defect gateSet false .little 48
      (ByteOrder.little.intBytes 2 ++ [2, 0, 0, 0, 9, 9, 9, 9, 0, 0, 0, 0]) _
    exact .unknownGroup hgate ⟨[.operand], .enum "Side", _, [2, 0, 0, 0, 9, 9, 9, 9], [0, 0, 0, 0], rfl, rfl,
      rfl, List.forall_mem_singleton.mpr trivial, .group (by decide) rfl⟩

end Listing
end CallScript
