import CallScript.Listing
import CallScript.Proofs.Names
import Mathlib.Data.List.Forall2

/-!
# `Proofs.Code` — statements and the bytes that hold them

The code of an image is a list of statements, each an opcode word and the bytes of its fields. Reading
finds exactly the statements that the bytes are made of: `Field.read_eq_ok_iff` and
`Statement.read_eq_ok_iff` say so of one field and of one statement, `Reading.ofCode_of_after` and
`Reading.of_ofCode` of code as a whole.

In front of the code is the jump table. Its bytes are those of records (`Image.Record`), and
`Image.decode_eq_ok_iff` says which records an image was read from. The table is passed over when the code is
listed, and `Image.decode_code_iff` says that this leads to the same code.
-/

namespace CallScript

/-! ## Words -/

namespace ByteOrder

variable {order : ByteOrder}

/-- Any four bytes are those of a word. -/
theorem exists_bytes (order : ByteOrder) {bs : List UInt8} (h : bs.length = 4) :
    ∃ w, bs = order.bytes w := by
  obtain ⟨b₀, b₁, b₂, b₃, rfl⟩ : ∃ b₀ b₁ b₂ b₃, bs = [b₀, b₁, b₂, b₃] := by
    match bs, h with
    | [b₀, b₁, b₂, b₃], _ => exact ⟨b₀, b₁, b₂, b₃, rfl⟩
  exact ⟨order.word b₀ b₁ b₂ b₃, (order.bytes_word b₀ b₁ b₂ b₃).symm⟩

theorem exists_intBytes (order : ByteOrder) {bs : List UInt8} (h : bs.length = 4) :
    ∃ w, bs = order.intBytes w := by
  obtain ⟨w, rfl⟩ := order.exists_bytes h
  exact ⟨w.toInt32, by rw [intBytes, UInt32.toUInt32_toInt32]⟩

theorem bytes_inj {w w' : UInt32} (h : order.bytes w = order.bytes w') : w = w' := by
  obtain ⟨b₀, b₁, b₂, b₃, hbytes, hword⟩ := order.word_bytes w
  obtain ⟨c₀, c₁, c₂, c₃, hbytes', hword'⟩ := order.word_bytes w'
  rw [hbytes, hbytes'] at h
  cases h
  exact hword.symm.trans hword'

theorem intBytes_inj {w w' : Int32} (h : order.intBytes w = order.intBytes w') : w = w' := by
  have hword := congrArg UInt32.toInt32 (bytes_inj h)
  rwa [Int32.toInt32_toUInt32, Int32.toInt32_toUInt32] at hword

end ByteOrder

/-! ## Cursors -/

namespace Cursor

variable {c next : Cursor} {bs : List UInt8}

/-- `next` is the cursor behind the bytes `bs`, which stand at `c`. -/
structure After (c : Cursor) (bs : List UInt8) (next : Cursor) : Prop where
  order  : next.order = c.order
  offset : next.offset = c.offset + bs.length
  rest   : c.rest = bs ++ next.rest

theorem After.nil (c : Cursor) : c.After [] c := ⟨rfl, rfl, rfl⟩

theorem After.trans {middle : Cursor} {bs' : List UInt8} (h : c.After bs middle)
    (h' : middle.After bs' next) : c.After (bs ++ bs') next where
  order := h'.order.trans h.order
  offset := by
    rw [h'.offset, h.offset, List.length_append]
    omega
  rest := by rw [h.rest, h'.rest, List.append_assoc]

/-- A cursor is known from where it stands and what is behind it. -/
theorem After.eq (h : c.After bs next) : next = ⟨c.order, c.offset + bs.length, c.rest.drop bs.length⟩ := by
  obtain ⟨order, offset, rest⟩ := next
  have hrest : rest = c.rest.drop bs.length := by rw [h.rest, List.drop_left]
  rw [hrest, ← h.order, ← h.offset]

theorem After.split {bs' : List UInt8} (h : c.After (bs ++ bs') next) :
    ∃ middle, c.After bs middle ∧ middle.After bs' next := by
  refine ⟨⟨c.order, c.offset + bs.length, bs' ++ next.rest⟩, ⟨rfl, rfl, ?_⟩, ⟨h.order, ?_, rfl⟩⟩
  · rw [h.rest, List.append_assoc]
  · rw [h.offset, List.length_append, Nat.add_assoc]

/-- **Reading takes exactly the bytes asked for.** -/
theorem read_eq_ok_iff {n : Nat} : c.read n = .ok (bs, next) ↔ bs.length = n ∧ c.After bs next := by
  constructor
  · intro h
    unfold read at h
    dsimp only at h
    split at h
    · rename_i hlen
      injection h with h
      injection h with hbs hnext
      subst hbs hnext
      refine ⟨hlen, rfl, ?_, (List.take_append_drop n c.rest).symm⟩
      rw [hlen]
    · cases h
  · rintro ⟨rfl, hafter⟩
    have htake : c.rest.take bs.length = bs := by rw [hafter.rest, List.take_left]
    unfold read
    dsimp only
    rw [htake, if_pos rfl, hafter.eq]

theorem skip_eq_ok_iff {n : Nat} : c.skip n = .ok next ↔ ∃ bs, bs.length = n ∧ c.After bs next := by
  rw [skip, map_eq_ok_iff]
  constructor
  · rintro ⟨⟨bs, c'⟩, hread, rfl⟩
    exact ⟨bs, read_eq_ok_iff.mp hread⟩
  · rintro ⟨bs, hbs⟩
    exact ⟨(bs, next), read_eq_ok_iff.mpr hbs, rfl⟩

/-- **A word is read from its four bytes.** -/
theorem readWord_eq_ok_iff {w : UInt32} : c.readWord = .ok (w, next) ↔ c.After (c.order.bytes w) next := by
  constructor
  · intro h
    unfold readWord at h
    split at h
    · rename_i b₀ b₁ b₂ b₃ rest hrest
      injection h with h
      injection h with hw hnext
      subst hw hnext
      exact ⟨rfl, by rw [ByteOrder.length_bytes], by rw [ByteOrder.bytes_word, hrest]; rfl⟩
    · cases h
  · intro hafter
    obtain ⟨b₀, b₁, b₂, b₃, hbytes, hword⟩ := ByteOrder.word_bytes c.order w
    have hrest : c.rest = b₀ :: b₁ :: b₂ :: b₃ :: next.rest := by rw [hafter.rest, hbytes]; rfl
    unfold readWord
    rw [hrest]
    dsimp only
    rw [hword, hafter.eq, ByteOrder.length_bytes, hrest]

theorem readInt_eq_ok_iff {w : Int32} :
    c.readInt = .ok (w, next) ↔ c.After (c.order.intBytes w) next := by
  rw [readInt, map_eq_ok_iff, ByteOrder.intBytes]
  constructor
  · rintro ⟨⟨v, c'⟩, hread, heq⟩
    injection heq with hw hnext
    subst hw hnext
    rw [UInt32.toUInt32_toInt32]
    exact readWord_eq_ok_iff.mp hread
  · intro hafter
    refine ⟨(w.toUInt32, next), readWord_eq_ok_iff.mpr hafter, ?_⟩
    dsimp only
    rw [Int32.toInt32_toUInt32]

end Cursor

/-! ## Fields -/

namespace Field

variable {set : InstructionSet} {c next : Cursor}

/-- The bytes that hold a field. -/
def bytes (order : ByteOrder) : Field → List UInt8
  | bool w | signed w | enum _ w => order.intBytes w
  | unsigned w => order.bytes w
  | text slot => slot
  | operand tag w => order.bytes tag ++ order.intBytes w

/-- A field of an argument type. Its group must be configured if it is of an enum, and its slot must have
    the size that the type says. -/
inductive HasType (set : InstructionSet) : Field → ArgType → Prop
  | bool (w : Int32) : HasType set (.bool w) .bool
  | signed (w : Int32) (width : IntWidth) : HasType set (.signed w) (.signed width)
  | unsigned (w : UInt32) (width : IntWidth) : HasType set (.unsigned w) (.unsigned width)
  | enum {group : String} {members : SymbolTable Int32} (w : Int32)
      (hgroup : set.group? group = some members) : HasType set (.enum members w) (.enum group)
  | text {capacity : Nat} {slot : List UInt8} (hslot : slot.length = capacity) :
      HasType set (.text slot) (.fixedString capacity)
  | operand (tag : UInt32) (w : Int32) : HasType set (.operand tag w) .operand

/-- A field takes the bytes that its type says. -/
theorem HasType.length_bytes {order : ByteOrder} {field : Field} {type : ArgType}
    (h : field.HasType set type) : (field.bytes order).length = type.size := by
  cases h with
  | text hslot => exact hslot
  | bool | signed | unsigned | enum | operand => simp [bytes, ArgType.size]

theorem length_flatMap_bytes {order : ByteOrder} {fields : List Field} {types : List ArgType}
    (h : List.Forall₂ (HasType set) fields types) :
    (fields.flatMap (bytes order)).length = ArgType.totalSize types := by
  induction h with
  | nil => rfl
  | cons hfield _ ih => rw [List.flatMap_cons, List.length_append, hfield.length_bytes, ih, ArgType.totalSize]

/-- **Reading finds the field of the type whose bytes stand at the cursor**, and only that. -/
theorem read_eq_ok_iff {type : ArgType} {field : Field} :
    read set c type = .ok (field, next) ↔
      field.HasType set type ∧ c.After (field.bytes c.order) next := by
  constructor
  · intro h
    cases type with
    | bool =>
        obtain ⟨w, hread, rfl⟩ := read_by_iff.mp h
        exact ⟨.bool w, Cursor.readInt_eq_ok_iff.mp hread⟩
    | signed width =>
        obtain ⟨w, hread, rfl⟩ := read_by_iff.mp h
        exact ⟨.signed w width, Cursor.readInt_eq_ok_iff.mp hread⟩
    | unsigned width =>
        obtain ⟨w, hread, rfl⟩ := read_by_iff.mp h
        exact ⟨.unsigned w width, Cursor.readWord_eq_ok_iff.mp hread⟩
    | enum group =>
        obtain ⟨⟨w, c'⟩, hread, h⟩ := bind_eq_ok_iff.mp h
        dsimp only at h
        split at h
        · rename_i members hgroup
          cases h
          exact ⟨.enum w hgroup, Cursor.readInt_eq_ok_iff.mp (orTruncated_eq_ok_iff.mp hread)⟩
        · cases h
    | fixedString capacity =>
        obtain ⟨slot, hread, rfl⟩ := read_by_iff.mp h
        obtain ⟨hslot, hafter⟩ := Cursor.read_eq_ok_iff.mp hread
        exact ⟨.text hslot, hafter⟩
    | operand =>
        obtain ⟨⟨tag, c'⟩, htag, h⟩ := bind_eq_ok_iff.mp h
        obtain ⟨w, hread, rfl⟩ := read_by_iff.mp h
        have htag := Cursor.readWord_eq_ok_iff.mp (orTruncated_eq_ok_iff.mp htag)
        have hword := Cursor.readInt_eq_ok_iff.mp hread
        rw [htag.order] at hword
        exact ⟨.operand tag w, htag.trans hword⟩
  · rintro ⟨htype, hafter⟩
    cases htype with
    | bool w => exact read_by_iff.mpr ⟨w, Cursor.readInt_eq_ok_iff.mpr hafter, rfl⟩
    | signed w width => exact read_by_iff.mpr ⟨w, Cursor.readInt_eq_ok_iff.mpr hafter, rfl⟩
    | unsigned w width => exact read_by_iff.mpr ⟨w, Cursor.readWord_eq_ok_iff.mpr hafter, rfl⟩
    | enum w hgroup =>
        refine bind_eq_ok_iff.mpr
          ⟨(w, next), orTruncated_eq_ok_iff.mpr (Cursor.readInt_eq_ok_iff.mpr hafter), ?_⟩
        dsimp only
        rw [hgroup]
        rfl
    | text hslot => exact read_by_iff.mpr ⟨_, Cursor.read_eq_ok_iff.mpr ⟨hslot, hafter⟩, rfl⟩
    | operand tag w =>
        obtain ⟨middle, htag, hword⟩ := hafter.split
        rw [← htag.order] at hword
        refine bind_eq_ok_iff.mpr
          ⟨_, orTruncated_eq_ok_iff.mpr (Cursor.readWord_eq_ok_iff.mpr htag), ?_⟩
        exact read_by_iff.mpr ⟨w, Cursor.readInt_eq_ok_iff.mpr hword, rfl⟩

/-- **Reading finds the fields of the types whose bytes stand at the cursor.** -/
theorem readAll_eq_ok_iff {types : List ArgType} {fields : List Field} :
    readAll set c types = (fields, .ok next) ↔
      List.Forall₂ (HasType set) fields types ∧ c.After (fields.flatMap (bytes c.order)) next := by
  induction types generalizing c fields with
  | nil =>
      rw [List.forall₂_nil_right_iff]
      constructor
      · intro h
        cases h
        exact ⟨rfl, .nil _⟩
      · rintro ⟨rfl, hafter⟩
        rw [readAll, hafter.eq]
        rfl
  | cons type types ih =>
      constructor
      · intro h
        unfold readAll at h
        split at h
        · cases h
        · rename_i field middle hread
          obtain ⟨htype, hfield⟩ := read_eq_ok_iff.mp hread
          injection h with hfields hresult
          subst hfields
          -- the later fields are read in the byte order of `middle`, which is that of `c`
          obtain ⟨htypes, hlater⟩ := ih.mp (Prod.ext rfl hresult)
          rw [hfield.order] at hlater
          exact ⟨.cons htype htypes, hfield.trans hlater⟩
      · rintro ⟨hall, hafter⟩
        obtain ⟨field, later, htype, htypes, rfl⟩ := List.forall₂_cons_right_iff.mp hall
        obtain ⟨middle, hfield, hlater⟩ := hafter.split
        rw [← hfield.order] at hlater
        unfold readAll
        rw [read_eq_ok_iff.mpr ⟨htype, hfield⟩]
        dsimp only
        rw [ih.mpr ⟨htypes, hlater⟩]

end Field

/-! ## Statements -/

namespace Statement

variable {set : InstructionSet} {permissive : Bool} {c next : Cursor}

/-- The bytes that hold a statement: its opcode and its fields. -/
def bytes (order : ByteOrder) (s : Statement) : List UInt8 :=
  order.intBytes s.instruction.opcode ++ s.fields.flatMap (Field.bytes order)

/-- A statement of the instruction that its opcode is listed as, with fields of the types it has. -/
structure WellFormed (set : InstructionSet) (permissive : Bool) (s : Statement) : Prop where
  listed : instructionFor set permissive s.instruction.opcode = some s.instruction
  typed  : List.Forall₂ (Field.HasType set) s.fields s.instruction.args

/-- **Reading finds the statement whose bytes stand at the cursor**, and only that. -/
theorem read_eq_ok_iff {found : Option Statement} :
    read set permissive c = (found, .ok next) ↔ ∃ s, found = some s ∧ s.offset = c.offset ∧
      s.WellFormed set permissive ∧ c.After (s.bytes c.order) next := by
  constructor
  · intro h
    unfold read at h
    split at h
    · cases h
    · rename_i opcode body hopcode
      split at h
      · cases h
      · rename_i i hi
        injection h with hfound hresult
        cases hall : Field.readAll set body i.args with
        | mk fields result =>
            rw [hall] at hfound hresult
            cases result with
            | error fault => cases hresult
            | ok c' =>
                injection hresult with hresult
                obtain ⟨htyped, hfields⟩ := Field.readAll_eq_ok_iff.mp (hresult ▸ hall)
                -- the opcode that was read is that of the instruction it is listed as
                have hop := Cursor.readInt_eq_ok_iff.mp hopcode
                have hcode := (InstructionSet.instructionFor_cases hi).1
                rw [hop.order] at hfields
                rw [← hcode] at hi hop
                exact ⟨⟨c.offset, i, fields⟩, hfound.symm, rfl, ⟨hi, htyped⟩, hop.trans hfields⟩
  · rintro ⟨⟨offset, i, fields⟩, rfl, hoffset, hwf, hafter⟩
    obtain ⟨body, hop, hfields⟩ := hafter.split
    rw [← hop.order] at hfields
    unfold read
    rw [Cursor.readInt_eq_ok_iff.mpr hop]
    dsimp only
    rw [hwf.listed]
    dsimp only
    rw [Field.readAll_eq_ok_iff.mpr ⟨hwf.typed, hfields⟩, ← hoffset]
    rfl

end Statement

/-! ## Code -/

namespace Reading

variable {set : InstructionSet} {permissive : Bool} {c next : Cursor}

/-- Statements with the offsets that they have one behind the other, the first at `offset`. -/
def relocate (order : ByteOrder) (offset : Nat) : List Statement → List Statement
  | [] => []
  | s :: ss => { s with offset := offset } :: relocate order (offset + (s.bytes order).length) ss

/-- Code that is not at its end is read by its first statement. -/
theorem ofCode_of_ne_nil (h : c.rest ≠ []) : ofCode set permissive c =
    match Statement.read set permissive c with
    | (found, .error e) => ⟨found.toList, some e⟩
    | (found, .ok next) => ⟨found.toList ++ (ofCode set permissive next).statements,
        (ofCode set permissive next).fault⟩ := by
  have hend : ¬ c.atEnd = true := by
    rw [Cursor.atEnd, List.isEmpty_iff]
    exact h
  rw [ofCode, if_neg hend]
  split
  · rename_i hread
    rw [hread]
  · rename_i hread
    rw [hread]

theorem ofCode_of_read {s : Statement} (hread : Statement.read set permissive c = (some s, .ok next)) :
    ofCode set permissive c
      = ⟨s :: (ofCode set permissive next).statements, (ofCode set permissive next).fault⟩ := by
  have hne : c.rest ≠ [] := by
    intro hnil
    have hlength := Statement.length_of_read hread
    rw [hnil] at hlength
    cases hlength
  rw [ofCode_of_ne_nil hne, hread]
  rfl

/-- **The bytes of well-formed statements are read as those statements**, and what stands behind them is
    read as it would be alone. -/
theorem ofCode_of_after {ss : List Statement} (hss : ∀ s ∈ ss, s.WellFormed set permissive)
    (h : c.After (ss.flatMap (Statement.bytes c.order)) next) :
    ofCode set permissive c = ⟨relocate c.order c.offset ss ++ (ofCode set permissive next).statements,
      (ofCode set permissive next).fault⟩ := by
  induction ss generalizing c with
  | nil =>
      rw [h.eq]
      rfl
  | cons s ss ih =>
      obtain ⟨hs, hlater⟩ := List.forall_mem_cons.mp hss
      obtain ⟨middle, hfirst, hrest⟩ := h.split
      have hread : Statement.read set permissive c = (some { s with offset := c.offset }, .ok middle) :=
        Statement.read_eq_ok_iff.mpr ⟨_, rfl, rfl, ⟨hs.listed, hs.typed⟩, hfirst⟩
      rw [← hfirst.order] at hrest
      rw [ofCode_of_read hread, ih hlater hrest, hfirst.order, hfirst.offset]
      rfl

theorem ofCode_of_end (h : c.rest = []) : ofCode set permissive c = ⟨[], none⟩ := by
  have hend : c.atEnd = true := by rw [Cursor.atEnd, h]; rfl
  rw [ofCode, if_pos hend]

/-- Code that is made of well-formed statements is read as them. -/
theorem ofCode_bytes {order : ByteOrder} {offset : Nat} {ss : List Statement}
    (hss : ∀ s ∈ ss, s.WellFormed set permissive) :
    ofCode set permissive ⟨order, offset, ss.flatMap (Statement.bytes order)⟩
      = ⟨relocate order offset ss, none⟩ := by
  have hafter : Cursor.After ⟨order, offset, ss.flatMap (Statement.bytes order)⟩
      (ss.flatMap (Statement.bytes order)) ⟨order, _, []⟩ := ⟨rfl, rfl, (List.append_nil _).symm⟩
  rw [ofCode_of_after hss hafter, ofCode_of_end rfl, List.append_nil]

/-- **Code that is read without a fault is made of well-formed statements.** -/
theorem of_ofCode (h : (ofCode set permissive c).fault = none) :
    (∀ s ∈ (ofCode set permissive c).statements, s.WellFormed set permissive) ∧
      c.rest = (ofCode set permissive c).statements.flatMap (Statement.bytes c.order) := by
  -- by the recursion of `ofCode`: each statement that is read has its bytes in front of the rest
  fun_induction ofCode set permissive c with
  | case1 c hend => exact ⟨nofun, List.isEmpty_iff.mp hend⟩
  | case2 => cases h
  | case3 c hend found next hread later ih =>
      obtain ⟨s, rfl, -, hs, hafter⟩ := Statement.read_eq_ok_iff.mp hread
      obtain ⟨hlater, hrest⟩ := ih h
      rw [hafter.order] at hrest
      refine ⟨fun s' hs' => ?_, ?_⟩
      · rcases List.mem_cons.mp hs' with rfl | hs'
        · exact hs
        · exact hlater s' hs'
      · rw [hafter.rest, hrest]
        rfl

end Reading

/-! ## Behind the jump table -/

/-- The code begins behind a count and a table of as many entries. -/
theorem Reading.codeCursor_eq_ok_iff {order : ByteOrder} {data : List UInt8} {c : Cursor} :
    codeCursor order data = .ok c ↔ ∃ count table, table.length = count.toNat * Image.entrySize ∧
      (Cursor.start order data).After (order.bytes count ++ table) c := by
  unfold codeCursor
  constructor
  · intro h
    split at h
    · cases h
    · rename_i count c' hcount
      obtain ⟨table, hlen, htable⟩ := Cursor.skip_eq_ok_iff.mp h
      exact ⟨count, table, hlen, (Cursor.readWord_eq_ok_iff.mp hcount).trans htable⟩
  · rintro ⟨count, table, hlen, hafter⟩
    obtain ⟨middle, hcount, htable⟩ := hafter.split
    rw [Cursor.readWord_eq_ok_iff.mpr hcount]
    exact Cursor.skip_eq_ok_iff.mpr ⟨table, hlen, htable⟩

theorem Reading.codeCursor_append {order : ByteOrder} {count : UInt32} {table code : List UInt8}
    (h : table.length = count.toNat * Image.entrySize) :
    codeCursor order (order.bytes count ++ table ++ code) = .ok ⟨order, 4 + table.length, code⟩ := by
  refine codeCursor_eq_ok_iff.mpr ⟨count, table, h, rfl, ?_, rfl⟩
  rw [List.length_append, ByteOrder.length_bytes]
  exact (Nat.zero_add _).symm

theorem Reading.ofData_of_codeCursor {set : InstructionSet} {permissive : Bool} {order : ByteOrder}
    {data : List UInt8} {c : Cursor} (h : codeCursor order data = .ok c) :
    ofData set permissive order data = ofCode set permissive c := by
  rw [ofData, h]

namespace Image

variable {order : ByteOrder} {c next : Cursor}

/-- An entry as it stands in the data: the bytes in the slot of its name, and its offset. -/
@[ext] structure Record where
  slot   : List UInt8
  offset : UInt32
  full   : slot.length = nameSize

namespace Record

/-- The bytes of a record. -/
def bytes (order : ByteOrder) (r : Record) : List UInt8 := r.slot ++ order.bytes r.offset

/-- The entry that a record is read as. -/
def entry (r : Record) : JumpEntry := ⟨slotText r.slot, r.offset⟩

/-- The record that an entry is written as. -/
def ofEntry (e : JumpEntry) : Record where
  slot := padTo nameSize (storedName e.name)
  offset := e.offset
  full := length_padTo (Nat.le_trans (length_storedName e.name) (by decide))

@[simp] theorem length_bytes (r : Record) : (r.bytes order).length = entrySize := by
  rw [bytes, List.length_append, r.full, ByteOrder.length_bytes, entrySize]

@[simp] theorem length_flatMap_bytes (rs : List Record) :
    (rs.flatMap (bytes order)).length = rs.length * entrySize := by
  induction rs with
  | nil => rw [List.flatMap_nil, List.length_nil, List.length_nil, Nat.zero_mul]
  | cons r rs ih =>
      rw [List.flatMap_cons, List.length_append, length_bytes, ih, List.length_cons, Nat.succ_mul,
        Nat.add_comm]

/-- Bytes that are as many as an entry has are a record: any slot holds a name, and any four bytes are a
    word. -/
theorem exists_bytes (order : ByteOrder) {bs : List UInt8} (h : bs.length = entrySize) :
    ∃ r : Record, bs = r.bytes order := by
  have htake : (bs.take nameSize).length = nameSize := by
    rw [List.length_take, h]
    rfl
  have hdrop : (bs.drop nameSize).length = 4 := by
    rw [List.length_drop, h]
    rfl
  obtain ⟨offset, hoffset⟩ := order.exists_bytes hdrop
  refine ⟨⟨bs.take nameSize, offset, htake⟩, ?_⟩
  rw [bytes, ← hoffset, List.take_append_drop]

/-- A table with the bytes of so many entries is made of so many records. -/
theorem exists_flatMap_bytes (order : ByteOrder) {n : Nat} {table : List UInt8}
    (h : table.length = n * entrySize) :
    ∃ rs : List Record, rs.length = n ∧ table = rs.flatMap (bytes order) := by
  induction n generalizing table with
  | zero =>
      rw [Nat.zero_mul] at h
      exact ⟨[], rfl, List.length_eq_zero_iff.mp h⟩
  | succ n ih =>
      rw [Nat.succ_mul] at h
      have htake : (table.take entrySize).length = entrySize := by rw [List.length_take]; omega
      have hdrop : (table.drop entrySize).length = n * entrySize := by rw [List.length_drop]; omega
      obtain ⟨r, hr⟩ := exists_bytes order htake
      obtain ⟨rs, hlength, hrs⟩ := ih hdrop
      refine ⟨r :: rs, congrArg Nat.succ hlength, ?_⟩
      rw [List.flatMap_cons, ← hr, ← hrs, List.take_append_drop]

end Record

/-- **An entry is read from its record.** -/
theorem readEntry_eq_ok_iff {e : JumpEntry} :
    readEntry c = .ok (e, next) ↔ ∃ r : Record, r.entry = e ∧ c.After (r.bytes c.order) next := by
  constructor
  · intro h
    obtain ⟨⟨slot, c'⟩, hslot, h⟩ := bind_eq_ok_iff.mp h
    obtain ⟨⟨offset, c''⟩, hoffset, h⟩ := bind_eq_ok_iff.mp h
    cases h
    obtain ⟨hfull, hslot⟩ := Cursor.read_eq_ok_iff.mp hslot
    have hoffset := Cursor.readWord_eq_ok_iff.mp hoffset
    rw [hslot.order] at hoffset
    exact ⟨⟨slot, offset, hfull⟩, rfl, hslot.trans hoffset⟩
  · rintro ⟨r, rfl, hafter⟩
    obtain ⟨middle, hslot, hoffset⟩ := hafter.split
    rw [← hslot.order] at hoffset
    exact bind_eq_ok_iff.mpr ⟨_, Cursor.read_eq_ok_iff.mpr ⟨r.full, hslot⟩,
      bind_eq_ok_iff.mpr ⟨_, Cursor.readWord_eq_ok_iff.mpr hoffset, rfl⟩⟩

/-- **A table is read record by record.** -/
theorem readEntries_eq_ok_iff {n : Nat} {es : List JumpEntry} :
    readEntries n c = .ok (es, next) ↔ ∃ rs : List Record, rs.length = n ∧ rs.map Record.entry = es ∧
      c.After (rs.flatMap (Record.bytes c.order)) next := by
  induction n generalizing c es with
  | zero =>
      constructor
      · intro h
        cases h
        exact ⟨[], rfl, rfl, .nil _⟩
      · rintro ⟨rs, hlength, rfl, hafter⟩
        cases List.length_eq_zero_iff.mp hlength
        rw [hafter.eq]
        rfl
  | succ n ih =>
      constructor
      · intro h
        obtain ⟨⟨e, middle⟩, hentry, h⟩ := bind_eq_ok_iff.mp h
        obtain ⟨⟨later, c'⟩, hlater, h⟩ := bind_eq_ok_iff.mp h
        cases h
        obtain ⟨r, rfl, hrecord⟩ := readEntry_eq_ok_iff.mp hentry
        obtain ⟨rs, hlength, rfl, hrecords⟩ := ih.mp hlater
        rw [hrecord.order] at hrecords
        exact ⟨r :: rs, congrArg Nat.succ hlength, rfl, hrecord.trans hrecords⟩
      · rintro ⟨rs, hlength, rfl, hafter⟩
        cases rs with
        | nil => cases hlength
        | cons r rs =>
            obtain ⟨middle, hentry, hlater⟩ := hafter.split
            rw [← hentry.order] at hlater
            have hentry := readEntry_eq_ok_iff.mpr ⟨r, rfl, hentry⟩
            have hlater := ih.mpr ⟨rs, Nat.succ.inj hlength, rfl, hlater⟩
            exact bind_eq_ok_iff.mpr ⟨_, hentry, bind_eq_ok_iff.mpr ⟨_, hlater, rfl⟩⟩

/-- The data of an image with the given records: their number, the records, the code. -/
def dataOf (order : ByteOrder) (rs : List Record) (code : List UInt8) : List UInt8 :=
  order.bytes (UInt32.ofNat rs.length) ++ rs.flatMap (Record.bytes order) ++ code

/-- **An image is read from its records and its code.** -/
theorem decode_eq_ok_iff {data : List UInt8} {image : Image} :
    decode order data = .ok image ↔ ∃ rs : List Record, rs.length < UInt32.size ∧
      rs.map Record.entry = image.jumpTable ∧ data = dataOf order rs image.code := by
  constructor
  · intro h
    obtain ⟨⟨count, c⟩, hcount, h⟩ := bind_eq_ok_iff.mp h
    obtain ⟨⟨es, c'⟩, hes, h⟩ := bind_eq_ok_iff.mp h
    cases h
    have hcount := Cursor.readWord_eq_ok_iff.mp hcount
    obtain ⟨rs, hlength, hentries, htable⟩ := readEntries_eq_ok_iff.mp hes
    rw [hcount.order] at htable
    refine ⟨rs, hlength ▸ count.toNat_lt, hentries, ?_⟩
    rw [dataOf, hlength, UInt32.ofNat_toNat]
    exact (hcount.trans htable).rest
  · rintro ⟨rs, hlt, hentries, rfl⟩
    have hcount : (UInt32.ofNat rs.length).toNat = rs.length := UInt32.toNat_ofNat_of_lt' hlt
    have hafter : (Cursor.start order (dataOf order rs image.code)).After
        (order.bytes (UInt32.ofNat rs.length) ++ rs.flatMap (Record.bytes order))
        ⟨order, _, image.code⟩ := ⟨rfl, rfl, rfl⟩
    obtain ⟨middle, hword, htable⟩ := hafter.split
    have horder : middle.order = order := hword.order
    rw [← horder] at htable
    refine bind_eq_ok_iff.mpr ⟨_, Cursor.readWord_eq_ok_iff.mpr hword, ?_⟩
    dsimp only
    rw [hcount]
    exact bind_eq_ok_iff.mpr
      ⟨_, readEntries_eq_ok_iff.mpr ⟨rs, rfl, hentries, htable⟩, rfl⟩

/-- The code begins behind the count and as many bytes as the records have. -/
theorem codeCursor_dataOf {rs : List Record} (h : rs.length < UInt32.size) (code : List UInt8) :
    Reading.codeCursor order (dataOf order rs code) = .ok ⟨order, 4 + rs.length * entrySize, code⟩ := by
  have hcount : (UInt32.ofNat rs.length).toNat = rs.length := UInt32.toNat_ofNat_of_lt' h
  have htable : (rs.flatMap (Record.bytes order)).length = (UInt32.ofNat rs.length).toNat * entrySize := by
    rw [hcount, Record.length_flatMap_bytes]
  rw [dataOf, Reading.codeCursor_append htable, Record.length_flatMap_bytes]

/-- **The code of an image is what stands behind the jump table.** -/
theorem decode_code_iff {data code : List UInt8} :
    (∃ image, decode order data = .ok image ∧ image.code = code) ↔
      ∃ c, Reading.codeCursor order data = .ok c ∧ c.rest = code := by
  constructor
  · rintro ⟨image, h, rfl⟩
    obtain ⟨rs, hlt, -, rfl⟩ := decode_eq_ok_iff.mp h
    exact ⟨_, codeCursor_dataOf hlt image.code, rfl⟩
  · rintro ⟨c, h, rfl⟩
    obtain ⟨count, table, hlength, hafter⟩ := Reading.codeCursor_eq_ok_iff.mp h
    obtain ⟨rs, hrs, rfl⟩ := Record.exists_flatMap_bytes order hlength
    refine ⟨⟨rs.map Record.entry, c.rest⟩,
      decode_eq_ok_iff.mpr ⟨rs, hrs ▸ count.toNat_lt, rfl, ?_⟩, rfl⟩
    rw [dataOf, hrs, UInt32.ofNat_toNat]
    exact hafter.rest

/-- The code of an image is a part of its data. -/
theorem length_code_le {data : List UInt8} {image : Image} (h : decode order data = .ok image) :
    image.code.length ≤ data.length := by
  obtain ⟨rs, -, -, rfl⟩ := decode_eq_ok_iff.mp h
  rw [dataOf, List.length_append]
  exact Nat.le_add_left _ _

/-- An entry as it is read back: its name is what its slot shows. -/
def storedEntry (e : JumpEntry) : JumpEntry := ⟨slotText (padTo nameSize (storedName e.name)), e.offset⟩

/-- An image is written as the records of its entries and its code. -/
theorem encode_eq_dataOf (image : Image) :
    image.encode order = dataOf order (image.jumpTable.map Record.ofEntry) image.code := by
  rw [encode, dataOf, List.length_map, List.flatMap_map]
  rfl

/-- **A stored image is read back** with its code and the names that its slots show, if its table is not
    too long to be counted. -/
theorem decode_encode {image : Image} (h : image.jumpTable.length < UInt32.size) :
    decode order (image.encode order) = .ok ⟨image.jumpTable.map storedEntry, image.code⟩ := by
  refine decode_eq_ok_iff.mpr ⟨image.jumpTable.map Record.ofEntry, ?_, ?_, encode_eq_dataOf image⟩
  · rwa [List.length_map]
  · rw [List.map_map]
    rfl

theorem exists_decode_encode {image : Image} (h : image.jumpTable.length < UInt32.size) :
    ∃ image', decode order (image.encode order) = .ok image' ∧ image'.code = image.code :=
  ⟨_, decode_encode h, rfl⟩

theorem length_jumpTable_le (image : Image) :
    image.jumpTable.length ≤ (image.encode order).length := by
  rw [encode_eq_dataOf, dataOf, List.length_append, List.length_append,
    Record.length_flatMap_bytes, List.length_map]
  have htable : image.jumpTable.length ≤ image.jumpTable.length * entrySize :=
    Nat.le_mul_of_pos_right _ (by decide)
  omega

end Image

/-! ## Listings -/

namespace Listing

variable {set : InstructionSet} {permissive : Bool} {order : ByteOrder} {data : List UInt8}

/-- Data whose code has no fault is listed as the text of its statements. -/
theorem decompile_eq_ok_iff {t : String} : decompile set permissive order data = .ok t ↔
    (Reading.ofData set permissive order data).fault = none ∧
      t = text set (Reading.ofData set permissive order data).statements := by
  unfold decompile
  dsimp only
  cases (Reading.ofData set permissive order data).fault with
  | none => exact ⟨fun h => ⟨rfl, (Except.ok.inj h).symm⟩, fun h => congrArg _ h.2.symm⟩
  | some e => exact ⟨nofun, nofun⟩

theorem decompile_eq_error_iff {e : ListingError} : decompile set permissive order data = .error e ↔
    (Reading.ofData set permissive order data).fault = some e := by
  unfold decompile
  dsimp only
  cases (Reading.ofData set permissive order data).fault with
  | none => exact ⟨nofun, nofun⟩
  | some e' => exact ⟨fun h => congrArg some (Except.error.inj h), fun h => congrArg _ (Option.some.inj h)⟩

end Listing

end CallScript
