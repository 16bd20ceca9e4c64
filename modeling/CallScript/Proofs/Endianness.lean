import CallScript.Proofs.Recoding
import CallScript.Proofs.RoundTrip
import CallScript.Proofs.Splitting

/-!
# `Proofs.Endianness` — the byte order cannot be observed

Two runs are compared here, one in each byte order. What a call becomes is a `Spelling`: bytes that depend
on the order, but whose number does not. It is read in either order as the same fields, or with the same
fault (`Spelling.ReadsAs` for one argument, `Spelling.Listed` for a statement). One step of both runs is
`Call.encodeArg_alike`, by cases on the type of an argument; whole calls, whole scripts and the reading of
their code follow by induction.

In front of the code are the labels. `Image.decode_encode_mod` says which of them are read back even if they
are too many to be counted in a word; only then does the code begin elsewhere than it was written, and
`Compile.order_unobservable` leaves that case out for listings. It has to: `Compile.exists_order_observed`.
-/

namespace CallScript

/-! ## Spellings -/

/-- Bytes that depend on the byte order, always as many. -/
structure Spelling where
  bytes  : ByteOrder → List UInt8
  size   : Nat
  length : ∀ order, (bytes order).length = size

namespace Spelling

variable {set : InstructionSet}

/-- No bytes. -/
def nil : Spelling := ⟨fun _ => [], 0, fun _ => rfl⟩

/-- Bytes behind others. -/
def append (s t : Spelling) : Spelling where
  bytes order := s.bytes order ++ t.bytes order
  size := s.size + t.size
  length order := by rw [List.length_append, s.length, t.length]

/-- A signed word. -/
def int (w : Int32) : Spelling := ⟨fun order => order.intBytes w, 4, fun order => order.length_intBytes w⟩

/-- The bytes of a field. -/
def ofField (field : Field) : Spelling where
  bytes order := field.bytes order
  size := (field.bytes .little).length
  length order := by
    cases field with
    | text slot => rfl
    | bool | signed | unsigned | enum | operand => simp [Field.bytes]

/-- Bytes are read in either order as one and the same field, or with the same fault. -/
def ReadsAs (set : InstructionSet) (s : Spelling) (type : ArgType) (r : Except Field.Fault Field) : Prop :=
  ∀ order offset rest, Field.read set ⟨order, offset, s.bytes order ++ rest⟩ type
    = r.map fun field => (field, ⟨order, offset + s.size, rest⟩)

/-- The same of several fields: those that can be read, and the fault of the first that cannot. -/
def ReadsAllAs (set : InstructionSet) (s : Spelling) (types : List ArgType) (fields : List Field)
    (r : Except Field.Fault Unit) : Prop :=
  ∀ order offset rest, Field.readAll set ⟨order, offset, s.bytes order ++ rest⟩ types
    = (fields, r.map fun _ => ⟨order, offset + s.size, rest⟩)

/-- The same of a statement, wherever it stands. -/
structure Listed (set : InstructionSet) (s : Spelling) : Prop where
  pos  : 0 < s.size
  read : ∀ permissive offset, ∃ found r, ∀ order rest,
    Statement.read set permissive ⟨order, offset, s.bytes order ++ rest⟩
      = (found, Except.map (fun _ : Unit => ⟨order, offset + s.size, rest⟩) r)

theorem readsAs_of_hasType {field : Field} {type : ArgType} (h : field.HasType set type) :
    (ofField field).ReadsAs set type (.ok field) := by
  intro order offset rest
  refine Field.read_eq_ok_iff.mpr ⟨h, rfl, ?_, rfl⟩
  rw [← (ofField field).length order]
  rfl

/-- The word of a group that is not configured is taken, but not shown. -/
theorem readsAs_of_group?_eq_none {group : String} (h : set.group? group = none) (w : Int32) :
    (int w).ReadsAs set (.enum group) (.error (.unknownGroup group)) := by
  intro order offset rest
  refine Field.read_eq_error_iff.mpr (.group ?_ h)
  show 4 ≤ ((int w).bytes order ++ rest).length
  rw [List.length_append, (int w).length]
  exact Nat.le_add_right 4 _

/-- An enum word is read alike, whether its group is configured or not. -/
theorem exists_readsAs_enum (set : InstructionSet) (group : String) (w : Int32) :
    ∃ r, (int w).ReadsAs set (.enum group) r := by
  cases hgroup : set.group? group with
  | none => exact ⟨_, readsAs_of_group?_eq_none hgroup w⟩
  | some members => exact ⟨_, readsAs_of_hasType (.enum w hgroup)⟩

theorem readsAllAs_nil : nil.ReadsAllAs set [] [] (.ok ()) := by
  intro order offset rest
  rfl

/-- If the first field cannot be read, what is behind it is not looked at. -/
theorem readsAllAs_cons {s t : Spelling} {type : ArgType} {types : List ArgType}
    {r : Except Field.Fault Field} {fields : List Field} {r' : Except Field.Fault Unit}
    (hs : s.ReadsAs set type r) (ht : t.ReadsAllAs set types fields r') :
    ∃ fields' r'', (s.append t).ReadsAllAs set (type :: types) fields' r'' := by
  cases r with
  | error fault =>
      refine ⟨[], .error fault, fun order offset rest => ?_⟩
      rw [append, List.append_assoc, Field.readAll, hs]
      rfl
  | ok field =>
      refine ⟨field :: fields, r', fun order offset rest => ?_⟩
      rw [append, List.append_assoc, Field.readAll, hs]
      simp only [Except.map]
      rw [ht, Nat.add_assoc]
      rfl

/-- An opcode and fields that are read alike make a statement that is read alike. -/
theorem listed_append {i : Instruction} {s : Spelling} {fields : List Field} {r : Except Field.Fault Unit}
    (hi : ∀ permissive j, Statement.instructionFor set permissive i.opcode = some j → j = i)
    (hs : s.ReadsAllAs set i.args fields r) : ((int i.opcode).append s).Listed set := by
  refine ⟨Nat.le_add_right_of_le (by decide : 0 < 4), fun permissive offset => ?_⟩
  have hword : ∀ order rest, Cursor.readInt ⟨order, offset, ((int i.opcode).append s).bytes order ++ rest⟩
      = .ok (i.opcode, ⟨order, offset + 4, s.bytes order ++ rest⟩) := by
    intro order rest
    refine Cursor.readInt_eq_ok_iff.mpr ⟨rfl, ?_, List.append_assoc _ _ _⟩
    rw [ByteOrder.length_intBytes]
  cases hfor : Statement.instructionFor set permissive i.opcode with
  | none =>
      refine ⟨none, .error (.unknownOpcode i.opcode offset), fun order rest => ?_⟩
      rw [Statement.read, hword]
      dsimp only
      rw [hfor]
      rfl
  | some j =>
      obtain rfl := hi permissive j hfor
      refine ⟨some ⟨offset, j, fields⟩, r.mapError (Statement.errorOf j offset), fun order rest => ?_⟩
      rw [Statement.read, hword]
      dsimp only
      rw [hfor]
      dsimp only
      rw [hs, append, ← Nat.add_assoc]
      cases r <;> rfl

end Spelling

/-! ## Writing in either order -/

/-- In every order the same error, or one result with bytes for each order. -/
def Alike {ε α β : Type} (good : α → Prop) (view : α → ByteOrder → β) (x : ByteOrder → Except ε β) :
    Prop :=
  (∃ e, ∀ order, x order = .error e) ∨ ∃ a, good a ∧ ∀ order, x order = .ok (view a order)

namespace Call

variable {set : InstructionSet} {index : Nat}

/-- An argument that is encoded from a word is encoded alike. -/
theorem alike_of_word {arg : Argument} {x : Except CallError Int32} {s : Int32 → Spelling}
    {good : Spelling → Prop}
    (h : ∀ order, encodeArg set order index arg = x.map fun w => (s w).bytes order)
    (hgood : ∀ w, good (s w)) :
    Alike good Spelling.bytes (encodeArg set · index arg) := by
  cases x with
  | error e => exact .inl ⟨e, h⟩
  | ok w => exact .inr ⟨s w, hgood w, h⟩

theorem encodeString_alike (index : Nat) (text : String) (capacity : Nat) :
    (∃ e, encodeString index text (some capacity) = .error e) ∨
      ∃ slot, slot.length = capacity ∧ encodeString index text (some capacity) = .ok slot := by
  cases hcode : encodeString index text (some capacity) with
  | error e => exact .inl ⟨e, rfl⟩
  | ok slot =>
      obtain ⟨_, hslot, -, hfits, rfl⟩ := encodeString_eq_ok_iff.mp hcode
      cases hslot
      refine .inr ⟨_, length_padTo ?_, rfl⟩
      rw [List.length_map]
      exact Nat.le_of_lt hfits

/-- **One argument.** It is encoded alike in either order, and its bytes are read alike. -/
theorem encodeArg_alike (index : Nat) {type : ArgType} {arg fitted : Argument}
    (h : type.fit? arg = some fitted) :
    Alike (fun s : Spelling => ∃ r, s.ReadsAs set type r) Spelling.bytes (encodeArg set · index fitted) := by
  cases type with
  | bool =>
      cases arg <;> cases h
      rename_i value
      refine .inr ⟨.ofField (.bool (if value then 1 else 0)), ⟨_, Spelling.readsAs_of_hasType (.bool _)⟩, ?_⟩
      intro order
      cases value <;> rfl
  | signed width =>
      cases arg <;> cases h
      exact alike_of_word (s := fun w => .ofField (.signed w)) (fun _ => rfl)
        fun w => ⟨_, Spelling.readsAs_of_hasType (.signed w width)⟩
  | unsigned width =>
      cases arg <;> cases h
      rename_i value
      exact .inr ⟨.ofField (.unsigned value.toUInt32), ⟨_, Spelling.readsAs_of_hasType (.unsigned _ width)⟩,
        fun _ => rfl⟩
  | enum group =>
      cases arg <;> cases h
      · -- the group is looked up when the word is read, not when it is written
        exact alike_of_word (fun _ => rfl) (Spelling.exists_readsAs_enum set group)
      · rename_i name
        simp only [Alike, encodeArg]
        cases set.enumValue? name with
        | none => exact .inl ⟨_, fun _ => rfl⟩
        | some w => exact .inr ⟨.int w, Spelling.exists_readsAs_enum set group w, fun _ => rfl⟩
  | fixedString capacity =>
      cases arg <;> cases h
      rename_i text _
      rcases encodeString_alike index text capacity with ⟨e, he⟩ | ⟨slot, hslot, hcode⟩
      · exact .inl ⟨e, fun _ => he⟩
      · exact .inr ⟨.ofField (.text slot), ⟨_, Spelling.readsAs_of_hasType (.text hslot)⟩, fun _ => hcode⟩
  | operand =>
      -- whatever stands in the place of an operand has been fitted to a constant or to a variable
      have htagged : ∀ (tag : UInt32) {arg' : Argument} {x : Except CallError Int32},
          (∀ order, encodeArg set order index arg'
            = x.map fun w => order.bytes tag ++ order.intBytes w) →
          Alike (fun s : Spelling => ∃ r, s.ReadsAs set .operand r) Spelling.bytes
            (encodeArg set · index arg') := by
        intro tag arg' x h
        exact alike_of_word (s := fun w => .ofField (.operand tag w)) h
          fun w => ⟨_, Spelling.readsAs_of_hasType (.operand tag w)⟩
      cases arg <;> cases h
      all_goals first | exact htagged constTag fun _ => rfl | exact htagged varTag fun _ => rfl

/-- **The arguments of a call**, by the recursion of fitting. -/
theorem encodeArgs_alike (set : InstructionSet) (index : Nat) {types : List ArgType}
    {args fitted : List Argument} (hlength : args.length = types.length)
    (h : fitArgs index types args = (fitted, none)) :
    Alike (fun s : Spelling => ∃ fields r, s.ReadsAllAs set types fields r) Spelling.bytes
      (encodeArgs set · index fitted) := by
  induction types generalizing index args fitted with
  | nil =>
      cases List.length_eq_zero_iff.mp hlength
      cases h
      exact .inr ⟨.nil, ⟨[], _, Spelling.readsAllAs_nil⟩, fun _ => rfl⟩
  | cons type types ih =>
      cases args with
      | nil => cases hlength
      | cons arg args =>
          unfold fitArgs at h
          split at h
          · cases h
          · rename_i first hfit
            injection h with hfitted hfault
            subst hfitted
            have hlater := ih (index + 1) (Nat.succ.inj hlength) (Prod.ext rfl hfault)
            -- the first argument that fails decides, and it is the same one in either order
            rcases encodeArg_alike index hfit with ⟨e, he⟩ | ⟨s, ⟨r, hs⟩, hfirst⟩
            · refine .inl ⟨e, fun order => ?_⟩
              dsimp only at he ⊢
              rw [encodeArgs, he]
            · rcases hlater with ⟨e, he⟩ | ⟨t, ⟨fields, r', ht⟩, hlater⟩
              · refine .inl ⟨e, fun order => ?_⟩
                dsimp only at hfirst he ⊢
                rw [encodeArgs, hfirst]
                dsimp only
                rw [he]
                rfl
              · refine .inr ⟨s.append t, Spelling.readsAllAs_cons hs ht, fun order => ?_⟩
                dsimp only at hfirst hlater ⊢
                rw [encodeArgs, hfirst]
                dsimp only
                rw [hlater]
                rfl

end Call

/-- A fragment before an order is chosen. -/
structure Parcel where
  code  : Spelling
  label : Option String

/-- The fragment in an order. -/
def Parcel.fragment (p : Parcel) (order : ByteOrder) : Fragment := ⟨p.code.bytes order, p.label⟩

/-- An opcode is listed as the instruction that a call names, or not at all. -/
theorem Call.eq_of_resolve? {set : InstructionSet} {name : String} {permissive : Bool} {i j : Instruction}
    (hi : set.resolve? name = some i) (hj : Statement.instructionFor set permissive i.opcode = some j) :
    j = i := by
  have hget := InstructionSet.getD_instruction? hj
  rw [(InstructionSet.instructionFor_cases hj).1,
    InstructionSet.getD_instruction? (InstructionSet.instructionFor_of_resolve? hi)] at hget
  exact hget.symm

/-- **A call** is assembled alike in either order, and its code is read alike. -/
theorem Call.assemble_alike (set : InstructionSet) (call : Call) :
    Alike (fun p : Parcel => p.code.Listed set) Parcel.fragment (call.assemble set ·) := by
  simp only [Alike, assemble]
  cases hcheck : call.check set with
  | mk fitted result =>
      cases result with
      | error e => exact .inl ⟨e, fun _ => rfl⟩
      | ok c =>
          -- checking does not know the order, so only the arguments can differ
          obtain ⟨i, hi, hlength, hfit, hchecked⟩ := of_check hcheck
          have hopcode : c.opcode = i.opcode := by rw [eq_of_checked hchecked]
          rcases encodeArgs_alike set 0 hlength hfit with ⟨e, he⟩ | ⟨s, ⟨fields, r, hs⟩, hcode⟩
          · refine .inl ⟨e, fun order => ?_⟩
            dsimp only at he ⊢
            rw [he]
            rfl
          · refine .inr ⟨⟨(Spelling.int i.opcode).append s, c.label⟩, ?_, fun order => ?_⟩
            · exact Spelling.listed_append (fun _ j hj => eq_of_resolve? hi hj) hs
            · dsimp only at hcode ⊢
              rw [hcode, hopcode]
              rfl

/-! ## Scripts -/

namespace Assembly

variable {set : InstructionSet} {index : Nat} {calls : List Call} {ps : List Parcel}

/-- The complaints about calls are the same in either order. -/
theorem failures_order (order order' : ByteOrder) :
    failures set order index calls = failures set order' index calls := by
  induction calls generalizing index with
  | nil => rfl
  | cons call calls ih =>
      rw [failures, failures, ih]
      rcases call.assemble_alike set with ⟨e, he⟩ | ⟨p, -, hp⟩
      · dsimp only at he
        rw [he order, he order']
      · dsimp only at hp
        rw [hp order, hp order']

/-- Calls without complaints become parcels, whatever the order. -/
theorem exists_parcels {order : ByteOrder} (h : failures set order index calls = []) :
    ∃ ps : List Parcel, (∀ p ∈ ps, p.code.Listed set) ∧
      ∀ order', Assembled set order' calls (ps.map (·.fragment order')) := by
  induction calls generalizing index with
  | nil => exact ⟨[], nofun, fun _ => .nil⟩
  | cons call calls ih =>
      rw [failures] at h
      rcases call.assemble_alike set with ⟨e, he⟩ | ⟨p, hlisted, hp⟩
      · dsimp only at he
        rw [he order] at h
        cases h
      · dsimp only at hp
        rw [hp order] at h
        obtain ⟨ps, hps, hassembled⟩ := ih h
        refine ⟨p :: ps, List.forall_mem_cons.mpr ⟨hlisted, hps⟩, ?_⟩
        intro order'
        exact .cons (hp order') (hassembled order')

/-- If each fragment has a label, there are as many labels as fragments. -/
theorem length_jumpTable_of_labels {fs : List Fragment} (h : ∀ f ∈ fs, f.label.isSome) (offset : Nat) :
    (layout offset fs).jumpTable.length = fs.length := by
  induction fs generalizing offset with
  | nil => rfl
  | cons f fs ih =>
      obtain ⟨label, hlabel⟩ := Option.isSome_iff_exists.mp (h f List.mem_cons_self)
      have hlater := ih (fun g hg => h g (List.mem_cons_of_mem f hg)) (offset + f.code.length)
      rw [layout, List.length_append, hlater, hlabel, List.length_cons, Nat.add_comm]
      rfl

/-- The jump table does not depend on the order, since the sizes of the parcels do not. -/
theorem jumpTable_layout_order (ps : List Parcel) (order order' : ByteOrder) (offset : Nat) :
    (layout offset (ps.map (·.fragment order))).jumpTable
      = (layout offset (ps.map (·.fragment order'))).jumpTable := by
  induction ps generalizing offset with
  | nil => rfl
  | cons p ps ih =>
      rw [List.map_cons, List.map_cons, layout, layout]
      dsimp only
      have hlength : ∀ o, (p.fragment o).code.length = p.code.size := p.code.length
      rw [hlength order, hlength order', ih]
      rfl

theorem code_layout_parcels (order : ByteOrder) (offset : Nat) :
    (layout offset (ps.map (·.fragment order))).code = ps.flatMap fun p => p.code.bytes order := by
  rw [layout_code, List.flatMap_map]
  rfl

theorem length_code_order (order order' : ByteOrder) :
    (ps.flatMap fun p => p.code.bytes order).length = (ps.flatMap fun p => p.code.bytes order').length := by
  induction ps with
  | nil => rfl
  | cons p ps ih =>
      rw [List.flatMap_cons, List.flatMap_cons, List.length_append, List.length_append, ih, p.code.length,
        p.code.length]

end Assembly

/-- **Code is read alike in either order**: the same statements, and the same fault. By induction over the
    parcels; the first statement that cannot be read ends both runs. -/
theorem Reading.ofCode_order {set : InstructionSet} {permissive : Bool} {ps : List Parcel}
    (h : ∀ p ∈ ps, p.code.Listed set) (order order' : ByteOrder) (offset : Nat) :
    ofCode set permissive ⟨order, offset, ps.flatMap fun p => p.code.bytes order⟩
      = ofCode set permissive ⟨order', offset, ps.flatMap fun p => p.code.bytes order'⟩ := by
  induction ps generalizing offset with
  | nil => rw [ofCode_of_end rfl, ofCode_of_end rfl]
  | cons p ps ih =>
      obtain ⟨hp, hps⟩ := List.forall_mem_cons.mp h
      obtain ⟨found, r, hread⟩ := hp.read permissive offset
      have hne : ∀ o, p.code.bytes o ++ (ps.flatMap fun p => p.code.bytes o) ≠ [] := by
        intro o hnil
        have hlength := congrArg List.length hnil
        have hpos := hp.pos
        rw [List.length_append, p.code.length, List.length_nil] at hlength
        omega
      rw [List.flatMap_cons, List.flatMap_cons, ofCode_of_ne_nil (hne order), ofCode_of_ne_nil (hne order'),
        hread, hread]
      cases r with
      | error e => rfl
      | ok _ =>
          dsimp only [Except.map]
          rw [ih hps]

namespace Image

variable {order : ByteOrder}

/-- What is read of a stored image even if its entries are too many to be counted: as many of them as the
    count says. -/
theorem decode_encode_mod (order : ByteOrder) (image : Image) : ∃ code, decode order (image.encode order)
    = .ok ⟨(image.jumpTable.take (image.jumpTable.length % UInt32.size)).map storedEntry, code⟩ := by
  have hlt : image.jumpTable.length % UInt32.size < UInt32.size := Nat.mod_lt _ (by decide)
  have hle : image.jumpTable.length % UInt32.size ≤ image.jumpTable.length := Nat.mod_le _ _
  refine ⟨((image.jumpTable.drop (image.jumpTable.length % UInt32.size)).map Record.ofEntry).flatMap
    (Record.bytes order) ++ image.code, decode_eq_ok_iff.mpr
    ⟨(image.jumpTable.take (image.jumpTable.length % UInt32.size)).map Record.ofEntry, ?_, ?_, ?_⟩⟩
  · rw [List.length_map, List.length_take, Nat.min_eq_left hle]
    exact hlt
  · rw [List.map_map]
    rfl
  · have hcount : UInt32.ofNat (image.jumpTable.length % UInt32.size) = UInt32.ofNat image.jumpTable.length :=
      UInt32.toNat_inj.mp (by simp [UInt32.toNat_ofNat', UInt32.size])
    rw [encode_eq_dataOf, dataOf, dataOf, List.length_map, List.length_map, List.length_take,
      Nat.min_eq_left hle, hcount, List.append_assoc, List.append_assoc,
      ← List.append_assoc (List.flatMap _ _), ← List.flatMap_append, ← List.map_append, List.take_append_drop]

/-- The names and offsets of a stored jump table are listed alike in either order. -/
theorem labels_encode_order {image image' : Image} (h : image.jumpTable = image'.jumpTable)
    (order order' : ByteOrder) :
    Listing.labels order (image.encode order) = Listing.labels order' (image'.encode order') := by
  obtain ⟨code, hdecode⟩ := decode_encode_mod order image
  obtain ⟨code', hdecode'⟩ := decode_encode_mod order' image'
  rw [Listing.labels, Listing.labels, hdecode, hdecode', h]

/-- The code of a stored image begins at the same offset in either order. -/
theorem codeCursor_encode (order : ByteOrder) {image : Image} (h : image.jumpTable.length < UInt32.size) :
    Reading.codeCursor order (image.encode order)
      = .ok ⟨order, 4 + image.jumpTable.length * entrySize, image.code⟩ := by
  have hlength : (image.jumpTable.map Record.ofEntry).length = image.jumpTable.length := List.length_map _
  rw [encode_eq_dataOf, codeCursor_dataOf (hlength ▸ h), hlength]

theorem length_encode (image : Image) :
    (image.encode order).length = 4 + image.jumpTable.length * entrySize + image.code.length := by
  rw [encode_eq_dataOf, length_dataOf, List.length_map]

end Image

namespace Compile

variable {set : InstructionSet} {text : String}

/-- The two images that a text describes: one jump table, and the code of the same parcels. -/
theorem image_cases (set : InstructionSet) (text : String) :
    (∃ e, ∀ order, image set order text = .error e) ∨
      ∃ ps : List Parcel, (∀ p ∈ ps, p.code.Listed set) ∧
        ∀ order, image set order text = .ok (Assembly.layout 0 (ps.map (·.fragment order))) := by
  unfold image
  cases Call.parse text with
  | error e => exact .inl ⟨.parse e, fun _ => rfl⟩
  | ok calls =>
      cases hfailures : Assembly.failures set .little 0 calls with
      | nil =>
          obtain ⟨ps, hps, hassembled⟩ := Assembly.exists_parcels hfailures
          refine .inr ⟨ps, hps, fun order => ?_⟩
          dsimp only
          rw [Assembly.assemble_eq_ok_iff.mpr ⟨_, hassembled order, rfl⟩]
      | cons f fs =>
          refine .inl ⟨.calls (f :: fs), fun order => ?_⟩
          dsimp only
          rw [Assembly.assemble, Assembly.failures_order order .little, hfailures]

/-- **The byte order cannot be observed.** A text fails with the same error in both orders, or it compiles
    to data of the same length. Read in the order it was written in, either data has the same labels and
    lists as the same text, or with the same error, as long as the labels can be counted in a word. -/
theorem order_unobservable (set : InstructionSet) (text : String) :
    (∃ e, compile set .little text = .error e ∧ compile set .big text = .error e) ∨
      ∃ little big, compile set .little text = .ok little ∧ compile set .big text = .ok big ∧
        little.length = big.length ∧ Listing.labels .little little = Listing.labels .big big ∧
        ((∃ script, image set .little text = .ok script ∧ script.jumpTable.length < UInt32.size) →
          ∀ permissive, Listing.decompile set permissive .little little
            = Listing.decompile set permissive .big big) := by
  rcases image_cases set text with ⟨e, he⟩ | ⟨ps, hps, himage⟩
  · refine .inl ⟨e, ?_, ?_⟩
    · rw [compile, he]
      rfl
    · rw [compile, he]
      rfl
  · have htable := Assembly.jumpTable_layout_order ps .little .big 0
    refine .inr ⟨_, _, map_eq_ok_iff.mpr ⟨_, himage .little, rfl⟩, map_eq_ok_iff.mpr ⟨_, himage .big, rfl⟩,
      ?_, Image.labels_encode_order htable .little .big, ?_⟩
    · rw [Image.length_encode, Image.length_encode, htable, Assembly.code_layout_parcels,
        Assembly.code_layout_parcels, Assembly.length_code_order .little .big]
    · rintro ⟨script, hscript, hcount⟩ permissive
      cases hscript.symm.trans (himage .little)
      have hlittle := Image.codeCursor_encode .little hcount
      rw [htable] at hcount
      have hbig := Image.codeCursor_encode .big hcount
      rw [Assembly.code_layout_parcels] at hlittle hbig
      rw [Listing.decompile, Listing.decompile, Reading.ofData_of_codeCursor hlittle,
        Reading.ofData_of_codeCursor hbig, htable, Reading.ofCode_order hps .little .big]

/-- A label, a string, an operand, a truth value and an enum word. -/
theorem order_unobservable_mark :
    image RoundTrip.markSet .little "mark(\"??\", x, true, 4);"
        = .ok ⟨[⟨"??", 0⟩], [1, 0, 0, 0, 63, 63, 0, 0, 2, 0, 0, 0, 3, 0, 0, 0, 1, 0, 0, 0, 4, 0, 0, 0]⟩ ∧
      ∃ little big, compile RoundTrip.markSet .little "mark(\"??\", x, true, 4);" = .ok little ∧
        compile RoundTrip.markSet .big "mark(\"??\", x, true, 4);" = .ok big ∧
        Listing.decompile RoundTrip.markSet false .little little
          = Listing.decompile RoundTrip.markSet false .big big := by
  have himage : image RoundTrip.markSet .little "mark(\"??\", x, true, 4);" = .ok ⟨[⟨"??", 0⟩],
      [1, 0, 0, 0, 63, 63, 0, 0, 2, 0, 0, 0, 3, 0, 0, 0, 1, 0, 0, 0, 4, 0, 0, 0]⟩ := by decide +kernel
  rcases order_unobservable RoundTrip.markSet "mark(\"??\", x, true, 4);" with
    ⟨e, he, -⟩ | ⟨little, big, hlittle, hbig, -, -, hlisted⟩
  · rw [compile, himage] at he
    cases he
  · exact ⟨himage, little, big, hlittle, hbig, hlisted ⟨_, himage, by decide⟩ false⟩

/-! ### Too many labels -/

/-- A statement with the label `??`. -/
def markStatement : Statement :=
  ⟨0, ⟨1, some "mark", [.fixedString 4, .operand, .bool, .enum "color"], .plain⟩,
    [.text [63, 63, 0, 0], .operand 2 3, .bool 1, .enum .empty 4]⟩

/-- What its call becomes. -/
def markFragment (order : ByteOrder) : Fragment :=
  ⟨order.bytes 1 ++ [63, 63, 0, 0] ++ order.bytes 2 ++ order.bytes 3 ++ order.bytes 1 ++ order.bytes 4,
    some "??"⟩

theorem assembled_marks (n : Nat) (order : ByteOrder) :
    Assembly.Assembled RoundTrip.markSet order
      ((List.replicate n markStatement).map (Statement.call RoundTrip.markSet))
      (List.replicate n (markFragment order)) := by
  have hassemble : (markStatement.call RoundTrip.markSet).assemble RoundTrip.markSet order
      = .ok (markFragment order) := by
    cases order <;> decide +kernel
  rw [List.map_replicate]
  induction n with
  | zero => exact .nil
  | succ n ih => exact .cons hassemble ih

/-- If there are so many labels `??` that their count is stored as zero, the first of them is read as code.
    Its name begins with an opcode that depends on the byte order and is not configured. -/
theorem decompile_marks {n : Nat} (hcount : UInt32.ofNat (n + 1) = 0) (order : ByteOrder) :
    ∃ data, compile RoundTrip.markSet order
        (Listing.text RoundTrip.markSet (List.replicate (n + 1) markStatement)) = .ok data ∧
      Listing.decompile RoundTrip.markSet false order data
        = .error (.unknownOpcode (order.word 63 63 0 0).toInt32 4) := by
  refine ⟨_, Listing.compile_text_iff.mpr ⟨nofun, _, assembled_marks (n + 1) order, rfl⟩, ?_⟩
  have hlabels : (Assembly.layout 0 (List.replicate (n + 1) (markFragment order))).jumpTable.length
      = n + 1 := by
    rw [Assembly.length_jumpTable_of_labels, List.length_replicate]
    intro f hf
    rw [List.eq_of_mem_replicate hf]
    rfl
  -- a count of zero, no table, and then the name of the first label
  obtain ⟨rest, hrest⟩ : ∃ rest,
      (Assembly.layout 0 (List.replicate (n + 1) (markFragment order))).encode order
        = order.bytes 0 ++ [] ++ 63 :: 63 :: 0 :: 0 :: rest := by
    rw [Image.encode, hlabels, hcount, List.replicate_succ, Assembly.layout, List.append_nil,
      List.append_assoc]
    exact ⟨_, rfl⟩
  rw [Listing.decompile_eq_error_iff, hrest, Reading.ofData_of_codeCursor (Reading.codeCursor_append rfl),
    Reading.ofCode_of_ne_nil (List.cons_ne_nil _ _)]
  cases order <;> rfl

/-- **The labels have to be counted in a word.** There is a text with one label too many for that, and what
    it compiles to is not listed alike in both orders. -/
theorem exists_order_observed : ∃ text little big,
    compile RoundTrip.markSet .little text = .ok little ∧ compile RoundTrip.markSet .big text = .ok big ∧
      Listing.decompile RoundTrip.markSet false .little little
        ≠ Listing.decompile RoundTrip.markSet false .big big := by
  -- the labels are counted without building the list
  have hcount : UInt32.ofNat (4294967295 + 1) = 0 := by decide
  obtain ⟨little, hlittle, hlisted⟩ := decompile_marks hcount .little
  obtain ⟨big, hbig, hlisted'⟩ := decompile_marks hcount .big
  refine ⟨_, little, big, hlittle, hbig, ?_⟩
  rw [hlisted, hlisted']
  decide

end Compile
end CallScript
