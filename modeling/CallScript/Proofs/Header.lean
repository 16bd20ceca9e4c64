import CallScript.Proofs.RoundTrip
import CallScript.Proofs.Splitting

/-!
# `Proofs.Header` — listing code behind a jump table

The header is read in two ways: entry by entry when an image is read, and all at once, by its announced
size, when the code behind it is listed. Both take the same headers and find the same code
(`Image.decode_code_iff`, for every announced number of entries). So a listing depends on the table through
its size alone: `Listing.decompile_behind_table` says that the code is listed as if it stood behind an empty
table, except that the offsets in an error are further on by the size of the table.

What is compared are two readings of the same code at different offsets. Splitting the code does not look
at offsets, and a defect is the same defect further on (`Statement.Defect.shift`).
-/

namespace CallScript

/-! ## Errors further on -/

/-- A refused read, `n` bytes further on. -/
def Truncation.shift (n : Nat) (t : Truncation) : Truncation := { t with offset := t.offset + n }

/-- An error of listing with every offset in it `n` greater. -/
def ListingError.shift (n : Nat) : ListingError → ListingError
  | malformed cause => malformed (cause.shift n)
  | unknownOpcode opcode offset => unknownOpcode opcode (offset + n)
  | unknownGroup opcode group => unknownGroup opcode group
  | cutShort name offset cause => cutShort name (offset + n) (cause.shift n)

/-- A fault in a field, `n` bytes further on. -/
def Field.Fault.shift (n : Nat) : Field.Fault → Field.Fault
  | truncated cause => truncated (cause.shift n)
  | unknownGroup group => unknownGroup group

theorem Field.Defect.shift {set : InstructionSet} {offset : Nat} {left : List UInt8} {type : ArgType}
    {fault : Field.Fault} (h : Field.Defect set offset left type fault) (n : Nat) :
    Field.Defect set (offset + n) left type (fault.shift n) := by
  cases h with
  | cut hpiece hleft => exact .cut hpiece hleft
  | tag hleft => exact .tag hleft
  | word htag hleft =>
      rw [Fault.shift, Truncation.shift, Nat.add_right_comm]
      exact .word htag hleft
  | group hword hnone => exact .group hword hnone

theorem Field.FirstDefect.shift {set : InstructionSet} {offset : Nat} {bs : List UInt8}
    {types : List ArgType} {fault : Field.Fault} (h : Field.FirstDefect set offset bs types fault) (n : Nat) :
    Field.FirstDefect set (offset + n) bs types (fault.shift n) := by
  obtain ⟨before, type, after, args, left, htypes, hbs, hlength, hlistable, hdefect⟩ := h
  refine ⟨before, type, after, args, left, htypes, hbs, hlength, hlistable, ?_⟩
  rw [Nat.add_right_comm]
  exact hdefect.shift n

/-- **A defect is the same defect further on.** -/
theorem Statement.Defect.shift {set : InstructionSet} {permissive : Bool} {order : ByteOrder} {offset : Nat}
    {bs : List UInt8} {e : ListingError} (h : Statement.Defect set permissive order offset bs e) (n : Nat) :
    Statement.Defect set permissive order (offset + n) bs (e.shift n) := by
  cases h with
  | opcode hsome hshort => exact .opcode hsome hshort
  | undefined hnone hstrict => exact .undefined hnone hstrict
  | cutShort hi hargs =>
      have hargs := hargs.shift n
      rw [Nat.add_right_comm] at hargs
      exact .cutShort hi hargs
  | unknownGroup hi hargs =>
      have hargs := hargs.shift n
      rw [Nat.add_right_comm] at hargs
      exact .unknownGroup hi hargs

/-! ## Code further on -/

namespace Reading

variable {set : InstructionSet} {permissive : Bool} {order : ByteOrder} {code : List UInt8}

/-- **The fault of code is the same fault further on.** -/
theorem fault_shift (offset n : Nat) :
    (ofCode set permissive ⟨order, offset + n, code⟩).fault
      = (ofCode set permissive ⟨order, offset, code⟩).fault.map (ListingError.shift n) := by
  cases h : (ofCode set permissive ⟨order, offset, code⟩).fault with
  | none =>
      have hsplits : ∃ chunks, Splits set permissive order chunks code := fault_eq_none_iff.mp h
      exact fault_eq_none_iff.mpr hsplits
  | some e =>
      obtain ⟨chunks, before, rest, hcode, hchunks, hdefect⟩ := fault_eq_some_iff.mp h
      have hdefect := hdefect.shift n
      rw [Nat.add_right_comm] at hdefect
      exact fault_eq_some_iff.mpr ⟨chunks, before, rest, hcode, hchunks, hdefect⟩

/-- Code without a fault is listed alike wherever it stands. -/
theorem text_shift (offset offset' : Nat)
    (h : (ofCode set permissive ⟨order, offset, code⟩).fault = none) :
    Listing.text set (ofCode set permissive ⟨order, offset', code⟩).statements
      = Listing.text set (ofCode set permissive ⟨order, offset, code⟩).statements := by
  obtain ⟨hwf, hcode⟩ := of_ofCode h
  generalize (ofCode set permissive ⟨order, offset, code⟩).statements = ss at hwf hcode ⊢
  have hcode : code = ss.flatMap (Statement.bytes order) := hcode
  rw [hcode, ofCode_bytes hwf]
  exact Listing.text_relocate offset' ss

end Reading

/-! ## Main result -/

namespace Listing

variable {set : InstructionSet} {permissive : Bool} {order : ByteOrder}

/-- Data that is read as an image is listed as its code would be behind an empty table, with the offsets
    of errors moved on by the size of its table. -/
theorem decompile_of_decode_ok {data : List UInt8} {image : Image} (h : Image.decode order data = .ok image) :
    decompile set permissive order data
      = (decompile set permissive order (order.bytes 0 ++ image.code)).mapError
          (ListingError.shift (image.jumpTable.length * Image.entrySize)) := by
  obtain ⟨rs, hcount, hentries, rfl⟩ := Image.decode_eq_ok_iff.mp h
  have hlength : image.jumpTable.length = rs.length := by rw [← hentries, List.length_map]
  have hempty : Reading.codeCursor order (order.bytes 0 ++ [] ++ image.code) = .ok ⟨order, 4, image.code⟩ :=
    Reading.codeCursor_append rfl
  rw [List.append_nil] at hempty
  have hread : Reading.ofData set permissive order (Image.dataOf order rs image.code)
      = Reading.ofCode set permissive ⟨order, 4 + rs.length * Image.entrySize, image.code⟩ :=
    Reading.ofData_of_codeCursor (Image.codeCursor_dataOf hcount image.code)
  have hreadEmpty : Reading.ofData set permissive order (order.bytes 0 ++ image.code)
      = Reading.ofCode set permissive ⟨order, 4, image.code⟩ := Reading.ofData_of_codeCursor hempty
  have hshift : (Reading.ofData set permissive order (Image.dataOf order rs image.code)).fault
      = (Reading.ofData set permissive order (order.bytes 0 ++ image.code)).fault.map
          (ListingError.shift (rs.length * Image.entrySize)) := by
    rw [hread, hreadEmpty, Reading.fault_shift]
  rw [hlength]
  cases hfault : (Reading.ofData set permissive order (order.bytes 0 ++ image.code)).fault with
  | some e =>
      rw [hfault] at hshift
      rw [decompile_eq_error_iff.mpr hshift, decompile_eq_error_iff.mpr hfault]
      rfl
  | none =>
      rw [hfault] at hshift
      rw [decompile_eq_ok_iff.mpr ⟨hshift, rfl⟩, decompile_eq_ok_iff.mpr ⟨hfault, rfl⟩, hread, hreadEmpty]
      rw [hreadEmpty] at hfault
      exact congrArg Except.ok (Reading.text_shift 4 _ hfault)

/-- **The two readers of the header agree.** Data that cannot be read as an image cannot be listed. Other
    data is listed as its code would be behind an empty table, with every offset in an error greater by the
    size of its table. So the text does not depend on what is in the table. -/
theorem decompile_behind_table (set : InstructionSet) (permissive : Bool) (order : ByteOrder)
    (data : List UInt8) :
    (∀ t, Image.decode order data = .error t →
      ∃ t', decompile set permissive order data = .error (.malformed t')) ∧
    (∀ image, Image.decode order data = .ok image →
      decompile set permissive order data
        = (decompile set permissive order (order.bytes 0 ++ image.code)).mapError
            (ListingError.shift (36 * image.jumpTable.length))) ∧
    (∀ data' image image', Image.decode order data = .ok image → Image.decode order data' = .ok image' →
      image.code = image'.code →
      ∀ t, decompile set permissive order data = .ok t ↔ decompile set permissive order data' = .ok t) := by
  refine ⟨fun t h => ?_, fun image h => ?_, fun data' image image' h h' hcode t => ?_⟩
  · cases hcursor : Reading.codeCursor order data with
    | error t' => exact ⟨t', by rw [decompile, Reading.ofData, hcursor]⟩
    | ok c =>
        -- where the code can be found, the table can be read
        obtain ⟨image, hdecode, -⟩ := Image.decode_code_iff.mpr ⟨c, hcursor, rfl⟩
        rw [h] at hdecode
        cases hdecode
  · rw [decompile_of_decode_ok h, Nat.mul_comm]
    rfl
  · rw [decompile_of_decode_ok h, decompile_of_decode_ok h', mapError_eq_ok_iff, mapError_eq_ok_iff, hcode]

/-- A gate that is cut off, behind an empty table and behind one with an entry, and a table that is cut
    off itself. -/
theorem decompile_behind_table_gate :
    decompile gateSet false .little (ByteOrder.little.bytes 0 ++ [2, 0, 0, 0, 2, 0, 0, 0, 9, 9])
      = .error (.cutShort "gate" 4 ⟨12, 4, 2⟩) ∧
    decompile gateSet false .little (gateData [2, 0, 0, 0, 2, 0, 0, 0, 9, 9])
      = .error (.cutShort "gate" 40 ⟨48, 4, 2⟩) ∧
    ∃ t, decompile gateSet false .little [3, 0, 0, 0, 0, 0, 0, 0] = .error (.malformed t) := by
  have hempty : decompile gateSet false .little (ByteOrder.little.bytes 0 ++ [2, 0, 0, 0, 2, 0, 0, 0, 9, 9])
      = .error (.cutShort "gate" 4 ⟨12, 4, 2⟩) := by decide +kernel
  have hdecode : Image.decode .little (gateData [2, 0, 0, 0, 2, 0, 0, 0, 9, 9])
      = .ok ⟨[⟨"", 0⟩], [2, 0, 0, 0, 2, 0, 0, 0, 9, 9]⟩ := by decide +kernel
  have hcut : Image.decode .little [3, 0, 0, 0, 0, 0, 0, 0] = .error ⟨4, 32, 4⟩ := by decide +kernel
  have hagree := (decompile_behind_table gateSet false .little _).2.1 _ hdecode
  rw [hempty] at hagree
  exact ⟨hempty, hagree, (decompile_behind_table gateSet false .little _).1 _ hcut⟩

end Listing
end CallScript
