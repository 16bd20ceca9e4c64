import CallScript.Proofs.Splitting

/-!
# `Proofs.Truncation` — which data has room for its jump table, and where other data ends

The number of entries is announced in front, whatever the length of the data, so a table can be cut off
anywhere: in front of a name, inside one, in front of an offset or inside one. A single entry is refused for
its name or for its offset (`Image.readEntry_eq_error_iff`). A table is refused where the data ends, and how
many whole entries stand in front of that place is a matter of division
(`Image.readEntries_eq_error_iff`, by induction on the number of entries). `Image.decode_header` is what
follows for the data as a whole.
-/

namespace CallScript

/-- Of what is ahead, the bytes that are read are gone. -/
theorem Cursor.After.remaining {c next : Cursor} {bs : List UInt8} (h : c.After bs next) :
    c.remaining = bs.length + next.remaining := by
  rw [Cursor.remaining, Cursor.remaining, h.rest, List.length_append]

namespace Image

variable {order : ByteOrder} {data : List UInt8} {c : Cursor} {t : Truncation}

/-- The refusal of an entry at `offset`, of which only `left` bytes are there. -/
def cutEntry (offset left : Nat) : Truncation :=
  if left < nameSize then ⟨offset, nameSize, left⟩ else ⟨offset + nameSize, 4, left - nameSize⟩

/-- An entry that is all there is read. -/
theorem exists_readEntry (h : entrySize ≤ c.remaining) :
    ∃ e next, readEntry c = .ok (e, next) ∧ next.offset = c.offset + entrySize ∧
      c.remaining = entrySize + next.remaining := by
  have htake : (c.rest.take entrySize).length = entrySize := by
    rw [List.length_take]
    exact Nat.min_eq_left h
  obtain ⟨r, hr⟩ := Record.exists_bytes c.order htake
  have hafter : c.After (r.bytes c.order) ⟨c.order, c.offset + entrySize, c.rest.drop entrySize⟩ := by
    rw [← hr]
    refine ⟨rfl, ?_, (List.take_append_drop _ _).symm⟩
    rw [htake]
  have hremaining := hafter.remaining
  rw [Record.length_bytes] at hremaining
  exact ⟨r.entry, _, readEntry_eq_ok_iff.mpr ⟨r, rfl, hafter⟩, rfl, hremaining⟩

/-- **An entry is refused for its name or for its offset**, whichever is cut off. -/
theorem readEntry_eq_error_iff :
    readEntry c = .error t ↔ c.remaining < entrySize ∧ t = cutEntry c.offset c.remaining := by
  by_cases hname : c.remaining < nameSize
  · have hentry : c.remaining < entrySize := Nat.lt_of_lt_of_le hname (Nat.le_add_right _ _)
    have hread : readEntry c = .error (c.truncation nameSize) := by
      rw [readEntry, Cursor.read_eq_error hname]
      rfl
    rw [hread, cutEntry, if_pos hname]
    simp [hentry, Cursor.truncation, eq_comm]
  · -- the name is there, so all depends on the offset behind it
    have hslot := Cursor.read_eq_ok (Nat.le_of_not_lt hname)
    have hword : readEntry c = .error t ↔ Cursor.readWord
        { c with offset := c.offset + nameSize, rest := c.rest.drop nameSize } = .error t := by
      rw [readEntry, hslot, bind_eq_error_iff]
      simp only [reduceCtorEq, Except.ok.injEq, exists_eq_left', false_or]
      exact bind_pure_eq_error_iff
    have hleft : c.remaining - nameSize < 4 ↔ c.remaining < entrySize := by
      rw [entrySize]
      omega
    rw [hword, Cursor.readWord_eq_error_iff, List.length_drop, cutEntry, if_neg hname, ← hleft]
    rfl

/-- **A table is refused where the data ends**: behind as many whole entries as there are, in the one that is
    cut off. -/
theorem readEntries_eq_error_iff {n : Nat} :
    readEntries n c = .error t ↔ c.remaining < n * entrySize ∧
      t = cutEntry (c.offset + c.remaining / entrySize * entrySize) (c.remaining % entrySize) := by
  induction n generalizing c with
  | zero => simp [readEntries]
  | succ n ih =>
      rw [readEntries, bind_eq_error_iff]
      by_cases hentry : c.remaining < entrySize
      · -- the first entry is the one that is cut off
        have hlt : c.remaining < (n + 1) * entrySize := by
          rw [Nat.succ_mul]
          omega
        have hread := readEntry_eq_error_iff.mpr ⟨hentry, rfl⟩
        rw [hread, Nat.div_eq_of_lt hentry, Nat.mod_eq_of_lt hentry, Nat.zero_mul, Nat.add_zero]
        simp [hlt, eq_comm]
      · -- the first entry is there, so the refusal is that of the entries behind it
        obtain ⟨e, next, hread, hoffset, hremaining⟩ := exists_readEntry (Nat.le_of_not_lt hentry)
        have hwhole : c.remaining / entrySize = next.remaining / entrySize + 1 := by
          rw [hremaining, Nat.add_comm, Nat.add_div_right _ (by decide)]
        have hleft : c.remaining % entrySize = next.remaining % entrySize := by
          rw [hremaining, Nat.add_mod_left]
        have hplace : c.offset + (next.remaining / entrySize + 1) * entrySize
            = next.offset + next.remaining / entrySize * entrySize := by
          rw [hoffset, Nat.succ_mul]
          omega
        have hroom : c.remaining < (n + 1) * entrySize ↔ next.remaining < n * entrySize := by
          rw [hremaining, Nat.succ_mul]
          omega
        rw [hwhole, hleft, hplace, hroom, ← ih, hread]
        simp only [reduceCtorEq, Except.ok.injEq, exists_eq_left', false_or]
        exact bind_pure_eq_error_iff

/-- **Data is refused as an image** if it has no room for its first word, or if that word announces more
    entries than there is room for. -/
theorem decode_eq_error_iff :
    decode order data = .error t ↔
      data.length < 4 ∧ t = ⟨0, 4, data.length⟩ ∨
      ∃ count : UInt32, order.bytes count <+: data ∧ data.length - 4 < count.toNat * entrySize ∧
        t = cutEntry (4 + (data.length - 4) / entrySize * entrySize) ((data.length - 4) % entrySize) := by
  -- behind the first word, the cursor stands at offset 4 and the rest of the data is ahead
  have hbehind : ∀ {count : UInt32} {c : Cursor}, (Cursor.start order data).After (order.bytes count) c →
      c.offset = 4 ∧ c.remaining = data.length - 4 := by
    intro count c hafter
    have hoffset : c.offset = 0 + (order.bytes count).length := hafter.offset
    have hremaining : data.length = (order.bytes count).length + c.remaining := hafter.remaining
    rw [ByteOrder.length_bytes] at hoffset hremaining
    omega
  rw [decode, bind_eq_error_iff, Cursor.readWord_eq_error_iff]
  refine or_congr Iff.rfl ?_
  constructor
  · rintro ⟨⟨count, c⟩, hword, h⟩
    have hafter := Cursor.readWord_eq_ok_iff.mp hword
    obtain ⟨hoffset, hremaining⟩ := hbehind hafter
    obtain ⟨hlt, ht⟩ := readEntries_eq_error_iff.mp (bind_pure_eq_error_iff.mp h)
    rw [hremaining] at hlt ht
    rw [hoffset] at ht
    exact ⟨count, ⟨c.rest, hafter.rest.symm⟩, hlt, ht⟩
  · rintro ⟨count, ⟨rest, hdata⟩, hlt, ht⟩
    have hafter : (Cursor.start order data).After (order.bytes count) ⟨order, 4, rest⟩ := by
      refine ⟨rfl, ?_, hdata.symm⟩
      rw [ByteOrder.length_bytes]
      rfl
    obtain ⟨-, hremaining⟩ := hbehind hafter
    rw [← hremaining] at hlt ht
    exact ⟨(count, _), Cursor.readWord_eq_ok_iff.mpr hafter,
      bind_pure_eq_error_iff.mpr (readEntries_eq_error_iff.mpr ⟨hlt, ht⟩)⟩

/-! ## Main result -/

/-- The first word of data. -/
theorem exists_first_word (order : ByteOrder) (h : 4 ≤ data.length) :
    ∃ count : UInt32, order.bytes count <+: data := by
  have htake : (data.take 4).length = 4 := by
    rw [List.length_take]
    exact Nat.min_eq_left h
  obtain ⟨count, hcount⟩ := order.exists_bytes htake
  exact ⟨count, hcount ▸ List.take_prefix 4 data⟩

/-- Data has one first word. -/
theorem first_word_unique {count count' : UInt32} (h : order.bytes count <+: data)
    (h' : order.bytes count' <+: data) : count = count' := by
  have hlength : (order.bytes count).length = (order.bytes count').length := by
    rw [ByteOrder.length_bytes, ByteOrder.length_bytes]
  have hfirst := List.prefix_of_prefix_length_le h h' (Nat.le_of_eq hlength)
  exact ByteOrder.bytes_inj (hfirst.eq_of_length hlength)

/-- **Data is an image exactly if it has room for what it announces.** It needs a first word, and behind it
    as many entries of 36 bytes as that word says. Otherwise it is refused where it ends: in its first word,
    or in the name or in the offset of the entry that is cut off, behind all the entries that are there. -/
theorem decode_header (order : ByteOrder) (data : List UInt8) :
    ((∃ image, decode order data = .ok image) ↔
      ∃ count : UInt32, order.bytes count <+: data ∧ 4 + 36 * count.toNat ≤ data.length) ∧
    (data.length < 4 → decode order data = .error ⟨0, 4, data.length⟩) ∧
    ∀ count : UInt32, order.bytes count <+: data → data.length < 4 + 36 * count.toNat →
      decode order data = .error
        (if (data.length - 4) % 36 < 32 then
          ⟨4 + 36 * ((data.length - 4) / 36), 32, (data.length - 4) % 36⟩
        else
          ⟨4 + 36 * ((data.length - 4) / 36) + 32, 4, (data.length - 4) % 36 - 32⟩) := by
  have hshort : data.length < 4 → decode order data = .error ⟨0, 4, data.length⟩ := by
    intro hlt
    exact decode_eq_error_iff.mpr (.inl ⟨hlt, rfl⟩)
  have hcut : ∀ count : UInt32, order.bytes count <+: data → data.length < 4 + 36 * count.toNat →
      decode order data = .error
        (cutEntry (4 + (data.length - 4) / entrySize * entrySize) ((data.length - 4) % entrySize)) := by
    intro count hcount hlt
    have hle := hcount.length_le
    rw [ByteOrder.length_bytes] at hle
    refine decode_eq_error_iff.mpr (.inr ⟨count, hcount, ?_, rfl⟩)
    rw [entrySize, nameSize]
    omega
  refine ⟨⟨?_, ?_⟩, hshort, ?_⟩
  · rintro ⟨image, himage⟩
    have hlong : 4 ≤ data.length := by
      by_contra hlt
      rw [hshort (Nat.lt_of_not_le hlt)] at himage
      cases himage
    obtain ⟨count, hcount⟩ := exists_first_word order hlong
    refine ⟨count, hcount, ?_⟩
    by_contra hlt
    rw [hcut count hcount (Nat.lt_of_not_le hlt)] at himage
    cases himage
  · rintro ⟨count, hcount, hroom⟩
    cases hdecode : decode order data with
    | ok image => exact ⟨image, rfl⟩
    | error t =>
        exfalso
        rcases decode_eq_error_iff.mp hdecode with ⟨hlt, -⟩ | ⟨count', hcount', hlt, -⟩
        · omega
        · rw [← first_word_unique hcount hcount', entrySize, nameSize] at hlt
          omega
  · intro count hcount hlt
    rw [hcut count hcount hlt, cutEntry, entrySize, nameSize, Nat.mul_comm 36]

/-- Three entries are announced: room for one and for the name of another, room for all, and no word. -/
theorem decode_header_short :
    decode .big ([0, 0, 0, 3] ++ List.replicate 70 65) = .error ⟨72, 4, 2⟩ ∧
    (∃ image, decode .big ([0, 0, 0, 3] ++ List.replicate 108 65) = .ok image) ∧
    decode .big [0, 0, 3] = .error ⟨0, 4, 3⟩ := by
  refine ⟨?_, ?_, ?_⟩
  · exact (decode_header .big ([0, 0, 0, 3] ++ List.replicate 70 65)).2.2 3 (by decide) (by decide)
  · exact (decode_header .big ([0, 0, 0, 3] ++ List.replicate 108 65)).1.mpr ⟨3, by decide, by decide⟩
  · exact (decode_header .big [0, 0, 3]).2.1 (by decide)

end Image
end CallScript
