import CallScript.Proofs.Code
import CallScript.Proofs.Utf8

/-!
# `Proofs.Recoding` — storing what was read, and reading what was stored

An image and its data say the same up to the names in the jump table. Writing cuts a name that is too
long, reading stops at the first zero and replaces what is not text; both leave the size of a record, its
offset and everything outside the slots alone. `encode_decode_canonical` says when nothing is lost:
names without a zero that fit are read back, and slots that are canonical are written back; whatever the
slots hold, storing an image again changes no byte outside of them.

What is lost is lost at once. A name that was read from a slot is stored and read again as it is
(`storedEntry_storedEntry`), although its bytes may be cut a second time, so that an image settles after
it has been stored and read once (`recode_stable`).
-/

namespace CallScript
namespace Image

variable {order : ByteOrder} {rs : List Record} {code : List UInt8}

/-! ## Names in their slots -/

theorem takeWhile_padTo (size : Nat) (bs : List UInt8) :
    (padTo size bs).takeWhile (· ≠ 0) = bs.takeWhile (· ≠ 0) := by
  have hzeros : ∀ n, (List.replicate n (0 : UInt8)).takeWhile (· ≠ 0) = [] := by
    intro n
    rw [List.takeWhile_replicate]
    rfl
  rw [padTo, List.takeWhile_append, hzeros, List.append_nil]
  split
  · rename_i hlength
    exact ((List.takeWhile_prefix _).eq_of_length hlength).symm
  · rfl

/-- **A name is shown up to its first zero, and of that as much as its slot has room for.** -/
theorem slotText_storedName (name : String) :
    slotText (padTo nameSize (storedName name))
      = String.ofList (Utf8.cut (nameSize - 1) (name.toList.takeWhile (· ≠ '\x00'))) := by
  rw [slotText, takeWhile_padTo, storedName, ← List.take_takeWhile, Utf8.takeWhile_encode, Utf8.cut]

theorem takeWhile_zero_eq_self_iff {cs : List Char} :
    cs.takeWhile (· ≠ '\x00') = cs ↔ '\x00' ∉ cs := by
  rw [List.takeWhile_eq_self_iff]
  simp only [decide_eq_true_eq, ne_eq, List.forall_mem_ne']

theorem zero_notMem_takeWhile (cs : List Char) : '\x00' ∉ cs.takeWhile (· ≠ '\x00') := by
  intro hmem
  exact absurd (List.mem_takeWhile_imp hmem) (by decide)

/-- A name without a zero that leaves room for one is shown as it is. -/
theorem storedEntry_eq_self {e : JumpEntry} (hzero : '\x00' ∉ e.name.toList)
    (hlength : (Utf8.encode e.name.toList).length < nameSize) : storedEntry e = e := by
  rw [storedEntry, slotText_storedName, takeWhile_zero_eq_self_iff.mpr hzero,
    Utf8.cut_of_length_le (Nat.le_sub_one_of_lt hlength), String.ofList_toList]

/-- **A name that was shown is shown as it is when it is stored again.** -/
theorem storedEntry_storedEntry (e : JumpEntry) : storedEntry (storedEntry e) = storedEntry e := by
  have hzero : '\x00' ∉ Utf8.cut (nameSize - 1) (e.name.toList.takeWhile (· ≠ '\x00')) :=
    Utf8.zero_notMem_cut (zero_notMem_takeWhile _)
  have hname : (storedEntry e).name.toList
      = Utf8.cut (nameSize - 1) (e.name.toList.takeWhile (· ≠ '\x00')) := by
    rw [storedEntry, slotText_storedName, String.toList_ofList]
  rw [storedEntry, slotText_storedName, hname, takeWhile_zero_eq_self_iff.mpr hzero, Utf8.cut_cut,
    ← hname, String.ofList_toList]

/-- A slot as a name is written into it: a text, then zeros, of which there is at least one. -/
structure CanonicalSlot (slot : List UInt8) : Prop where
  ended  : 0 ∈ slot
  text   : ∃ cs, slot.takeWhile (· ≠ 0) = Utf8.encode cs
  filled : ∀ b ∈ slot.dropWhile (· ≠ 0), b = 0

/-- The bytes of a canonical slot are those of a text that leaves room for a zero, filled up with zeros. -/
theorem CanonicalSlot.exists_text {slot : List UInt8} (h : CanonicalSlot slot)
    (hfull : slot.length = nameSize) :
    ∃ cs, slotText slot = String.ofList cs ∧ (Utf8.encode cs).length ≤ nameSize - 1 ∧
      slot = padTo nameSize (Utf8.encode cs) := by
  obtain ⟨cs, hcs⟩ := h.text
  have hsplit : Utf8.encode cs ++ slot.dropWhile (· ≠ 0) = slot := by
    rw [← hcs, List.takeWhile_append_dropWhile]
  have hlength := congrArg List.length hsplit
  rw [List.length_append, hfull] at hlength
  have hzeros : slot.dropWhile (· ≠ 0) = List.replicate (nameSize - (Utf8.encode cs).length) 0 :=
    List.eq_replicate_iff.mpr ⟨by omega, h.filled⟩
  refine ⟨cs, by rw [slotText, hcs, Utf8.lossy_encode], ?_, by rw [padTo, ← hzeros, hsplit]⟩
  -- the zero that ends the text stands behind it
  have hended : slot.dropWhile (· ≠ 0) ≠ [] := by
    intro hnil
    have hzero := List.dropWhile_eq_nil_iff.mp hnil 0 h.ended
    exact absurd hzero (by decide)
  have := List.length_pos_iff.mpr hended
  omega

/-- **The name in a canonical slot is written back into it.** -/
theorem Record.ofEntry_entry {r : Record} (h : CanonicalSlot r.slot) : ofEntry r.entry = r := by
  obtain ⟨cs, htext, hroom, hslot⟩ := h.exists_text r.full
  refine Record.ext ?_ rfl
  show padTo nameSize (storedName (slotText r.slot)) = r.slot
  rw [htext, storedName, String.toList_ofList, List.take_of_length_le hroom, ← hslot]

/-! ## Data outside the slots -/

/-- What stands in the slot of the name with number `k`. -/
def nameField (data : List UInt8) (k : Nat) : List UInt8 := (data.drop (4 + k * entrySize)).take nameSize

/-- Whether the byte with number `i` is in the slot of a name, if there are `count` of them. -/
def InNameField (count i : Nat) : Prop :=
  4 ≤ i ∧ i < 4 + count * entrySize ∧ (i - 4) % entrySize < nameSize
deriving Decidable

theorem length_dataOf : (dataOf order rs code).length = 4 + rs.length * entrySize + code.length := by
  rw [dataOf, List.length_append, List.length_append, ByteOrder.length_bytes, Record.length_flatMap_bytes]

theorem nameField_dataOf {k : Nat} {r : Record} (h : rs[k]? = some r) :
    nameField (dataOf order rs code) k = r.slot := by
  -- `k` records are passed over one by one, so the induction is on the records, with `k` free
  have hdrop : ∀ rest, (rs.flatMap (Record.bytes order) ++ rest).drop (k * entrySize)
      = r.slot ++ (order.bytes r.offset ++ ((rs.drop (k + 1)).flatMap (Record.bytes order) ++ rest)) := by
    intro rest
    induction rs generalizing k with
    | nil => simp at h
    | cons first rs ih =>
        cases k with
        | zero =>
            cases h
            simp [Record.bytes]
        | succ k =>
            rw [Nat.succ_mul, Nat.add_comm, ← List.drop_drop, List.flatMap_cons, List.append_assoc,
              List.drop_left' (Record.length_bytes first)]
            exact ih h
  rw [nameField, ← List.drop_drop, dataOf, List.append_assoc, List.drop_left' (ByteOrder.length_bytes ..),
    hdrop, List.take_left' r.full]

theorem getElem?_append_congr {as as' bs bs' : List UInt8} {i : Nat} (hlength : as.length = as'.length)
    (hleft : i < as.length → as[i]? = as'[i]?)
    (hright : as.length ≤ i → bs[i - as.length]? = bs'[i - as.length]?) :
    (as ++ bs)[i]? = (as' ++ bs')[i]? := by
  rw [List.getElem?_append, List.getElem?_append, ← hlength]
  split
  · rename_i hlt
    exact hleft hlt
  · rename_i hge
    exact hright (Nat.le_of_not_lt hge)

/-- Records with the same offset differ at most in their slots. -/
theorem Record.getElem?_bytes {r r' : Record} (h : r.offset = r'.offset) {i : Nat} (hi : nameSize ≤ i) :
    (r.bytes order)[i]? = (r'.bytes order)[i]? := by
  rw [bytes, bytes, h]
  refine getElem?_append_congr (r.full.trans r'.full.symm) (fun hlt => ?_) (fun _ => rfl)
  rw [r.full] at hlt
  exact absurd hi (Nat.not_le.mpr hlt)

/-- Tables with the same offsets differ at most in their slots. -/
theorem getElem?_table {rs' : List Record} (h : rs.map Record.offset = rs'.map Record.offset) {i : Nat}
    (hi : i < rs.length * entrySize → nameSize ≤ i % entrySize) :
    (rs.flatMap (Record.bytes order) ++ code)[i]? = (rs'.flatMap (Record.bytes order) ++ code)[i]? := by
  induction rs generalizing rs' i with
  | nil =>
      cases List.map_eq_nil_iff.mp h.symm
      rfl
  | cons r rs ih =>
      obtain ⟨r', later, rfl, hoffset, hlater⟩ := List.map_eq_cons_iff.mp h.symm
      rw [List.flatMap_cons, List.flatMap_cons, List.append_assoc, List.append_assoc]
      rw [List.length_cons, Nat.succ_mul] at hi
      -- in the first record `i` is its own remainder, behind it `i` loses a whole record
      refine getElem?_append_congr ?_ (fun hlt => ?_) (fun hge => ?_)
      · rw [Record.length_bytes, Record.length_bytes]
      · rw [Record.length_bytes] at hlt
        have hbehind : nameSize ≤ i % entrySize := hi (by omega)
        rw [Nat.mod_eq_of_lt hlt] at hbehind
        exact Record.getElem?_bytes hoffset.symm hbehind
      · rw [Record.length_bytes] at hge ⊢
        refine ih hlater.symm fun hlt => ?_
        rw [← Nat.mod_eq_sub_mod hge]
        exact hi (by omega)

/-- **Records with the same offsets make data that differs at most in the slots.** -/
theorem getElem?_dataOf {rs' : List Record} (h : rs.map Record.offset = rs'.map Record.offset) {i : Nat}
    (hi : ¬ InNameField rs.length i) : (dataOf order rs code)[i]? = (dataOf order rs' code)[i]? := by
  have hlength : rs.length = rs'.length := by simpa using congrArg List.length h
  rw [dataOf, dataOf, List.append_assoc, List.append_assoc, ← hlength]
  refine getElem?_append_congr rfl (fun _ => rfl) (fun hge => ?_)
  rw [ByteOrder.length_bytes] at hge ⊢
  refine getElem?_table h fun hlt => Nat.le_of_not_lt fun hname => ?_
  exact hi ⟨hge, by omega, hname⟩

/-- The offsets of an image that was read are those of its records, and so are those it is stored with. -/
theorem map_offset_ofEntry {image : Image} (h : rs.map Record.entry = image.jumpTable) :
    (image.jumpTable.map Record.ofEntry).map Record.offset = rs.map Record.offset := by
  rw [← h, List.map_map, List.map_map]
  rfl

/-! ## Main results -/

/-- **Storing and reading are inverse on canonical data.** An image is read back as it is if its table can
    be counted and its names have no zero and leave room for one. Data is written back as it is if the
    slots of the names are canonical. Any other data that can be read is written back with the same length,
    offsets and code, and differs at most in the slots. -/
theorem encode_decode_canonical (order : ByteOrder) :
    (∀ image : Image, image.jumpTable.length < UInt32.size →
      (∀ e ∈ image.jumpTable, '\x00' ∉ e.name.toList ∧ (Utf8.encode e.name.toList).length < nameSize) →
      decode order (image.encode order) = .ok image) ∧
    ∀ data image, decode order data = .ok image →
      ((∀ k < image.jumpTable.length, CanonicalSlot (nameField data k)) → image.encode order = data) ∧
      (image.encode order).length = data.length ∧
      (∀ i, ¬ InNameField image.jumpTable.length i → (image.encode order)[i]? = data[i]?) ∧
      ∃ image', decode order (image.encode order) = .ok image' ∧
        image'.jumpTable.map JumpEntry.offset = image.jumpTable.map JumpEntry.offset ∧
        image'.code = image.code := by
  refine ⟨fun image hcount hnames => ?_, fun data image hdecode => ?_⟩
  · have hself : image.jumpTable.map storedEntry = image.jumpTable :=
      (List.map_congr_left fun e he => storedEntry_eq_self (hnames e he).1 (hnames e he).2).trans
        (List.map_id _)
    rw [decode_encode hcount, hself]
  · obtain ⟨rs, hcount, hentries, rfl⟩ := decode_eq_ok_iff.mp hdecode
    have hlength : image.jumpTable.length = rs.length := by rw [← hentries, List.length_map]
    have hoffsets := map_offset_ofEntry hentries
    refine ⟨fun hslots => ?_, ?_, fun i hi => ?_, _, decode_encode (hlength ▸ hcount), ?_, rfl⟩
    · have hself : image.jumpTable.map Record.ofEntry = rs := by
        rw [← hentries, List.map_map]
        refine (List.map_congr_left fun r hr => ?_).trans (List.map_id rs)
        obtain ⟨k, hk⟩ := List.mem_iff_getElem?.mp hr
        have hlt : k < image.jumpTable.length := hlength ▸ (List.getElem?_eq_some_iff.mp hk).1
        exact Record.ofEntry_entry (nameField_dataOf hk ▸ hslots k hlt)
      rw [encode_eq_dataOf, hself]
    · rw [encode_eq_dataOf, length_dataOf, length_dataOf, List.length_map, hlength]
    · rw [encode_eq_dataOf]
      exact getElem?_dataOf hoffsets (by rwa [List.length_map])
    · rw [List.map_map]
      rfl

/-- An image with a name that has a character of two bytes, and an empty name. -/
def cafeImage : Image := ⟨[⟨"café", 0⟩, ⟨"", 4⟩], [0, 0, 0, 1, 0, 0, 0, 2]⟩

/-- Its data. -/
def cafeData : List UInt8 :=
  [0, 0, 0, 2] ++ padTo 32 [99, 97, 102, 195, 169] ++ [0, 0, 0, 0] ++ padTo 32 [] ++ [0, 0, 0, 4]
    ++ [0, 0, 0, 1, 0, 0, 0, 2]

/-- Data with a name that leaves no room for a zero. -/
def fullData : List UInt8 := [1, 0, 0, 0] ++ List.replicate 32 97 ++ [4, 0, 0, 0] ++ [7]

theorem encode_decode_canonical_cafe :
    decode .big (cafeImage.encode .big) = .ok cafeImage ∧ cafeImage.encode .big = cafeData ∧
      ∃ image, decode .little fullData = .ok image ∧ (image.encode .little).length = 41 ∧
        (image.encode .little)[35]? = some 0 ∧ fullData[35]? = some 97 ∧
        (image.encode .little)[36]? = fullData[36]? ∧ (image.encode .little)[40]? = fullData[40]? := by
  obtain ⟨hback, hdata⟩ := encode_decode_canonical .big
  have hcafe : decode .big (cafeImage.encode .big) = .ok cafeImage := hback cafeImage (by decide) (by decide)
  have hread : decode .big cafeData = .ok cafeImage := by decide +kernel
  have hslots : ∀ k < cafeImage.jumpTable.length, CanonicalSlot (nameField cafeData k) := by
    have hfirst : CanonicalSlot (nameField cafeData 0) :=
      ⟨by decide +kernel, ⟨"café".toList, by decide +kernel⟩, by decide +kernel⟩
    have hsecond : CanonicalSlot (nameField cafeData 1) :=
      ⟨by decide +kernel, ⟨[], by decide +kernel⟩, by decide +kernel⟩
    intro k hk
    match k, hk with
    | 0, _ => exact hfirst
    | 1, _ => exact hsecond
  obtain ⟨image, hfull⟩ : ∃ image, decode .little fullData = .ok image := ⟨_, rfl⟩
  have hcount : image.jumpTable.length = 1 := by
    cases hfull
    rfl
  obtain ⟨-, hlength, hbytes, -⟩ := (encode_decode_canonical .little).2 fullData image hfull
  rw [hcount] at hbytes
  refine ⟨hcafe, (hdata cafeData cafeImage hread).1 hslots, image, hfull, hlength, ?_, rfl,
    hbytes 36 (by decide), hbytes 40 (by decide)⟩
  cases hfull
  decide +kernel

/-- **Recoding stabilises.** However long its names are and whatever is in them, an image that has been
    stored and read has kept its offsets and its code, and is stored and read from then on as it is. -/
theorem recode_stable {order : ByteOrder} {image : Image} (h : image.jumpTable.length < UInt32.size) :
    ∃ image₁, decode order (image.encode order) = .ok image₁ ∧
      image₁.jumpTable.map JumpEntry.offset = image.jumpTable.map JumpEntry.offset ∧
      image₁.code = image.code ∧ decode order (image₁.encode order) = .ok image₁ := by
  refine ⟨_, decode_encode h, ?_, rfl, ?_⟩
  · rw [List.map_map]
    rfl
  · have hself : (image.jumpTable.map storedEntry).map storedEntry = image.jumpTable.map storedEntry := by
      rw [List.map_map]
      exact List.map_congr_left fun e _ => storedEntry_storedEntry e
    rw [decode_encode (by rwa [List.length_map]), hself]

/-- An image with a name that is cut behind the first byte of its last character. -/
def stumpImage : Image := ⟨[⟨String.ofList (List.replicate 30 'a' ++ ['😀']), 4⟩], [7, 0, 0, 0]⟩

/-- What it is read back as. The replacement character has three bytes, of which one is stored. -/
def stumpRead : Image :=
  ⟨[⟨String.ofList (List.replicate 30 'a' ++ [Utf8.replacement]), 4⟩], [7, 0, 0, 0]⟩

theorem recode_stable_stump :
    decode .big (stumpImage.encode .big) = .ok stumpRead ∧
      decode .big (stumpRead.encode .big) = .ok stumpRead := by
  have hread : decode .big (stumpImage.encode .big) = .ok stumpRead := by decide +kernel
  obtain ⟨image₁, hdecode, -, -, hagain⟩ :=
    recode_stable (show stumpImage.jumpTable.length < UInt32.size by decide)
  cases hread.symm.trans hdecode
  exact ⟨hread, hagain⟩

end Image
end CallScript
