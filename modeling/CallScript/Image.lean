import CallScript.Bytes.Cursor
import CallScript.Bytes.Padding
import CallScript.Event
import CallScript.Text.Utf8

/-!
# `Image` — the stored form of a compiled script

An image is a jump table and the code behind it. Stored, it begins with the number of entries; each
entry is a name in a slot of 32 bytes, filled up with zeros, and the offset of its code; the code runs
to the end of the data. A name always leaves room for one zero: longer names are cut to 31 bytes, even
inside a character, and reading stops at the first zero.
-/

namespace CallScript

/-- A name for a place in the code. -/
structure JumpEntry where
  name   : String
  offset : UInt32
deriving DecidableEq, Repr

/-- A jump table and the code that it points into. -/
structure Image where
  jumpTable : List JumpEntry
  code      : List UInt8
deriving DecidableEq, Repr

namespace Image

/-- The bytes of the slot that holds an entry's name. -/
def nameSize : Nat := 32

/-- The bytes of a stored entry: the name's slot and the offset word. -/
def entrySize : Nat := nameSize + 4

/-! ## Writing -/

/-- The bytes of a name that are stored: at most one less than its slot has. -/
def storedName (name : String) : List UInt8 := (Utf8.encode name.toList).take (nameSize - 1)

/-- The stored form of an entry. -/
def encodeEntry (order : ByteOrder) (e : JumpEntry) : List UInt8 :=
  padTo nameSize (storedName e.name) ++ order.bytes e.offset

/-- The stored form of an image. -/
def encode (order : ByteOrder) (image : Image) : List UInt8 :=
  order.bytes (UInt32.ofNat image.jumpTable.length)
    ++ image.jumpTable.flatMap (encodeEntry order) ++ image.code

/-- One event for each name that does not fit its slot. -/
def encodeEvents (image : Image) : List Event :=
  (image.jumpTable.filter fun e => nameSize ≤ (Utf8.encode e.name.toList).length).map fun e =>
    .nameCut e.name

/-! ## Reading -/

/-- The text in a name's slot: up to the first zero, with broken stretches replaced. -/
def slotText (slot : List UInt8) : String := String.ofList (Utf8.lossy (slot.takeWhile (· ≠ 0)))

/-- The entry at a cursor. -/
def readEntry (c : Cursor) : Except Truncation (JumpEntry × Cursor) := do
  let (slot, c) ← c.read nameSize
  let (offset, c) ← c.readWord
  return (⟨slotText slot, offset⟩, c)

/-- So many entries, one after the other. -/
def readEntries : Nat → Cursor → Except Truncation (List JumpEntry × Cursor)
  | 0, c => .ok ([], c)
  | n + 1, c => do
      let (e, c) ← readEntry c
      let (es, c) ← readEntries n c
      return (e :: es, c)

/-- The image that a byte sequence stores. -/
def decode (order : ByteOrder) (data : List UInt8) : Except Truncation Image := do
  let (count, c) ← (Cursor.start order data).readWord
  let (entries, c) ← readEntries count.toNat c
  return ⟨entries, c.rest⟩

/-! ## Lengths -/

theorem length_storedName (name : String) : (storedName name).length ≤ 31 := by
  rw [storedName, List.length_take]
  exact Nat.min_le_left _ _

end Image
end CallScript
