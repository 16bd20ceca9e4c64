import CallScript.Bytes.Word
import CallScript.Result
import CallScript.Text.Numeral

/-!
# `Bytes.Cursor` — bounds-checked reading

A cursor is a place in a byte sequence: how far it has come and what is still ahead. Reading asks for a
number of bytes. It either moves past exactly those bytes or reports where it stood, how many it needed
and how many were left; a cursor that is refused has not moved, since the caller still holds it.
-/

namespace CallScript

/-- Why a read was refused: more bytes were needed than were left. -/
structure Truncation where
  offset    : Nat
  needed    : Nat
  available : Nat
deriving DecidableEq, Repr

/-- The text of a refused read. -/
def Truncation.message (t : Truncation) : String :=
  "Unexpected end of data at offset " ++ Numeral.hex t.offset ++ " (needed "
    ++ Numeral.decimal t.needed ++ " bytes, " ++ Numeral.decimal t.available ++ " left)"

/-- A place in a byte sequence, and the byte order in which words are read there. -/
structure Cursor where
  order  : ByteOrder
  offset : Nat
  rest   : List UInt8
deriving DecidableEq, Repr

namespace Cursor

/-- The cursor at the first byte of `data`. -/
def start (order : ByteOrder) (data : List UInt8) : Cursor := ⟨order, 0, data⟩

/-- How many bytes are ahead. -/
def remaining (c : Cursor) : Nat := c.rest.length

/-- Whether nothing is ahead. -/
def atEnd (c : Cursor) : Bool := c.rest.isEmpty

/-- The refusal of a read of `needed` bytes at this place. -/
def truncation (c : Cursor) (needed : Nat) : Truncation := ⟨c.offset, needed, c.remaining⟩

/-- The next `n` bytes and the cursor behind them. -/
def read (c : Cursor) (n : Nat) : Except Truncation (List UInt8 × Cursor) :=
  let head := c.rest.take n
  if head.length = n then .ok (head, { c with offset := c.offset + n, rest := c.rest.drop n })
  else .error (c.truncation n)

/-- The cursor behind the next `n` bytes. -/
def skip (c : Cursor) (n : Nat) : Except Truncation Cursor := (c.read n).map Prod.snd

/-- The word stored in the next four bytes. -/
def readWord (c : Cursor) : Except Truncation (UInt32 × Cursor) :=
  match c.rest with
  | b₀ :: b₁ :: b₂ :: b₃ :: rest =>
      .ok (c.order.word b₀ b₁ b₂ b₃, { c with offset := c.offset + 4, rest := rest })
  | _ => .error (c.truncation 4)

/-- The signed word stored in the next four bytes. -/
def readInt (c : Cursor) : Except Truncation (Int32 × Cursor) :=
  c.readWord.map fun (w, next) => (w.toInt32, next)

/-! ## When a read succeeds -/

theorem read_eq_ok {c : Cursor} {n : Nat} (h : n ≤ c.remaining) :
    c.read n = .ok (c.rest.take n, { c with offset := c.offset + n, rest := c.rest.drop n }) := by
  have hlen : (c.rest.take n).length = n := by
    simp only [List.length_take]
    exact Nat.min_eq_left h
  simp only [read, if_pos hlen]

theorem read_eq_error {c : Cursor} {n : Nat} (h : c.remaining < n) :
    c.read n = .error (c.truncation n) := by
  have hlen : ¬ (c.rest.take n).length = n := by
    simp only [remaining] at h
    simp only [List.length_take]
    omega
  simp only [read, if_neg hlen]

/-- A word that was read leaves four bytes less. -/
theorem length_of_readWord {c next : Cursor} {w : UInt32} (h : c.readWord = .ok (w, next)) :
    next.rest.length + 4 = c.rest.length := by
  unfold readWord at h
  split at h
  · rename_i hrest
    injection h with h
    injection h with _ h
    subst h
    simp [hrest]
  · cases h

theorem length_of_readInt {c next : Cursor} {w : Int32} (h : c.readInt = .ok (w, next)) :
    next.rest.length + 4 = c.rest.length := by
  obtain ⟨⟨word, middle⟩, hword, heq⟩ := map_eq_ok_iff.mp h
  cases heq
  exact length_of_readWord hword

/-- Bytes that were read are gone from what is ahead. -/
theorem length_of_read {c next : Cursor} {n : Nat} {bs : List UInt8} (h : c.read n = .ok (bs, next)) :
    next.rest.length + n = c.rest.length := by
  by_cases hn : n ≤ c.remaining
  · rw [read_eq_ok hn] at h
    injection h with h
    injection h with _ h
    subst h
    simp only [remaining] at hn
    simp only [List.length_drop]
    omega
  · rw [read_eq_error (by omega)] at h
    cases h

end Cursor
end CallScript
