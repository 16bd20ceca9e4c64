/-!
# `Text.Utf8` — text as bytes, and bytes that need not be text

Encoding is the standard library's, character by character. Decoding cuts a byte sequence into
*pieces*: a character, or a stretch that starts one and cannot go on. `decode?` accepts a sequence whose
pieces are all characters; `lossy` accepts every sequence and puts one replacement character where a
stretch breaks off, so a stretch counts once however many bytes it has.
-/

namespace CallScript
namespace Utf8

/-- The UTF-8 bytes of a row of characters. -/
def encode (cs : List Char) : List UInt8 := cs.flatMap String.utf8EncodeChar

/-- The character that stands for undecodable bytes. -/
def replacement : Char := Char.ofNat 0xFFFD

/-! ## One character -/

/-- What the first byte of a character announces: how many bytes follow it, the range of the first of
    those, and the bits of the character that it carries itself. -/
structure Lead where
  more : Nat
  low  : Nat
  high : Nat
  bits : Nat
deriving DecidableEq, Repr

/-- The announcement of a first byte, if a character can start with it. The narrowed ranges shut out
    overlong forms, surrogates and everything past the last code point. -/
def lead? (b : Nat) : Option Lead :=
  if b < 0x80 then some ⟨0, 0x80, 0xBF, b⟩
  else if 0xC2 ≤ b ∧ b ≤ 0xDF then some ⟨1, 0x80, 0xBF, b - 0xC0⟩
  else if b = 0xE0 then some ⟨2, 0xA0, 0xBF, 0⟩
  else if b = 0xED then some ⟨2, 0x80, 0x9F, 0xD⟩
  else if 0xE1 ≤ b ∧ b ≤ 0xEF then some ⟨2, 0x80, 0xBF, b - 0xE0⟩
  else if b = 0xF0 then some ⟨3, 0x90, 0xBF, 0⟩
  else if 0xF1 ≤ b ∧ b ≤ 0xF3 then some ⟨3, 0x80, 0xBF, b - 0xF0⟩
  else if b = 0xF4 then some ⟨3, 0x80, 0x8F, 4⟩
  else none

/-- Collects `more` further bytes, the first of them between `low` and `high`. The result is the code
    point, or nothing if a byte does not fit, and what is left from there on. -/
def follow : (more low high bits : Nat) → List UInt8 → Option Nat × List UInt8
  | 0, _, _, bits, bs => (some bits, bs)
  | _ + 1, _, _, _, [] => (none, [])
  | more + 1, low, high, bits, b :: bs =>
      if low ≤ b.toNat ∧ b.toNat ≤ high then follow more 0x80 0xBF (64 * bits + (b.toNat - 0x80)) bs
      else (none, b :: bs)

theorem length_follow (more low high bits : Nat) (bs : List UInt8) :
    (follow more low high bits bs).2.length ≤ bs.length := by
  induction more generalizing low high bits bs with
  | zero => simp [follow]
  | succ n ih =>
      cases bs with
      | nil => simp [follow]
      | cons b bs =>
          simp only [follow]
          split
          · exact Nat.le_trans (ih ..) (by simp)
          · simp

/-- The first piece of a sequence that starts with `b`, and what is left behind it. -/
def piece (b : UInt8) (bs : List UInt8) : Option Char × List UInt8 :=
  match lead? b.toNat with
  | none => (none, bs)
  | some l =>
      let (code, rest) := follow l.more l.low l.high l.bits bs
      (code.map Char.ofNat, rest)

theorem length_piece (b : UInt8) (bs : List UInt8) : (piece b bs).2.length ≤ bs.length := by
  unfold piece
  split
  · exact Nat.le_refl _
  · exact length_follow ..

/-! ## Whole sequences -/

/-- The pieces of a byte sequence: `none` stands for a stretch that breaks off. -/
def pieces : List UInt8 → List (Option Char)
  | [] => []
  | b :: bs => (piece b bs).1 :: pieces (piece b bs).2
termination_by bs => bs.length
decreasing_by
  have := length_piece b bs
  simp only [List.length_cons]
  omega

/-- The text of a byte sequence, if it is UTF-8 throughout. -/
def decode? (bs : List UInt8) : Option (List Char) := (pieces bs).mapM id

/-- The text of any byte sequence, with a replacement character for each stretch that breaks off. -/
def lossy (bs : List UInt8) : List Char := (pieces bs).map (·.getD replacement)

end Utf8
end CallScript
