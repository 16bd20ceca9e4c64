import CallScript.Text.Utf8
import Mathlib.Data.List.TakeWhile

/-!
# `Proofs.Utf8` — characters, and what is left of one that is cut

A character is stored as a first byte and the bytes that this one announces (`exists_spelling`). So it is
read back whatever stands behind it (`pieces_encodeChar_append`), and if the bytes end inside it, what is
left of it is a single stretch that breaks off (`pieces_stump`).

A text that is cut after so many bytes is therefore read as its whole characters, with one replacement
character behind them if the cut goes through a character. That is as far as it goes (`cut_cut`): the
replacement character may be too long for the place of the stump that it stands for, but a stump of it is
again read as a replacement character.
-/

namespace CallScript
namespace Utf8

/-! ## Bytes behind a first byte -/

/-- Bytes that may stand behind a first byte: the next of them between `low` and `high`, those behind it
    in the range that all such bytes have. -/
def Continues : (low high : Nat) → List UInt8 → Prop
  | _, _, [] => True
  | low, high, b :: bs => (low ≤ b.toNat ∧ b.toNat ≤ high) ∧ Continues 0x80 0xBF bs

/-- The code point whose first bits are `bits`, if the given bytes carry the others. -/
def gather (bits : Nat) (bs : List UInt8) : Nat := bs.foldl (fun n b => 64 * n + (b.toNat - 0x80)) bits

theorem Continues.take {low high : Nat} {bs : List UInt8} (h : Continues low high bs) (k : Nat) :
    Continues low high (bs.take k) := by
  induction bs generalizing low high k with
  | nil => rwa [List.take_nil]
  | cons b bs ih =>
      cases k with
      | zero => trivial
      | succ k => exact ⟨h.1, ih h.2 k⟩

theorem Continues.zero_notMem {low high : Nat} {bs : List UInt8} (h : Continues low high bs)
    (hlow : 0 < low) : 0 ∉ bs := by
  induction bs generalizing low high with
  | nil => exact List.not_mem_nil
  | cons b bs ih =>
      rw [List.mem_cons, not_or]
      refine ⟨?_, ih h.2 (by decide)⟩
      rintro rfl
      exact Nat.not_lt.mpr h.1.1 hlow

/-- As many bytes as were announced give a code point, whatever stands behind them. -/
theorem follow_append {low high : Nat} {tail : List UInt8} (h : Continues low high tail) (bits : Nat)
    (bs : List UInt8) :
    follow tail.length low high bits (tail ++ bs) = (some (gather bits tail), bs) := by
  induction tail generalizing low high bits with
  | nil => rfl
  | cons b tail ih =>
      rw [List.length_cons, List.cons_append, follow, if_pos h.1, ih h.2, gather, gather, List.foldl_cons]

/-- Fewer bytes than were announced are used up without giving one. -/
theorem follow_short {more low high : Nat} {tail : List UInt8} (h : Continues low high tail)
    (hshort : tail.length < more) (bits : Nat) : follow more low high bits tail = (none, []) := by
  induction tail generalizing more low high bits with
  | nil =>
      cases more with
      | zero => cases hshort
      | succ n => rfl
  | cons b tail ih =>
      cases more with
      | zero => cases hshort
      | succ n => rw [follow, if_pos h.1, ih h.2 (Nat.lt_of_succ_lt_succ hshort)]

/-! ## The bytes of a character -/

/-- The bytes of a character are `first`, with the announcement `l`, and the bytes `tail` that it
    announces. -/
structure Spelling (c : Char) (first : UInt8) (tail : List UInt8) (l : Lead) : Prop where
  bytes  : String.utf8EncodeChar c = first :: tail
  lead   : lead? first.toNat = some l
  length : tail.length = l.more
  low    : 0x80 ≤ l.low
  within : Continues l.low l.high tail
  code   : gather l.bits tail = c.toNat

theorem lead?_two {n : Nat} (hlow : 2 ≤ n) (hhigh : n < 0x20) :
    lead? (n + 0xC0) = some ⟨1, 0x80, 0xBF, n⟩ := by
  rw [lead?, if_neg (by omega), if_pos (by omega), Nat.add_sub_cancel]

/-- Behind the least first byte of three, small bytes would make overlong forms; behind another one,
    great bytes would make surrogates. -/
theorem lead?_three {n : Nat} (h : n < 0x10) :
    lead? (n + 0xE0) = some ⟨2, if n = 0 then 0xA0 else 0x80, if n = 0xD then 0x9F else 0xBF, n⟩ := by
  rw [lead?, if_neg (by omega), if_neg (by omega)]
  by_cases hleast : n = 0
  · subst hleast
    rfl
  · by_cases hsurrogates : n = 0xD
    · subst hsurrogates
      rfl
    · rw [if_neg (by omega), if_neg (by omega), if_pos (by omega), if_neg hleast, if_neg hsurrogates,
        Nat.add_sub_cancel]

/-- Behind the least first byte of four, small bytes would make overlong forms; behind the greatest one,
    great bytes would go past the last code point. -/
theorem lead?_four {n : Nat} (h : n ≤ 4) :
    lead? (n + 0xF0) = some ⟨3, if n = 0 then 0x90 else 0x80, if n = 4 then 0x8F else 0xBF, n⟩ := by
  rw [lead?, if_neg (by omega), if_neg (by omega), if_neg (by omega), if_neg (by omega), if_neg (by omega)]
  by_cases hleast : n = 0
  · subst hleast
    rfl
  · by_cases hgreatest : n = 4
    · subst hgreatest
      rfl
    · rw [if_neg (by omega), if_pos (by omega), if_neg hleast, if_neg hgreatest, Nat.add_sub_cancel]

/-- A byte behind the first carries six bits. -/
theorem toNat_continuation (n : Nat) : (UInt8.ofNat (n % 64 + 128)).toNat = n % 64 + 128 :=
  UInt8.toNat_ofNat_of_lt' (by simp only [UInt8.size]; omega)

theorem continuation_range (n : Nat) :
    0x80 ≤ (UInt8.ofNat (n % 64 + 128)).toNat ∧ (UInt8.ofNat (n % 64 + 128)).toNat ≤ 0xBF := by
  rw [toNat_continuation]
  omega

theorem spelling_one {c : Char} (h : c.toNat ≤ 0x7F) :
    Spelling c (UInt8.ofNat c.toNat) [] ⟨0, 0x80, 0xBF, c.toNat⟩ where
  bytes := if_pos h
  lead := by
    rw [UInt8.toNat_ofNat_of_lt' (by simp only [UInt8.size]; omega), lead?, if_pos (by omega)]
  length := rfl
  low := Nat.le_refl _
  within := trivial
  code := rfl

theorem spelling_two {c : Char} (hlow : 0x7F < c.toNat) (hhigh : c.toNat ≤ 0x7FF) :
    Spelling c (UInt8.ofNat (c.toNat / 64 % 32 + 192)) [UInt8.ofNat (c.toNat % 64 + 128)]
      ⟨1, 0x80, 0xBF, c.toNat / 64 % 32⟩ where
  bytes := (if_neg (Nat.not_le.mpr hlow)).trans (if_pos hhigh)
  lead := by
    rw [UInt8.toNat_ofNat_of_lt' (by simp only [UInt8.size]; omega)]
    exact lead?_two (by omega) (by omega)
  length := rfl
  low := Nat.le_refl _
  within := ⟨continuation_range _, trivial⟩
  code := by
    simp only [gather, List.foldl_cons, List.foldl_nil, toNat_continuation]
    omega

theorem spelling_three {c : Char} (hlow : 0x7FF < c.toNat) (hhigh : c.toNat ≤ 0xFFFF) :
    Spelling c (UInt8.ofNat (c.toNat / 4096 % 16 + 224))
      [UInt8.ofNat (c.toNat / 64 % 64 + 128), UInt8.ofNat (c.toNat % 64 + 128)]
      ⟨2, if c.toNat / 4096 % 16 = 0 then 0xA0 else 0x80,
        if c.toNat / 4096 % 16 = 0xD then 0x9F else 0xBF, c.toNat / 4096 % 16⟩ where
  bytes := (if_neg (show ¬ c.toNat ≤ 0x7F by omega)).trans
    ((if_neg (Nat.not_le.mpr hlow)).trans (if_pos hhigh))
  lead := by
    rw [UInt8.toNat_ofNat_of_lt' (by simp only [UInt8.size]; omega)]
    exact lead?_three (by omega)
  length := rfl
  low := by
    dsimp only
    split <;> decide
  within := by
    -- no character is a surrogate, which is what the narrower range behind `0xED` leaves out
    have hvalid : c.toNat < 0xD800 ∨ 0xDFFF < c.toNat ∧ c.toNat < 0x110000 := c.valid
    refine ⟨?_, continuation_range _, trivial⟩
    rw [toNat_continuation]
    constructor <;> dsimp only <;> split <;> omega
  code := by
    simp only [gather, List.foldl_cons, List.foldl_nil, toNat_continuation]
    omega

theorem spelling_four {c : Char} (hlow : 0xFFFF < c.toNat) :
    Spelling c (UInt8.ofNat (c.toNat / 262144 % 8 + 240))
      [UInt8.ofNat (c.toNat / 4096 % 64 + 128), UInt8.ofNat (c.toNat / 64 % 64 + 128),
        UInt8.ofNat (c.toNat % 64 + 128)]
      ⟨3, if c.toNat / 262144 % 8 = 0 then 0x90 else 0x80,
        if c.toNat / 262144 % 8 = 4 then 0x8F else 0xBF, c.toNat / 262144 % 8⟩ := by
  have hlast : c.toNat < 0x110000 := by
    have hvalid : c.toNat < 0xD800 ∨ 0xDFFF < c.toNat ∧ c.toNat < 0x110000 := c.valid
    omega
  refine ⟨?_, ?_, rfl, ?_, ⟨?_, continuation_range _, continuation_range _, trivial⟩, ?_⟩
  · exact (if_neg (show ¬ c.toNat ≤ 0x7F by omega)).trans
      ((if_neg (show ¬ c.toNat ≤ 0x7FF by omega)).trans (if_neg (Nat.not_le.mpr hlow)))
  · rw [UInt8.toNat_ofNat_of_lt' (by simp only [UInt8.size]; omega)]
    exact lead?_four (by omega)
  · dsimp only
    split <;> decide
  · rw [toNat_continuation]
    constructor <;> dsimp only <;> split <;> omega
  · simp only [gather, List.foldl_cons, List.foldl_nil, toNat_continuation]
    omega

/-- **Every character is spelled by a first byte and what this one announces.** -/
theorem exists_spelling (c : Char) : ∃ first tail l, Spelling c first tail l := by
  by_cases hone : c.toNat ≤ 0x7F
  · exact ⟨_, _, _, spelling_one hone⟩
  · by_cases htwo : c.toNat ≤ 0x7FF
    · exact ⟨_, _, _, spelling_two (Nat.not_le.mp hone) htwo⟩
    · by_cases hthree : c.toNat ≤ 0xFFFF
      · exact ⟨_, _, _, spelling_three (Nat.not_le.mp htwo) hthree⟩
      · exact ⟨_, _, _, spelling_four (Nat.not_le.mp hthree)⟩

/-! ## Reading characters -/

/-- **A character is read back**, whatever stands behind it. -/
theorem pieces_encodeChar_append (c : Char) (bs : List UInt8) :
    pieces (String.utf8EncodeChar c ++ bs) = some c :: pieces bs := by
  obtain ⟨first, tail, l, h⟩ := exists_spelling c
  have hpiece : piece first (tail ++ bs) = (some c, bs) := by
    rw [piece, h.lead]
    dsimp only
    rw [← h.length, follow_append h.within, h.code, Option.map_some, Char.ofNat_toNat]
  rw [h.bytes, List.cons_append, pieces, hpiece]

/-- What is left of a character that is cut: its first bytes, but not all of them. -/
def IsStump (bs : List UInt8) : Prop :=
  ∃ c k, 0 < k ∧ k < (String.utf8EncodeChar c).length ∧ bs = (String.utf8EncodeChar c).take k

/-- **What is left of a character is one stretch that breaks off.** -/
theorem pieces_stump {bs : List UInt8} (h : IsStump bs) : pieces bs = [none] := by
  obtain ⟨c, k, hpos, hshort, rfl⟩ := h
  obtain ⟨first, tail, l, h⟩ := exists_spelling c
  obtain ⟨k, rfl⟩ : ∃ j, k = j + 1 := ⟨k - 1, by omega⟩
  rw [h.bytes, List.length_cons] at hshort
  have hless : (tail.take k).length < l.more := by
    rw [List.length_take, ← h.length]
    omega
  have hpiece : piece first (tail.take k) = (none, []) := by
    rw [piece, h.lead]
    dsimp only
    rw [follow_short (h.within.take k) hless]
    rfl
  rw [h.bytes, List.take_succ_cons, pieces, hpiece, pieces]

theorem zero_mem_encodeChar_iff {c : Char} : 0 ∈ String.utf8EncodeChar c ↔ c = '\x00' := by
  constructor
  · intro hmem
    obtain ⟨first, tail, l, h⟩ := exists_spelling c
    rw [h.bytes, List.mem_cons] at hmem
    rcases hmem with rfl | hmem
    · -- a zero in front announces nothing and is the code point zero itself
      cases h.lead
      cases List.length_eq_zero_iff.mp h.length
      exact Char.toNat_inj.mp h.code.symm
    · exact absurd hmem (h.within.zero_notMem (Nat.lt_of_lt_of_le (by decide) h.low))
  · rintro rfl
    decide

/-! ## Reading texts -/

theorem encode_cons (c : Char) (cs : List Char) : encode (c :: cs) = String.utf8EncodeChar c ++ encode cs :=
  List.flatMap_cons

theorem encode_append (cs cs' : List Char) : encode (cs ++ cs') = encode cs ++ encode cs' :=
  List.flatMap_append

theorem lossy_encode_append (cs : List Char) (bs : List UInt8) :
    lossy (encode cs ++ bs) = cs ++ lossy bs := by
  induction cs with
  | nil => rfl
  | cons c cs ih =>
      rw [lossy] at ih ⊢
      rw [encode_cons, List.append_assoc, pieces_encodeChar_append, List.map_cons, ih]
      rfl

/-- **A text is read back from its bytes.** -/
theorem lossy_encode (cs : List Char) : lossy (encode cs) = cs := by
  have hnil : lossy [] = [] := by simp [lossy, pieces]
  have h := lossy_encode_append cs []
  rwa [hnil, List.append_nil, List.append_nil] at h

theorem lossy_stump {bs : List UInt8} (h : IsStump bs) : lossy bs = [replacement] := by
  rw [lossy, pieces_stump h]
  rfl

/-- A text up to its first zero is stored in its bytes up to the first zero. -/
theorem takeWhile_encode (cs : List Char) :
    (encode cs).takeWhile (· ≠ 0) = encode (cs.takeWhile (· ≠ '\x00')) := by
  induction cs with
  | nil => rfl
  | cons c cs ih =>
      rw [encode_cons]
      by_cases hc : c = '\x00'
      · subst hc
        rfl
      · have hbytes : ∀ b ∈ String.utf8EncodeChar c, decide (b ≠ 0) = true := by
          intro b hb
          refine decide_eq_true ?_
          rintro rfl
          exact hc (zero_mem_encodeChar_iff.mp hb)
        rw [List.takeWhile_append_of_pos hbytes, ih, List.takeWhile_cons, if_pos (decide_eq_true hc),
          encode_cons]

/-! ## Cutting texts -/

/-- The first bytes of a text are those of its first characters, and at most a stump behind them. -/
theorem exists_take_encode (n : Nat) (cs : List Char) :
    ∃ whole stump, (encode cs).take n = encode whole ++ stump ∧ whole <+: cs ∧
      (stump = [] ∨ IsStump stump) := by
  induction cs generalizing n with
  | nil => exact ⟨[], [], List.take_nil, List.prefix_rfl, .inl rfl⟩
  | cons c cs ih =>
      rw [encode_cons]
      by_cases hfits : (String.utf8EncodeChar c).length ≤ n
      · obtain ⟨whole, stump, htake, hwhole, hstump⟩ := ih (n - (String.utf8EncodeChar c).length)
        refine ⟨c :: whole, stump, ?_, List.cons_prefix_cons.mpr ⟨rfl, hwhole⟩, hstump⟩
        rw [List.take_append, List.take_of_length_le hfits, htake, encode_cons, List.append_assoc]
      · refine ⟨[], (String.utf8EncodeChar c).take n, ?_, List.nil_prefix, ?_⟩
        · rw [List.take_append_of_le_length (Nat.le_of_not_le hfits)]
          rfl
        · by_cases hzero : n = 0
          · exact .inl (by rw [hzero, List.take_zero])
          · exact .inr ⟨c, n, Nat.pos_of_ne_zero hzero, Nat.lt_of_not_le hfits, rfl⟩

/-- What is read of a text of which only the first `n` bytes are kept. -/
def cut (n : Nat) (cs : List Char) : List Char := lossy ((encode cs).take n)

theorem cut_of_length_le {n : Nat} {cs : List Char} (h : (encode cs).length ≤ n) : cut n cs = cs := by
  rw [cut, List.take_of_length_le h, lossy_encode]

/-- **A cut text is whole, or it ends in one replacement character**, which has at least one byte to stand
    in. -/
theorem cut_cases (n : Nat) (cs : List Char) :
    ∃ whole, whole <+: cs ∧ ((cut n cs = whole ∧ (encode whole).length ≤ n) ∨
      (cut n cs = whole ++ [replacement] ∧ (encode whole).length < n)) := by
  obtain ⟨whole, stump, htake, hwhole, hstump⟩ := exists_take_encode n cs
  have hlength : (encode whole).length + stump.length ≤ n := by
    rw [← List.length_append, ← htake]
    exact List.length_take_le n _
  refine ⟨whole, hwhole, ?_⟩
  rw [cut, htake]
  rcases hstump with rfl | hstump
  · exact .inl ⟨by rw [List.append_nil, lossy_encode], hlength⟩
  · obtain ⟨c, k, hpos, hshort, rfl⟩ := id hstump
    rw [List.length_take] at hlength
    exact .inr ⟨by rw [lossy_encode_append, lossy_stump hstump], by omega⟩

/-- A replacement character is read as one, even if only its first bytes have room. -/
theorem cut_replacement {n : Nat} {whole : List Char} (h : (encode whole).length < n) :
    cut n (whole ++ [replacement]) = whole ++ [replacement] := by
  by_cases hfits : (encode (whole ++ [replacement])).length ≤ n
  · exact cut_of_length_le hfits
  · have hchar : encode [replacement] = String.utf8EncodeChar replacement := by
      rw [encode_cons]
      exact List.append_nil _
    rw [encode_append, hchar, List.length_append] at hfits
    -- at least one byte of it is kept, and not all of them
    have hstump : IsStump ((String.utf8EncodeChar replacement).take (n - (encode whole).length)) :=
      ⟨replacement, _, by omega, by omega, rfl⟩
    rw [cut, encode_append, hchar, List.take_append, List.take_of_length_le (Nat.le_of_lt h),
      lossy_encode_append, lossy_stump hstump]

/-- **Cutting a text a second time changes nothing.** -/
theorem cut_cut (n : Nat) (cs : List Char) : cut n (cut n cs) = cut n cs := by
  obtain ⟨whole, -, ⟨hcut, hfits⟩ | ⟨hcut, hroom⟩⟩ := cut_cases n cs
  · rw [hcut, cut_of_length_le hfits]
  · rw [hcut, cut_replacement hroom]

/-- No zero comes into a text by cutting it. -/
theorem zero_notMem_cut {n : Nat} {cs : List Char} (h : '\x00' ∉ cs) : '\x00' ∉ cut n cs := by
  obtain ⟨whole, hwhole, ⟨hcut, -⟩ | ⟨hcut, -⟩⟩ := cut_cases n cs
  · rw [hcut]
    exact fun hmem => h (hwhole.subset hmem)
  · rw [hcut, List.mem_append, not_or]
    exact ⟨fun hmem => h (hwhole.subset hmem), by decide⟩

end Utf8
end CallScript
