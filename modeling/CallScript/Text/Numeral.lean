/-!
# `Text.Numeral` — numbers as text

The numerals that scripts, listings and messages share: plain decimal, hexadecimal in capitals behind
`0x`, and the signed decimal that a generated name such as `Unknown-5` carries. Printing is total;
reading names the digits it accepts and leaves the range to `int32?`.
-/

namespace CallScript
namespace Numeral

/-! ## Digits -/

/-- A hexadecimal digit, in either case. -/
def isHexDigit (c : Char) : Bool :=
  c.isDigit || ('a' ≤ c && c ≤ 'f') || ('A' ≤ c && c ≤ 'F')

/-- What a digit counts for: a letter counts from ten, whatever its case. -/
def digitValue (c : Char) : Nat :=
  if c.isDigit then c.toNat - '0'.toNat
  else if 'a' ≤ c then c.toNat - 'a'.toNat + 10
  else c.toNat - 'A'.toNat + 10

/-- The number that a row of digits denotes in base `b`, the most significant digit first. -/
def value (b : Nat) (ds : List Char) : Nat :=
  ds.foldl (fun n c => b * n + digitValue c) 0

@[simp] theorem value_nil (b : Nat) : value b [] = 0 := rfl

theorem value_append (b : Nat) (ds : List Char) (c : Char) :
    value b (ds ++ [c]) = b * value b ds + digitValue c := by
  simp [value, List.foldl_append]

/-! ## Printing -/

/-- The decimal digits of `n`, without leading zeros; zero has one digit. -/
def decimalDigits (n : Nat) : List Char := Nat.toDigits 10 n

/-- The hexadecimal digits of `n` in capitals, without leading zeros. -/
def hexDigits (n : Nat) : List Char := (Nat.toDigits 16 n).map Char.toUpper

/-- An integer in decimal, with a minus sign in front of a negative one. -/
def decimal (i : Int) : String :=
  String.ofList (if i < 0 then '-' :: decimalDigits i.natAbs else decimalDigits i.natAbs)

/-- A natural number in hexadecimal, behind `0x`. -/
def hex (n : Nat) : String := String.ofList ('0' :: 'x' :: hexDigits n)

/-! ## Reading -/

/-- A non-empty row of decimal digits; leading zeros are allowed. -/
def natural? (ds : List Char) : Option Nat :=
  if !ds.isEmpty && ds.all Char.isDigit then some (value 10 ds) else none

/-- A row of decimal digits with at most one sign in front. -/
def integer? : List Char → Option Int
  | '-' :: ds => (natural? ds).map fun n => -(n : Int)
  | '+' :: ds => (natural? ds).map Int.ofNat
  | ds        => (natural? ds).map Int.ofNat

/-- What stands behind a word that a text begins with. -/
def behind? : (word text : List Char) → Option (List Char)
  | [], cs => some cs
  | _ :: _, [] => none
  | w :: ws, c :: cs => if w = c then behind? ws cs else none

@[simp] theorem behind?_append (word cs : List Char) : behind? word (word ++ cs) = some cs := by
  induction word with
  | nil => rfl
  | cons w ws ih => simp [behind?, ih]

/-- The 32-bit word that holds `i`, if it is in range. -/
def fit32? (i : Int) : Option Int32 :=
  if -0x80000000 ≤ i ∧ i < 0x80000000 then some (Int32.ofInt i) else none

/-- A signed decimal within 32 bits. -/
def int32? (s : List Char) : Option Int32 := (integer? s).bind fit32?

theorem toInt_of_fit32? {i : Int} {w : Int32} (h : fit32? i = some w) : w.toInt = i := by
  unfold fit32? at h
  split at h
  · injection h with h
    subst h
    rw [Int32.toInt_ofInt, Int.bmod_eq_of_le] <;> simp [Int32.size] <;> omega
  · cases h

theorem fit32?_toInt (w : Int32) : fit32? w.toInt = some w := by
  have lo := w.le_toInt
  have hi := w.toInt_lt
  rw [fit32?, if_pos ⟨by omega, by omega⟩, Int32.ofInt_toInt]

end Numeral
end CallScript
