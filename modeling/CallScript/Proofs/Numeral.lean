import CallScript.Text.Numeral

/-!
# `Proofs.Numeral` — printed numbers read back

A number is printed digit by digit, in base ten or sixteen, and read by `Numeral.value`. Both bases share
one induction along `Nat.toDigits`: the digits of `n` are those of `n / b` and one more. Main statements:
`value_decimalDigits` and `value_hexDigits` read back what was printed, and `int32?_decimal` reads a signed
word out of a generated name.
-/

namespace CallScript
namespace Numeral

/-! ## Rows of digits -/

/-- The digits of `n` in base `b`, each written by `f`, denote `n`, if `f` keeps the value of a digit. -/
theorem value_map_toDigits {b : Nat} (hb : 1 < b) {f : Char → Char}
    (hf : ∀ d < b, digitValue (f (Nat.digitChar d)) = d) (n : Nat) :
    value b ((Nat.toDigits b n).map f) = n := by
  induction n using Nat.strongRecOn with
  | ind n ih =>
      rw [Nat.toDigits_eq_if hb]
      split
      · rename_i hlt
        simp [value, hf n hlt]
      · -- the last digit is `n % b`, and those in front of it are the digits of `n / b`
        rename_i hge
        have hdiv : n / b < n := Nat.div_lt_self (by omega) hb
        rw [List.map_append, List.map_singleton, value_append, ih (n / b) hdiv,
          hf (n % b) (Nat.mod_lt n (by omega)), Nat.div_add_mod]

/-- What holds of every written digit below `b` holds of all digits of a number in base `b`. -/
theorem forall_mem_map_toDigits {b : Nat} (hb : 1 < b) {f : Char → Char} {p : Char → Prop}
    (hp : ∀ d < b, p (f (Nat.digitChar d))) (n : Nat) : ∀ c ∈ (Nat.toDigits b n).map f, p c := by
  induction n using Nat.strongRecOn with
  | ind n ih =>
      rw [Nat.toDigits_eq_if hb]
      split
      · rename_i hlt
        simpa using hp n hlt
      · rename_i hge
        have hdiv : n / b < n := Nat.div_lt_self (by omega) hb
        rw [List.map_append, List.map_singleton]
        intro c hc
        rcases List.mem_append.mp hc with hc | hc
        · exact ih (n / b) hdiv c hc
        · rw [List.mem_singleton.mp hc]
          exact hp (n % b) (Nat.mod_lt n (by omega))

/-! ## Decimal -/

theorem value_decimalDigits (n : Nat) : value 10 (decimalDigits n) = n := by
  have h := value_map_toDigits (f := id) (by decide : 1 < 10) (by decide) n
  rwa [List.map_id] at h

theorem isDigit_of_mem_decimalDigits {n : Nat} {c : Char} (h : c ∈ decimalDigits n) : c.isDigit = true :=
  Nat.isDigit_of_mem_toDigits (by decide) (by decide) h

theorem decimalDigits_ne_nil (n : Nat) : decimalDigits n ≠ [] := Nat.toDigits_ne_nil

theorem natural?_decimalDigits (n : Nat) : natural? (decimalDigits n) = some n := by
  have hdigits : (decimalDigits n).all Char.isDigit = true :=
    List.all_eq_true.mpr fun _ => isDigit_of_mem_decimalDigits
  rw [natural?, hdigits, value_decimalDigits]
  simp [decimalDigits_ne_nil]

/-- A row that begins with a digit has no sign. -/
theorem integer?_of_isDigit {c : Char} {cs : List Char} (hc : c.isDigit = true) :
    integer? (c :: cs) = (natural? (c :: cs)).map Int.ofNat := by
  unfold integer?
  split
  · rename_i heq
    injection heq with heq
    subst heq
    cases hc
  · rename_i heq
    injection heq with heq
    subst heq
    cases hc
  · rfl

theorem toList_decimal (i : Int) : (decimal i).toList
    = if i < 0 then '-' :: decimalDigits i.natAbs else decimalDigits i.natAbs := by
  rw [decimal, String.toList_ofList]

/-- **A printed integer reads back.** -/
theorem integer?_decimal (i : Int) : integer? (decimal i).toList = some i := by
  rw [toList_decimal]
  split
  · rename_i hneg
    rw [integer?, natural?_decimalDigits]
    show some (-(i.natAbs : Int)) = some i
    rw [Int.ofNat_natAbs_of_nonpos (by omega), Int.neg_neg]
  · rename_i hpos
    cases hds : decimalDigits i.natAbs with
    | nil => exact absurd hds (decimalDigits_ne_nil _)
    | cons c cs =>
        have hc : c.isDigit = true := by
          apply isDigit_of_mem_decimalDigits (n := i.natAbs)
          rw [hds]
          exact List.mem_cons_self
        rw [integer?_of_isDigit hc, ← hds, natural?_decimalDigits, Option.map_some, Int.ofNat_eq_natCast,
          Int.natAbs_of_nonneg (by omega)]

/-- **A printed signed word reads back.** -/
theorem int32?_decimal (w : Int32) : int32? (decimal w.toInt).toList = some w := by
  rw [int32?, integer?_decimal, Option.bind_some, fit32?_toInt]

/-! ## Hexadecimal -/

theorem isHexDigit_of_isDigit {c : Char} (h : c.isDigit = true) : isHexDigit c = true := by
  simp [isHexDigit, h]

theorem value_hexDigits (n : Nat) : value 16 (hexDigits n) = n :=
  value_map_toDigits (by decide) (by decide) n

theorem isHexDigit_of_mem_hexDigits {n : Nat} {c : Char} (h : c ∈ hexDigits n) : isHexDigit c = true :=
  forall_mem_map_toDigits (p := (isHexDigit · = true)) (by decide) (by decide) n c h

theorem hexDigits_ne_nil (n : Nat) : hexDigits n ≠ [] := by
  rw [hexDigits, ne_eq, List.map_eq_nil_iff]
  exact Nat.toDigits_ne_nil

end Numeral
end CallScript
