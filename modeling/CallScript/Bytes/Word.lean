/-!
# `Bytes.Word` — 32-bit words and byte orders

An image stores every number as four bytes in one of two orders. The bytes of a word are its digits in
base 256, so both directions are plain arithmetic: `word_bytes` reads back what was written, and
`bytes_word` says that four bytes are the only way to write their word.
-/

namespace CallScript

/-- The order in which the bytes of a word are stored. -/
inductive ByteOrder
  | little
  | big
deriving DecidableEq, Repr

namespace ByteOrder

/-- The number whose base-256 digits are the four bytes, the least significant first. -/
def ofDigits (b₀ b₁ b₂ b₃ : UInt8) : UInt32 :=
  UInt32.ofNat (b₀.toNat + 0x100 * b₁.toNat + 0x10000 * b₂.toNat + 0x1000000 * b₃.toNat)

/-- The base-256 digit of a word at the given place. -/
def digit (w : UInt32) (place : Nat) : UInt8 := UInt8.ofNat (w.toNat >>> (8 * place))

/-- The four bytes that store a word. -/
def bytes (order : ByteOrder) (w : UInt32) : List UInt8 :=
  match order with
  | little => [digit w 0, digit w 1, digit w 2, digit w 3]
  | big    => [digit w 3, digit w 2, digit w 1, digit w 0]

/-- The word that four stored bytes denote. -/
def word (order : ByteOrder) (b₀ b₁ b₂ b₃ : UInt8) : UInt32 :=
  match order with
  | little => ofDigits b₀ b₁ b₂ b₃
  | big    => ofDigits b₃ b₂ b₁ b₀

@[simp] theorem length_bytes (order : ByteOrder) (w : UInt32) : (order.bytes w).length = 4 := by
  cases order <;> rfl

theorem ofDigits_digit (w : UInt32) :
    ofDigits (digit w 0) (digit w 1) (digit w 2) (digit w 3) = w := by
  have hw := w.toNat_lt
  apply UInt32.toNat_inj.mp
  simp only [ofDigits, digit, Nat.shiftRight_eq_div_pow, UInt32.toNat_ofNat', UInt8.toNat_ofNat']
  omega

theorem digit_ofDigits (b₀ b₁ b₂ b₃ : UInt8) :
    digit (ofDigits b₀ b₁ b₂ b₃) 0 = b₀ ∧ digit (ofDigits b₀ b₁ b₂ b₃) 1 = b₁ ∧
      digit (ofDigits b₀ b₁ b₂ b₃) 2 = b₂ ∧ digit (ofDigits b₀ b₁ b₂ b₃) 3 = b₃ := by
  have h₀ := b₀.toNat_lt
  have h₁ := b₁.toNat_lt
  have h₂ := b₂.toNat_lt
  have h₃ := b₃.toNat_lt
  refine ⟨?_, ?_, ?_, ?_⟩ <;> apply UInt8.toNat_inj.mp <;>
    simp only [ofDigits, digit, Nat.shiftRight_eq_div_pow, UInt32.toNat_ofNat', UInt8.toNat_ofNat'] <;> omega

/-- The stored bytes of a word are four, and they read back as the word. -/
theorem word_bytes (order : ByteOrder) (w : UInt32) :
    ∃ b₀ b₁ b₂ b₃, order.bytes w = [b₀, b₁, b₂, b₃] ∧ order.word b₀ b₁ b₂ b₃ = w := by
  cases order with
  | little => exact ⟨_, _, _, _, rfl, ofDigits_digit w⟩
  | big => exact ⟨_, _, _, _, rfl, ofDigits_digit w⟩

/-- Four bytes are the stored form of the word that they denote. -/
theorem bytes_word (order : ByteOrder) (b₀ b₁ b₂ b₃ : UInt8) :
    order.bytes (order.word b₀ b₁ b₂ b₃) = [b₀, b₁, b₂, b₃] := by
  cases order with
  | little =>
      obtain ⟨h₀, h₁, h₂, h₃⟩ := digit_ofDigits b₀ b₁ b₂ b₃
      simp only [bytes, word, h₀, h₁, h₂, h₃]
  | big =>
      obtain ⟨h₀, h₁, h₂, h₃⟩ := digit_ofDigits b₃ b₂ b₁ b₀
      simp only [bytes, word, h₀, h₁, h₂, h₃]

/-- The four bytes that store a signed word. -/
def intBytes (order : ByteOrder) (w : Int32) : List UInt8 := order.bytes w.toUInt32

@[simp] theorem length_intBytes (order : ByteOrder) (w : Int32) :
    (order.intBytes w).length = 4 := length_bytes order _

end ByteOrder
end CallScript
