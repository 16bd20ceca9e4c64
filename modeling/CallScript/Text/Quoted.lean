/-!
# `Text.Quoted` — the bytes of a string slot as a literal

A literal has no escapes: it ends at the next quote. So a slot's filling zeros are left out, and a byte
that a literal cannot hold, a quote or one that is not ASCII, is shown as a question mark.
-/

namespace CallScript
namespace Quoted

/-- The character that shows a byte of a slot, if the byte is shown. -/
def shown? (b : UInt8) : Option Char :=
  if b = 0 then none
  else if b.toNat = '"'.toNat ∨ 0x80 ≤ b.toNat then some '?'
  else some (Char.ofNat b.toNat)

/-- The characters between the quotes. -/
def body (bs : List UInt8) : List Char := bs.filterMap shown?

/-- The literal that shows the bytes of a slot. -/
def literal (bs : List UInt8) : String := String.ofList ('"' :: body bs ++ ['"'])

end Quoted
end CallScript
