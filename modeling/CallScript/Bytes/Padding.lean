/-!
# `Bytes.Padding` — slots of a fixed size

Names and strings are stored in slots: their bytes first, zeros up to the size of the slot behind them.
-/

namespace CallScript

/-- Fills a byte sequence up to `size` with zeros. -/
def padTo (size : Nat) (bs : List UInt8) : List UInt8 := bs ++ List.replicate (size - bs.length) 0

theorem length_padTo {size : Nat} {bs : List UInt8} (h : bs.length ≤ size) :
    (padTo size bs).length = size := by
  simp only [padTo, List.length_append, List.length_replicate]
  omega

end CallScript
