import FlashParams.Checksum.Crc

/-!
# Reading a range in swapped words

Some controllers compute a checksum over words rather than bytes. A range that is read with an
access width and the swap switch on is cut into words of that width, counted from its start, and
each word is fed with its bytes in reverse. A short last word is reversed as well. Without the
switch, or with single bytes, the range is fed as it lies.
-/

set_option autoImplicit false

namespace FlashParams

/-- The bytes with each group of `size`, counted from the start, reversed. The last group may be short;
it is reversed like the others, which is what keeps the operation its own inverse at every length. -/
def swapWords (size : Nat) (bytes : List UInt8) : List UInt8 :=
  if size = 0 ∨ bytes = [] then bytes
  else (bytes.take size).reverse ++ swapWords size (bytes.drop size)
termination_by bytes.length
decreasing_by
  have : bytes ≠ [] := by simp_all
  have := List.length_pos_iff.2 this
  simp only [List.length_drop]
  omega

/-- The bytes of a range in the order in which a check sees them. A check computed by hardware reads
whole words, so with swapped bytes it sees each word from its other end; in accesses of one byte there is
nothing to swap. -/
def accessOrder (access : Nat) (swap : Bool) (bytes : List UInt8) : List UInt8 :=
  if swap ∧ 8 < access then swapWords (access / 8) bytes else bytes

end FlashParams
