import FlashParams.Value.ByteOrder

/-!
# The block header

A block may open with a record of sixteen bytes that identifies it: four 16-bit words (identifier,
major and minor version, data version), four reserved zero bytes, and the block's length, all in the
block's byte order.
-/

set_option autoImplicit false

namespace FlashParams

/-- The identification a block opens with, for whoever finds the block in memory: which parameters it
holds and in which version. -/
structure Header where
  id : UInt16
  major : UInt16
  minor : UInt16
  dataVersion : UInt16
  deriving DecidableEq, Repr, Inhabited

namespace Header

def size : Nat := 16

/-- The bytes of a header. The length it gives is that of its block, so this is the only value in it that
is not declared. -/
def bytes (h : Header) (length : UInt32) (order : ByteOrder) : List UInt8 :=
  order.bytes 2 h.id.toNat ++ order.bytes 2 h.major.toNat ++ order.bytes 2 h.minor.toNat
    ++ order.bytes 2 h.dataVersion.toNat ++ List.replicate 4 0 ++ order.bytes 4 length.toNat

@[simp] theorem length_bytes (h : Header) (length : UInt32) (order : ByteOrder) :
    (h.bytes length order).length = size := by
  simp [bytes, size]

end Header

end FlashParams
