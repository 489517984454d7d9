import FlashParams.Checksum.Crc
import FlashParams.Declaration.Header
import FlashParams.Value.StoredType

/-!
# Declarations

What a run starts from: containers anchored at absolute addresses, in each a list of blocks, in each
block an optional header and a list of fields. A field is a parameter, whose bytes come from a
literal, or a checksum, whose bytes are computed from others. Places may be left open: the next free
address for a block or a field, the byte in front of itself for the end of a checksum's range.

Addresses, lengths and alignments are 32-bit words because that is the address space they speak of;
what is computed from them is computed in natural numbers.
-/

set_option autoImplicit false

namespace FlashParams

inductive Offset where
  /-- So many bytes after the start of the parent. -/
  | fixed (distance : UInt32)
  /-- At the first suitably aligned address after the previous sibling. -/
  | next
  deriving DecidableEq, Repr, Inhabited

/-- Where the range of a checksum ends. By default it ends in front of the checksum, so that the value
does not cover itself; then the range depends on where the checksum is placed. -/
inductive CoverageEnd where
  /-- At the byte so many bytes after the start of the block, that byte included. -/
  | fixed (distance : UInt32)
  /-- At the byte in front of the checksum itself. -/
  | beforeSelf
  deriving DecidableEq, Repr, Inhabited

structure Coverage where
  /-- Distance of the first covered byte from the start of the block. -/
  first : UInt32 := 0
  last : CoverageEnd := .beforeSelf
  /-- The width of a read in bits. -/
  access : UInt32 := 8
  /-- Reverse the bytes of each word read. -/
  swap : Bool := false
  deriving DecidableEq, Repr, Inhabited

structure Parameter where
  name : String
  offset : Offset
  type : DeclaredType
  align : UInt32
  value : Literal
  /-- The byte order of this parameter, if it is not that of its block. -/
  byteOrder : Option ByteOrder
  comment : Option String

structure Checksum where
  name : String
  offset : Offset
  /-- The type of the result, whose width is the width of the check. -/
  type : Scalar
  align : UInt32
  coverage : Coverage
  params : CrcParams
  comment : Option String

/-- An occupant of a block. -/
inductive Field where
  | parameter (p : Parameter)
  | checksum (c : Checksum)

namespace Field

def name : Field → String
  | parameter p => p.name
  | checksum c => c.name

def offset : Field → Offset
  | parameter p => p.offset
  | checksum c => c.offset

def align : Field → UInt32
  | parameter p => p.align
  | checksum c => c.align

def comment : Field → Option String
  | parameter p => p.comment
  | checksum c => c.comment

end Field

/-- A region of memory of a fixed length. All of it is in the image, with `fill` where no field and no
header is, so a block without fields is not a block without bytes. -/
structure Block where
  name : String
  offset : Offset := .next
  length : UInt32
  align : UInt32 := 1
  /-- The value of the bytes no field occupies. -/
  fill : UInt8 := 0
  byteOrder : ByteOrder := .little
  header : Option Header := none
  comment : Option String := none
  fields : List Field := []

/-- A group of blocks anchored at an absolute address. It has no length: its blocks follow each other
from its base on as far as the address space goes. -/
structure Container where
  name : String
  base : UInt32
  blocks : List Block

structure Declaration where
  name : String := ""
  containers : List Container := []

end FlashParams
