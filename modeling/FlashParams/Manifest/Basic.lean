import FlashParams.Toml.Value

/-!
# Manifests

A manifest is a declaration as people write it: the same tree of containers, blocks and fields, but
with numbers that may be quoted, with most members left out, and with types, byte orders and values
still in writing. The records here say what was written and nothing about whether it makes sense;
that is decided when the manifest is lowered to a declaration.

A member that was left out is `none`, except where leaving it out has a plain meaning of its own: a
place that is not given is the next free one, and a list that is not given is empty.
-/

set_option autoImplicit false

namespace FlashParams

/-- A number, plain or between quotes. Manifests may write `"0x80000000"` for an address, so both are
kept apart until lowering, where a quoted one is read and can be wrong. -/
inductive Manifest.Number where
  | plain (value : Int)
  | quoted (text : String)
  deriving DecidableEq, Repr, Inhabited

/-- The dot that leaves a place open. It can only stand between quotes, and it is what an offset is when
none is given. -/
def Manifest.Number.dot : Manifest.Number :=
  .quoted "."

open Manifest (Number)

structure HeaderEntry where
  id : Number
  major : Number
  minor : Number
  version : Number
  deriving Repr

structure CoverageEntry where
  first : Option Number := none
  last : Option Number := none
  access : Option Number := none
  swap : Option Bool := none
  deriving Repr

structure CrcEntry where
  polynomial : Option Number := none
  init : Option Number := none
  reflectIn : Option Bool := none
  reflectOut : Option Bool := none
  finalXor : Option Bool := none
  deriving Repr

structure ParameterEntry where
  name : String
  offset : Number := .dot
  type : String
  align : Option Number := none
  value : Toml.Value
  byteOrder : Option String := none
  comment : Option String := none

structure ChecksumEntry where
  name : String
  offset : Number := .dot
  type : String
  align : Option Number := none
  coverage : CoverageEntry := {}
  params : CrcEntry := {}
  comment : Option String := none

inductive FieldEntry where
  | parameter (p : ParameterEntry)
  | checksum (c : ChecksumEntry)

structure BlockEntry where
  name : String
  offset : Number := .dot
  length : Number
  align : Option Number := none
  fill : Option Number := none
  byteOrder : Option String := none
  header : Option HeaderEntry := none
  comment : Option String := none
  fields : List FieldEntry := []

structure ContainerEntry where
  name : String
  base : Number
  blocks : List BlockEntry := []

structure Manifest where
  name : String := ""
  containers : List ContainerEntry := []

end FlashParams
