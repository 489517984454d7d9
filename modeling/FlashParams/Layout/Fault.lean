import FlashParams.Checksum.Crc
import FlashParams.Value.StoredType

/-!
# What can be wrong with a declaration

A `Fault` is one reason why a block cannot be laid out. It names the field or block and carries the
addresses that explain it, already narrowed to 32 bits for display. Faults fall into three classes:
*structural* ones concern places and sizes, *value range* ones a literal that does not fit its type,
*reference* ones names and checksum ranges that point where they may not.

A fault found while a block is assembled becomes a `Diagnostic`, which adds the container and block
it belongs to.
-/

set_option autoImplicit false

namespace FlashParams

inductive ChecksumFault where
  | notInteger (type : Scalar)
  | unfit (reason : Crc.Unfit)
  | outsideImage (first last : UInt32)
  deriving DecidableEq, Repr

def ChecksumFault.message : ChecksumFault → String
  | notInteger type => s!"checksum type must be an integer, got {type.name}"
  | unfit reason => reason.message
  | outsideImage first last =>
    "range " ++ Numeral.address first ++ "..=" ++ Numeral.address last ++ " is not in the image"

/-- One reason why a block cannot be laid out. Addresses in it have 32 bits, since that is what is shown;
where the exact one has more, it is the placement that decides what to show. -/
inductive Fault where
  | overlap (field other : String) (start stop : UInt32)
  | overflow (field : String) (address size limit : UInt32)
  | misaligned (name : String) (address align : UInt32)
  | invalidAlignment (name : String) (align : UInt32)
  | addressOverflow (name : String)
  | blockOverlap (block other : String) (start stop : UInt32)
  | malformedRange (checksum : String) (first last : UInt32)
  | invalidAccess (checksum : String) (access : UInt32)
  | misalignedAccess (checksum : String) (access length : UInt32)
  | malformedChecksum (checksum : String) (reason : ChecksumFault)
  | imageWrite (name : String) (address : UInt32) (size : Nat)
  | valueRange (field type : String) (cause : ValueFault)
  | duplicateName (name : String) (first : UInt32)
  | rangeOutsideBlock (checksum : String) (first last start stop : UInt32)
  | invalidSelfReference (checksum : String) (address : UInt32)
  | selfCoverage (checksum : String) (address : UInt32)
  | laterChecksum (checksum other : String) (address : UInt32)
  | computedValue (checksum : String)

inductive FaultClass where
  | structural
  | valueRange
  | reference
  deriving DecidableEq, Repr

namespace Fault

def faultClass : Fault → FaultClass
  | overlap .. | overflow .. | misaligned .. | invalidAlignment .. | addressOverflow ..
  | blockOverlap .. | malformedRange .. | invalidAccess .. | misalignedAccess ..
  | malformedChecksum .. | imageWrite .. => .structural
  | valueRange .. => .valueRange
  | duplicateName .. | rangeOutsideBlock .. | invalidSelfReference .. | selfCoverage ..
  | laterChecksum .. | computedValue .. => .reference

open Numeral in
def message : Fault → String
  | overlap field other start stop =>
    s!"'{field}' @ " ++ address start ++ ".." ++ address stop ++ s!" overlaps '{other}'"
  | overflow field place size limit =>
    s!"'{field}' @ " ++ address place ++ " (" ++ decimal size.toNat
      ++ " bytes) exceeds the end of its block at " ++ address limit
  | misaligned name place align =>
    s!"'{name}' @ " ++ address place ++ " is not aligned to " ++ decimal align.toNat ++ " bytes"
  | invalidAlignment name align =>
    s!"'{name}' alignment " ++ decimal align.toNat ++ " must be a power of two in 1..=16384"
  | addressOverflow name => s!"'{name}' address does not fit into 32 bits"
  | blockOverlap block other start stop =>
    s!"block '{block}' @ " ++ address start ++ ".." ++ address stop ++ s!" overlaps block '{other}'"
  | malformedRange checksum first last =>
    s!"checksum '{checksum}' range " ++ address first ++ "..=" ++ address last
      ++ " is malformed: from > to"
  | invalidAccess checksum access =>
    s!"checksum '{checksum}' access width " ++ decimal access.toNat
      ++ " is not one of 8, 16, 32, 64"
  | misalignedAccess checksum access length =>
    s!"checksum '{checksum}' range length " ++ decimal length.toNat ++ " is not a multiple of the "
      ++ decimal access.toNat ++ "-bit access width"
  | malformedChecksum checksum reason => s!"checksum '{checksum}': {reason.message}"
  | imageWrite name place size =>
    s!"'{name}' @ " ++ address place ++ ": " ++ decimal size ++ " bytes do not fit the block image"
  | valueRange field type cause => s!"'{field}' ({type}): {cause.message}"
  | duplicateName name first => s!"name '{name}' already defined @ " ++ address first
  | rangeOutsideBlock checksum first last start stop =>
    s!"checksum '{checksum}' range " ++ address first ++ "..=" ++ address last
      ++ " leaves its block " ++ address start ++ ".." ++ address stop
  | invalidSelfReference checksum place =>
    s!"checksum '{checksum}' @ " ++ address place ++ ": '.' has no byte before the element"
  | selfCoverage checksum place =>
    s!"checksum '{checksum}' range covers its own bytes @ " ++ address place
      ++ " (not allowed: a checksum cannot include itself, end the range with '.')"
  | laterChecksum checksum other place =>
    s!"checksum '{checksum}' range covers checksum '{other}' @ " ++ address place
      ++ ", which is computed later (not allowed: only earlier checksums may be covered)"
  | computedValue checksum => s!"'{checksum}' is a checksum, its value cannot be set"

end Fault

structure Diagnostic where
  container : String
  block : String
  fault : Fault

def Diagnostic.message (d : Diagnostic) : String :=
  s!"{d.container}:{d.block}: {d.fault.message}"

end FlashParams
