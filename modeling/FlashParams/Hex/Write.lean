import FlashParams.Checksum.Crc
import FlashParams.Hex.Record
import FlashParams.Image.Basic

/-!
# Images as Intel-hex text

An image is written in ascending order of addresses, in data records of at most sixteen bytes that
never cross a boundary of 64 KiB, because the address inside a record has sixteen bits. Whenever the
upper half of the address changes, a record with the new upper half comes first; at the start it is
zero. An end-of-file record closes the text.
-/

set_option autoImplicit false

namespace FlashParams.Hex

def recordLength : Nat := 16

/-- The distance between the addresses at which the upper half changes. A record says only the lower half
of its address, so no record may reach across such an address. -/
def bank : Nat := 0x10000

/-- How many bytes a record at an address has room for: as many as a record takes, but none beyond the
end of the bank. -/
def room (address : Nat) : Nat :=
  min recordLength (bank - address % bank)

theorem room_pos (address : Nat) : 0 < room address := by
  have := Nat.mod_lt address (show 0 < bank by decide)
  simp only [room, recordLength]
  omega

/-- The record that sets the upper half of the addresses that follow, up to the next one of its kind. -/
def upperRecord (upper : Nat) : Record :=
  ⟨0, kindLinearBase, wordBytes (UInt16.ofNat upper)⟩

def endRecord : Record :=
  ⟨0, kindEnd, []⟩

/-- The records of bytes at an address, when `upper` is in force, and the upper half in force after them.
The upper half is handed on from segment to segment, so it is only written where it changes. -/
def recordsAt (upper address : Nat) (data : List UInt8) : List Record × Nat :=
  if data = [] then ([], upper)
  else
    let n := room address
    let change := if address / bank ≠ upper then [upperRecord (address / bank)] else []
    let record : Record := ⟨UInt16.ofNat (address % bank), kindData, data.take n⟩
    let (rest, last) := recordsAt (address / bank) (address + n) (data.drop n)
    (change ++ record :: rest, last)
termination_by data.length
decreasing_by
  have hd : data ≠ [] := by assumption
  have := List.length_pos_iff.2 hd
  have := room_pos address
  simp only [List.length_drop]
  omega

/-- The records of segments one after the other, with the upper half that is in force passed on between
them. -/
def recordsOf (upper : Nat) : List Segment → List Record
  | [] => []
  | s :: rest =>
    let (records, last) := recordsAt upper s.base.toNat s.bytes
    records ++ recordsOf last rest

/-- The records of an image. A reader starts with an upper half of zero, so nothing has to be said about
addresses below the first bank. -/
def records (m : Image) : List Record :=
  recordsOf 0 m.segments ++ [endRecord]

def text (rs : List Record) : List Char :=
  rs.flatMap fun r => r.write ++ ['\n']

def write (m : Image) : String :=
  String.ofList (text (records m))

/-- The check over all bytes of an image in ascending order of addresses, with nothing for the gaps
between them: the images of one layout have one check, however their segments are cut. -/
def imageCheck (m : Image) : Nat :=
  (Crc.crc32.checksum m.content).toNat

end FlashParams.Hex
