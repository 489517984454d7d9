import FlashParams.Hex.Record
import FlashParams.Image.Pieces
import FlashParams.Text.Blank
import FlashParams.Text.Utf8

/-!
# Images from Intel-hex text

The reader goes through the lines of a file. White space around a record and blank lines do not
count; records may come in any order and overlap, and then the later bytes win. A base record sets
the address that the 16-bit addresses of the data records after it are added to; start-address
records are kept but not interpreted. After the end-of-file record only blank lines may follow.

A line that is no UTF-8 makes the file unreadable, but only when the reader gets there: what is
wrong with an earlier line is found first. Hence lines are decoded one at a time, and `readLines`
takes lines that may have failed to decode.
-/

set_option autoImplicit false

namespace FlashParams.Hex

/-- An image read from a file, with what else the file tells. Data records are counted because some
readers refuse a file without any. -/
structure File where
  image : Image
  /-- The value of the last start-address record. -/
  startAddress : Option UInt32
  /-- How many data records were read. -/
  dataRecords : Nat

/-- The reader between two lines. Data are gathered with full addresses and put together at the end, so a
later record can simply come in front of an earlier one. -/
structure Reader where
  /-- The data records with their full addresses, the last one first. -/
  data : List Segment := []
  startAddress : Option UInt32 := none
  base : UInt32 := 0
  ended : Bool := false

/-- The word that a record for the upper half of addresses has as its data. Any other length is a fault,
although the check byte was right. -/
def Record.word (line : Nat) (r : Record) : Except Fault UInt16 :=
  match r.data with
  | [high, low] => .ok (wordOf high low)
  | data => .error (.length line 2 data.length)

def Record.start (line : Nat) (r : Record) : Except Fault UInt32 :=
  match r.data with
  | [a, b, c, d] =>
    .ok (UInt32.ofNat (((a.toNat * 256 + b.toNat) * 256 + c.toNat) * 256 + d.toNat))
  | data => .error (.length line 4 data.length)

namespace Reader

/-- Takes in a record. Start addresses are kept but not checked against the data, and neither of the two
kinds of address records is preferred: the last one of either counts. -/
def record (r : Reader) (line : Nat) (item : Record) : Except Fault Reader :=
  if item.kind = kindData then
    -- the sum wraps at 32 bits; only its span is checked
    let address := r.base + item.address.toUInt32
    if inAddressSpace address item.data.length then
      .ok { r with data := ⟨address, item.data⟩ :: r.data }
    else .error (.addressOverflow line address item.data.length)
  else if item.kind = kindEnd then .ok { r with ended := true }
  else if item.kind = kindSegmentBase then
    (item.word line).map fun w => { r with base := UInt32.ofNat (w.toNat * 0x10) }
  else if item.kind = kindLinearBase then
    (item.word line).map fun w => { r with base := UInt32.ofNat (w.toNat * 0x10000) }
  else if item.kind = kindSegmentStart ∨ item.kind = kindLinearStart then
    (item.start line).map fun a => { r with startAddress := some a }
  else .error (.unsupportedKind line item.kind)

/-- Takes in a line, which may have failed to decode. Blank lines are passed over wherever they stand,
and every line counts for the numbers in faults. -/
def line (r : Reader) (number : Nat) (content : Option (List Char)) : Except Fault Reader :=
  match content with
  | none => .error .unreadable
  | some chars =>
    let trimmed := Text.trim chars
    -- blank lines are let through before the end record is asked about
    if trimmed = [] then .ok r
    else if r.ended then .error (.afterEnd number)
    else
      match Record.read number trimmed with
      | .error fault => .error fault
      | .ok item => r.record number item

/-- Takes in lines up to the first fault. Lines are counted here, blank ones included. -/
def lines (r : Reader) (number : Nat) : List (Option (List Char)) → Except Fault Reader
  | [] => .ok r
  | content :: rest =>
    match r.line number content with
    | .error fault => .error fault
    | .ok r => r.lines (number + 1) rest

def file (r : Reader) : File where
  image := .ofPieces r.data.reverse
  startAddress := r.startAddress
  dataRecords := r.data.length

end Reader

/-- A file of its lines. A file that stops before its end record is refused whatever it has said so far,
since a part that is cut off cannot be told from one that was never there. -/
def readLines (content : List (Option (List Char))) : Except Fault File :=
  match Reader.lines {} 1 content with
  | .error fault => .error fault
  | .ok r => if r.ended then .ok r.file else .error .missingEnd

def readChars (s : List Char) : Except Fault File :=
  readLines ((Text.splitWhere (· == '\n') s).map some)

/-- A file of its bytes, of which only the line feeds are looked at before lines are decoded; one line
that is no text makes the file unreadable, whether or not it would have been needed. -/
def readBytes (content : List UInt8) : Except Fault File :=
  readLines ((Text.splitWhere (· == 0x0A) content).map fun line =>
    (Text.ofUtf8? line).map String.toList)

end FlashParams.Hex
