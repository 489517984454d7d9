import FlashParams.Number.Numeral

/-!
# Intel-hex records

A record is one line: a colon, then pairs of hexadecimal digits for the number of data bytes, a
16-bit address with the high byte first, a type, the data, and a check byte that makes all bytes of
the record add up to zero modulo 256.

`Record.write` prints the canonical form, digits in upper case. `Record.read` takes a line apart and
names the first thing that is wrong with it: no colon; not an even number of at least ten digits; a
count that is not that of the data; a check byte that does not fit. A pair of digits may be written
as a plus sign and one digit.
-/

set_option autoImplicit false

namespace FlashParams.Hex

/-- One line of a file, without its check byte, which is computed from the rest. The number of data bytes
is not kept either: the list has it. -/
structure Record where
  address : UInt16
  kind : UInt8
  data : List UInt8
  deriving DecidableEq, Repr

/-! ## Record types -/

def kindData : UInt8 := 0x00

def kindEnd : UInt8 := 0x01

def kindSegmentBase : UInt8 := 0x02

def kindSegmentStart : UInt8 := 0x03

def kindLinearBase : UInt8 := 0x04

def kindLinearStart : UInt8 := 0x05

/-- Why a file is no image. Lines count from one. -/
inductive Fault where
  /-- The file cannot be read, or a line of it is no text. -/
  | unreadable
  | missingColon (line : Nat)
  | invalidDigits (line : Nat)
  | length (line declared actual : Nat)
  | checkByte (line : Nat) (expected found : UInt8)
  | unsupportedKind (line : Nat) (kind : UInt8)
  | addressOverflow (line : Nat) (address : UInt32) (size : Nat)
  | afterEnd (line : Nat)
  | missingEnd
  deriving DecidableEq, Repr

open Numeral in
/-- The text of a fault as it is shown. The number of the line comes first, so that an editor can be sent
to it, and numbers are in the notation of the file. -/
def Fault.message : Fault → String
  | unreadable => "IO error"
  | missingColon line => "line " ++ decimal line ++ ": record does not start with ':'"
  | invalidDigits line => "line " ++ decimal line ++ ": invalid hex digits"
  | length line declared actual =>
    "line " ++ decimal line ++ ": record length " ++ decimal declared ++ " does not match "
      ++ decimal actual ++ " data bytes"
  | checkByte line expected found =>
    "line " ++ decimal line ++ ": checksum 0x" ++ hexPadded 2 found.toNat ++ ", expected 0x"
      ++ hexPadded 2 expected.toNat
  | unsupportedKind line kind =>
    "line " ++ decimal line ++ ": unsupported record type 0x" ++ hexPadded 2 kind.toNat
  | addressOverflow line place size =>
    "line " ++ decimal line ++ ": " ++ decimal size ++ " data bytes at " ++ address place
      ++ " run past the 32-bit address space"
  | afterEnd line => "line " ++ decimal line ++ ": data after end-of-file record"
  | missingEnd => "missing end-of-file record"

/-! ## Bytes as pairs of digits -/

/-- Two upper-case digits. This is the only form that is written; the readers below take more. -/
def writeByte (b : UInt8) : List Char :=
  Numeral.padStart 2 '0' (Numeral.write 16 b.toNat)

def writeBytes (bytes : List UInt8) : List Char :=
  bytes.flatMap writeByte

/-- The byte of a pair of digits. A plus sign may stand in place of the first, since the pair is read as
a number and numbers may have a sign; nobody writes records like that, but they are read. -/
def readByte? (high low : Char) : Option UInt8 :=
  let upper := if high = '+' then some 0 else Numeral.digitOf? 16 high
  match upper, Numeral.digitOf? 16 low with
  | some h, some l => some (UInt8.ofNat (16 * h + l))
  | _, _ => none

def readBytes? : List Char → Option (List UInt8)
  | [] => some []
  | [_] => none
  | high :: low :: rest =>
    match readByte? high low, readBytes? rest with
    | some b, some bytes => some (b :: bytes)
    | _, _ => none

/-! ## Records -/

def wordBytes (w : UInt16) : List UInt8 :=
  [UInt8.ofNat (w.toNat / 256), UInt8.ofNat (w.toNat % 256)]

def wordOf (high low : UInt8) : UInt16 :=
  UInt16.ofNat (high.toNat * 256 + low.toNat)

/-- The byte that makes bytes add up to zero, which is how a reader tells a damaged record from one as it
was written. -/
def checkByteOf (bytes : List UInt8) : UInt8 :=
  -bytes.foldl (· + ·) 0

namespace Record

/-- The bytes that the check byte is computed over: all of the record in the order of the line. -/
def body (r : Record) : List UInt8 :=
  UInt8.ofNat r.data.length :: wordBytes r.address ++ r.kind :: r.data

def write (r : Record) : List Char :=
  ':' :: writeBytes (r.body ++ [checkByteOf r.body])

/-- A record of its bytes, if the length and the check byte are right. The number of the line is only
needed for the fault. -/
def ofBytes (line : Nat) : List UInt8 → Except Fault Record
  | count :: high :: low :: kind :: rest =>
    let data := rest.dropLast
    match rest.getLast? with
    | none => .error (.invalidDigits line)
    | some found =>
      -- the length is checked first, so a short line is not taken for a bad sum
      let expected := checkByteOf (count :: high :: low :: kind :: data)
      if count.toNat ≠ data.length then .error (.length line count.toNat data.length)
      else if found ≠ expected then .error (.checkByte line expected found)
      else .ok ⟨wordOf high low, kind, data⟩
  | _ => .error (.invalidDigits line)

/-- A record of a line without white space around it. What is wrong is found from the front: the colon,
the digits, the length, the check byte. -/
def read (line : Nat) : List Char → Except Fault Record
  | ':' :: digits =>
    match readBytes? digits with
    | none => .error (.invalidDigits line)
    | some bytes => ofBytes line bytes
  | _ => .error (.missingColon line)

end Record

end FlashParams.Hex
