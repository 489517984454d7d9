/-!
# Text as bytes

A text parameter is stored as its UTF-8 bytes, and a line of an input file is bytes before it is
text. Both directions are here, on lists of bytes: `utf8Bytes` never fails, `ofUtf8?` fails exactly
on byte lists that are no UTF-8. A string *is* its byte array together with the proof that the array
is well formed, so the round trip is immediate.

Paths and arguments come from the system and need not be UTF-8. They are never decoded to be worked
with, only to be shown: `shown` replaces what cannot be decoded.
-/

set_option autoImplicit false

namespace FlashParams.Text

def utf8Bytes (s : String) : List UInt8 :=
  s.toByteArray.data.toList

/-- The string with these UTF-8 bytes, or nothing when they are not well formed. -/
def ofUtf8? (bytes : List UInt8) : Option String :=
  String.fromUTF8? ⟨bytes.toArray⟩

/-! ## Bytes for display -/

/-- What the bytes of a character may be, by the first of them: a range for the second, and how many
more there are. After the second byte every other may be any continuation byte. -/
def following? (first : UInt8) : Option ((UInt8 × UInt8) × Nat) :=
  if 0xC2 ≤ first ∧ first ≤ 0xDF then some ((0x80, 0xBF), 0)
  else if first = 0xE0 then some ((0xA0, 0xBF), 1)
  else if first = 0xED then some ((0x80, 0x9F), 1)
  else if 0xE1 ≤ first ∧ first ≤ 0xEF then some ((0x80, 0xBF), 1)
  else if first = 0xF0 then some ((0x90, 0xBF), 2)
  else if 0xF1 ≤ first ∧ first ≤ 0xF3 then some ((0x80, 0xBF), 2)
  else if first = 0xF4 then some ((0x80, 0x8F), 2)
  else none

def continuation (first : UInt8) (rest : List UInt8) : Nat :=
  match following? first, rest with
  | some ((low, high), more), second :: others =>
    if low ≤ second ∧ second ≤ high then
      1 + ((others.take more).takeWhile fun b => 0x80 ≤ b && b ≤ 0xBF).length
    else 0
  | _, _ => 0

/-- The characters of bytes, at most `fuel` of them, with a replacement character for each longest
piece that begins a character and does not complete it. -/
def shownChars : Nat → List UInt8 → List Char
  | 0, _ | _, [] => []
  | fuel + 1, first :: rest =>
    let size := continuation first rest
    let decoded := (ofUtf8? (first :: rest.take size)).map String.toList
    decoded.getD ['\ufffd'] ++ shownChars fuel (rest.drop size)

/-- Bytes as text for display, with a replacement character for what is no text. It is never read again,
so different bytes may be shown alike. -/
def shown (bytes : List UInt8) : String :=
  String.ofList (shownChars bytes.length bytes)

end FlashParams.Text
