import FlashParams.Text.Utf8

/-!
# Text without control sequences

A terminal does not show all it is sent: control characters have no ink, and an escape character
starts a sequence that is an order to the terminal. Text from a manifest can hold both. A log is
kept as plain text, so both are left out of it; `visible` gives what remains.

A sequence is followed with the states of a video terminal. There are four kinds:

* an escape with intermediate characters and a final one;
* a control sequence, which has parameters too;
* a device control string, which has a header like a control sequence and data behind it;
* strings for the operating system and other strings, which are data only.

Strings end at an escape, those for the operating system also at a bell. White space among the
controls is always kept, unless it is inside a string, and breaks off a sequence it stands in.
-/

set_option autoImplicit false

namespace FlashParams.Text

/-- What a terminal expects next. A sequence that begins with an escape character goes through several of
these before it ends, and nothing of it is shown. -/
inductive Expectation where
  | text
  | escape
  | escapeFinal
  | controlStart
  | controlParameter
  | controlFinal
  /-- The rest of a control sequence that makes no sense. -/
  | controlSkipped
  | deviceStart
  | deviceParameter
  | deviceFinal
  /-- The rest of a device control string that makes no sense. -/
  | deviceSkipped
  | deviceData
  | systemString
  | otherString
  deriving DecidableEq, Repr

def isSpacing (c : Char) : Bool :=
  c == '\t' || c == '\n' || c == '\x0c' || c == '\r'

def hasTerminatorByte (c : Char) : Bool :=
  (utf8Bytes (String.singleton c)).contains 0x9C

namespace Expectation

def inString : Expectation → Bool
  | deviceStart | deviceParameter | deviceFinal | deviceSkipped | deviceData | systemString
  | otherString => true
  | _ => false

def afterPrintable (e : Expectation) (c : Char) : Expectation :=
  let intermediate := c < '0'
  let parameter := '0' ≤ c && c < '<'
  let mark := '<' ≤ c && c < '@'
  match e with
  | text => text
  | escape =>
    if intermediate then escapeFinal
    else if c = '[' then controlStart
    else if c = ']' then systemString
    else if c = 'P' then deviceStart
    else if c = 'X' ∨ c = '^' ∨ c = '_' then otherString
    else text
  | escapeFinal => if intermediate then escapeFinal else text
  | controlStart =>
    if intermediate then controlFinal
    else if parameter || mark then controlParameter
    else text
  | controlParameter =>
    if intermediate then controlFinal
    else if parameter then controlParameter
    else if mark then controlSkipped
    else text
  | controlFinal =>
    if intermediate then controlFinal
    else if parameter || mark then controlSkipped
    else text
  | controlSkipped => if c < '@' then controlSkipped else text
  | deviceStart =>
    if intermediate then deviceFinal
    else if parameter || mark then deviceParameter
    else deviceData
  | deviceParameter =>
    if intermediate then deviceFinal
    else if parameter then deviceParameter
    else if mark then deviceSkipped
    else deviceData
  | deviceFinal =>
    if intermediate then deviceFinal
    else if parameter || mark then deviceSkipped
    else deviceData
  | deviceSkipped => deviceSkipped
  | deviceData => deviceData
  | systemString => systemString
  | otherString => otherString

def after? (e : Expectation) (c : Char) : Option Expectation :=
  if c = '\x18' ∨ c = '\x1a' then some text
  else if c = '\x1b' then some escape
  else if c.toNat < 0x20 then
    if e.inString then some (if e = systemString ∧ c = '\x07' then text else e)
    else if isSpacing c then none
    else some e
  else if c = '\x7f' then some e
  else if c.toNat < 0x80 then
    if e = text then none else some (e.afterPrintable c)
  else
    match e with
    | text => none
    | deviceSkipped | deviceData | otherString => some (if hasTerminatorByte c then text else e)
    | e => some e

end Expectation

def visibleFrom : Expectation → List Char → List Char
  | _, [] => []
  | e, c :: rest =>
    match e.after? c with
    | none => c :: visibleFrom .text rest
    | some e => visibleFrom e rest

def visible (s : List Char) : List Char :=
  visibleFrom .text s

end FlashParams.Text
