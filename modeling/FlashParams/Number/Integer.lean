import FlashParams.Number.Numeral
import FlashParams.Text.Blank

/-!
# Integers written as text

Wherever a declaration expects a number it may also be given as text, in decimal or, after `0x`, in
hexadecimal, with underscores between the digits for legibility. White space around the number does
not count.

Two signs can occur. The outer one stands in front of everything, also of `0x`. The digits
themselves are read as a signed word of 128 bits, which admits a second sign directly in front of
them: `--1` is one, and `0x-1` is minus one. Only the magnitude's range is checked; a text whose
digits do not fit the word is no number at all.

The outer minus sign is applied in the same word, and the least word has no negative there. A text
that asks for it is neither a number nor none: reading it breaks off. `parse?` computes with exact
integers, and `read`, which is what everything else goes by, is `parse?` as far as the word goes.
-/

set_option autoImplicit false

namespace FlashParams.Integer

def wordBound : Nat :=
  Nat.pow 2 127

/-- A signed word of 128 bits in the given base: at most one sign, then at least one digit. It is called
behind a sign that has been taken off already, which is how a number comes to have two. -/
def word? (base : Nat) : List Char → Option Int
  | '-' :: rest =>
    match Numeral.read? base rest with
    | some n => if n ≤ wordBound then some (-(n : Int)) else none
    | none => none
  | '+' :: rest =>
    match Numeral.read? base rest with
    | some n => if n < wordBound then some n else none
    | none => none
  | rest =>
    match Numeral.read? base rest with
    | some n => if n < wordBound then some n else none
    | none => none

def magnitude? : List Char → Option Int
  | '0' :: 'x' :: rest => word? 16 rest
  | '0' :: 'X' :: rest => word? 16 rest
  | rest => word? 10 rest

def signed? : List Char → Option Int
  | '-' :: rest => (magnitude? rest).map (- ·)
  | '+' :: rest => magnitude? rest
  | rest => magnitude? rest

def parseChars? (s : List Char) : Option Int :=
  signed? ((Text.trim s).filter (· ≠ '_'))

def parse? (s : String) : Option Int :=
  parseChars? s.toList

/-- What becomes of reading a text as an integer. That the reader breaks off is a result of its own: who
reads a value has to say what happens then, and it is not that the value is refused. -/
inductive Reading where
  | number (value : Int)
  | unreadable
  /-- The least word would have to be negated, and the reader breaks off there. -/
  | leavesWord
  deriving DecidableEq, Repr

def overflowMessage : String :=
  "attempt to negate with overflow"

/-- Reads a text as a signed word of 128 bits. The one number it cannot give is the negative of the
least, which has two signs in front; every other number that is read is in the word by the bounds of
`word?`. -/
def read (s : String) : Reading :=
  match parse? s with
  | none => .unreadable
  | some v => if v < wordBound then .number v else .leavesWord

end FlashParams.Integer
