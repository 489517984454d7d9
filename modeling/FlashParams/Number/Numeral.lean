/-!
# Numerals

Positional numerals in any base from two to sixteen, most significant digit first. `digits` gives
the digit values, `write` their characters, `read?` goes back. Everything this library prints or
reads as a number, be it an address in a diagnostic, a byte of a hex record, a length in a type or
an octal escape, goes through these three, so that what is printed can be shown to be what is read.

`digits` divides until the quotient is a single digit: zero is the numeral `0`, and no numeral has a
leading zero. A base below two has no numerals; the guard makes the function total there.
-/

set_option autoImplicit false

namespace FlashParams.Numeral

/-- The digits of `n`, most significant first; at least one. The last digit is taken off first, so the
recursion is on the quotient and facts about numerals go by strong induction on the number. -/
def digits (base n : Nat) : List Nat :=
  if base < 2 ∨ n < base then [n]
  else digits base (n / base) ++ [n % base]
termination_by n
decreasing_by
  exact Nat.div_lt_self (by omega) (by omega)

def digitChar : Nat → Char
  | 0 => '0' | 1 => '1' | 2 => '2' | 3 => '3' | 4 => '4' | 5 => '5' | 6 => '6' | 7 => '7'
  | 8 => '8' | 9 => '9' | 10 => 'A' | 11 => 'B' | 12 => 'C' | 13 => 'D' | 14 => 'E' | _ => 'F'

def digitValue? (c : Char) : Option Nat :=
  if '0' ≤ c ∧ c ≤ '9' then some (c.toNat - '0'.toNat)
  else if 'a' ≤ c ∧ c ≤ 'f' then some (c.toNat - 'a'.toNat + 10)
  else if 'A' ≤ c ∧ c ≤ 'F' then some (c.toNat - 'A'.toNat + 10)
  else none

def digitOf? (base : Nat) (c : Char) : Option Nat :=
  match digitValue? c with
  | some d => if d < base then some d else none
  | none => none

def write (base n : Nat) : List Char :=
  (digits base n).map digitChar

/-- The number a list of digit characters stands for, most significant first; nothing when one of
them is no digit of the base. The empty list stands for zero; callers that need a digit ask for one.
-/
def readFrom? (base : Nat) : Nat → List Char → Option Nat
  | acc, [] => some acc
  | acc, c :: rest =>
    match digitOf? base c with
    | some d => readFrom? base (acc * base + d) rest
    | none => none

def read? (base : Nat) (s : List Char) : Option Nat :=
  match s with
  | [] => none
  | _ :: _ => readFrom? base 0 s

def padStart (width : Nat) (fill : Char) (s : List Char) : List Char :=
  List.replicate (width - s.length) fill ++ s

def decimal (n : Nat) : String :=
  String.ofList (write 10 n)

def decimalInt : Int → String
  | .ofNat n => decimal n
  | .negSucc n => "-" ++ decimal (n + 1)

def hex (n : Nat) : String :=
  String.ofList (write 16 n)

def hexLower (n : Nat) : String :=
  String.ofList ((write 16 n).map Char.toLower)

def hexPadded (width n : Nat) : String :=
  String.ofList (padStart width '0' (write 16 n))

def octalByte (b : UInt8) : String :=
  String.ofList (padStart 3 '0' (write 8 b.toNat))

def address (a : UInt32) : String :=
  "0x" ++ hex a.toNat

def addressLower (a : UInt32) : String :=
  "0x" ++ hexLower a.toNat

end FlashParams.Numeral
