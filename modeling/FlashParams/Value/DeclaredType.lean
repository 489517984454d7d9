import FlashParams.Number.Numeral
import FlashParams.Value.Scalar

/-!
# Declared types

The type a parameter is declared with: a scalar, an array `T[n]` of a scalar, or text, whose length
in bytes may be left to the literal. The written form is `T`, `T[n]`, `utf8` or `utf8[n]`; reading
it is tolerant of white space and of the case of letters, and printing the result gives the plain
form.

The reader cuts at the *first* opening bracket and wants a closing one at the very end. The length
between them is a decimal numeral that fits a 64-bit word and may carry a plus sign. Only when the
length is in order is the base looked at.
-/

set_option autoImplicit false

namespace FlashParams

/-- The type of a parameter as declared. It may leave a length to the literal, which is why a declared
type has no size and a stored type has. -/
inductive DeclaredType where
  | scalar (element : Scalar)
  | array (element : Scalar) (count : Nat)
  /-- Text, of a fixed number of bytes or sized by its literal. -/
  | text (size : Option Nat)
  deriving DecidableEq, Repr, Inhabited

namespace DeclaredType

inductive Unreadable where
  | unknownScalar (source : String)
  | unterminated (source : String)
  | invalidLength (source : String)
  | zeroLength (source : String)
  deriving DecidableEq, Repr

def Unreadable.message : Unreadable → String
  | unknownScalar source => s!"unknown scalar type: {source}"
  | unterminated source => s!"unterminated array type: {source}"
  | invalidLength source => s!"invalid array length in type: {source}"
  | zeroLength source => s!"array length must be at least 1: {source}"

def name : DeclaredType → String
  | scalar element => element.name
  | array element count => element.name ++ "[" ++ Numeral.decimal count ++ "]"
  | text none => "utf8"
  | text (some size) => "utf8[" ++ Numeral.decimal size ++ "]"

def greatestLength : Nat :=
  Nat.pow 2 64 - 1

/-- An array length: digits with an optional plus sign, white space around them. Zero is a length here
and the largest is that of a machine word, far beyond what can be placed. -/
def readLength? (s : List Char) : Option Nat :=
  let numeral :=
    match Text.trim s with
    | '+' :: rest => Numeral.read? 10 rest
    | rest => Numeral.read? 10 rest
  match numeral with
  | some n => if n ≤ greatestLength then some n else none
  | none => none

def readScalar (s : List Char) : Except Unreadable Scalar :=
  match Scalar.ofText? s with
  | some t => .ok t
  | none => .error (.unknownScalar (String.ofList s))

def withBase (base : List Char) (length : Option Nat) : Except Unreadable DeclaredType :=
  if Text.foldCase (Text.trim base) = "utf8".toList then .ok (text length)
  else
    match readScalar base with
    | .error e => .error e
    | .ok t =>
      match length with
      | some n => .ok (array t n)
      | none => .ok (scalar t)

def ofText (source : String) : Except Unreadable DeclaredType :=
  let s := Text.trim source.toList
  let shown := String.ofList s
  match Text.splitOnce '[' s with
  | none => withBase s none
  | some (base, rest) =>
    if rest.getLast? ≠ some ']' then .error (.unterminated shown)
    else
      match readLength? rest.dropLast with
      | none => .error (.invalidLength shown)
      | some 0 => .error (.zeroLength shown)
      | some n => withBase base (some n)

end DeclaredType

/-- The scalar type a string names. The fault shows the string as it was given, white space included,
although the name is looked up without it. -/
def Scalar.ofString (source : String) : Except DeclaredType.Unreadable Scalar :=
  DeclaredType.readScalar source.toList

end FlashParams
