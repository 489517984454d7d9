import FlashParams.Number.Integer
import FlashParams.Value.DeclaredType
import FlashParams.Value.Literal

/-!
# Stored types

What a parameter occupies: its declared type with every length settled. A declared length is taken
as it stands; a scalar type given an array becomes an array of that many items, and text without a
length is stored with one byte more than it has, for the terminating zero.

`size` is the exact number of bytes. Sizes are computed in machine words of 64 bits, and a declared
length may fill the word by itself; the array of that length is then larger than any word, and its
size has none (`wordSize?`).
-/

set_option autoImplicit false

namespace FlashParams

/-- A declared type with its length settled, so that it has a size. All that comes after the literal has
been looked at once is about stored types. -/
inductive StoredType where
  | scalar (element : Scalar)
  | array (element : Scalar) (count : Nat)
  | text (size : Nat)
  deriving DecidableEq, Repr, Inhabited

inductive LiteralKind where
  | scalar | array | nonEmptyArray | string | integer | float
  deriving DecidableEq, Repr

def LiteralKind.name : LiteralKind → String
  | scalar => "scalar"
  | array => "array"
  | nonEmptyArray => "non-empty array"
  | string => "string"
  | integer => "integer"
  | float => "float"

/-- Why a literal has no bytes of a type, or bytes have no literal. The last of these is not reported
like the others: whatever asked for the bytes breaks off with the computation. -/
inductive ValueFault where
  | outOfRange (type : Scalar) (value : Literal)
  | mismatch (expected : LiteralKind) (found : Literal)
  | arrayLength (expected found : Nat)
  | textTooLong (size limit : Nat)
  | byteCount (expected found : Nat)
  | invalidText
  /-- The literal is text whose number leaves the machine word. -/
  | leavesWord

def ValueFault.message : ValueFault → String
  | outOfRange type value => s!"value {value.text} out of range for {type.name}"
  | mismatch expected found => s!"expected {expected.name} literal, got {found.text}"
  | arrayLength expected found =>
    "array literal has " ++ Numeral.decimal found ++ " elements, type declares "
      ++ Numeral.decimal expected
  | textTooLong size limit =>
    "string of " ++ Numeral.decimal size ++ " bytes exceeds declared length "
      ++ Numeral.decimal limit
  | byteCount expected found =>
    "expected " ++ Numeral.decimal expected ++ " bytes, got " ++ Numeral.decimal found
  | invalidText => "string data is not valid UTF-8"
  | leavesWord => Integer.overflowMessage

namespace StoredType

def size : StoredType → Nat
  | scalar element => element.size
  | array element count => element.size * count
  | text size => size

def wordBound : Nat :=
  Nat.pow 2 64

/-- The size as a machine word, if there is one. A compiler that computes sizes in words breaks off on
the others, so this is asked before a size is used for anything. -/
def wordSize? (t : StoredType) : Option Nat :=
  if t.size < wordBound then some t.size else none

def element? : StoredType → Option Scalar
  | scalar element | array element _ => some element
  | text _ => none

def count : StoredType → Nat
  | scalar _ => 1
  | array _ count => count
  | text size => size

def name : StoredType → String
  | scalar element => element.name
  | array element count => element.name ++ "[" ++ Numeral.decimal count ++ "]"
  | text size => "utf8[" ++ Numeral.decimal size ++ "]"

end StoredType

/-- The stored type of a declared type and the literal given for it. A scalar with an array literal
becomes an array and text without a length becomes as long as its literal; nothing else is decided by the
literal. -/
def DeclaredType.stored : DeclaredType → Literal → Except ValueFault StoredType
  | .scalar _, .array [] => .error (.mismatch .nonEmptyArray (.array []))
  | .scalar t, .array items => .ok (.array t items.length)
  | .scalar t, _ => .ok (.scalar t)
  | .array t n, _ => .ok (.array t n)
  | .text (some n), _ => .ok (.text n)
  | .text none, .str s => .ok (.text (s.utf8ByteSize + 1))
  | .text none, other => .error (.mismatch .string other)

end FlashParams
