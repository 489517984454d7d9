import FlashParams.Text.Split

/-!
# White space

Declarations are written by people, so names of types, numbers and overrides are read with the white
space around them removed. "White space" here is the Unicode property `White_Space`, twenty-five
characters in all: the ASCII controls from tab to carriage return and the blank, the next-line
control, the no-break space, and the spaces and separators of the general punctuation and
ideographic blocks. The zero-width space is *not* among them. The table is spelled out because the
character predicate of the core library knows four characters only.
-/

set_option autoImplicit false

namespace FlashParams.Text

/-- The ranges of the property `White_Space`, ends included. -/
def blankRanges : List (Nat × Nat) :=
  [(0x09, 0x0D), (0x20, 0x20), (0x85, 0x85), (0xA0, 0xA0), (0x1680, 0x1680), (0x2000, 0x200A),
    (0x2028, 0x2029), (0x202F, 0x202F), (0x205F, 0x205F), (0x3000, 0x3000)]

def isBlank (c : Char) : Bool :=
  blankRanges.any fun (low, high) => low ≤ c.toNat && c.toNat ≤ high

def trimStart (s : List Char) : List Char :=
  s.dropWhile isBlank

def trimEnd (s : List Char) : List Char :=
  (s.reverse.dropWhile isBlank).reverse

def trim (s : List Char) : List Char :=
  trimEnd (trimStart s)

/-- The words of a text: its longest pieces without white space, none of them empty. A text of white
space only has no word at all. -/
def words (s : List Char) : List (List Char) :=
  (splitWhere isBlank s).filter fun word => !word.isEmpty

/-- No visible ASCII character is white space. Digits, signs and letters are all in this range, so this
is why a numeral or a name that has been written is not trimmed when it is read. -/
theorem isBlank_of_visible {c : Char} (hlow : 0x21 ≤ c.toNat) (hhigh : c.toNat ≤ 0x7E) :
    isBlank c = false := by
  simp only [isBlank, blankRanges, List.any_cons, List.any_nil, Bool.or_false,
    Bool.or_eq_false_iff, Bool.and_eq_false_iff, decide_eq_false_iff_not]
  omega

end FlashParams.Text
