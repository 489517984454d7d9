import FlashParams.Text.Blank

/-!
# Patterns

A pattern describes the texts that may stand somewhere in another text. It is built from sets of
characters, from assertions, which look at the characters on either side of a place and consume
none, and from sequence, choice and repetition.

Whether a pattern occurs in a text is decided by derivatives, without a search that goes back. At a
place between two characters, `emptyAt` says whether the pattern can end there without consuming
anything, and `after` gives what is left of it once the next character is consumed, as a list of
alternatives. Both are told the characters on either side of the place, and that is all an assertion
needs. `occursIn` goes through the text once with the list of everything that may still follow.

Counted repetitions stay counted: what is left of `p` repeated between `least` and `most` times is
what is left of one `p`, followed by the same with both counts lowered. If `p` can end at the place
without consuming, any number of the required repetitions may be spent there, so nothing is required
any more.
-/

set_option autoImplicit false

namespace FlashParams

namespace Pattern

/-! ## Sets of characters -/

inductive CharSet where
  | nothing
  /-- The characters between two, both included. -/
  | range (low high : Char)
  | union (a b : CharSet)
  | intersection (a b : CharSet)
  | difference (a b : CharSet)
  | symmetricDifference (a b : CharSet)
  | complement (a : CharSet)
  /-- With each ASCII letter also the same letter in the other case. -/
  | eitherCase (a : CharSet)
  deriving DecidableEq, Repr

def swapCase (c : Char) : Char :=
  if 'a' ≤ c ∧ c ≤ 'z' then c.toUpper
  else if 'A' ≤ c ∧ c ≤ 'Z' then c.toLower
  else c

namespace CharSet

def contains : CharSet → Char → Bool
  | nothing, _ => false
  | range low high, c => low ≤ c && c ≤ high
  | union a b, c => a.contains c || b.contains c
  | intersection a b, c => a.contains c && b.contains c
  | difference a b, c => a.contains c && !b.contains c
  | symmetricDifference a b, c => a.contains c != b.contains c
  | complement a, c => !a.contains c
  | eitherCase a, c => a.contains c || a.contains (swapCase c)

def single (c : Char) : CharSet :=
  range c c

def ofRanges (ranges : List (Char × Char)) : CharSet :=
  ranges.foldr (fun (low, high) rest => union (range low high) rest) nothing

def beyondAscii : CharSet → Bool
  | nothing => false
  | range _ high => 0x7F < high.toNat
  | union a b | symmetricDifference a b => a.beyondAscii || b.beyondAscii
  | intersection a b => a.beyondAscii && b.beyondAscii
  | difference a _ | eitherCase a => a.beyondAscii
  | complement _ => true

end CharSet

def digitSet : CharSet := .range '0' '9'

def spaceSet : CharSet := .ofRanges [('\t', '\r'), (' ', ' ')]

def wordSet : CharSet := .ofRanges [('0', '9'), ('A', 'Z'), ('_', '_'), ('a', 'z')]

/-! ## Assertions -/

/-- What may be asked of the characters on either side of a place. Every assertion looks at most one
character back and one ahead, so a match needs no more of the text than that. -/
inductive Assertion where
  | textStart
  | textEnd
  | lineStart
  | lineEnd
  /-- At the start of a line, where a carriage return, a line feed, or both end a line. -/
  | anyLineStart
  /-- At the end of such a line. -/
  | anyLineEnd
  | wordBoundary
  | noWordBoundary
  | wordStart
  | wordEnd
  /-- Not behind a word character. -/
  | noWordBefore
  /-- Not in front of a word character. -/
  | noWordAfter
  deriving DecidableEq, Repr

namespace Assertion

def asksAboutWords : Assertion → Bool
  | wordBoundary | noWordBoundary | wordStart | wordEnd | noWordBefore | noWordAfter => true
  | _ => false

def holds (before after : Option Char) : Assertion → Bool :=
  let behind := before.any wordSet.contains
  let ahead := after.any wordSet.contains
  fun
  | textStart => before.isNone
  | textEnd => after.isNone
  | lineStart => before.all (· == '\n')
  | lineEnd => after.all (· == '\n')
  | anyLineStart =>
    before.all (· == '\n') || (before == some '\r' && after != some '\n')
  | anyLineEnd =>
    after.all (· == '\r') || (after == some '\n' && before != some '\r')
  | wordBoundary => behind != ahead
  | noWordBoundary => behind == ahead
  | wordStart => !behind && ahead
  | wordEnd => behind && !ahead
  | noWordBefore => !behind
  | noWordAfter => !ahead

end Assertion

end Pattern

/-! ## Patterns -/

inductive Pattern where
  | empty
  | one (set : Pattern.CharSet)
  | assertion (a : Pattern.Assertion)
  | sequence (p q : Pattern)
  | either (p q : Pattern)
  | repeated (p : Pattern) (least : Nat) (most : Option Nat)
  deriving DecidableEq, Repr

namespace Pattern

def andThen (p q : Pattern) : Pattern :=
  match p, q with
  | empty, q => q
  | p, empty => p
  | p, q => sequence p q

/-- Whether a pattern consumes nothing in any text. Repeating such a pattern changes nothing, and the
question is settled by its form, before any text is seen. -/
def isWidthless : Pattern → Bool
  | empty | assertion _ => true
  | one _ => false
  | sequence p q | either p q => p.isWidthless && q.isWidthless
  | repeated p _ _ => p.isWidthless

/-- A pattern repeated between `least` and `most` times. One that consumes nothing need not be repeated
more than once. -/
def times (p : Pattern) (least : Nat) (most : Option Nat) : Pattern :=
  let (least, most) :=
    if p.isWidthless then (min least 1, some (min (most.getD 1) 1)) else (least, most)
  if most = some 0 then empty
  else if least = 1 ∧ most = some 1 then p
  else repeated p least most

def emptyAt (before next : Option Char) : Pattern → Bool
  | empty => true
  | one _ => false
  | assertion a => a.holds before next
  | sequence p q => p.emptyAt before next && q.emptyAt before next
  | either p q => p.emptyAt before next || q.emptyAt before next
  | repeated p least _ => least == 0 || p.emptyAt before next

/-- What may be left of a pattern once the character `c`, behind `before`, is consumed. There is one rest
for every way to go on; together they stand for all of them, so a text is read once from the front. -/
def after (before : Option Char) (c : Char) : Pattern → List Pattern
  | empty | assertion _ => []
  | one set => if set.contains c then [empty] else []
  | sequence p q =>
    let rest := (p.after before c).map (·.andThen q)
    if p.emptyAt before (some c) then rest ++ q.after before c else rest
  | either p q => p.after before c ++ q.after before c
  | repeated p least most =>
    if most = some 0 then []
    else
      -- required rounds that consume nothing here are spent at once
      let required := if p.emptyAt before (some c) then 0 else least - 1
      (p.after before c).map (·.andThen (p.times required (most.map (· - 1))))

def occursFrom (p : Pattern) (before : Option Char) (live : List Pattern) : List Char → Bool
  | [] => (p :: live).any (·.emptyAt before none)
  | c :: rest =>
    -- an occurrence may start at every place
    let live := p :: live
    live.any (·.emptyAt before (some c))
      || occursFrom p (some c) (live.flatMap (·.after before c)).eraseDups rest

def occursIn (p : Pattern) (text : List Char) : Bool :=
  occursFrom p none [] text

/-! ## Size -/

/-- How many bytes a table takes that has an entry for every step of a pattern, with all repetitions
written out. It is only needed to refuse what would take more than the limit. -/
def cost : Pattern → Nat
  | empty | assertion _ => 32
  | one set => if set.beyondAscii then 400 else 40
  | sequence p q => p.cost + q.cost
  | either p q => p.cost + q.cost + 72
  | repeated p least none => (max least 1) * p.cost + 40
  | repeated p least (some most) => most * p.cost + (most - least) * 40 + 32

/-- The largest cost of a pattern. Counts multiply where repetitions are nested, so without a limit
a short text could stand for a pattern of any size. -/
def costLimit : Nat := 10 * 1024 * 1024

end Pattern

end FlashParams
