import FlashParams.Pattern.Class
import FlashParams.Text.Printable

/-!
# Reading patterns

The text of a pattern is read from the left with a stack of the groups that are open. A group holds
its finished alternatives and the items of the one being read; a repetition sign applies to the last
of these. Flags that are set inside a group hold up to its end.

A text is refused when it is not formed well, when it needs a Unicode table (a word boundary does,
unless it is repeated zero times), when it nests deeper than `nestingLimit`, or when the pattern
costs more than `costLimit`.
-/

set_option autoImplicit false

namespace FlashParams.Pattern

def nestingLimit : Nat := 250

structure Item where
  pattern : Pattern
  /-- How deep it is nested. -/
  depth : Nat := 0
  /-- Whether a repetition sign may follow. -/
  repeatable : Bool := true
  /-- Whether it asks about words of characters outside ASCII. -/
  needsTables : Bool := false

namespace Item

def join (two : Pattern → Pattern → Pattern) : List Item → Item
  | [] => { pattern := .empty }
  | [item] => item
  | first :: rest =>
    { pattern := rest.foldl (fun p item => two p item.pattern) first.pattern
      depth := ((first :: rest).map (·.depth)).foldl max 0 + 1
      needsTables := (first :: rest).any (·.needsTables) }

def times (item : Item) (least : Nat) (most : Option Nat) : Item :=
  { pattern := item.pattern.times least most
    depth := item.depth + 1
    needsTables := item.needsTables && most != some 0 }

def ofAssertion (f : Flags) (a : Assertion) : Item :=
  { pattern := .assertion a, needsTables := f.unicode && a.asksAboutWords }

def ofEscape? (f : Flags) : Escape → Option Item
  | .literal c byte => (literalSet? f c byte).map fun set => { pattern := .one set }
  | .class set negated => (classSet? f set negated).map fun set => { pattern := .one set }
  | .assertion a => some (ofAssertion f a)

end Item

/-! ## Groups -/

structure Group where
  /-- The finished alternatives, last first. -/
  alternatives : List Item := []
  /-- The items of the alternative being read, last first. -/
  items : List Item := []
  /-- The flags in force. -/
  flags : Flags := {}

namespace Group

def push (g : Group) (item : Item) : Group :=
  { g with items := item :: g.items }

def alternative (g : Group) : Item :=
  .join andThen g.items.reverse

def next (g : Group) : Group :=
  { g with alternatives := g.alternative :: g.alternatives, items := [] }

def finish (g : Group) : Item :=
  .join .either (g.alternative :: g.alternatives).reverse

def repeatLast? (g : Group) (least : Nat) (most : Option Nat) : Option Group :=
  match g.items with
  | [] => none
  | item :: rest =>
    if item.repeatable then some { g with items := item.times least most :: rest } else none

end Group

structure Progress where
  group : Group := {}
  outer : List Group := []
  names : List (List Char) := []

abbrev Step := Option (Progress × List Char)

/-! ## Names and flags of groups -/

def symbolBlocks : List (Nat × Nat) :=
  [(0xA1, 0xA9), (0xAB, 0xB4), (0xB6, 0xB9), (0xBB, 0xBF), (0xD7, 0xD7), (0xF7, 0xF7),
    (0x2000, 0x2BFF), (0x2E00, 0x2E7F), (0x3000, 0x3004), (0x3008, 0x3020), (0xFE30, 0xFE6F),
    (0xFF00, 0xFF0F), (0x1F000, 0x1FAFF)]

/-- Whether a character is a letter. Outside ASCII every character counts that is shown as itself and is
in no block of punctuation or symbols, which is close to the property and errs only for characters no
filter is written with. -/
def isLetter (c : Char) : Bool :=
  if c.toNat < 0x80 then c.isAlpha
  else
    Text.isShown c
      && !symbolBlocks.any fun (low, high) => low ≤ c.toNat && c.toNat ≤ high

def startsName (c : Char) : Bool :=
  c == '_' || isLetter c

def continuesName (c : Char) : Bool :=
  startsName c || c.isDigit || c == '.' || c == '[' || c == ']'

def name? (s : List Char) : Option (List Char × List Char) :=
  match s.takeWhile (· != '>'), s.dropWhile (· != '>') with
  | c :: name, _ :: rest =>
    if startsName c && name.all continuesName then some (c :: name, rest) else none
  | _, _ => none

def flags? (f : Flags) (seen : List Flag) (off dangling : Bool) :
    List Char → Option ((Flags × Bool × Char) × List Char)
  | [] => none
  | c :: rest =>
    if c = ':' ∨ c = ')' then
      if dangling then none else some ((f, seen.isEmpty, c), rest)
    else if c = '-' then if off then none else flags? f seen true true rest
    else
      match Flag.ofChar? c with
      | none => none
      | some flag =>
        if flag ∈ seen then none else flags? (f.set flag (!off)) (flag :: seen) off false rest

/-! ## Signs -/

namespace Progress

def push (p : Progress) (item : Item) : Progress :=
  { p with group := p.group.push item }

def openGroup (p : Progress) (flags : Flags) : Progress :=
  { p with group := { flags }, outer := p.group :: p.outer }

def group? (p : Progress) (s : List Char) : Step :=
  let f := p.group.flags
  let named (s : List Char) : Step := do
    let (name, rest) ← name? s
    if name ∈ p.names then none
    else some ({ p.openGroup f with names := name :: p.names }, rest)
  match skipBlanks f.spaced s with
  | '?' :: 'P' :: '<' :: rest => named rest
  | '?' :: '<' :: '=' :: _ | '?' :: '<' :: '!' :: _ => none
  | '?' :: '<' :: rest => named rest
  | '?' :: rest =>
    match flags? f [] false false rest with
    | none => none
    | some ((flags, isEmpty, closing), rest) =>
      if closing = ':' then some (p.openGroup flags, rest)
      -- flags without a flag are refused only when they stand alone
      else if isEmpty then none
      else
        let group := { p.group with flags }
        some ({ p with group := group.push { pattern := .empty, repeatable := false } }, rest)
  | rest => some (p.openGroup f, rest)

def close? (p : Progress) : Option Progress :=
  match p.outer with
  | [] => none
  | group :: outer =>
    let item := p.group.finish
    some { p with group := group.push { item with depth := item.depth + 1, repeatable := true },
                  outer }

def dropReluctance : List Char → List Char
  | '?' :: rest => rest
  | rest => rest

def repeat? (p : Progress) (least : Nat) (most : Option Nat) (rest : List Char) : Step :=
  (p.group.repeatLast? least most).map fun group => ({ p with group }, dropReluctance rest)

end Progress

def count? (spaced : Bool) (s : List Char) : Option (Option Nat × List Char) :=
  let (digits, rest) :=
    takeSpaced (fun c => (Numeral.digitOf? 10 c).isSome) spaced (s.dropWhile Text.isBlank)
  let rest := skipBlanks spaced (rest.dropWhile Text.isBlank)
  if digits.isEmpty then some (none, rest)
  else
    match Numeral.read? 10 digits with
    | some n => if n < 0x100000000 then some (some n, rest) else none
    | none => none

def counts? (spaced : Bool) (s : List Char) : Option ((Nat × Option Nat) × List Char) := do
  let (least, rest) ← count? spaced (skipBlanks spaced s)
  let least ← least
  match rest with
  | '\x7d' :: rest => some ((least, some least), skipBlanks spaced rest)
  | ',' :: rest =>
    match skipBlanks spaced rest with
    | '\x7d' :: rest => some ((least, none), skipBlanks spaced rest)
    | rest =>
      let (most, rest) ← count? spaced rest
      let most ← most
      match rest with
      | '\x7d' :: rest =>
        if least ≤ most then some ((least, some most), skipBlanks spaced rest) else none
      | _ => none
  | _ => none

def Flags.startOfLine (f : Flags) : Assertion :=
  if !f.multiLine then .textStart else if f.crlf then .anyLineStart else .lineStart

def Flags.endOfLine (f : Flags) : Assertion :=
  if !f.multiLine then .textEnd else if f.crlf then .anyLineEnd else .lineEnd

def Progress.step? (p : Progress) (c : Char) (rest : List Char) : Step :=
  let f := p.group.flags
  match c with
  | '(' => p.group? rest
  | ')' => p.close?.map (·, rest)
  | '|' => some ({ p with group := p.group.next }, rest)
  | '?' => p.repeat? 0 (some 1) rest
  | '*' => p.repeat? 0 none rest
  | '+' => p.repeat? 1 none rest
  | '\x7b' =>
    match counts? f.spaced rest with
    | some ((least, most), rest) => p.repeat? least most rest
    | none => none
  | '[' =>
    (bracket? (rest.length + 1) f rest).map fun (item, rest) =>
      (p.push { pattern := .one item.set, depth := item.depth }, rest)
  | '\\' => do
    let (escape, rest) ← escape? f rest
    let item ← Item.ofEscape? f escape
    return (p.push item, rest)
  | '.' => (dotSet? f).map fun set => (p.push { pattern := .one set }, rest)
  | '^' => some (p.push (.ofAssertion f f.startOfLine), rest)
  | '$' => some (p.push (.ofAssertion f f.endOfLine), rest)
  | c => (literalSet? f c false).map fun set => (p.push { pattern := .one set }, rest)

/-- The item of a whole text, after what has been read. Every step consumes a character, so the
length of the text is fuel enough. -/
def readFrom? : Nat → Progress → List Char → Option Item
  | 0, _, _ => none
  | fuel + 1, p, s =>
    match skipBlanks p.group.flags.spaced s with
    | [] => if p.outer.isEmpty then some p.group.finish else none
    | c :: rest =>
      match p.step? c rest with
      | none => none
      | some (p, rest) => readFrom? fuel p rest

/-- The pattern that a text stands for. What is nested too deeply or would take too large a table is
refused like a text that is no pattern; the limits are those of the reader that is modelled. -/
def read? (s : List Char) : Option Pattern := do
  let item ← readFrom? (s.length + 1) {} s
  if item.needsTables ∨ nestingLimit < item.depth ∨ costLimit < item.pattern.cost then none
  else some item.pattern

end FlashParams.Pattern
