import FlashParams.Number.Numeral
import FlashParams.Pattern.Basic

/-!
# Reading character classes

The parts of a pattern's text below its structure: flags, escapes, and classes in brackets.

Under the flag `unicode`, which is on at first, a pattern is about characters; without it about
ASCII, and what would leave ASCII is refused. There are no tables of Unicode properties here. So
under that flag the classes that need them (digits, white space, words, properties) are refused, and
so is any character whose case is not to count.

A class in brackets is a union of items. Classes nest; `&&`, `--` and `~~` combine the union to
their left with the one to their right, from left to right. A `]` right at the start, and dashes at
the start or the end, stand for themselves.
-/

set_option autoImplicit false

namespace FlashParams.Pattern

/-! ## Flags -/

structure Flags where
  ignoreCase : Bool := false
  multiLine : Bool := false
  dotAll : Bool := false
  unicode : Bool := true
  crlf : Bool := false
  /-- White space and comments in the text mean nothing. -/
  spaced : Bool := false
  deriving DecidableEq, Repr

inductive Flag where
  | ignoreCase | multiLine | dotAll | swapGreed | unicode | crlf | spaced
  deriving DecidableEq, Repr

def Flag.ofChar? : Char → Option Flag
  | 'i' => some .ignoreCase
  | 'm' => some .multiLine
  | 's' => some .dotAll
  | 'U' => some .swapGreed
  | 'u' => some .unicode
  | 'R' => some .crlf
  | 'x' => some .spaced
  | _ => none

/-- Flags with one of them set. Which of several occurrences is preferred has no influence on
whether there is one. -/
def Flags.set (f : Flags) (flag : Flag) (on : Bool) : Flags :=
  match flag with
  | .ignoreCase => { f with ignoreCase := on }
  | .multiLine => { f with multiLine := on }
  | .dotAll => { f with dotAll := on }
  | .swapGreed => f
  | .unicode => { f with unicode := on }
  | .crlf => { f with crlf := on }
  | .spaced => { f with spaced := on }

/-! ## White space -/

def skipBlanks (spaced : Bool) (s : List Char) : List Char :=
  if spaced then go false s else s
where
  /-- Goes on, within a comment or not. -/
  go : Bool → List Char → List Char
    | _, [] => []
    | true, c :: rest => go (c != '\n') rest
    | false, c :: rest =>
      if Text.isBlank c then go false rest
      else if c = '#' then go true rest
      else c :: rest

def takeSpaced (p : Char → Bool) (spaced : Bool) (s : List Char) : List Char × List Char :=
  go false s
where
  /-- Goes on, within a comment or not. -/
  go : Bool → List Char → List Char × List Char
    | _, [] => ([], [])
    | true, c :: rest => go (c != '\n') rest
    | false, c :: rest =>
      if spaced && Text.isBlank c then go false rest
      else if spaced && c == '#' then go true rest
      else if p c then
        let (taken, rest) := go false rest
        (c :: taken, rest)
      else ([], c :: rest)

/-! ## Escapes -/

inductive Escape where
  /-- A character; `byte` if it is written as the two digits of a byte. -/
  | literal (c : Char) (byte : Bool)
  | class (set : CharSet) (negated : Bool)
  | assertion (a : Assertion)

def codeChar? (digits : List Char) : Option Char :=
  match Numeral.read? 16 digits with
  | some n => if n.isValidChar then some (Char.ofNat n) else none
  | none => none

def hexDigits? (spaced : Bool) : Nat → List Char → Option (List Char × List Char)
  | 0, s => some ([], s)
  | count + 1, s =>
    match skipBlanks spaced s with
    | [] => none
    | c :: rest =>
      if (Numeral.digitOf? 16 c).isSome then
        (hexDigits? spaced count rest).map fun (digits, rest) => (c :: digits, rest)
      else none

def code? (spaced : Bool) (count : Nat) (s : List Char) : Option (Escape × List Char) :=
  match skipBlanks spaced s with
  | '\x7b' :: rest =>
    match takeSpaced (fun c => (Numeral.digitOf? 16 c).isSome) spaced rest with
    | (digits, '\x7d' :: rest) => (codeChar? digits).map fun c => (.literal c false, rest)
    | _ => none
  | s => do
    let (digits, rest) ← hexDigits? spaced count s
    let c ← codeChar? digits
    return (.literal c (count == 2), rest)

def boundary? (spaced : Bool) (s : List Char) : Option (Escape × List Char) :=
  match s with
  | '\x7b' :: inner =>
    match takeSpaced (fun c => c.isAlpha || c == '-') spaced inner with
    | ([], _) => some (.assertion .wordBoundary, s)
    | (name, '\x7d' :: rest) =>
      match String.ofList name with
      | "start" => some (.assertion .wordStart, rest)
      | "end" => some (.assertion .wordEnd, rest)
      | "start-half" => some (.assertion .noWordBefore, rest)
      | "end-half" => some (.assertion .noWordAfter, rest)
      | _ => none
    | _ => none
  | s => some (.assertion .wordBoundary, s)

def escape? (f : Flags) : List Char → Option (Escape × List Char)
  | [] => none
  | c :: rest =>
    let literal (c : Char) := some (Escape.literal c false, rest)
    match c with
    | 'x' => code? f.spaced 2 rest
    | 'u' => code? f.spaced 4 rest
    | 'U' => code? f.spaced 8 rest
    | 'd' => some (.class digitSet false, rest)
    | 'D' => some (.class digitSet true, rest)
    | 's' => some (.class spaceSet false, rest)
    | 'S' => some (.class spaceSet true, rest)
    | 'w' => some (.class wordSet false, rest)
    | 'W' => some (.class wordSet true, rest)
    | 'a' => literal '\x07'
    | 'f' => literal '\x0c'
    | 't' => literal '\t'
    | 'n' => literal '\n'
    | 'r' => literal '\r'
    | 'v' => literal '\x0b'
    | 'A' => some (.assertion .textStart, rest)
    | 'z' => some (.assertion .textEnd, rest)
    | 'b' => boundary? f.spaced rest
    | 'B' => some (.assertion .noWordBoundary, rest)
    | '<' => some (.assertion .wordStart, rest)
    | '>' => some (.assertion .wordEnd, rest)
    | c => if c.toNat < 0x80 ∧ !c.isAlphanum then literal c else none

/-! ## Sets -/

def literalSet? (f : Flags) (c : Char) (byte : Bool) : Option CharSet :=
  if f.unicode then if f.ignoreCase then none else some (.single c)
  else if byte ∧ 0x7F < c.toNat then none
  else if f.ignoreCase then some (.eitherCase (.single c))
  else some (.single c)

def classSet? (f : Flags) (set : CharSet) (negated : Bool) : Option CharSet :=
  if f.unicode ∨ negated then none else some set

def dotSet? (f : Flags) : Option CharSet :=
  if !f.unicode then none
  else if f.dotAll then some (.complement .nothing)
  else if f.crlf then some (.complement (.union (.single '\r') (.single '\n')))
  else some (.complement (.single '\n'))

def namedSet? : String → Option CharSet
  | "alnum" => some (.ofRanges [('0', '9'), ('A', 'Z'), ('a', 'z')])
  | "alpha" => some (.ofRanges [('A', 'Z'), ('a', 'z')])
  | "ascii" => some (.range '\x00' '\x7f')
  | "blank" => some (.ofRanges [('\t', '\t'), (' ', ' ')])
  | "cntrl" => some (.ofRanges [('\x00', '\x1f'), ('\x7f', '\x7f')])
  | "digit" => some digitSet
  | "graph" => some (.range '!' '~')
  | "lower" => some (.range 'a' 'z')
  | "print" => some (.range ' ' '~')
  | "punct" => some (.ofRanges [('!', '/'), (':', '@'), ('[', '\x60'), ('\x7b', '~')])
  | "space" => some spaceSet
  | "upper" => some (.range 'A' 'Z')
  | "word" => some wordSet
  | "xdigit" => some (.ofRanges [('0', '9'), ('A', 'F'), ('a', 'f')])
  | _ => none

/-! ## Brackets -/

structure ClassItem where
  set : CharSet
  /-- How deep it is nested. -/
  depth : Nat := 0
  /-- Whether its text names a character. -/
  named : Bool := true

namespace ClassItem

def unite : List ClassItem → ClassItem
  | [] => { set := .nothing, named := false }
  | [item] => item
  | items =>
    { set := items.foldr (fun item rest => .union item.set rest) .nothing
      depth := (items.map (·.depth)).foldl max 0 + 1
      named := items.any (·.named) }

def folded (f : Flags) (item : ClassItem) : ClassItem :=
  if f.ignoreCase then { item with set := .eitherCase item.set } else item

def close? (f : Flags) (negated : Bool) (item : ClassItem) : Option ClassItem :=
  if f.unicode then
    if f.ignoreCase ∧ item.named then none
    else
      let set := if negated then .complement item.set else item.set
      some { item with set, depth := item.depth + 1 }
  else if negated then none
  else some { item.folded f with depth := item.depth + 1 }

end ClassItem

inductive SetOperation where
  | intersection | difference | symmetricDifference

def SetOperation.apply : SetOperation → CharSet → CharSet → CharSet
  | intersection => .intersection
  | difference => .difference
  | symmetricDifference => .symmetricDifference

def complete (f : Flags) (pending : Option (SetOperation × ClassItem)) (right : ClassItem) :
    ClassItem :=
  match pending with
  | none => right
  | some (operation, left) =>
    { set := operation.apply (left.folded f).set (right.folded f).set
      depth := max left.depth right.depth + 1
      named := left.named || right.named }

def namedClass? : List Char → Option ((CharSet × Bool) × List Char)
  | ':' :: rest =>
    let (negated, rest) :=
      match rest with
      | '^' :: rest => (true, rest)
      | rest => (false, rest)
    match rest.dropWhile (· != ':') with
    | ':' :: ']' :: after =>
      (namedSet? (String.ofList (rest.takeWhile (· != ':')))).map fun set => ((set, negated), after)
    | _ => none
  | _ => none

def namedItem? (f : Flags) (set : CharSet) (negated : Bool) : Option ClassItem :=
  if f.unicode then some { set := if negated then .complement set else set }
  else if negated then none
  else some (ClassItem.folded f { set })

def classPart? (f : Flags) : List Char → Option (Escape × List Char)
  | [] => none
  | '\\' :: rest => escape? f rest
  | c :: rest => some (.literal c false, rest)

def partItem? (f : Flags) : Escape → Option ClassItem
  | .literal c _ => if f.unicode ∨ c.toNat < 0x80 then some { set := .single c } else none
  | .class set negated => (classSet? f set negated).map fun set => { set }
  | .assertion _ => none

def peekAfterDash (spaced : Bool) (s : List Char) : Option Char :=
  if spaced then
    match s.dropWhile Text.isBlank with
    | '#' :: rest => (rest.dropWhile Text.isBlank).head?
    | rest => rest.head?
  else s.head?

def rangeItem? (f : Flags) (s : List Char) : Option (ClassItem × List Char) := do
  let (low, rest) ← classPart? f s
  let single (rest : List Char) := (partItem? f low).map (·, rest)
  match skipBlanks f.spaced rest with
  | [] => none
  | '-' :: after =>
    let next := peekAfterDash f.spaced after
    if next = some ']' ∨ next = some '-' then single ('-' :: after)
    else
      let (high, rest) ← classPart? f (skipBlanks f.spaced after)
      match low, high with
      | .literal low _, .literal high _ =>
        if low ≤ high ∧ (f.unicode ∨ high.toNat < 0x80) then
          some ({ set := .range low high }, rest)
        else none
      | _, _ => none
  | rest => single rest

def opening? (f : Flags) (s : List Char) : Option ((Bool × List ClassItem) × List Char) :=
  let (negated, s) :=
    match skipBlanks f.spaced s with
    | '^' :: rest => (true, rest)
    | rest => (false, rest)
  match takeSpaced (· == '-') f.spaced s with
  | (_, []) => none
  | ([], ']' :: rest) =>
    match skipBlanks f.spaced rest with
    | [] => none
    | rest => some ((negated, [{ set := .single ']' }]), rest)
  | (dashes, rest) => some ((negated, dashes.map fun c => { set := .single c }), rest)

mutual

def bracket? : Nat → Flags → List Char → Option (ClassItem × List Char)
  | 0, _, _ => none
  | fuel + 1, f, s =>
    match opening? f s with
    | none => none
    | some ((negated, items), rest) =>
      match classItems? fuel f none items rest with
      | none => none
      | some (item, rest) => (item.close? f negated).map (·, rest)

/-- The items of a class up to its closing bracket, behind those read so far, which come last item first.
Classes nest, so this goes by fuel: every call consumes a character of the text it is given. -/
def classItems? : Nat → Flags → Option (SetOperation × ClassItem) → List ClassItem → List Char →
    Option (ClassItem × List Char)
  | 0, _, _, _, _ => none
  | fuel + 1, f, pending, items, s =>
    let soFar := complete f pending (.unite items.reverse)
    let operate (operation : SetOperation) (rest : List Char) :=
      classItems? fuel f (some (operation, soFar)) [] rest
    match skipBlanks f.spaced s with
    | [] => none
    | '[' :: rest =>
      match namedClass? rest with
      | some ((set, negated), rest) =>
        match namedItem? f set negated with
        | none => none
        | some item => classItems? fuel f pending (item :: items) rest
      | none =>
        match bracket? fuel f rest with
        | none => none
        | some (item, rest) =>
          classItems? fuel f pending (item :: items) rest
    | ']' :: rest => some (soFar, rest)
    | '&' :: '&' :: rest => operate .intersection rest
    | '-' :: '-' :: rest => operate .difference rest
    | '~' :: '~' :: rest => operate .symmetricDifference rest
    | s =>
      match rangeItem? f s with
      | none => none
      | some (item, rest) => classItems? fuel f pending (item :: items) rest

end

end FlashParams.Pattern
