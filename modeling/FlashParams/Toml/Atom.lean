import FlashParams.Toml.Value

/-!
# The atoms of a TOML document

Keys, strings, numbers, dates and times: what a document is made of below the level of its
structure. Each reader takes the remaining characters and gives what it has read with the rest, or
nothing. None of them looks back, so a caller that tries several in turn simply starts each from the
same characters.

Strings are read by structural recursion. A basic string takes escapes, a literal one none; the
multi-line forms drop a line break right after the opening quotes, read every line break as a line
feed, and close at three quotes, up to two more of which belong to the text. In a multi-line basic
string a backslash at the end of a line joins it to the next text.

Numbers keep the format's strictness: no leading zeros, an underscore only between digits, a digit
on both sides of a point, no sign in front of a base. Integers have 64 bits. A float that overflows
is refused if it is positive.
-/

set_option autoImplicit false

namespace FlashParams.Toml

/-- A reader: what was read, with the remaining characters. -/
abbrev Reader (α : Type) := List Char → Option (α × List Char)

/-! ## White space and line ends -/

def isSpace (c : Char) : Bool :=
  c == ' ' || c == '\t'

def skipSpace (s : List Char) : List Char :=
  s.dropWhile isSpace

def isPlain (c : Char) : Bool :=
  c == '\t' || (0x20 ≤ c.toNat && c.toNat != 0x7F)

def lineBreak? : List Char → Option (List Char)
  | '\n' :: rest => some rest
  | '\r' :: '\n' :: rest => some rest
  | _ => none

def skipComment : List Char → List Char
  | '#' :: rest => rest.dropWhile isPlain
  | s => s

def lineEnd? (s : List Char) : Option (List Char) :=
  match skipComment (skipSpace s) with
  | [] => some []
  | rest => lineBreak? rest

/-! ## Strings -/

def codeChar? (digits : List Char) : Option Char :=
  match Numeral.read? 16 digits with
  | some n => if n.isValidChar then some (Char.ofNat n) else none
  | none => none

def shortEscape? : Char → Option Char
  | 'b' => some '\x08'
  | 't' => some '\t'
  | 'n' => some '\n'
  | 'f' => some '\x0c'
  | 'r' => some '\r'
  | '"' => some '"'
  | '\\' => some '\\'
  | _ => none

/-- The rest of a basic string, `read` being what has been read, backwards. -/
def basicRest (read : List Char) : Reader String
  | [] => none
  | '"' :: rest => some (String.ofList read.reverse, rest)
  | '\\' :: 'u' :: a :: b :: c :: d :: rest =>
    match codeChar? [a, b, c, d] with
    | some e => basicRest (e :: read) rest
    | none => none
  | '\\' :: 'U' :: a :: b :: c :: d :: e :: f :: g :: h :: rest =>
    match codeChar? [a, b, c, d, e, f, g, h] with
    | some e => basicRest (e :: read) rest
    | none => none
  | '\\' :: c :: rest =>
    match shortEscape? c with
    | some e => basicRest (e :: read) rest
    | none => none
  | c :: rest => if isPlain c && c != '\\' then basicRest (c :: read) rest else none

def literalRest (read : List Char) : Reader String
  | [] => none
  | '\'' :: rest => some (String.ofList read.reverse, rest)
  | c :: rest => if isPlain c then literalRest (c :: read) rest else none

def endsLine (s : List Char) : Bool :=
  (lineBreak? (skipSpace s)).isSome

/-- The rest of a multi-line basic string. While `joining` holds, white space and line breaks after
a backslash at the end of a line are passed over. -/
def multiBasicRest (joining : Bool) (read : List Char) : Reader String
  | [] => none
  -- quotes directly in front of the closing three belong to the text, two at most
  | '"' :: '"' :: '"' :: '"' :: '"' :: rest =>
    some (String.ofList ('"' :: '"' :: read).reverse, rest)
  | '"' :: '"' :: '"' :: '"' :: rest => some (String.ofList ('"' :: read).reverse, rest)
  | '"' :: '"' :: '"' :: rest => some (String.ofList read.reverse, rest)
  | '\r' :: '\n' :: rest => multiBasicRest joining (if joining then read else '\n' :: read) rest
  | '\n' :: rest => multiBasicRest joining (if joining then read else '\n' :: read) rest
  | '\\' :: 'u' :: a :: b :: c :: d :: rest =>
    match codeChar? [a, b, c, d] with
    | some e => multiBasicRest false (e :: read) rest
    | none => none
  | '\\' :: 'U' :: a :: b :: c :: d :: e :: f :: g :: h :: rest =>
    match codeChar? [a, b, c, d, e, f, g, h] with
    | some e => multiBasicRest false (e :: read) rest
    | none => none
  | '\\' :: c :: rest =>
    match shortEscape? c with
    | some e => multiBasicRest false (e :: read) rest
    -- no escape: the backslash has to end its line
    | none => if endsLine (c :: rest) then multiBasicRest true read (c :: rest) else none
  | c :: rest =>
    if joining && isSpace c then multiBasicRest true read rest
    else if isPlain c && c != '\\' then multiBasicRest false (c :: read) rest
    else none

def multiLiteralRest (read : List Char) : Reader String
  | [] => none
  | '\'' :: '\'' :: '\'' :: '\'' :: '\'' :: rest =>
    some (String.ofList ('\'' :: '\'' :: read).reverse, rest)
  | '\'' :: '\'' :: '\'' :: '\'' :: rest => some (String.ofList ('\'' :: read).reverse, rest)
  | '\'' :: '\'' :: '\'' :: rest => some (String.ofList read.reverse, rest)
  | '\r' :: '\n' :: rest => multiLiteralRest ('\n' :: read) rest
  | '\n' :: rest => multiLiteralRest ('\n' :: read) rest
  | c :: rest => if isPlain c then multiLiteralRest (c :: read) rest else none

def dropLineBreak (s : List Char) : List Char :=
  (lineBreak? s).getD s

def string? : Reader String
  | '"' :: '"' :: '"' :: rest => multiBasicRest false [] (dropLineBreak rest)
  | '"' :: rest => basicRest [] rest
  | '\'' :: '\'' :: '\'' :: rest => multiLiteralRest [] (dropLineBreak rest)
  | '\'' :: rest => literalRest [] rest
  | _ => none

/-! ## Keys -/

/-- The most parts of a dotted key, and the most levels of nested values, are one less than this. Deeper
documents are refused, so reading one needs no more memory than a document of this depth. -/
def depthLimit : Nat := 80

def keyPart? : Reader String
  | '"' :: rest => basicRest [] rest
  | '\'' :: rest => literalRest [] rest
  | s =>
    match s.takeWhile isBareKeyChar with
    | [] => none
    | part => some (String.ofList part, s.dropWhile isBareKeyChar)

def keyParts? : Nat → Reader (List String)
  | 0, _ => none
  | fuel + 1, s =>
    match keyPart? (skipSpace s) with
    | none => none
    | some (part, rest) =>
      match skipSpace rest with
      | '.' :: rest =>
        match keyParts? fuel rest with
        | some (parts, rest) => some (part :: parts, rest)
        | none => none
      | rest => some ([part], rest)

def key? (s : List Char) : Option ((List String × String) × List Char) :=
  match keyParts? (depthLimit - 1) s with
  | some (parts, rest) => parts.getLast?.map fun last => ((parts.dropLast, last), rest)
  | none => none

/-! ## Numbers -/

/-- The digits of a base, underscores between them allowed, after the first of them: each underscore
has to be followed by a digit. The result is without underscores. -/
def moreDigits? (base : Nat) : Reader (List Char)
  | '_' :: c :: rest =>
    if (Numeral.digitOf? base c).isSome then
      (moreDigits? base rest).map fun (digits, rest) => (c :: digits, rest)
    else none
  -- an underscore at the end of the text has no digit behind it
  | '_' :: [] => none
  | c :: rest =>
    if (Numeral.digitOf? base c).isSome then
      (moreDigits? base rest).map fun (digits, rest) => (c :: digits, rest)
    else some ([], c :: rest)
  | [] => some ([], [])

def digits? (base : Nat) : Reader (List Char)
  | c :: rest =>
    if (Numeral.digitOf? base c).isSome then
      (moreDigits? base rest).map fun (digits, rest) => (c :: digits, rest)
    else none
  | [] => none

def word? (v : Int) : Option Value :=
  if -Int.pow 2 63 ≤ v ∧ v < Int.pow 2 63 then some (.integer v) else none

def basedInteger? (base : Nat) (s : List Char) : Option (Value × List Char) := do
  let (digits, rest) ← digits? base s
  let n ← Numeral.read? base digits
  let v ← word? n
  return (v, rest)

def wholeDigits? : Reader (List Char)
  | '0' :: rest => some (['0'], rest)
  | s => digits? 10 s

def exponent? (s : List Char) : Option (List Char × List Char) :=
  let (sign, rest) :=
    match s with
    | '+' :: rest => (['+'], rest)
    | '-' :: rest => (['-'], rest)
    | rest => ([], rest)
  (digits? 10 rest).map fun (digits, rest) => ('e' :: sign ++ digits, rest)

def float? (text : List Char) : Option Value :=
  match Binary.Double.read? text with
  | some x => if x = Binary.Double.infinite false then none else some (.float x)
  | none => none

def decimal? (sign : List Char) (s : List Char) : Option (Value × List Char) := do
  let (whole, rest) ← wholeDigits? s
  match rest with
  | '.' :: rest =>
    let (fraction, rest) ← digits? 10 rest
    let mantissa := sign ++ whole ++ '.' :: fraction
    match rest with
    | c :: after =>
      if c = 'e' ∨ c = 'E' then
        let (exponent, rest) ← exponent? after
        let v ← float? (mantissa ++ exponent)
        return (v, rest)
      else
        let v ← float? mantissa
        return (v, rest)
    | [] =>
      let v ← float? mantissa
      return (v, rest)
  | c :: after =>
    if c = 'e' ∨ c = 'E' then
      let (exponent, rest) ← exponent? after
      let v ← float? (sign ++ whole ++ exponent)
      return (v, rest)
    else
      let n ← Numeral.read? 10 whole
      let v ← word? (if sign = ['-'] then -(n : Int) else n)
      return (v, rest)
  | [] =>
    let n ← Numeral.read? 10 whole
    let v ← word? (if sign = ['-'] then -(n : Int) else n)
    return (v, rest)

def signedNumber? (sign : List Char) : Reader Value
  | 'i' :: 'n' :: 'f' :: rest =>
    some (.float (Binary.Double.infinite (sign = ['-'])), rest)
  | 'n' :: 'a' :: 'n' :: rest =>
    some (.float (Binary.Double.notANumber (sign = ['-'])), rest)
  | s => decimal? sign s

def number? : Reader Value
  | '0' :: 'x' :: rest => basedInteger? 16 rest
  | '0' :: 'o' :: rest => basedInteger? 8 rest
  | '0' :: 'b' :: rest => basedInteger? 2 rest
  | '+' :: rest => signedNumber? ['+'] rest
  | '-' :: rest => signedNumber? ['-'] rest
  | rest => signedNumber? [] rest

/-! ## Dates and times -/

def fixedDigits? (count low high : Nat) (s : List Char) : Option (List Char × List Char) :=
  let digits := s.take count
  if digits.length = count ∧ digits.all Binary.isDigit then
    match Numeral.read? 10 digits with
    | some n => if low ≤ n ∧ n ≤ high then some (digits, s.drop count) else none
    | none => none
  else none

def daysIn (year month : Nat) : Nat :=
  if month = 2 then
    if year % 4 = 0 ∧ (year % 100 ≠ 0 ∨ year % 400 = 0) then 29 else 28
  else if month ∈ [4, 6, 9, 11] then 30
  else 31

def expect? (c : Char) : List Char → Option (List Char)
  | d :: rest => if d = c then some rest else none
  | [] => none

def date? (s : List Char) : Option (List Char × List Char) := do
  let (year, rest) ← fixedDigits? 4 0 9999 s
  let rest ← expect? '-' rest
  let (month, rest) ← fixedDigits? 2 1 12 rest
  let rest ← expect? '-' rest
  let y ← Numeral.read? 10 year
  let m ← Numeral.read? 10 month
  let (day, rest) ← fixedDigits? 2 1 (daysIn y m) rest
  return (year ++ '-' :: month ++ '-' :: day, rest)

def fraction (digits : List Char) : List Char :=
  match ((digits.take 9).reverse.dropWhile (· == '0')).reverse with
  | [] => []
  | kept => '.' :: kept

def time? (lastHour : Nat) (s : List Char) : Option (List Char × List Char) := do
  let (hour, rest) ← fixedDigits? 2 0 lastHour s
  let rest ← expect? ':' rest
  let (minute, rest) ← fixedDigits? 2 0 59 rest
  let rest ← expect? ':' rest
  let (second, rest) ← fixedDigits? 2 0 60 rest
  let text := hour ++ ':' :: minute ++ ':' :: second
  match rest with
  | '.' :: after =>
    match after.takeWhile Binary.isDigit with
    -- a point without digits is left for the caller to stumble over
    | [] => return (text, rest)
    | digits => return (text ++ fraction digits, after.dropWhile Binary.isDigit)
  | _ => return (text, rest)

/-- An offset from universal time, if there is one. No offset has a negative zero. -/
def zone (s : List Char) : List Char × List Char :=
  match s with
  | 'Z' :: rest | 'z' :: rest => (['Z'], rest)
  | sign :: after =>
    if sign = '+' ∨ sign = '-' then
      let read := do
        let (hour, rest) ← fixedDigits? 2 0 23 after
        let rest ← expect? ':' rest
        let (minute, rest) ← fixedDigits? 2 0 59 rest
        -- minus zero is the offset zero
        let zero := (hour ++ minute).all (· == '0')
        return ((if zero then '+' else sign) :: hour ++ ':' :: minute, rest)
      read.getD ([], s)
    else ([], s)
  | [] => ([], s)

/-- A date, a time, or both with an optional offset. -/
def dateTime? (s : List Char) : Option (Value × List Char) :=
  match date? s with
  | some (date, rest) =>
    let timed :=
      match rest with
      | c :: after => if c = 'T' ∨ c = 't' ∨ c = ' ' then time? 23 after else none
      | [] => none
    match timed with
    | some (time, rest) =>
      let (offset, rest) := zone rest
      some (.dateTime (String.ofList (date ++ 'T' :: time ++ offset)), rest)
    | none => some (.dateTime (String.ofList date), rest)
  | none => (time? 23 s).map fun (time, rest) => (.dateTime (String.ofList time), rest)

/-- A value that is neither an array nor a table. -/
def atom? (s : List Char) : Option (Value × List Char) :=
  match s with
  | '"' :: _ | '\'' :: _ => (string? s).map fun (text, rest) => (.string text, rest)
  | 't' :: 'r' :: 'u' :: 'e' :: rest => some (.boolean true, rest)
  | 'f' :: 'a' :: 'l' :: 's' :: 'e' :: rest => some (.boolean false, rest)
  -- a date starts like a number, and no number goes on like a date
  | _ => (dateTime? s).or (number? s)

end FlashParams.Toml
