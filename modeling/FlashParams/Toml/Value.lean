import FlashParams.Number.Decimal

/-!
# TOML values

The data a TOML document holds. Tables are association lists without repeated keys, in the order in
which the document gives the keys. A date or time is kept as its normalised text.

`Value.text` prints a value the way it would be written in a document on one line, the members of a
table in ascending order of their keys. A string takes the first of the quotings that needs no
escape. On its own, outside of any table or array, a date is printed as the table that marks one
(`Value.shown`).
-/

set_option autoImplicit false

namespace FlashParams.Toml

/-- A value of a TOML document. -/
inductive Value where
  | string (text : String)
  | integer (value : Int)
  | float (value : Binary.Double)
  | boolean (value : Bool)
  /-- A date, a time or both, by its normalised text. -/
  | dateTime (text : String)
  | array (items : List Value)
  | table (members : List (String × Value))
  deriving Inhabited

abbrev Table := List (String × Value)

def dateTimeKey : String := "$__toml_private_datetime"

def isBareKeyChar (c : Char) : Bool :=
  c.isAlphanum || c == '_' || c == '-'

/-! ## Strings as text -/

def longestRun (c : Char) (s : List Char) : Nat :=
  (s.foldl (fun (best, run) d => if d = c then (max best (run + 1), run + 1) else (best, 0))
    (0, 0)).1

def needsCode (s : List Char) : Bool :=
  s.any fun c => (c.toNat < 0x20 && c != '\t' && c != '\n') || c.toNat = 0x7F

def escapeChar (multiline : Bool) (c : Char) : List Char :=
  if c = '\\' then ['\\', '\\']
  else if c = '\x08' then ['\\', 'b']
  else if c = '\t' then ['\\', 't']
  else if c = '\x0c' then ['\\', 'f']
  else if c = '\r' then ['\\', 'r']
  else if c = '\n' then (if multiline then ['\n'] else ['\\', 'n'])
  else if c.toNat < 0x20 ∨ c.toNat = 0x7F then
    '\\' :: 'u' :: Numeral.padStart 4 '0' (Numeral.write 16 c.toNat)
  else [c]

/-- An escaped string, behind a run of so many quotes that stand without an escape. In a multi-line
string two quotes in a row need no escape, and an escape ends the run. -/
def escapeFrom (multiline : Bool) : Nat → List Char → List Char
  | _, [] => []
  | run, c :: rest =>
    if c = '"' then
      if run < (if multiline then 2 else 0) then '"' :: escapeFrom multiline (run + 1) rest
      else '\\' :: '"' :: escapeFrom multiline 0 rest
    else escapeChar multiline c ++ escapeFrom multiline 0 rest

def basicText (s : List Char) : List Char :=
  '"' :: escapeFrom false 0 s ++ ['"']

def multiBasicText (s : List Char) : List Char :=
  let quotes := ['"', '"', '"']
  let first := if s.contains '\n' then ['\n'] else []
  quotes ++ first ++ escapeFrom true 0 s ++ quotes

def literalText (s : List Char) : List Char :=
  '\'' :: s ++ ['\'']

def multiLiteralText (s : List Char) : List Char :=
  let quotes := ['\'', '\'', '\'']
  let first := if s.contains '\n' then ['\n'] else []
  quotes ++ first ++ s ++ quotes

/-- A string in the first quoting that can show it, or escaped between double quotes. A tab is no
reason to prefer one quoting to another. -/
def stringText (text : String) : String :=
  let s := text.toList
  let code := needsCode s
  let newline := s.contains '\n'
  let backslash := s.contains '\\'
  let double := longestRun '"' s
  let single := longestRun '\'' s
  String.ofList <|
    if !code ∧ !backslash ∧ double = 0 ∧ !newline then basicText s
    else if !code ∧ single = 0 ∧ !newline then literalText s
    else if !code ∧ !backslash ∧ double ≤ 2 then multiBasicText s
    else if !code ∧ single ≤ 2 then multiLiteralText s
    else if newline then multiBasicText s
    else basicText s

def keyText (key : String) : String :=
  let s := key.toList
  if !s.isEmpty ∧ s.all isBareKeyChar then key
  else
    let code := needsCode s || s.contains '\n'
    String.ofList <|
      if !code ∧ !s.contains '\\' ∧ !s.contains '"' then basicText s
      else if !code ∧ !s.contains '\'' then literalText s
      else basicText s

/-- A floating-point value, never without a point unless it is no finite number. What is no number
has no sign. -/
def floatText (x : Binary.Double) : String :=
  if x.isNaN then "nan"
  else if x.isFinite ∧ x.toInt?.isSome then x.text ++ ".0"
  else x.text

/-! ## Values as text -/

def tableText (members : List String) : String :=
  if members.isEmpty then "\x7b\x7d" else "\x7b " ++ String.intercalate ", " members ++ " \x7d"

mutual

def Value.text : Value → String
  | .string s => stringText s
  | .integer v => Numeral.decimalInt v
  | .float x => floatText x
  | .boolean b => if b then "true" else "false"
  | .dateTime text => text
  | .array items => "[" ++ String.intercalate ", " (itemTexts items) ++ "]"
  | .table members =>
    tableText (((memberTexts members).mergeSort fun a b => a.1 ≤ b.1).map (·.2))

def itemTexts : List Value → List String
  | [] => []
  | item :: rest => item.text :: itemTexts rest

def memberTexts : List (String × Value) → List (String × String)
  | [] => []
  | (key, value) :: rest => (key, keyText key ++ " = " ++ value.text) :: memberTexts rest

end

/-- A value that stands on its own, on one line. A date is shown as the table that marks it, since that
is what it is by then. -/
def Value.shown : Value → String
  | .dateTime text => tableText [keyText dateTimeKey ++ " = " ++ stringText text]
  | value => value.text

end FlashParams.Toml
