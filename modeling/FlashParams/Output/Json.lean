import FlashParams.Number.Numeral

/-!
# JSON documents

Just enough of JSON to write a configuration: values, their escapes, and a layout with one item to a
line and two blanks per level. Members of an object are written in ascending order of their names,
so a document does not depend on the order in which it was put together.
-/

set_option autoImplicit false

namespace FlashParams.Output

inductive Json where
  | string (text : String)
  | number (n : Nat)
  | array (items : List Json)
  | object (members : List (String × Json))
  deriving Inhabited

namespace Json

def charText (c : Char) : String :=
  if c = '"' then "\\\""
  else if c = '\\' then "\\\\"
  else if c = '\n' then "\\n"
  else if c = '\r' then "\\r"
  else if c = '\t' then "\\t"
  else if c = '\x08' then "\\b"
  else if c = '\x0c' then "\\f"
  else if c.toNat < 0x20 then
    "\\u" ++ String.ofList (Numeral.padStart 4 '0' (Numeral.hexLower c.toNat).toList)
  else String.singleton c

def stringText (s : String) : String :=
  "\"" ++ String.join (s.toList.map charText) ++ "\""

def lineBreak (depth : Nat) : String :=
  "\n" ++ String.ofList (List.replicate (2 * depth) ' ')

def bracket (opening closing : String) (depth : Nat) (items : List String) : String :=
  if items.isEmpty then opening ++ closing
  else
    opening ++ lineBreak (depth + 1) ++ String.intercalate ("," ++ lineBreak (depth + 1)) items
      ++ lineBreak depth ++ closing

mutual

/-- A value whose first line is `depth` levels deep. The depth is handed down because only the lines
after the first know how far they are set in. -/
def write (depth : Nat) : Json → String
  | string s => stringText s
  | number n => Numeral.decimal n
  | array items => bracket "[" "]" depth (writeItems (depth + 1) items)
  | object members =>
    bracket "\x7b" "\x7d" depth
      (((writeMembers (depth + 1) members).mergeSort fun a b => a.1 ≤ b.1).map (·.2))

def writeItems (depth : Nat) : List Json → List String
  | [] => []
  | item :: rest => write depth item :: writeItems depth rest

def writeMembers (depth : Nat) : List (String × Json) → List (String × String)
  | [] => []
  | (name, value) :: rest =>
    (name, stringText name ++ ": " ++ write depth value) :: writeMembers depth rest

end

end Json

end FlashParams.Output
