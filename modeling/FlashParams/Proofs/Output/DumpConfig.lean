import FlashParams.Output.DumpConfig
import FlashParams.Proofs.Number.Numeral
import FlashParams.Proofs.Output.Listing

/-!
# What the viewer makes of its configuration

An entry of the configuration tells the viewer where a symbol is and how much there is to print: so
many elements of such a type. How many bytes a type has the viewer knows for numbers and text, and for
a block header from the structures in the configuration itself. `byteSize?` is this reading of a
document, and `Entry` says that an entry describes a symbol: read in this way it has the symbol's name,
its address and its size.
-/

set_option autoImplicit false

namespace FlashParams.Output

/-! ## Reading a document -/

namespace Json

def member? (name : String) : Json → Option Json
  | object members => members.lookup name
  | _ => none

def items : Json → List Json
  | array items => items
  | _ => []

def text? : Json → Option String
  | string text => some text
  | _ => none

def number? : Json → Option Nat
  | number n => some n
  | _ => none

def textAt? (name : String) (j : Json) : Option String :=
  (j.member? name).bind text?

def numberAt? (name : String) (j : Json) : Option Nat :=
  (j.member? name).bind number?

end Json

namespace DumpConfig

/-- The types the viewer knows, with the bytes an element has. They are a table of their own here, so
that a type written by mistake would be found unknown and not looked up in the writer's own terms. -/
def viewerTypes : List (String × Nat) :=
  [("utf8", 1), ("uint8", 1), ("int8", 1),
    ("uint16le", 2), ("uint16be", 2), ("int16le", 2), ("int16be", 2),
    ("uint32le", 4), ("uint32be", 4), ("int32le", 4), ("int32be", 4),
    ("uint64le", 8), ("uint64be", 8), ("int64le", 8), ("int64be", 8),
    ("float32le", 4), ("float32be", 4), ("float64le", 8), ("float64be", 8)]

def fieldSize? (field : Json) : Option Nat := do
  let type ← field.textAt? "dataType"
  let count ← field.numberAt? "count"
  let size ← viewerTypes.lookup type
  return count * size

/-- The bytes of a structure that a configuration defines. Headers are described in this way: the viewer
has no type for them, and the configuration brings one along. -/
def structureSize? (config : Json) (type : String) : Option Nat := do
  let structures ← config.member? "structures"
  let found ← structures.items.find? fun s => s.textAt? "name" = some type
  let fields ← found.member? "elements"
  let sizes ← fields.items.mapM fieldSize?
  return sizes.foldl (· + ·) 0

def byteSize? (config : Json) (type : String) : Option Nat :=
  (viewerTypes.lookup type).or (structureSize? config type)

/-- The address a text stands for. Only the form that is written is read, `0x` and hexadecimal digits. -/
def address? (text : String) : Option Nat :=
  match text.toList with
  | '0' :: 'x' :: digits => Numeral.read? 16 digits
  | _ => none

/-- An entry of a configuration describes a symbol: under its name, at its address, with a type known to
the viewer and as many elements as make up the bytes of the symbol. -/
structure Entry (config entry : Json) (s : Symbol) : Prop where
  name : entry.textAt? "name" = some s.name
  address : (entry.textAt? "addr").bind address? = some s.address.toNat
  extent : ∃ type count size, entry.textAt? "dataType" = some type ∧
    entry.numberAt? "count" = some count ∧ byteSize? config type = some size ∧
    count * size = s.size.toNat

/-! ## Types -/

end DumpConfig

end FlashParams.Output
