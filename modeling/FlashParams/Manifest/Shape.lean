import FlashParams.Manifest.Basic
import FlashParams.Toml.Document
import FlashParams.Toml.Moment

/-!
# The shape of a manifest document

A manifest is a TOML document of a fixed shape. Every record in it has a list of keys, in an order,
and may be written in two ways: as a table, whose members are found by their keys, or as an array,
whose items are found by their places. `Shape.members?` turns both into members, so that what
follows looks up keys and does not see which way was taken.

* A table may leave members out, but may not hold a key that is not in the list.
* An array gives the items in the order of the keys. How many there must be, and whether there may
  be more than there are keys, is part of the shape: inside a field the count is exact, because a
  field is read through its kind first, whereas outer records pass over what they do not need.

The value of a parameter has no shape of its own, but a table in it that marks a date has to hold
nothing else.

A document that fits is a manifest; one that does not is malformed, and no more is said about it.
-/

set_option autoImplicit false

namespace FlashParams

/-- The members of a kind of record. A record may be given as a table or as an array of its values in
order, and kinds differ in how many values an array may leave out or have too many. -/
structure Shape where
  /-- The keys in the order in which an array gives their values. -/
  keys : List String
  /-- How many items an array must have. -/
  least : Nat
  /-- Whether an array may have more items than there are keys. -/
  surplus : Bool

def Shape.exact (keys : List String) : Shape :=
  { keys, least := keys.length, surplus := false }

def Shape.loose (keys : List String) (optional : Nat) : Shape :=
  { keys, least := keys.length - optional, surplus := true }

/-- The members of a value that has the shape. A table with a key the kind does not know is no record of
it; an array is made a table by its order, and both are read alike from there on. -/
def Shape.members? (shape : Shape) : Toml.Value → Option Toml.Table
  | .table members => if members.all fun m => shape.keys.contains m.1 then some members else none
  | .array items =>
    -- items beyond the keys are passed over by the zip
    if shape.least ≤ items.length ∧ (shape.surplus ∨ items.length ≤ shape.keys.length) then
      some (shape.keys.zip items)
    else none
  | _ => none

/-! ## Members -/

namespace Toml

def Value.string? : Value → Option String
  | .string s => some s
  | _ => none

def Value.boolean? : Value → Option Bool
  | .boolean b => some b
  | _ => none

def Value.list? {α : Type} (item? : Value → Option α) : Value → Option (List α)
  | .array items => items.mapM item?
  | _ => none

def Value.number? : Value → Option Manifest.Number
  | .integer v => some (.plain v)
  | .string s => some (.quoted s)
  | _ => none

def required {α : Type} (members : Table) (key : String) (read? : Value → Option α) : Option α :=
  (members.lookup key).bind read?

/-- The value of a member that may be left out. What is there must have the form: a member of the wrong
form is a fault and never a default. -/
def optional {α : Type} (members : Table) (key : String) (read? : Value → Option α) :
    Option (Option α) :=
  match members.lookup key with
  | none => some none
  | some v => (read? v).map some

def withDefault {α : Type} (members : Table) (key : String) (read? : Value → Option α)
    (absent : α) : Option α :=
  (optional members key read?).map (·.getD absent)

end Toml

open Toml (required optional withDefault)

/-! ## Records -/

def HeaderEntry.ofValue? (v : Toml.Value) : Option HeaderEntry := do
  let members ← (Shape.loose ["id", "major", "minor", "version"] 0).members? v
  return {
    id := ← required members "id" Toml.Value.number?
    major := ← required members "major" Toml.Value.number?
    minor := ← required members "minor" Toml.Value.number?
    version := ← required members "version" Toml.Value.number? }

def CoverageEntry.ofValue? (v : Toml.Value) : Option CoverageEntry := do
  let members ← (Shape.exact ["from", "to", "access", "swap"]).members? v
  return {
    first := ← optional members "from" Toml.Value.number?
    last := ← optional members "to" Toml.Value.number?
    access := ← optional members "access" Toml.Value.number?
    swap := ← optional members "swap" Toml.Value.boolean? }

def CrcEntry.ofValue? (v : Toml.Value) : Option CrcEntry := do
  let shape := Shape.exact ["polynomial", "init", "rev_in", "rev_out", "final_xor"]
  let members ← shape.members? v
  return {
    polynomial := ← optional members "polynomial" Toml.Value.number?
    init := ← optional members "init" Toml.Value.number?
    reflectIn := ← optional members "rev_in" Toml.Value.boolean?
    reflectOut := ← optional members "rev_out" Toml.Value.boolean?
    finalXor := ← optional members "final_xor" Toml.Value.boolean? }

def ParameterEntry.ofValue? (v : Toml.Value) : Option ParameterEntry := do
  let shape := Shape.exact ["name", "offset", "type", "align", "value", "endianness", "comment"]
  let members ← shape.members? v
  return {
    name := ← required members "name" Toml.Value.string?
    offset := ← withDefault members "offset" Toml.Value.number? .dot
    type := ← required members "type" Toml.Value.string?
    align := ← optional members "align" Toml.Value.number?
    value := ← required members "value" (Toml.Value.withDates? true)
    byteOrder := ← optional members "endianness" Toml.Value.string?
    comment := ← optional members "comment" Toml.Value.string? }

def ChecksumEntry.ofValue? (v : Toml.Value) : Option ChecksumEntry := do
  let shape := Shape.exact ["name", "offset", "type", "align", "memory", "config", "comment"]
  let members ← shape.members? v
  return {
    name := ← required members "name" Toml.Value.string?
    offset := ← withDefault members "offset" Toml.Value.number? .dot
    type := ← required members "type" Toml.Value.string?
    align := ← optional members "align" Toml.Value.number?
    coverage := ← withDefault members "memory" CoverageEntry.ofValue? {}
    params := ← withDefault members "config" CrcEntry.ofValue? {}
    comment := ← optional members "comment" Toml.Value.string? }

/-- The kind of a field, with the field that is left. The kind is a member of a table or the first item
of an array, so it is taken off before the shape of the kind is known. -/
def splitKind? : Toml.Value → Option (Toml.Value × Toml.Value)
  | .table members =>
    (members.lookup "kind").map fun kind => (kind, .table (members.filter (·.1 ≠ "kind")))
  | .array (kind :: items) => some (kind, .array items)
  | _ => none

def FieldEntry.ofValue? (v : Toml.Value) : Option FieldEntry :=
  match splitKind? v with
  | some (.string "param", field) => (ParameterEntry.ofValue? field).map .parameter
  | some (.string "crc", field) => (ChecksumEntry.ofValue? field).map .checksum
  | _ => none

def BlockEntry.ofValue? (v : Toml.Value) : Option BlockEntry := do
  let shape := Shape.loose
    ["name", "offset", "length", "align", "fill", "endianness", "header", "comment", "data"] 1
  let members ← shape.members? v
  return {
    name := ← required members "name" Toml.Value.string?
    offset := ← withDefault members "offset" Toml.Value.number? .dot
    length := ← required members "length" Toml.Value.number?
    align := ← optional members "align" Toml.Value.number?
    fill := ← optional members "fill" Toml.Value.number?
    byteOrder := ← optional members "endianness" Toml.Value.string?
    header := ← optional members "header" HeaderEntry.ofValue?
    comment := ← optional members "comment" Toml.Value.string?
    fields := ← withDefault members "data" (Toml.Value.list? FieldEntry.ofValue?) [] }

def ContainerEntry.ofValue? (v : Toml.Value) : Option ContainerEntry := do
  let members ← (Shape.loose ["name", "at", "block"] 1).members? v
  return {
    name := ← required members "name" Toml.Value.string?
    base := ← required members "at" Toml.Value.number?
    blocks := ← withDefault members "block" (Toml.Value.list? BlockEntry.ofValue?) [] }

def Manifest.ofTable? (document : Toml.Table) : Option Manifest := do
  let members ← (Shape.exact ["name", "container"]).members? (.table document)
  return {
    name := ← withDefault members "name" Toml.Value.string? ""
    containers :=
      ← withDefault members "container" (Toml.Value.list? ContainerEntry.ofValue?) [] }

def Manifest.read? (text : String) : Option Manifest :=
  (Toml.read? text).bind Manifest.ofTable?

end FlashParams
