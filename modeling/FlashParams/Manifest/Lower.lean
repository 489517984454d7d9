import FlashParams.Declaration.Basic
import FlashParams.Log.Basic
import FlashParams.Manifest.Fault

/-!
# From a manifest to a declaration

Lowering gives every written number, type, byte order and value its meaning, and stops at the first that
has none, or that breaks off. Numbers, plain or between quotes, are integers first and are then checked
against the range of the member they are for; a dot, where one is allowed, is no number but leaves the
place open.

The order in which the members of a record are looked at shows when two of them are at fault. Inside
a block the header and the fields come before the block's own numbers; inside a field the type comes
first, then the value of a parameter or the range and parameters of a checksum, and its place last.
-/

set_option autoImplicit false

namespace FlashParams

open Manifest (Number Place Reason)

/-! ## Numbers -/

namespace Manifest.Number

def value (place : Place) : Number → Except Manifest.Fault Int
  | plain v => .ok v
  | quoted text =>
    match Integer.read text with
    | .number v => .ok v
    | .unreadable => .error (.invalid place (.notANumber text))
    | .leavesWord => .error .leavesWord

/-- The natural number below `limit` that a number stands for. A number that can be read but is out of
range is shown as the value it has, not as it was written. -/
def below (limit : Nat) (place : Place) (n : Number) : Except Manifest.Fault Nat :=
  match n.value place with
  | .error e => .error e
  | .ok v =>
    if 0 ≤ v ∧ v < limit then .ok v.toNat else .error (.invalid place (.outOfRange v))

def toUInt8 (place : Place) (n : Number) : Except Manifest.Fault UInt8 :=
  (n.below UInt8.size place).map UInt8.ofNat

def toUInt16 (place : Place) (n : Number) : Except Manifest.Fault UInt16 :=
  (n.below UInt16.size place).map UInt16.ofNat

def toUInt32 (place : Place) (n : Number) : Except Manifest.Fault UInt32 :=
  (n.below UInt32.size place).map UInt32.ofNat

def toUInt64 (place : Place) (n : Number) : Except Manifest.Fault UInt64 :=
  (n.below UInt64.size place).map UInt64.ofNat

def isDot : Number → Bool
  | plain _ => false
  | quoted text => Text.trim text.toList = ['.']

def toOffset (place : Place) (n : Number) : Except Manifest.Fault Offset :=
  if n.isDot then .ok .next else (n.toUInt32 place).map .fixed

def toCoverageEnd (place : Place) (n : Number) : Except Manifest.Fault CoverageEnd :=
  if n.isDot then .ok .beforeSelf else (n.toUInt32 place).map .fixed

end Manifest.Number

def numberOr {α : Type} (absent : α) (read : Number → Except Manifest.Fault α) :
    Option Number → Except Manifest.Fault α
  | none => .ok absent
  | some n => read n

/-! ## Texts and values -/

def lowerByteOrder (place : Place) : Option String → Except Manifest.Fault (Option ByteOrder)
  | none => .ok none
  | some text =>
    match ByteOrder.ofText text with
    | .ok order => .ok (some order)
    | .error cause => .error (.invalid place (.unknownByteOrder cause))

mutual

/-- The literal a value stands for: truth values are numbers, and neither a table nor a date is a
literal. Which literals a type takes is asked much later, when the value is encoded. -/
def literalOf : Toml.Value → Except Reason Literal
  | .integer v => .ok (.int v)
  | .float x => .ok (.float x)
  | .string s => .ok (.str s)
  | .boolean b => .ok (.int (if b then 1 else 0))
  | .array items => (literalsOf items).map .array
  | .table members => .error (.unsupportedValue (.table members))
  | .dateTime text => .error (.unsupportedValue (.dateTime text))

def literalsOf : List Toml.Value → Except Reason (List Literal)
  | [] => .ok []
  | item :: rest => do
    let literal ← literalOf item
    return literal :: (← literalsOf rest)

end

def atPlace {α : Type} (place : Place) : Except Reason α → Except Manifest.Fault α
  | .ok a => .ok a
  | .error reason => .error (.invalid place reason)

/-! ## Records -/

def HeaderEntry.lower (block : String) (h : HeaderEntry) : Except Manifest.Fault Header := do
  let id ← h.id.toUInt16 (.member block "header id")
  let major ← h.major.toUInt16 (.member block "header major")
  let minor ← h.minor.toUInt16 (.member block "header minor")
  let dataVersion ← h.version.toUInt16 (.member block "header version")
  return { id, major, minor, dataVersion }

def ParameterEntry.lower (block : String) (p : ParameterEntry) :
    Except Manifest.Fault Parameter := do
  let place := Place.parameter block p.name
  let type ← (DeclaredType.ofText p.type).mapError fun e => .invalid place (.unreadableType e)
  let value ← atPlace place (literalOf p.value)
  let offset ← p.offset.toOffset place
  let align ← numberOr 1 (Number.toUInt32 place) p.align
  let byteOrder ← lowerByteOrder place p.byteOrder
  return { name := p.name, offset, type, align, value, byteOrder, comment := p.comment }

def CoverageEntry.lower (place : Place) (c : CoverageEntry) : Except Manifest.Fault Coverage := do
  let absent : Coverage := {}
  let first ← numberOr absent.first (Number.toUInt32 place) c.first
  let last ← numberOr absent.last (Number.toCoverageEnd place) c.last
  let access ← numberOr absent.access (Number.toUInt32 place) c.access
  return { first, last, access, swap := c.swap.getD absent.swap }

def CrcEntry.lower (place : Place) (c : CrcEntry) : Except Manifest.Fault CrcParams := do
  let absent : CrcParams := {}
  let polynomial ← numberOr absent.polynomial (Number.toUInt64 place) c.polynomial
  let init ← numberOr absent.init (Number.toUInt64 place) c.init
  return {
    polynomial, init
    reflectIn := c.reflectIn.getD absent.reflectIn
    reflectOut := c.reflectOut.getD absent.reflectOut
    finalXor := c.finalXor.getD absent.finalXor }

def ChecksumEntry.lower (block : String) (c : ChecksumEntry) : Except Manifest.Fault Checksum := do
  let place := Place.checksum block c.name
  let type ← (Scalar.ofString c.type).mapError fun e => .invalid place (.unreadableType e)
  let coverage ← c.coverage.lower place
  let params ← c.params.lower place
  let offset ← c.offset.toOffset place
  let align ← numberOr 1 (Number.toUInt32 place) c.align
  return { name := c.name, offset, type, align, coverage, params, comment := c.comment }

def FieldEntry.lower (block : String) : FieldEntry → Except Manifest.Fault Field
  | parameter p => (p.lower block).map .parameter
  | checksum c => (c.lower block).map .checksum

def lowerHeader (block : String) : Option HeaderEntry → Except Manifest.Fault (Option Header)
  | none => .ok none
  | some h => (h.lower block).map some

def BlockEntry.lower (b : BlockEntry) : Except Manifest.Fault Block := do
  let header ← lowerHeader b.name b.header
  let fields ← b.fields.mapM (FieldEntry.lower b.name)
  let offset ← b.offset.toOffset (.member b.name "offset")
  let length ← b.length.toUInt32 (.member b.name "length")
  let align ← numberOr 1 (Number.toUInt32 (.member b.name "align")) b.align
  let fill ← numberOr 0 (Number.toUInt8 (.member b.name "fill")) b.fill
  let byteOrder ← lowerByteOrder (.block b.name) b.byteOrder
  return {
    name := b.name, offset, length, align, fill
    byteOrder := byteOrder.getD .little
    header, comment := b.comment, fields }

def ContainerEntry.lower (c : ContainerEntry) : Except Manifest.Fault Container := do
  let base ← c.base.toUInt32 (.base c.name)
  let blocks ← c.blocks.mapM BlockEntry.lower
  return { name := c.name, base, blocks }

namespace Manifest

def lower (m : Manifest) : Except Manifest.Fault Declaration := do
  let containers ← m.containers.mapM ContainerEntry.lower
  return { name := m.name, containers }

/-- The containers that lowering looks at: all up to the first that is at fault, that one included. They
are the ones the log speaks of. -/
def visited : List ContainerEntry → List ContainerEntry
  | [] => []
  | c :: rest =>
    match c.lower with
    | .ok _ => c :: visited rest
    | .error _ => [c]

def journal (m : Manifest) : List Log.Entry :=
  (visited m.containers).map fun c =>
    ⟨.info, .manifest, s!"loading container definition for {c.name}"⟩

end Manifest

end FlashParams
