import FlashParams.Layout.Fault
import FlashParams.Layout.Symbol

/-!
# Placement

Blocks are placed in their container, fields in their block, by the same rule. A fixed offset counts
from the start of the parent and has to satisfy the alignment; an open one takes the least aligned
address at or after the end of the sibling placed last. What was placed may not leave the parent nor
meet what was placed before. Alignments are powers of two up to 16384.

One failure does not hide another: what cannot be placed is reported and left out, and the next
sibling is tried as if it had not been there. So `BlockRun` and `FieldRun` carry the cursor, what
has been placed, and the faults, and a step changes either the first two or the last.

Addresses are computed exactly, as natural numbers, and narrowed once they are known. A fault shows
an address clamped to 32 bits, except in two places, the address of a misaligned block and the limit
of a header that does not fit, which show its low 32 bits. A block that ends exactly at the end of
the address space is inside it; if it has no bytes it starts there as well and its address has no
32-bit form but zero.

The size of a field is computed before it is compared with anything, in a machine word. A size that
leaves the word is no fault of the field: the whole computation breaks off there. `place?` is the
placement that can break off, and where it does not it is `place`.
-/

set_option autoImplicit false

namespace FlashParams

/-! ## Arithmetic of addresses -/

/-- The largest alignment as a power of two. It is also what containers may be moved by without any
alignment in them being lost. -/
def maxAlignLog : Nat := 14

def isAlignment (align : UInt32) : Bool :=
  (List.range (maxAlignLog + 1)).any fun k => Nat.pow 2 k == align.toNat

/-- The next address that is a multiple of the alignment, or the address itself if it is one. No limit is
looked at here. -/
def alignUp (address align : Nat) : Nat :=
  (address + align - 1) / align * align

/-- An address for display: the exact one if it has 32 bits, the largest such otherwise. -/
def clampAddress (a : Nat) : UInt32 :=
  UInt32.ofNat (min a 0xFFFFFFFF)

/-- The low 32 bits of an address. What is placed has an address of 32 bits, so there nothing is lost; in
some faults it is shown for addresses that have more, and there it misleads. -/
def lowAddress (a : Nat) : UInt32 :=
  UInt32.ofNat a

/-- Addresses from `start` up to, but not including, `stop`. The bounds are exact, so that the span of
what ends with the address space has an end. -/
structure Span where
  start : Nat
  stop : Nat
  deriving DecidableEq, Repr

/-- Whether two spans meet. A span without addresses meets those that have its start strictly inside, so
a block without bytes may stand at the edge of another one but not in it. -/
def Span.meets (s t : Span) : Bool :=
  s.start < t.stop && t.start < s.stop

/-- The exact address of something at an offset from `base`, where the sibling placed last ends at
`cursor`. A fixed offset is taken as it is or not at all; only the next free place is moved up to the
alignment. -/
def Offset.resolve (offset : Offset) (base cursor align : Nat) : Except Nat Nat :=
  match offset with
  | .fixed distance =>
    let address := base + distance.toNat
    if address % align ≠ 0 then .error address else .ok address
  | .next => .ok (alignUp cursor align)

/-! ## Blocks in a container -/

/-- A block with the address it has been given. -/
structure PlacedBlock where
  /-- The position of the block in its container. -/
  index : Nat
  block : Block
  address : UInt32

def PlacedBlock.stop (p : PlacedBlock) : Nat :=
  p.address.toNat + p.block.length.toNat

def PlacedBlock.span (p : PlacedBlock) : Span :=
  ⟨p.address.toNat, p.stop⟩

/-- Places one block, or says why not. What is compared with the end of the address space is the block's
end, so one without bytes passes even where its address has no 32-bit form. -/
def placeBlock (base : UInt32) (cursor : Nat) (placed : List PlacedBlock) (index : Nat)
    (block : Block) : Except Fault PlacedBlock :=
  if !isAlignment block.align then .error (.invalidAlignment block.name block.align)
  else
    match block.offset.resolve base.toNat cursor block.align.toNat with
    | .error address => .error (.misaligned block.name (lowAddress address) block.align)
    | .ok start =>
      let stop := start + block.length.toNat
      if 0x100000000 < stop then .error (.addressOverflow block.name)
      else
        -- exact except for a block without bytes at the end of the address space
        let address := lowAddress start
        match placed.find? fun other => Span.meets ⟨address.toNat, stop⟩ other.span with
        | some other =>
          .error (.blockOverlap block.name other.block.name address (clampAddress stop))
        | none => .ok ⟨index, block, address⟩

structure UnplacedBlock where
  index : Nat
  block : Block
  fault : Fault

/-- The blocks of a container on the way to their places. One that fails leaves the cursor where it was,
so the next block is placed as if it had not been there. -/
structure BlockRun where
  cursor : Nat
  placed : List PlacedBlock := []
  unplaced : List UnplacedBlock := []

/-- Tries the next block. Whether it has its place or not, the run goes on; a container reports all
blocks that have none. -/
def BlockRun.step (base : UInt32) (run : BlockRun) (index : Nat) (block : Block) : BlockRun :=
  match placeBlock base run.cursor run.placed index block with
  | .ok p => { run with cursor := p.stop, placed := run.placed ++ [p] }
  | .error fault => { run with unplaced := run.unplaced ++ [⟨index, block, fault⟩] }

/-- Tries blocks one after the other, the first of which has position `index`. The positions are counted
here because placed blocks keep theirs when others fail. -/
def BlockRun.all (base : UInt32) (run : BlockRun) (index : Nat) : List Block → BlockRun
  | [] => run
  | block :: rest => (run.step base index block).all base (index + 1) rest

def Container.place (c : Container) : BlockRun :=
  BlockRun.all c.base { cursor := c.base.toNat } 0 c.blocks

/-! ## Fields in a block -/

/-- A field whose stored type is known. A parameter has a declared type that may leave the length to the
literal; once it has an occupant, its size is a number. -/
inductive Occupant where
  | parameter (p : Parameter) (type : StoredType)
  | checksum (c : Checksum)

namespace Occupant

def field : Occupant → Field
  | parameter p _ => .parameter p
  | checksum c => .checksum c

def kind : Occupant → SymbolKind
  | parameter _ type => .parameter type
  | checksum c => .checksum c.type

end Occupant

/-- A field with the address and the size it has been given, both of 32 bits. What does not fit them has
been refused before. -/
structure PlacedField where
  /-- The position of the field in its block. -/
  index : Nat
  occupant : Occupant
  address : UInt32
  size : UInt32

namespace PlacedField

def name (p : PlacedField) : String :=
  p.occupant.field.name

def stop (p : PlacedField) : Nat :=
  p.address.toNat + p.size.toNat

def span (p : PlacedField) : Span :=
  ⟨p.address.toNat, p.stop⟩

end PlacedField

/-- The occupant of a field, or why it has none: a parameter needs a literal that its type can take, a
checksum a type for integers. -/
def Field.occupant : Field → Except Fault Occupant
  | .parameter p =>
    match p.type.stored p.value with
    | .ok type => .ok (.parameter p type)
    | .error cause => .error (.valueRange p.name p.type.name cause)
  | .checksum c =>
    if c.type.isFloat then .error (.malformedChecksum c.name (.notInteger c.type))
    else .ok (.checksum c)

/-- Whether the size of a field is asked for, which takes an alignment and a stored type, and leaves the
machine word. Only an array can be that large: its size is a product, whereas the length of a text is
itself read as a word. -/
def Field.exceedsWord (field : Field) : Bool :=
  isAlignment field.align &&
    match field.occupant with
    | .ok (.parameter _ type) => type.wordSize?.isNone
    | .ok (.checksum _) | .error _ => false

/-- A span that is in the way of later fields, with the name that is reported for it. -/
structure Taken where
  span : Span
  owner : String

/-- Places one field, or says why not. The order of the checks is that of the faults a reader sees:
alignment, type, size, address, the end of the block, and what is taken already. -/
def placeField (base limit cursor : Nat) (taken : List Taken) (index : Nat) (field : Field) :
    Except Fault PlacedField :=
  if !isAlignment field.align then .error (.invalidAlignment field.name field.align)
  else
    match field.occupant with
    | .error fault => .error fault
    | .ok occupant =>
      let size := occupant.kind.size
      if 0x100000000 ≤ size then .error (.addressOverflow field.name)
      else
        match field.offset.resolve base cursor field.align.toNat with
        | .error address => .error (.misaligned field.name (clampAddress address) field.align)
        | .ok address =>
          let stop := address + size
          -- also a field without bytes has to start inside the block
          if limit ≤ address ∨ limit < stop then
            .error (.overflow field.name (clampAddress address) (UInt32.ofNat size)
              (clampAddress limit))
          else
            match taken.find? fun t => Span.meets ⟨address, stop⟩ t.span with
            | some t =>
              .error (.overlap field.name t.owner (lowAddress address) (clampAddress stop))
            | none => .ok ⟨index, occupant, lowAddress address, UInt32.ofNat size⟩

/-- The fields of a block on the way to their places. `taken` begins with the header if there is one and
has the spans of all fields placed, whatever their order in memory. -/
structure FieldRun where
  cursor : Nat
  taken : List Taken := []
  placed : List PlacedField := []
  faults : List Fault := []

/-- Tries the next field. A name that a placed field has already is refused before anything else, so such
a field neither takes a place nor has its size asked for. -/
def FieldRun.step (base limit : Nat) (run : FieldRun) (index : Nat) (field : Field) : FieldRun :=
  match run.placed.find? (·.name = field.name) with
  | some first =>
    { run with faults := run.faults ++ [.duplicateName field.name first.address] }
  | none =>
    match placeField base limit run.cursor run.taken index field with
    | .ok p =>
      { run with
        cursor := p.stop
        taken := run.taken ++ [⟨p.span, p.name⟩]
        placed := run.placed ++ [p] }
    | .error fault => { run with faults := run.faults ++ [fault] }

def FieldRun.all (base limit : Nat) (run : FieldRun) (index : Nat) : List Field → FieldRun
  | [] => run
  | field :: rest => (run.step base limit index field).all base limit (index + 1) rest

/-- Tries the next field, unless its size leaves the word: then there is no state after it. That is asked
only for a field whose name is new, since one refused for its name is not looked at further. -/
def FieldRun.step? (base limit : Nat) (run : FieldRun) (index : Nat) (field : Field) :
    Option FieldRun :=
  if run.placed.all (·.name ≠ field.name) && field.exceedsWord then none
  else some (run.step base limit index field)

def FieldRun.all? (base limit : Nat) (run : FieldRun) (index : Nat) : List Field → Option FieldRun
  | [] => some run
  | field :: rest =>
    (run.step? base limit index field).bind fun next => next.all? base limit (index + 1) rest

/-- The state in which the fields of a block at `base` are begun. A declared header takes the first
sixteen bytes even if the block is too short for it; that it is too short is the first fault then. -/
def Block.beginFields (b : Block) (base : UInt32) : FieldRun :=
  match b.header with
  | none => { cursor := base.toNat }
  | some _ =>
    let stop := base.toNat + Header.size
    let limit := base.toNat + b.length.toNat
    -- the header is taken note of even when it does not fit
    { cursor := stop
      taken := [⟨⟨base.toNat, stop⟩, "header"⟩]
      faults :=
        if limit < stop then
          [.overflow (b.name ++ " header") base (UInt32.ofNat Header.size) (lowAddress limit)]
        else [] }

/-- The fields of a block at `base` with exact sizes, as if a size could be any number. Most of what is
proved about placement is proved of this, and it is what `place?` gives where that gives anything
(`Block.place?_eq_some`). -/
def Block.place (b : Block) (base : UInt32) : FieldRun :=
  (b.beginFields base).all base.toNat (base.toNat + b.length.toNat) 0 b.fields

/-- The fields of a block at `base` with sizes in machine words: nothing at all, as soon as the size of
one that is asked for has no such word. -/
def Block.place? (b : Block) (base : UInt32) : Option FieldRun :=
  (b.beginFields base).all? base.toNat (base.toNat + b.length.toNat) 0 b.fields

end FlashParams
