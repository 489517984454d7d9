import FlashParams.Declaration.Assign
import FlashParams.Image.Basic
import FlashParams.Layout.Coverage
import FlashParams.Log.Basic
import FlashParams.Value.Codec

/-!
# Assembling a layout

A block becomes bytes in three stages, which follow each other in a fixed order:

1. its fields get their addresses, and the ranges of its checksums are checked;
2. its span is filled, then the header and every parameter are written into it;
3. its checksums are computed in declaration order, each over the bytes written so far, so that a
   later checksum sees the value of an earlier one.

`Draft` is a block on this way. Faults are collected, not thrown: a parameter that cannot be encoded
does not keep the next one from being tried. Only the third stage is skipped when there is a fault
already, because a checksum over bytes that are not in place would mean nothing.

A draft is committed or dropped as a whole. With a fault, the block's segment is discarded and every
fault becomes a diagnostic; without one, image, symbols and block record enter the assembly. The
assembly hands out a layout only if no block has failed.

Names are checked twice over: a block whose name has been *tried* before is refused at once, even if
the earlier one failed, and a symbol may clash with the table or with an earlier symbol of its own
block.

Two things make the whole run break off instead of being reported: a size that leaves the machine word
while the fields of a block are placed, and a text for an integer whose number leaves it while the
parameters are encoded. Everything that asked for them breaks off as well, so `compile?` has then no
outcome at all, neither a layout nor a rejection. Each `…?` decides *before* its step whether that breaks
off, and is the plain step where it does not; the plain steps compute with exact sizes and take a number
that leaves the word as one fault more.
-/

set_option autoImplicit false

namespace FlashParams

/-! ## Results -/

/-- What is recorded of an assembled block: where it has come to be, and what its writers need to know of
its declaration. -/
structure BlockRecord where
  container : String
  containerBase : UInt32
  name : String
  address : UInt32
  length : UInt32
  fill : UInt8
  byteOrder : ByteOrder
  header : Option Header
  comment : Option String
  deriving DecidableEq, Repr

def BlockRecord.stop (b : BlockRecord) : Nat :=
  b.address.toNat + b.length.toNat

def BlockRecord.span (b : BlockRecord) : Span :=
  ⟨b.address.toNat, b.stop⟩

/-- What a declaration compiles to. Outputs are made from this and from nothing else; in particular none
of them sees the declaration again. -/
structure Layout where
  name : String
  image : Image
  symbols : SymbolTable
  /-- The blocks in declaration order. -/
  blocks : List BlockRecord

/-- The bytes of a symbol in the image. One without bytes has none wherever it is, and for all others the
last address is computed so that it does not wrap at the end of the address space. -/
def Layout.symbolBytes? (l : Layout) (s : Symbol) : Option (List UInt8) :=
  if s.size = 0 then some []
  else l.image.read? s.address (s.address + (s.size - 1))

def Layout.blocksIn (l : Layout) (container : String) : List BlockRecord :=
  l.blocks.filter (·.container = container)

/-- What there is instead of a layout: every diagnostic of the run, in the order in which the blocks were
tried. -/
structure Rejection where
  diagnostics : List Diagnostic

namespace Rejection

def summary (r : Rejection) : String :=
  "layout failed with " ++ Numeral.decimal r.diagnostics.length ++ " error(s)"

def lines (r : Rejection) : List String :=
  r.summary :: r.diagnostics.map fun d => "  " ++ d.message

def message (r : Rejection) : String :=
  String.intercalate "\n" r.lines

def count (r : Rejection) (c : FaultClass) : Nat :=
  r.diagnostics.countP (·.fault.faultClass = c)

end Rejection

/-! ## A block under construction -/

/-- How far a block has come. A block goes through the stages in this order and no stage is left out;
`Assembly.settle` takes a draft in only when it has reached the last. -/
inductive Stage where
  | empty
  | addressesResolved
  | valuesPlaced
  | checksummedComplete
  deriving DecidableEq, Repr

namespace Stage

def name : Stage → String
  | empty => "Empty"
  | addressesResolved => "AddressesResolved"
  | valuesPlaced => "ValuesPlaced"
  | checksummedComplete => "ChecksummedComplete"

def next? : Stage → Option Stage
  | empty => some addressesResolved
  | addressesResolved => some valuesPlaced
  | valuesPlaced => some checksummedComplete
  | checksummedComplete => none

def all : List Stage :=
  [empty, addressesResolved, valuesPlaced, checksummedComplete]

end Stage

/-- A block on its way into the image, with the image it is being written to. The image is that of all
blocks so far: a draft that is dropped has to be taken out of it again. -/
structure Draft where
  stage : Stage
  image : Image
  symbols : List Symbol
  faults : List Fault
  journal : List Log.Entry

def PlacedField.entry (p : PlacedField) : Log.Entry :=
  { level := .debug
    source := .placement
    message := s!"  {p.name} @ " ++ Numeral.address p.address ++ " ("
      ++ Numeral.decimal p.size.toNat ++ " bytes)" }

def ChecksumJob.entry (job : ChecksumJob) (value : Nat) : Log.Entry :=
  { level := .debug
    source := .assembly
    message := s!"  checksum {job.checksum.name} over " ++ Numeral.address job.first ++ "..="
      ++ Numeral.address job.last ++ " = 0x" ++ Numeral.hex value }

namespace Draft

def advance (d : Draft) (block : Block) (stage : Stage) : Draft :=
  { d with
    stage
    journal := d.journal ++
      [⟨.trace, .assembly, s!"  block {block.name}: {d.stage.name} -> {stage.name}"⟩] }

def fail (d : Draft) (fault : Fault) : Draft :=
  { d with faults := d.faults ++ [fault] }

/-- Writes bytes into the block's segment and enters the symbol for them. Both are done in one step, so a
draft has no symbol without bytes; the symbol may still clash, which is looked at once at the end. -/
def put (d : Draft) (name : String) (address : UInt32) (bytes : List UInt8) (symbol : Symbol) :
    Draft :=
  let written :=
    match d.image.write? address bytes with
    | some image => { d with image }
    | none => d.fail (.imageWrite name address bytes.length)
  { written with symbols := written.symbols ++ [symbol] }

end Draft

def PlacedField.symbol (p : PlacedField) (container : Container) (block : Block)
    (order : ByteOrder) : Symbol :=
  { name := fieldSymbolName block.name p.name
    container := container.name
    block := block.name
    field := some p.name
    address := p.address
    size := p.size
    kind := p.occupant.kind
    byteOrder := order
    comment := p.occupant.field.comment }

def Block.headerSymbol (b : Block) (container : Container) (address : UInt32) : Symbol :=
  { name := headerSymbolName b.name
    container := container.name
    block := b.name
    field := none
    address
    size := UInt32.ofNat Header.size
    kind := .header
    byteOrder := b.byteOrder
    comment := none }

namespace Draft

/-- Writes the header, if one is declared and the block has room for it. One that has no room was
reported when the fields were placed, so nothing is said about it again. -/
def putHeader (d : Draft) (container : Container) (block : Block) (address : UInt32) : Draft :=
  match block.header with
  | some header =>
    if Header.size ≤ block.length.toNat then
      d.put block.name address (header.bytes block.length block.byteOrder)
        (block.headerSymbol container address)
    else d
  | none => d

/-- Encodes a parameter and writes it, with its own byte order if it has one. A value without bytes is a
fault, and its place keeps the fill. -/
def putParameter (container : Container) (block : Block) (d : Draft) (place : PlacedField) :
    Draft :=
  match place.occupant with
  | .checksum _ => d
  | .parameter p type =>
    let order := p.byteOrder.getD block.byteOrder
    match type.encode order p.value with
    | .ok bytes => d.put p.name place.address bytes (place.symbol container block order)
    | .error cause => d.fail (.valueRange p.name type.name cause)

end Draft

/-- Whether a placed field is a parameter whose encoding breaks off. Only a parameter can: a checksum has
no value yet when the fields are encoded. -/
def PlacedField.leavesWord (block : Block) (place : PlacedField) : Bool :=
  match place.occupant with
  | .checksum _ => false
  | .parameter p type =>
    match type.encode (p.byteOrder.getD block.byteOrder) p.value with
    | .error .leavesWord => true
    | _ => false

/-- The value of a checksum over the bytes an image holds now. Checksums are computed in their order
after all parameters, so one that covers another sees its value, or the fill. -/
def ChecksumJob.value (job : ChecksumJob) (image : Image) : Except Fault Nat :=
  match Crc.ofParams job.checksum.type.bits job.checksum.params with
  | .error reason => .error (.malformedChecksum job.checksum.name (.unfit reason))
  | .ok crc =>
    match image.read? job.first job.last with
    | none =>
      .error (.malformedChecksum job.checksum.name (.outsideImage job.first job.last))
    | some bytes =>
      let coverage := job.checksum.coverage
      .ok (crc.checksum (accessOrder coverage.access.toNat coverage.swap bytes)).toNat

namespace Draft

/-- Computes a checksum and writes it, in the byte order of its block. It is computed over the image as
it is by now. -/
def putChecksum (container : Container) (block : Block) (d : Draft) (job : ChecksumJob) : Draft :=
  match job.value d.image with
  | .error fault => d.fail fault
  | .ok value =>
    let noted := { d with journal := d.journal ++ [job.entry value] }
    noted.put job.checksum.name job.place.address
      (job.checksum.type.patternBytes block.byteOrder value)
      (job.place.symbol container block block.byteOrder)

/-- The symbols that clash with a table or with one before them, as faults. `seen` are the symbols gone
through that do not clash: of three with one name the third is reported against the first. -/
def clashes (table : SymbolTable) : List Symbol → List Symbol → List Fault
  | _, [] => []
  | seen, s :: rest =>
    match (table.get? s.name).or (seen.find? (·.name = s.name)) with
    | some older => .duplicateName s.name older.address :: clashes table seen rest
    | none => clashes table (seen ++ [s]) rest

/-- Reports symbols that clash. It is done for all of a block at once, after they have been entered in
the draft and before any is entered in the table. -/
def checkNames (d : Draft) (table : SymbolTable) : Draft :=
  { d with faults := d.faults ++ clashes table [] d.symbols }

end Draft

/-! ## The assembly -/

/-- What a run has assembled so far. `tried` has the names of all blocks, kept or dropped, since a name
is used up by the first block that has it even if that one fails. -/
structure Assembly where
  name : String
  image : Image := .empty
  symbols : SymbolTable := .empty
  blocks : List BlockRecord := []
  /-- The names of the blocks tried so far, with the addresses of the first of each name. -/
  tried : List (String × UInt32) := []
  diagnostics : List Diagnostic := []
  journal : List Log.Entry := []

/-- Enters symbols that have been checked. One whose name is taken after all is left out without a word,
so it takes a proof that none is (`new_of_clean`). -/
def SymbolTable.insertAll (t : SymbolTable) (symbols : List Symbol) : SymbolTable :=
  symbols.foldl (fun t s => match t.insert s with | .ok t' => t' | .error _ => t) t

namespace Assembly

def note (a : Assembly) (level : Log.Level) (message : String) : Assembly :=
  { a with journal := a.journal ++ [⟨level, .assembly, message⟩] }

def report (a : Assembly) (container : Container) (block : Block) (faults : List Fault) :
    Assembly :=
  { a with diagnostics := a.diagnostics ++ faults.map fun f => ⟨container.name, block.name, f⟩ }

/-- The places of the fields of a block and the jobs of its checksums, with a draft in which nothing is
written yet. Faults of both stand in the draft, first those of the places. -/
def resolved (a : Assembly) (block : Block) (address : UInt32) :
    Draft × List PlacedField × List ChecksumJob :=
  let run := block.place address
  let (jobs, faults) := checksumJobs block address run.placed
  let draft : Draft :=
    { stage := .empty
      image := a.image
      symbols := []
      faults := run.faults ++ faults
      journal := run.placed.map PlacedField.entry }
  (draft.advance block .addressesResolved, run.placed, jobs)

/-- Builds a block that has been filled: header, parameters, checksums. Checksums are left out once
anything has failed, as what they would cover is not what was declared. -/
def Draft.build (table : SymbolTable) (container : Container) (block : Block) (address : UInt32)
    (placed : List PlacedField) (jobs : List ChecksumJob) (d : Draft) : Draft :=
  let d := d.putHeader container block address
  let d := placed.foldl (Draft.putParameter container block) d
  let d := d.advance block .valuesPlaced
  -- a fault so far may mean bytes that are not in place
  let d := if d.faults.isEmpty then jobs.foldl (Draft.putChecksum container block) d else d
  d.checkNames table

/-- Takes a finished draft into the assembly, or drops it and reports its faults. Dropping discards by
address what the draft has filled; everything else of the draft is simply forgotten. -/
def settle (a : Assembly) (container : Container) (block : Block) (address : UInt32) (d : Draft) :
    Assembly :=
  if d.faults.isEmpty then
    let d := d.advance block .checksummedComplete
    { a with
      image := d.image
      symbols := a.symbols.insertAll d.symbols
      blocks := a.blocks ++
        [{ container := container.name
           containerBase := container.base
           name := block.name
           address
           length := block.length
           fill := block.fill
           byteOrder := block.byteOrder
           header := block.header
           comment := block.comment }]
      journal := a.journal ++ d.journal }
  else
    -- a block without bytes has no segment, and another may start at its address
    let image := if block.length = 0 then d.image else d.image.discard address
    report { a with image, journal := a.journal ++ d.journal } container block d.faults

/-- Adds a placed block. It has five ends, of which only the last but one takes the block in: a name that
was tried, a span that is taken, an image that cannot be filled, and a draft without faults or with some. -/
def addBlock (a : Assembly) (container : Container) (place : PlacedBlock) : Assembly :=
  let block := place.block
  let address := place.address
  let a := a.note .info
    (s!"  block {block.name} @ " ++ Numeral.address address ++ " length "
      ++ Numeral.address block.length)
  match a.tried.lookup block.name with
  | some first => a.report container block [.duplicateName block.name first]
  | none =>
    -- from here on the name is taken, whatever becomes of the block
    let a := { a with tried := a.tried ++ [(block.name, address)] }
    match a.blocks.find? fun b => place.span.meets b.span with
    | some other =>
      a.report container block
        [.blockOverlap block.name other.name address (clampAddress place.stop)]
    | none =>
      let (draft, placed, jobs) := a.resolved block address
      match draft.image.fill? address block.length.toNat block.fill with
      | none =>
        report { a with journal := a.journal ++ draft.journal } container block
          (draft.faults ++ [.imageWrite block.name address block.length.toNat])
      | some image =>
        a.settle container block address
          (Draft.build a.symbols container block address placed jobs { draft with image })

def reportUnplaced (a : Assembly) (container : Container) (unplaced : List UnplacedBlock) :
    Assembly :=
  { a with
    diagnostics := a.diagnostics ++ unplaced.map fun u => ⟨container.name, u.block.name, u.fault⟩ }

/-- The state in which the blocks of a container are begun: what could not be placed has been reported by
then. -/
def opened (a : Assembly) (c : Container) : Assembly :=
  (a.note .info
    (s!"container {c.name} @ " ++ Numeral.address c.base ++ " ("
      ++ Numeral.decimal c.blocks.length ++ " blocks)")).reportUnplaced c c.place.unplaced

/-- Adds a container. All its blocks are placed before the first of them is added, so whether one has a
place does not depend on the contents of any. -/
def addContainer (a : Assembly) (container : Container) : Assembly :=
  container.place.placed.foldl (fun a p => a.addBlock container p) (a.opened container)

/-- Whether a block gets as far as to have its fields placed: its name has not been tried, and no block
has its span. A block that does not is reported before any size is asked for, so it cannot break off. -/
def admits (a : Assembly) (place : PlacedBlock) : Bool :=
  (a.tried.lookup place.block.name).isNone && a.blocks.all fun b => !place.span.meets b.span

/-- Whether the image has room for a block, which is looked at before any value of it is encoded. -/
def hasRoom (a : Assembly) (place : PlacedBlock) : Bool :=
  (a.image.fill? place.address place.block.length.toNat place.block.fill).isSome

/-- Whether adding a block breaks off, be it over the size of a field or over the value of one. The
former happens before the block is filled and the latter after, which makes no difference: nothing is
left in either case. -/
def breaksOff (a : Assembly) (place : PlacedBlock) : Bool :=
  a.admits place &&
    match place.block.place? place.address with
    | none => true
    | some run => a.hasRoom place && run.placed.any (·.leavesWord place.block)

/-- Adds a block, unless that breaks off; then there is no state in which the run could go on. This is
the step that statements about runs are made of. -/
def addBlock? (container : Container) (a : Assembly) (place : PlacedBlock) : Option Assembly :=
  if a.breaksOff place then none else some (a.addBlock container place)

def addContainer? (a : Assembly) (container : Container) : Option Assembly :=
  container.place.placed.foldlM (addBlock? container) (a.opened container)

/-- Hands out the layout, or every diagnostic. A single one is enough for there to be no layout, even if
all other blocks are complete. -/
def finish (a : Assembly) : Except Rejection Layout :=
  if a.diagnostics.isEmpty then
    .ok { name := a.name, image := a.image, symbols := a.symbols, blocks := a.blocks }
  else .error ⟨a.diagnostics⟩

end Assembly

def Declaration.assembly (d : Declaration) : Assembly :=
  d.containers.foldl Assembly.addContainer { name := d.name }

def Declaration.assembly? (d : Declaration) : Option Assembly :=
  d.containers.foldlM Assembly.addContainer? { name := d.name }

/-- The layout of a declaration, or why there is none, with sizes and values that cannot break anything
off. -/
def Declaration.compile (d : Declaration) : Except Rejection Layout :=
  d.assembly.finish

/-- What becomes of a declaration: a layout, a rejection, or nothing, if compiling it breaks off. Where
there is an outcome it is that of `compile`. -/
def Declaration.compile? (d : Declaration) : Option (Except Rejection Layout) :=
  d.assembly?.map Assembly.finish

end FlashParams
