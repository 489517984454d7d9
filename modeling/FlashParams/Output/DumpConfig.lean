import FlashParams.Output.Basic
import FlashParams.Output.Json

/-!
# Configuration for a hex-dump viewer

A JSON document that tells the viewer `pyHexDump` how to print a dump of the image: the two layouts
of a block header, one per byte order, and for every symbol its address, the type of its elements
and their number. Symbols come block by block, in order of their addresses.
-/

set_option autoImplicit false

namespace FlashParams.Output.DumpConfig

def suffix : ByteOrder → String
  | .little => "le"
  | .big => "be"

def dataType (t : Scalar) (order : ByteOrder) : String :=
  if t.size = 1 then t.name else t.name ++ suffix order

def headerType (order : ByteOrder) : String :=
  s!"pargen_header_{suffix order}_t"

def headerFields : List (String × Scalar) :=
  [("id", .u16), ("major", .u16), ("minor", .u16), ("dataver", .u16), ("reserved", .u32),
    ("length", .u32)]

def headerStructure (order : ByteOrder) : Json :=
  .object
    [("name", .string (headerType order)),
      ("elements", .array (headerFields.map fun (name, t) =>
        .object
          [("name", .string name), ("dataType", .string (dataType t order)),
            ("count", .number 1)]))]

def elementType (s : Symbol) : String × Nat :=
  match s.kind with
  | .header => (headerType s.byteOrder, 1)
  | .checksum t => (dataType t s.byteOrder, 1)
  | .parameter (.text n) => ("utf8", n)
  | .parameter (.scalar t) => (dataType t s.byteOrder, 1)
  | .parameter (.array t n) => (dataType t s.byteOrder, n)

def element (s : Symbol) : Json :=
  let (type, count) := elementType s
  .object
    [("name", .string s.name), ("addr", .string (Numeral.addressLower s.address)),
      ("dataType", .string type), ("count", .number count)]

/-- The symbols of a layout in the order of the entries: by container groups, by blocks, and in a block
by addresses. It is not the order of the table. -/
def symbols (l : Layout) : List Symbol :=
  (groups l).flatMap fun group => group.2.flatMap fun b => l.symbols.inBlock b.name

def config (l : Layout) (ctx : Context) : Json :=
  .object
    [("_comment_", .array
        [.string "Configuration file for pyHexDump, see https://github.com/BlueAndi/pyHexDump",
          .string s!"GENERATED by {ctx.tool} {ctx.version}",
          .string s!"input: {ctx.input}"]),
      ("structures", .array [headerStructure .little, headerStructure .big]),
      ("elements", .array ((symbols l).map element))]

def write (l : Layout) (ctx : Context) : String :=
  (config l ctx).write 0 ++ "\n"

end FlashParams.Output.DumpConfig
