import FlashParams.Output.Basic

/-!
# C header and source

The header declares every symbol as a volatile constant, the source defines it. The initializers are
not taken from the declaration but decoded from the finished image, so the source says what the
flash holds: negative integers in decimal, other integers in hexadecimal, floating-point values with
eight places, text as a string literal of its bytes, arrays four values to a line.
-/

set_option autoImplicit false

namespace FlashParams.Output.CSource

inductive Unit where
  | header
  | source
  deriving DecidableEq, Repr

def headerTypedef : String :=
  "typedef struct struct_pargen_header_type\n\x7b\n    uint16_t id;\n    uint16_t major;\n"
    ++ "    uint16_t minor;\n    uint16_t dataver;\n    uint32_t reserved;\n    uint32_t length;\n"
    ++ "\x7d pargen_header_type_t;\n"

/-! ## Initializers -/

def valuesPerLine : Nat := 4

def places : Nat := 8

def scalar : Literal → String
  | .int (.ofNat n) => "0x" ++ Numeral.hex n
  | .int v => Numeral.decimalInt v
  | .float x => x.fixed places
  | other => other.text

def values (index : Nat) : List Literal → String
  | [] => ""
  | [item] => scalar item
  | item :: rest =>
    scalar item ++ ", " ++ (if index % valuesPerLine = valuesPerLine - 1 then "\n    " else "")
      ++ values (index + 1) rest

/-- One byte of a string literal: printable ASCII as it is, a quote and a backslash escaped, all else as
three octal digits. Three, because with fewer a digit behind them would be taken for part of the escape. -/
def charText (b : UInt8) : String :=
  if b = 0x22 then "\\\""
  else if b = 0x5C then "\\\\"
  else if 0x20 ≤ b ∧ b ≤ 0x7E then String.singleton (Char.ofNat b.toNat)
  else "\\" ++ Numeral.octalByte b

/-- The string literal of bytes without their zero padding, since the array that takes it has its length
and is filled up with zeros by the compiler. -/
def stringLiteral (bytes : List UInt8) : String :=
  "\"" ++ String.join ((dropPadding bytes).map charText) ++ "\""

def initializer (value : Literal) (bytes : List UInt8) : String :=
  match value with
  | .array items => "\n\x7b\n    " ++ values 0 items ++ "\n\x7d"
  | .str _ => stringLiteral bytes
  | other => scalar other

/-! ## Symbols and blocks -/

def declaration (s : Symbol) : StoredType → String
  | .scalar t => s!"volatile const {t.cName} {s.name}"
  | .array t n => s!"volatile const {t.cName} {s.name}[" ++ Numeral.decimal n ++ "]"
  | .text n => s!"volatile const char {s.name}[" ++ Numeral.decimal n ++ "]"

def commentText (comment : Option String) : String :=
  (match comment with
    | some text => " *\n" ++ String.join ((Text.linesOf text).map fun line => s!" * {line}\n")
    | none => "")
    ++ " */\n"

def storedType? : SymbolKind → Option StoredType
  | .header => none
  | .parameter type => some type
  | .checksum type => some (.scalar type)

/-- The value of a symbol in the image, with its bytes. It is decoded from the image and not taken from
the declaration, so a checksum can be written like a parameter. -/
def symbolValue (l : Layout) (s : Symbol) (type : StoredType) :
    Except Fault (Literal × List UInt8) :=
  match l.symbolBytes? s with
  | none => .error (.missingBytes s.name)
  | some bytes =>
    match type.decode s.byteOrder bytes with
    | .ok value => .ok (value, bytes)
    | .error cause => .error (.undecodable s.name cause)

def symbolText (l : Layout) (unit : Unit) (s : Symbol) : Except Fault String :=
  match storedType? s.kind with
  | none => .ok ""
  | some type =>
    let opening := s!"/* Parameter {s.name} @ " ++ Numeral.addressLower s.address ++ "\n"
      ++ commentText s.comment
    match unit with
    | .header => .ok (opening ++ s!"extern {declaration s type};\n\n")
    | .source =>
      match symbolValue l s type with
      | .error fault => .error fault
      | .ok (value, bytes) =>
        .ok (opening ++ declaration s type ++ " = " ++ initializer value bytes ++ ";\n\n")

def headerText (unit : Unit) (b : BlockRecord) : Header → String := fun h =>
  let name := headerSymbolName b.name
  match unit with
  | .header => s!"extern volatile const pargen_header_type_t {name};\n\n"
  | .source =>
    let word (w : UInt16) : String := "    0x" ++ Numeral.hexPadded 4 w.toNat ++ ",\n"
    s!"volatile const pargen_header_type_t {name} =\n\x7b\n" ++ word h.id ++ word h.major
      ++ word h.minor ++ word h.dataVersion ++ "    0x00000000,\n    0x"
      ++ Numeral.hexPadded 8 b.length.toNat ++ "\n\x7d;\n\n"

def concat {α : Type} (f : α → Except Fault String) (items : List α) : Except Fault String :=
  items.foldlM (fun text item => (f item).map (text ++ ·)) ""

def blockText (l : Layout) (unit : Unit) (b : BlockRecord) : Except Fault String := do
  let symbols ← concat (symbolText l unit) (l.symbols.inBlock b.name)
  return s!"/* BEGIN Block {b.name} in container {b.container} @ "
    ++ Numeral.addressLower b.address ++ "\n" ++ commentText b.comment
    ++ (match b.header with | some h => headerText unit b h | none => "")
    ++ symbols
    ++ s!"/* END Block {b.name}\n */\n\n"

def blocksText (l : Layout) (unit : Unit) : Except Fault String :=
  concat (blockText l unit) ((groups l).flatMap (·.2))

/-! ## Files -/

/-- The macro that guards the header file: the base name in capitals, with all but ASCII letters and
digits as underscores. Two base names can have one macro; the files of one run do not. -/
def includeGuard (basename : String) : String :=
  let name := basename.toList.map fun c => if c.isAlphanum then c.toUpper else '_'
  s!"PARGEN_{String.ofList name}_H_INCLUDED"

def writeHeader (l : Layout) (ctx : Context) : Except Fault String := do
  let guardName := includeGuard ctx.basename
  let blocks ← blocksText l .header
  return banner ctx [] ++ s!"#ifndef {guardName}\n#define {guardName}\n\n"
    ++ "#ifdef __cplusplus\nextern \"C\" \x7b\n#endif\n\n#include <stdint.h>\n\n"
    ++ headerTypedef ++ "\n" ++ blocks
    ++ s!"#ifdef __cplusplus\n\x7d\n#endif\n#endif /* {guardName} */\n"

def write (l : Layout) (ctx : Context) : Except Fault String := do
  let header := ctx.file "h"
  let blocks ← blocksText l .source
  return banner ctx [] ++ s!"#include \"{header}\"\n\n" ++ blocks

end FlashParams.Output.CSource
