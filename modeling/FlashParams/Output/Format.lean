import FlashParams.Hex.Write
import FlashParams.Output.CSource
import FlashParams.Output.DumpConfig
import FlashParams.Output.LinkerScript

/-!
# The output formats

A layout is written in up to four formats, each of which makes one or two files. The files of a
format differ in their extensions only; the name in front is the same for all.
-/

set_option autoImplicit false

namespace FlashParams.Output

inductive Format where
  | hex
  | cSource
  | linkerScript
  | dumpConfig
  deriving DecidableEq, Repr

structure File where
  extension : String
  content : Except Fault String

namespace Format

def all : List Format :=
  [hex, cSource, linkerScript, dumpConfig]

def name : Format → String
  | hex => "intelhex"
  | cSource => "c-source"
  | linkerScript => "gnu-ld"
  | dumpConfig => "pyhexdump"

def mainFile (l : Layout) (ctx : Context) : Format → File
  | hex => ⟨"hex", .ok (Hex.write l.image)⟩
  | cSource => ⟨"c", CSource.write l ctx⟩
  | linkerScript => ⟨"ld", .ok (LinkerScript.write l ctx)⟩
  | dumpConfig => ⟨"pyhexdump", .ok (DumpConfig.write l ctx)⟩

/-- All files of a format in the order in which they are written: the image goes with its checksum, the
definitions with their declarations. -/
def files (l : Layout) (ctx : Context) : Format → List File
  | hex =>
    [hex.mainFile l ctx, ⟨"crc", .ok ("0x" ++ Numeral.hex (Hex.imageCheck l.image) ++ "\n")⟩]
  | cSource => [⟨"h", CSource.writeHeader l ctx⟩, cSource.mainFile l ctx]
  | linkerScript => [linkerScript.mainFile l ctx]
  | dumpConfig => [dumpConfig.mainFile l ctx]

end Format

end FlashParams.Output
