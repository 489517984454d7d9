import FlashParams.CommandLine.Arguments
import FlashParams.Output.Format

/-!
# Options

What a run is asked to do, once its arguments have been read: which formats are to be written and
where to, which manifest they come from, and which parameters get another value. Paths are kept as the
bytes that were given; the name of the files to be written is text, and if it comes from the path of the
manifest, what is not text in that is replaced.
-/

set_option autoImplicit false

namespace FlashParams.CommandLine

open Output (Format)

def toolName : String := "flashblock"

def toolVersion : String := "0.1.0"

/-- Why reading arguments ends without options: they are wrong, or ask for something about the program
itself. -/
structure Stop where
  /-- Whether the message is about what is wrong, and not what was asked for. -/
  complaint : Bool
  message : String
  deriving DecidableEq, Repr

/-- The options of a run, with their defaults. The override texts are kept as they were given: they are
read later, and a bad one ends the run in another status than a bad option. -/
structure Options where
  hex : Bool := false
  cSource : Bool := false
  linkerScript : Bool := false
  dumpConfig : Bool := false
  verbose : Bool := false
  destination : Path := Path.here
  basename : Option String := none
  overrides : List String := []
  input : Path

namespace Options

def asksFor (o : Options) : Format → Bool
  | .hex => o.hex
  | .cSource => o.cSource
  | .linkerScript => o.linkerScript
  | .dumpConfig => o.dumpConfig

def formats (o : Options) : List Format :=
  Format.all.filter o.asksFor

def fromInput (o : Options) : Bool :=
  o.input = Path.ofText "-"

def shownInput (o : Options) : String :=
  if o.fromInput then "<stdin>" else Text.shown o.input

/-- The name of the files to be written, their extensions aside. A manifest from standard input has no
name of its own, and neither has one whose path ends above all directories. -/
def filesName (o : Options) : String :=
  match o.basename with
  | some name => name
  | none => if o.fromInput then "stdin" else ((Path.stem? o.input).map Text.shown).getD "out"

end Options

end FlashParams.CommandLine
