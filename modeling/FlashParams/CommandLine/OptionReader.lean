import FlashParams.CommandLine.Options

/-!
# Reading options

The words of an invocation are read from the left, the name of the program aside. A word is a long
option, a cluster of short ones, or the input; after `--` every word is an input. Two kinds of options
exist: switches, which are on or off and may be given once, and settings, which take a value. A value
stands behind an equals sign, or in the rest of its cluster, or in the next word, and a next word that
starts with a dash is no value unless it is the dash alone. All settings but the overrides may be given
once, too. Values that are no paths have to be text.

Reading stops at the first word that does not fit, and likewise at the first that asks for help or
for the version, whichever comes first.
-/

set_option autoImplicit false

namespace FlashParams.CommandLine

open Output (Format)

def usage : String :=
  "Generate flash parameter block images\n\n"
    ++ s!"Usage: {toolName} [OPTIONS] <FILE>\n\n"
    ++ "  <FILE>                     Manifest file, or - for standard input\n"
    ++ "      --ihex                 Create an Intel-hex file and a checksum file\n"
    ++ "      --csrc                 Create C header and source files\n"
    ++ "      --gld                  Create a GNU linker script include\n"
    ++ "      --pyhexdump            Create a pyHexDump configuration file\n"
    ++ "  -o, --destdir <DIR>        Directory of the created files [default: .]\n"
    ++ "  -f, --filename <BASENAME>  Name of the created files [default: that of the manifest]\n"
    ++ "  -m, --modify <NAME=VALUE>  Give a parameter another value\n"
    ++ "  -v, --verbose              Log what is done\n"
    ++ "  -h, --help                 Print help\n"
    ++ "  -V, --version              Print version"

inductive Switch where
  | format (f : Format)
  | verbose
  deriving DecidableEq, Repr

inductive Setting where
  | destination
  | basename
  | override
  deriving DecidableEq, Repr

inductive Misuse where
  | unknownOption (word : Argument)
  | repeatedOption (word : Argument)
  | missingValue (word : Argument)
  | unexpectedValue (word : Argument)
  | notText (word : Argument)
  | emptyPath
  | surplusInput (word : Argument)
  | missingInput
  deriving DecidableEq, Repr

def Misuse.message : Misuse → String
  | unknownOption word => s!"unexpected argument '{Text.shown word}' found"
  | repeatedOption word => s!"the option '{Text.shown word}' cannot be used multiple times"
  | missingValue word => s!"a value is required for '{Text.shown word}' but none was supplied"
  | unexpectedValue word => s!"the option '{Text.shown word}' takes no value"
  | notText word => s!"the value in '{Text.shown word}' is not UTF-8"
  | emptyPath => "a path may not be empty"
  | surplusInput word => s!"unexpected argument '{Text.shown word}' found"
  | missingInput => "no manifest file was given"

def Misuse.stop (m : Misuse) : Stop :=
  ⟨true, s!"error: {m.message}"⟩

/-- What a name stands for, long or short. The two that ask about the program itself end the reading at
once, whatever follows them. -/
inductive Meaning where
  | switch (s : Switch)
  | setting (s : Setting)
  | help
  | version
  deriving DecidableEq, Repr

def longName? : String → Option Meaning
  | "ihex" => some (.switch (.format .hex))
  | "csrc" => some (.switch (.format .cSource))
  | "gld" => some (.switch (.format .linkerScript))
  | "pyhexdump" => some (.switch (.format .dumpConfig))
  | "verbose" => some (.switch .verbose)
  | "destdir" => some (.setting .destination)
  | "filename" => some (.setting .basename)
  | "modify" => some (.setting .override)
  | "help" => some .help
  | "version" => some .version
  | _ => none

def shortName? : Char → Option Meaning
  | 'v' => some (.switch .verbose)
  | 'o' => some (.setting .destination)
  | 'f' => some (.setting .basename)
  | 'm' => some (.setting .override)
  | 'h' => some .help
  | 'V' => some .version
  | _ => none

def helpStop : Stop := ⟨false, usage⟩

def versionStop : Stop := ⟨false, s!"{toolName} {toolVersion}"⟩

/-- What has been given so far. A switch is kept with the others in a list, since all that is asked of it
later is whether it is there, and a second time is a mistake. -/
structure Given where
  switches : List Switch := []
  destination : Option Path := none
  basename : Option String := none
  overrides : List String := []
  input : Option Path := none

namespace Given

def dash : UInt8 := 0x2D

def equalsSign : UInt8 := 0x3D

def turnOn (g : Given) (word : Argument) (s : Switch) : Except Stop Given :=
  if s ∈ g.switches then .error (Misuse.repeatedOption word).stop
  else .ok { g with switches := g.switches ++ [s] }

def set (g : Given) (word : Argument) (s : Setting) (value : List UInt8) : Except Stop Given :=
  match s, Text.ofUtf8? value with
  | .destination, _ =>
    if g.destination.isSome then .error (Misuse.repeatedOption word).stop
    else if value = [] then .error Misuse.emptyPath.stop
    else .ok { g with destination := some value }
  | _, none => .error (Misuse.notText word).stop
  | .basename, some text =>
    if g.basename.isSome then .error (Misuse.repeatedOption word).stop
    else .ok { g with basename := some text }
  | .override, some text => .ok { g with overrides := g.overrides ++ [text] }

def setInput (g : Given) (word : Argument) : Except Stop Given :=
  if g.input.isSome then .error (Misuse.surplusInput word).stop
  else if word = [] then .error Misuse.emptyPath.stop
  else .ok { g with input := some word }

/-- What is given after a word, with the setting whose value the next word has to be. A value can stand
in the next word, so reading words needs this much memory. -/
abbrev Step := Except Stop (Given × Option Setting)

def readLong (g : Given) (word : Argument) (body : List UInt8) : Step :=
  let (name, value) :=
    match Text.splitOnce equalsSign body with
    | some (name, value) => (name, some value)
    | none => (body, none)
  match (Text.ofUtf8? name).bind longName?, value with
  | none, _ => .error (Misuse.unknownOption word).stop
  | some (.setting s), some value => (g.set word s value).map (·, none)
  | some (.setting s), none => .ok (g, some s)
  | some _, some _ => .error (Misuse.unexpectedValue word).stop
  | some (.switch s), none => (g.turnOn word s).map (·, none)
  | some .help, none => .error helpStop
  | some .version, none => .error versionStop

/-- Reads a cluster of short options, the dash aside. Switches can be joined; the first setting among
them takes what is left of the word as its value, or the next word. -/
def readCluster (g : Given) (word : Argument) : List UInt8 → Step
  | [] => .ok (g, none)
  | b :: rest =>
    -- all short names are ASCII
    match shortName? (Char.ofNat b.toNat) with
    | none => .error (Misuse.unknownOption word).stop
    | some .help => .error helpStop
    | some .version => .error versionStop
    | some (.switch s) =>
      match g.turnOn word s with
      | .ok g => g.readCluster word rest
      | .error stop => .error stop
    | some (.setting s) =>
      match rest with
      | [] => .ok (g, some s)
      | c :: value =>
        -- one equals sign between the letter and its value is dropped
        (g.set word s (if c = equalsSign then value else c :: value)).map (·, none)

def readWord (g : Given) (word : Argument) : Step :=
  match word with
  | b :: c :: rest =>
    if b ≠ dash then (g.setInput word).map (·, none)
    else if c = dash then g.readLong word rest
    else g.readCluster word (c :: rest)
  | _ => (g.setInput word).map (·, none)

/-- Whether a word can be the value of the option in front of it. One that begins with a dash cannot,
unless it is the dash alone, which names the standard input. -/
def isValue (word : Argument) : Bool :=
  word.head? ≠ some dash || word = [dash]

def readWords (g : Given) : List Argument → Except Stop Given
  | [] => .ok g
  | word :: rest =>
    -- only words that may be the input follow
    if word = [dash, dash] then rest.foldlM setInput g
    else
      match g.readWord word with
      | .error stop => .error stop
      | .ok (g, none) => g.readWords rest
      | .ok (g, some s) =>
        match rest with
        | [] => .error (Misuse.missingValue word).stop
        | value :: rest =>
          if isValue value then
            match g.set word s value with
            | .ok g => g.readWords rest
            | .error stop => .error stop
          else .error (Misuse.missingValue word).stop

end Given

/-- The options that arguments ask for; the first of them is the name of the program. A missing input is
only noticed here, after everything that is given has been found in order. -/
def Options.read (arguments : List Argument) : Except Stop Options :=
  match Given.readWords {} arguments.tail with
  | .error stop => .error stop
  | .ok g =>
    match g.input with
    | none => .error Misuse.missingInput.stop
    | some input =>
      .ok
        { hex := .format .hex ∈ g.switches
          cSource := .format .cSource ∈ g.switches
          linkerScript := .format .linkerScript ∈ g.switches
          dumpConfig := .format .dumpConfig ∈ g.switches
          verbose := .verbose ∈ g.switches
          destination := g.destination.getD Path.here
          basename := g.basename
          overrides := g.overrides
          input }

end FlashParams.CommandLine
