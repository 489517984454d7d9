import FlashParams.Text.Visible

/-!
# Log entries

The assembler and the command line report their progress as entries of five levels. An entry knows
the part of the program it comes from, by whose name filters refer to it. It is printed as plain
text: the lines of a message after its first are indented, and what a terminal would not show is
left out.
-/

set_option autoImplicit false

namespace FlashParams.Log

inductive Level where
  | error | warn | info | debug | trace
  deriving DecidableEq, Repr

namespace Level

def name : Level → String
  | error => "ERROR"
  | warn => "WARN"
  | info => "INFO"
  | debug => "DEBUG"
  | trace => "TRACE"

def rank : Level → Nat
  | error => 1
  | warn => 2
  | info => 3
  | debug => 4
  | trace => 5

end Level

/-- The part of the program an entry comes from. Filters go by it, so it is kept apart from the message
until an entry is shown. -/
inductive Source where
  | program
  | manifest
  | declaration
  | placement
  | assembly
  | output
  deriving DecidableEq, Repr

def Source.target : Source → String
  | program => "flashblock"
  | manifest => "flashblock::manifest"
  | declaration => "flashblock::model"
  | placement => "flashblock::resolve"
  | assembly => "flashblock::layout"
  | output => "flashblock::writers"

/-- An entry of the log. -/
structure Entry where
  level : Level
  source : Source
  message : String
  deriving DecidableEq, Repr

/-- The message of an entry as it is shown: further lines are indented, and characters a terminal would
act on are spelled out. -/
def Entry.shown (e : Entry) : String :=
  let indented := e.message.toList.flatMap fun c =>
    if c = '\n' then '\n' :: List.replicate 4 ' ' else [c]
  String.ofList (Text.visible indented)

def Entry.line (e : Entry) : String :=
  s!"[{e.level.name} {e.source.target}] {e.shown}"

end FlashParams.Log
