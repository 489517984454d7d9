import FlashParams.CommandLine.OptionReader
import FlashParams.CommandLine.Run
import FlashParams.Log.Filter
import FlashParams.Manifest.Shape

/-!
# The readers of the program

What the program is run with: the reader of options, that of TOML documents and their shape, and that of
log filters. Nothing is said about runs that depends on which readers they have.
-/

set_option autoImplicit false

namespace FlashParams.CommandLine

def tableOf? (text : String) : Option Toml.Table :=
  (Toml.read? text).bind (Toml.membersWithDates? false)

def manifestOf (text : String) : Except String Manifest :=
  match Manifest.read? text with
  | some manifest => .ok manifest
  | none => .error "no manifest"

def standardReaders : Readers where
  options := Options.read
  manifest := manifestOf
  table? := tableOf?
  shown := Toml.Value.shown
  shows filter := (Log.Filter.read filter.toList).shows

end FlashParams.CommandLine
