import FlashParams.Text.Split
import FlashParams.Text.Utf8

/-!
# Paths

A path is bytes with slashes between its components; that they are text is not required of them.
Empty components and single dots say nothing about where a path leads, so `components` leaves them
out; but a path that *ends* in a slash or in `/.` can lead to a directory only, which
`namesDirectory` keeps. A leading slash counts as a component of its own. A component is itself a
path, of one step.
-/

set_option autoImplicit false

namespace FlashParams

/-- A path as the system takes it: bytes without any promise that they are a text. It is only shown as
text, never turned into text and back. -/
abbrev Path := List UInt8

namespace Path

def ofText (text : String) : Path :=
  Text.utf8Bytes text

def slash : UInt8 := 0x2F

def dot : UInt8 := 0x2E

def root : Path := [slash]

def here : Path := [dot]

def above : Path := [dot, dot]

def pieces (path : Path) : List Path :=
  Text.splitWhere (· == slash) path

def isAbsolute (path : Path) : Bool :=
  path.head? = some slash

/-- The components of a path that lead somewhere. Empty ones and those that stay where they are have no
say in where a path leads, except for the last, which `namesDirectory` looks at. -/
def components (path : Path) : List Path :=
  let steps := (pieces path).filter fun piece => piece ≠ [] ∧ piece ≠ here
  if isAbsolute path then root :: steps else steps

/-- Whether a path can lead to a directory only, since it ends with a slash or a dot. Its components do
not show that any more. -/
def namesDirectory (path : Path) : Bool :=
  match (pieces path).getLast? with
  | some last => last = [] ∨ last = here
  | none => false

def componentLimit : Nat := 255

def limit : Nat := 4095

def join (directory name : Path) : Path :=
  if isAbsolute name ∨ directory = [] then name
  else if directory.getLast? = some slash then directory ++ name
  else directory ++ slash :: name

/-- A file name without its extension: what stands in front of the last point. A name that begins with
its only point has no extension, so it stays whole. -/
def withoutExtension (name : Path) : Path :=
  match Text.splitOnce dot name.reverse with
  | some (_, []) | none => name
  | some (_, front) => front.reverse

def stem? (path : Path) : Option Path :=
  match (components path).getLast? with
  | none => none
  | some last => if last = root ∨ last = above then none else some (withoutExtension last)

end Path

end FlashParams
