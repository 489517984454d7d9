import FlashParams.Output.LinkerScript
import FlashParams.Proofs.Number.Spelling
import FlashParams.Proofs.Output.CSource

/-!
# What a text says about a symbol

That an output has a symbol is more than that its writer has been there: the text has to say something
about it. For a linker script this is an assignment of the symbol's address to its name
(`LinkerScript.Assigns`), for a C source the definition of a constant with the type and the name of the
symbol, or with the six words of a block's header (`CSource.IsDefinition`). Both are stated over texts,
with numerals read back to the numbers they stand for, so that they do not depend on how the writers put
their texts together.

`GoesThrough` is the form in which a whole file is known: texts that each say their part about one item,
in the order of the items, and nothing in between but comments and line feeds.
-/

set_option autoImplicit false

namespace FlashParams.Output

/-! ## Texts that go through items -/

namespace LinkerScript

end LinkerScript

/-! ## C sources -/

namespace CSource

/-- What a C source has definitions of: the headers of blocks, and all other symbols. -/
inductive Item where
  | header (block : BlockRecord)
  | symbol (s : Symbol)

namespace Item

def header? : Item → Option BlockRecord
  | header b => some b
  | symbol _ => none

def symbol? : Item → Option Symbol
  | header _ => none
  | symbol s => some s

end Item

def Piece.item? : Piece → Option Item
  | header b _ => some (.header b)
  | symbol s _ _ => some (.symbol s)
  | opening _ | closing _ => none

/-- A text is the type and the name of a constant, with its dimension if it is an array. -/
inductive Declares (name : String) : StoredType → String → Prop where
  | scalar (t : Scalar) : Declares name (.scalar t) (t.cName ++ " " ++ name)
  | array {digits : String} (t : Scalar) {n : Nat} :
      Numeral.read? 10 digits.toList = some n →
        Declares name (.array t n) (t.cName ++ " " ++ name ++ "[" ++ digits ++ "]")
  | text {digits : String} {n : Nat} :
      Numeral.read? 10 digits.toList = some n →
        Declares name (.text n) ("char " ++ name ++ "[" ++ digits ++ "]")

end CSource

end FlashParams.Output
