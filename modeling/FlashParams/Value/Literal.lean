import FlashParams.Number.Decimal
import FlashParams.Text.Quoted

/-!
# Literals

A value as it is written in a declaration, before a type gives it bytes. Arrays may nest here
although no type stores a nested array: the encoder refuses them with a diagnostic that shows the
literal, so the literal has to be representable first.
-/

set_option autoImplicit false

namespace FlashParams

inductive Literal where
  | int (value : Int)
  | float (value : Binary.Double)
  | str (value : String)
  | array (items : List Literal)
  deriving Inhabited

namespace Literal

mutual

def text : Literal → String
  | int v => Numeral.decimalInt v
  | float v => v.text
  | str s => Text.quoted s
  | array items => "[" ++ String.intercalate ", " (texts items) ++ "]"

def texts : List Literal → List String
  | [] => []
  | item :: rest => text item :: texts rest

end

def isArray : Literal → Bool
  | array _ => true
  | _ => false

end Literal

end FlashParams
