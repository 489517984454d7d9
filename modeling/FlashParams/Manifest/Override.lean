import FlashParams.Manifest.Lower

/-!
# Overrides

An override is written `name=value`. The name is what stands in front of the first equals sign. The
value is read as the value of a key in a document of its own, so that it can be anything a manifest
can hold; a text that is no value there is taken as a string, so that plain words need no quotes.
The reader of documents is given: it says which table a text is, if it is one.
-/

set_option autoImplicit false

namespace FlashParams

structure Override where
  name : String
  value : Literal

namespace Override

/-- The value a text stands for as a member of a document, if it does. The document may go on after it,
since the text is put behind a key and read as a whole. -/
def written? (table? : String → Option Toml.Table) (text : List Char) : Option Toml.Value := do
  let members ← table? ("v = " ++ String.ofList text)
  members.lookup "v"

def read (table? : String → Option Toml.Table) (text : String) : Except Manifest.Fault Override :=
  match Text.splitOnce '=' text.toList with
  | none => .error (.invalid (.override text) .missingEquals)
  | some (name, value) =>
    let name := Text.trim name
    let value := Text.trim value
    if name.isEmpty then .error (.invalid (.override text) .missingName)
    else
      match written? table? value with
      | none => .ok { name := String.ofList name, value := .str (String.ofList value) }
      | some v =>
        match literalOf v with
        | .ok literal => .ok { name := String.ofList name, value := literal }
        | .error reason => .error (.invalid (.override text) reason)

end Override

end FlashParams
