import FlashParams.Layout.Assembly
import FlashParams.Text.Split

/-!
# What the generated files share

Every output is a function of a finished layout and of a `Context`, which says what the banner of a
file names: the tool, its version, the input, and the base name of the files. The textual formats
open with the same banner and go through the blocks grouped by container, both in declaration order.
-/

set_option autoImplicit false

namespace FlashParams.Output

structure Context where
  tool : String
  version : String
  input : String
  /-- The name of the files without their extensions. -/
  basename : String
  deriving Repr

def Context.file (ctx : Context) (extension : String) : String :=
  s!"{ctx.basename}.{extension}"

/-- Why a file cannot be generated. For the layouts that compiling gives neither happens
(`Declaration.writes_source`); the writers ask because a layout is a value like any other. -/
inductive Fault where
  | missingBytes (symbol : String)
  | undecodable (symbol : String) (cause : ValueFault)

def Fault.message : Fault → String
  | missingBytes symbol => s!"symbol {symbol} has no bytes in the image"
  | undecodable symbol cause => s!"symbol {symbol}: {cause.message}"

def banner (ctx : Context) (remarks : List String) : String :=
  s!"/* AUTOGENERATED by {ctx.tool} {ctx.version}\n"
    ++ String.join (remarks.map fun r => s!" * {r}\n")
    ++ s!" * input: {ctx.input}\n"
    ++ " * !! DO NOT EDIT MANUALLY !!\n */\n\n"

def consGroup (b : BlockRecord) (groups : List (String × List BlockRecord)) :
    List (String × List BlockRecord) :=
  match groups with
  | (name, blocks) :: rest =>
    if name = b.container then (name, b :: blocks) :: rest
    else (b.container, [b]) :: (name, blocks) :: rest
  | [] => [(b.container, [b])]

/-- The blocks of a layout, neighbours of one container together. Containers may share a name, and only
neighbours are joined, so no block leaves the order of the layout. -/
def groups (l : Layout) : List (String × List BlockRecord) :=
  l.blocks.foldr consGroup []

end FlashParams.Output
