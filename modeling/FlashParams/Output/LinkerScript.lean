import FlashParams.Output.Basic

/-!
# Linker script definitions

An include file for a linker script: one assignment of an address to each symbol, the equals signs
in one column. A comment of a single line stands after its assignment, a longer one in front of it.
-/

set_option autoImplicit false

namespace FlashParams.Output.LinkerScript

def nameWidth : Nat := 40

def column (name : String) : String :=
  name ++ String.ofList (List.replicate (nameWidth - name.length) ' ')

def assignment (s : Symbol) : String :=
  column s.name ++ " = " ++ Numeral.addressLower s.address ++ ";"

def symbolText (s : Symbol) : String :=
  match (s.comment.map Text.linesOf).getD [] with
  | [] => assignment s ++ "\n"
  | [line] => assignment s ++ s!" /* {line} */\n"
  | lines =>
    "/*\n" ++ String.join (lines.map fun line => s!" * {line}\n") ++ " */\n" ++ assignment s ++ "\n"

def groupText (l : Layout) (group : String × List BlockRecord) : String :=
  s!"/* Begin flash container {group.1} */"
    ++ String.join (group.2.map fun b =>
      "\n" ++ String.join ((l.symbols.inBlock b.name).map symbolText))
    ++ s!"/* End flash container {group.1} */\n"

def write (l : Layout) (ctx : Context) : String :=
  let file := ctx.file "ld"
  banner ctx
      [s!"GNU Linker script definitions - include to main script using 'INCLUDE {file}'"]
    ++ String.join ((groups l).map (groupText l))

end FlashParams.Output.LinkerScript
