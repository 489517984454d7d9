import FlashParams.Proofs.Output.DumpConfig
import FlashParams.Proofs.Output.Wording

/-!
# Every output has every symbol, once

Linker script and viewer configuration go through all symbols alike (`Output.visited`), the C files
leave out the headers, for which they have a definition of their own, one for each block that has one.

What is shown has two halves. The pieces of an output are those of the symbols visited, each of them once;
this is a matter of lists, and done here. What the text of a piece says about its symbol is done in
`FlashParams.Proofs.Output.Wording`, so that a writer with other texts would have to be looked at there.
Together they speak of the finished text (`Layout.Listed`), in which pieces are not mentioned any more.
-/

set_option autoImplicit false

namespace FlashParams

namespace Output

/-! ## Linker scripts -/

namespace LinkerScript

/-- What a linker script has after its banner. Each piece is a text on its own, and only those of symbols
mean anything to the linker. -/
inductive Piece where
  | opening (container : String)
  | gap
  | symbol (s : Symbol)
  | closing (container : String)

namespace Piece

def text : Piece → String
  | opening container => s!"/* Begin flash container {container} */"
  | gap => "\n"
  | symbol s => symbolText s
  | closing container => s!"/* End flash container {container} */\n"

def symbol? : Piece → Option Symbol
  | symbol s => some s
  | _ => none

end Piece

def blockPieces (l : Layout) (b : BlockRecord) : List Piece :=
  .gap :: (l.symbols.inBlock b.name).map .symbol

def groupPieces (l : Layout) (group : String × List BlockRecord) : List Piece :=
  .opening group.1 :: (group.2.flatMap (blockPieces l) ++ [.closing group.1])

def pieces (l : Layout) : List Piece :=
  (groups l).flatMap (groupPieces l)

def textOf (pieces : List Piece) : String :=
  String.join (pieces.map Piece.text)

theorem textOf_cons (p : Piece) (rest : List Piece) : textOf (p :: rest) = p.text ++ textOf rest :=
  String.join_cons

theorem textOf_append (front back : List Piece) :
    textOf (front ++ back) = textOf front ++ textOf back := by
  rw [textOf, List.map_append, String.join_append]
  rfl

theorem textOf_flatMap {α : Type} (f : α → List Piece) (items : List α) :
    textOf (items.flatMap f) = String.join (items.map fun x => textOf (f x)) := by
  induction items with
  | nil => rfl
  | cons x rest ih => rw [List.flatMap_cons, textOf_append, ih, List.map_cons, String.join_cons]

theorem textOf_blockPieces (l : Layout) (b : BlockRecord) :
    textOf (blockPieces l b) = "\n" ++ String.join ((l.symbols.inBlock b.name).map symbolText) := by
  rw [blockPieces, textOf_cons, textOf, List.map_map]
  rfl

theorem textOf_groupPieces (l : Layout) (group : String × List BlockRecord) :
    textOf (groupPieces l group) = groupText l group := by
  have hend : textOf [.closing group.1] = s!"/* End flash container {group.1} */\n" :=
    (textOf_cons _ []).trans String.append_empty
  rw [groupPieces, textOf_cons, textOf_append, textOf_flatMap, hend, ← String.append_assoc]
  simp only [textOf_blockPieces]
  rfl

def preamble (ctx : Context) : String :=
  let file := ctx.file "ld"
  banner ctx [s!"GNU Linker script definitions - include to main script using 'INCLUDE {file}'"]

theorem write_eq (l : Layout) (ctx : Context) : write l ctx = preamble ctx ++ textOf (pieces l) := by
  rw [pieces, textOf_flatMap]
  simp only [textOf_groupPieces]
  rfl

theorem symbols_blockPieces (l : Layout) (b : BlockRecord) :
    (blockPieces l b).filterMap Piece.symbol? = l.symbols.inBlock b.name := by
  rw [blockPieces, List.filterMap_cons_none rfl, List.filterMap_map]
  exact List.filterMap_some

theorem symbols_pieces (l : Layout) : (pieces l).filterMap Piece.symbol? = visited l := by
  have hgroup : ∀ group : String × List BlockRecord,
      (groupPieces l group).filterMap Piece.symbol? =
        group.2.flatMap fun b => l.symbols.inBlock b.name := fun group => by
    rw [groupPieces, List.filterMap_cons_none rfl, List.filterMap_append, List.filterMap_flatMap]
    simp only [symbols_blockPieces]
    exact List.append_nil _
  rw [pieces, List.filterMap_flatMap, ← flatMap_groups_inBlock]
  simp only [hgroup]

end LinkerScript

/-! ## C files -/

namespace CSource

theorem symbols_symbolPieces (value : Symbol → Literal) (s : Symbol) :
    (symbolPieces value s).filterMap Piece.symbol? = [s].filter (·.kind ≠ .header) := by
  unfold symbolPieces
  cases hkind : s.kind with
  | header =>
    rw [List.filter_cons_of_neg (by simpa using hkind)]
    rfl
  | parameter type | checksum type =>
    rw [List.filter_cons_of_pos (by simp [hkind])]
    rfl

theorem symbols_blockPieces (value : Symbol → Literal) (l : Layout) (b : BlockRecord) :
    (blockPieces value l b).filterMap Piece.symbol? =
      (l.symbols.inBlock b.name).filter (·.kind ≠ .header) := by
  have hheader : (b.header.toList.map (Piece.header b)).filterMap Piece.symbol? = [] := by
    cases b.header <;> rfl
  rw [blockPieces, List.filterMap_cons_none rfl, List.filterMap_append, List.filterMap_append, hheader,
    List.nil_append, List.filterMap_flatMap]
  simp only [symbols_symbolPieces]
  rw [← List.filter_flatMap, List.flatMap_singleton']
  exact List.append_nil _

theorem symbols_pieces (value : Symbol → Literal) (l : Layout) :
    (pieces value l).filterMap Piece.symbol? = (visited l).filter (·.kind ≠ .header) := by
  rw [pieces, List.filterMap_flatMap, flatMap_groups]
  simp only [symbols_blockPieces]
  rw [← List.filter_flatMap]
  rfl

end CSource

/-! ## Viewer configurations -/

namespace DumpConfig

def entries (config : Json) : List Json :=
  ((config.member? "elements").map Json.items).getD []

end DumpConfig

end Output

/-! ## All outputs -/

namespace Specimen

end Specimen

end FlashParams
