import FlashParams.Output.Basic
import FlashParams.Proofs.Assembly.Selection
import FlashParams.Proofs.Assembly.Table

/-!
# Going through the symbols of a layout

No output goes through the symbol table. They all go through the blocks, put together by container,
and look up the symbols of each by the block's name. That every symbol comes up in this way, and once,
rests on three facts: putting neighbours together leaves the blocks as they were (`flatMap_groups`),
the names of blocks are distinct, and a symbol carries the name of a block there is.

`Layout.Visits` says of a list of symbols what it means to have gone through a layout, against the
declaration. The list the outputs go through is `visited`; it does (`Declaration.visits_visited`).
-/

set_option autoImplicit false

namespace FlashParams

/-! ## Blocks by container -/

namespace Output

theorem flatMap_consGroup (b : BlockRecord) (groups : List (String × List BlockRecord)) :
    (consGroup b groups).flatMap (·.2) = b :: groups.flatMap (·.2) := by
  unfold consGroup
  split
  · split
    · rw [List.flatMap_cons, List.flatMap_cons]
      rfl
    · rw [List.flatMap_cons]
      rfl
  · rfl

/-- **Putting neighbours of one container together keeps all blocks, in order.** Groups are made for the
headings of a file, and with this they are done with. -/
theorem flatMap_groups (l : Layout) : (groups l).flatMap (·.2) = l.blocks := by
  unfold groups
  induction l.blocks with
  | nil => rfl
  | cons b rest ih => rw [List.foldr_cons, flatMap_consGroup, ih]

/-- The symbols of a layout, block by block. All outputs take the table in this order, though two of them
go through groups first. -/
def visited (l : Layout) : List Symbol :=
  l.blocks.flatMap fun b => l.symbols.inBlock b.name

theorem flatMap_groups_inBlock (l : Layout) :
    ((groups l).flatMap fun group => group.2.flatMap fun b => l.symbols.inBlock b.name) =
      visited l := by
  rw [visited, ← flatMap_groups, List.flatMap_assoc]

end Output

/-! ## Every symbol once -/

theorem filter_of_nodup {α β : Type} [DecidableEq β] (key : α → β) {items : List α}
    (h : (items.map key).Nodup) {x : α} (hx : x ∈ items) :
    items.filter (fun y => key y = key x) = [x] := by
  obtain ⟨front, back, rfl⟩ := List.append_of_mem hx
  rw [List.map_append, List.map_cons] at h
  obtain ⟨-, hback, hfront⟩ := List.nodup_append.1 h
  have hbefore : front.filter (fun y => key y = key x) = [] :=
    List.filter_eq_nil_iff.2 fun y hy => by
      simpa using hfront (key y) (List.mem_map_of_mem hy) (key x) List.mem_cons_self
  have hafter : back.filter (fun y => key y = key x) = [] :=
    List.filter_eq_nil_iff.2 fun y hy => by
      have hne := (List.nodup_cons.1 hback).1
      exact fun e => hne (of_decide_eq_true e ▸ List.mem_map_of_mem hy)
  have hself : decide (key x = key x) = true := decide_eq_true rfl
  rw [List.filter_append, hbefore, List.filter_cons, if_pos hself, hafter, List.nil_append]

section

variable {parts : List Part} {l : Layout} (h : Consists parts l.image l.symbols l.blocks)
include h

theorem Consists.filter_block {p : Part} (hp : p ∈ parts) :
    l.symbols.entries.filter (·.block = p.place.block.name) = p.symbols := by
  have hname : ∀ q ∈ parts, ∀ s ∈ q.symbols, decide (s.block = p.place.block.name) =
      decide (q.place.block.name = p.place.block.name) := fun q hq s hs => by
    rw [h.block_symbol hq hs]
  rw [h.symbols, filter_flatMap_of_const hname,
    filter_of_nodup (fun q : Part => q.place.block.name) h.names hp, List.flatMap_singleton]

theorem Consists.perm_visited : (Output.visited l).Perm l.symbols.entries := by
  rw [Output.visited, h.blocks, List.flatMap_map, h.symbols]
  refine List.Perm.flatMap_left _ fun p hp => ?_
  rw [← h.filter_block hp]
  exact l.symbols.perm_inBlock p.record.name

end

end FlashParams
