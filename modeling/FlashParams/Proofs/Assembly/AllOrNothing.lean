import FlashParams.Proofs.Assembly.Elements
import FlashParams.Proofs.Assembly.Measured

/-!
# A block is assembled in whole or not at all

By the time most faults of a block are known its bytes are in the image, and what removes them again
is `discard`, which goes by address. That is right only if the block's segment is the only one that
starts there, and whether it is depends on everything assembled before. `Assembly.Holds` is what makes
it right, so the two outcomes below are stated for states a run can reach, not for arbitrary ones: an
`Assembly` whose image has a segment no record knows of could lose that segment.

`Drops` and `Keeps` are the outcomes, and `Mirrors` is the part of the invariant that a reader of the
final layout sees: the segments are the spans of the blocks that have bytes.

There is a third way, and it is neither: the run breaks off over the block, and no state comes after.
States are reached by runs that do not (`Reachable`), and `Reachable.all_or_nothing` has an exact
condition for the block that ends them. It is a condition on the block and on whether its fields come to
be placed at all; nothing that has been assembled before takes part in it.
-/

set_option autoImplicit false

namespace FlashParams

def Segment.span (s : Segment) : Span :=
  ⟨s.base.toNat, s.stop⟩

theorem Part.segment_span {p : Part} (hstop : p.place.stop ≤ 0x100000000) :
    p.segment.span = p.place.span := by
  rw [Segment.span, Part.span_segment hstop]
  rfl

namespace Assembly

/-- A block was turned away: it is named in a diagnostic and has left nothing behind. That image, symbols
and blocks are the same again covers everything a later block or an output can look at, save the names
tried. -/
structure Drops (before after : Assembly) (c : Container) (b : Block) : Prop where
  diagnostics : ∃ faults, faults ≠ [] ∧ after.diagnostics = before.diagnostics ++ charge c b faults
  image : after.image = before.image
  symbols : after.symbols = before.symbols
  blocks : after.blocks = before.blocks

/-- A block was taken in: one record, one segment if it has bytes, and one symbol for each of its
elements, in their order. Each part is appended, so what was there keeps its position. -/
structure Keeps (before after : Assembly) (c : Container) (place : PlacedBlock) : Prop where
  diagnostics : after.diagnostics = before.diagnostics
  block : ∃ r, after.blocks = before.blocks ++ [r] ∧ r.Declares c place.block ∧
    r.address = place.address
  segment :
    if place.block.length = 0 then after.image = before.image
    else ∃ bytes, bytes.length = place.block.length.toNat ∧
      after.image.segments.Perm (⟨place.address, bytes⟩ :: before.image.segments)
  symbols : ∃ added, after.symbols.entries = before.symbols.entries ++ added ∧
    List.Forall₂ (Element.Describes c place.block) place.block.elements added

/-- The segments are the spans of the blocks that have bytes. Up to order, since segments are sorted by
address and blocks stand as they were declared. -/
def Mirrors (a : Assembly) : Prop :=
  (a.image.segments.map Segment.span).Perm
    ((a.blocks.filter fun b => b.length ≠ 0).map BlockRecord.span)

variable {a : Assembly} {c : Container} {place : PlacedBlock} {parts : List Part}

theorem Holds.mirrors (h : a.Holds parts) : a.Mirrors := by
  have hstops := h.consists.stops
  refine (h.consists.segments.map Segment.span).trans (List.Perm.of_eq ?_)
  rw [h.consists.blocks]
  clear h
  induction parts with
  | nil => rfl
  | cons p rest ih =>
    have hstop := hstops p List.mem_cons_self
    have hempty := Part.bytes_eq_nil_iff hstop
    rw [List.flatMap_cons, List.map_append, ih fun q hq => hstops q (List.mem_cons_of_mem _ hq)]
    unfold Part.segments
    -- a block without bytes has neither a segment nor a place in the filtered list
    by_cases hnil : p.bytes = []
    · have hskip : decide (p.record.length ≠ 0) = false :=
        decide_eq_false (not_not_intro (hempty.1 hnil))
      rw [if_pos hnil, List.map_cons, List.filter_cons, hskip]
      rfl
    · have hspan : p.segment.span = p.record.span := Part.segment_span hstop
      have hkeep : decide (p.record.length ≠ 0) = true := decide_eq_true (mt hempty.2 hnil)
      rw [if_neg hnil, List.map_cons, List.map_cons, List.filter_cons, hkeep, if_pos rfl,
        List.map_cons, hspan]
      rfl

theorem Holds.drops_or_keeps (h : a.Holds parts) (hstop : place.stop ≤ 0x100000000) :
    a.Drops (a.addBlock c place) c place.block ∨ a.Keeps (a.addBlock c place) c place := by
  by_cases hclean : a.verdict c place = []
  · right
    obtain ⟨-, hfree, hsheet, -⟩ := new_of_clean hclean
    obtain ⟨himage, hsymbols, hblocks, hdiagnostics⟩ := h.addBlock_of_clean hstop hclean
    have hempty := Part.bytes_eq_nil_iff (p := ⟨c, place⟩) hstop
    refine ⟨hdiagnostics, ⟨_, hblocks, rfl, rfl⟩, ?_, _, hsymbols, ?_⟩
    · split
      · rename_i hzero
        rw [himage, Image.withBytes, if_pos (hempty.2 hzero)]
      · rename_i hne
        rw [himage]
        exact ⟨_, Part.length_bytes hstop,
          (h.room_bytes hstop c hfree).perm_withBytes (mt hempty.1 hne)⟩
    · refine List.forall₂_map_right_iff.2 ?_
      exact (Part.laid (p := ⟨c, place⟩) hstop hsheet).imp fun e q hlaid =>
        Element.describes_of_laid hlaid
  · left
    obtain ⟨himage, hsymbols, hblocks, hdiagnostics⟩ := h.addBlock_of_fault hstop hclean
    exact ⟨⟨_, hclean, hdiagnostics⟩, himage, hsymbols, hblocks⟩

/-! ## States that runs reach -/

/-- The states between containers, in runs that have not broken off. They are reached by `addContainer?`
and by nothing else, whatever the containers contain. -/
inductive Reachable : Assembly → Prop where
  | start (name : String) : Reachable { name }
  | add {a next : Assembly} {c : Container} :
      Reachable a → a.addContainer? c = some next → Reachable next

theorem Reachable.holds (h : a.Reachable) : ∃ parts, a.Holds parts := by
  induction h with
  | start name => exact ⟨[], holds_start name⟩
  | add _ hnext ih =>
    obtain ⟨parts, hparts⟩ := ih
    rw [addContainer?_eq_some hnext]
    obtain ⟨taken, -, hholds, -⟩ := hparts.addContainer _
    exact ⟨parts ++ taken, hholds⟩

/-- A block is added, and it is either turned away or taken in. The state after it has to exist: a step
that breaks off satisfies neither, however harmless its block looks with exact sizes. -/
def Settles (a : Assembly) (c : Container) (place : PlacedBlock) : Prop :=
  ∃ after, addBlock? c a place = some after ∧
    (a.Drops after c place.block ∨ a.Keeps after c place)

theorem Holds.settles_iff (h : a.Holds parts) (hstop : place.stop ≤ 0x100000000) :
    a.Settles c place ↔ addBlock? c a place ≠ none := by
  constructor
  · rintro ⟨after, hafter, -⟩ hnone
    cases hnone.symm.trans hafter
  · intro hsome
    obtain ⟨after, hafter⟩ := Option.ne_none_iff_exists'.1 hsome
    refine ⟨after, hafter, ?_⟩
    rw [addBlock?_eq_some hafter]
    exact h.drops_or_keeps hstop

/-- **Assembling a block is all or nothing, unless it breaks the run off.** In every reachable state the
segments mirror the blocks. When the next container is added, `place` is any of the blocks it hands on, with
`front` tried before it and `back` after it, and `before` is the state it is tried in: then that state mirrors
its blocks as well, and the block is dropped or kept exactly unless its fields come to be placed and one of
them outgrows the word, or negates the least word when it is encoded. Then there is no state after it, and
none after the container. -/
theorem Reachable.all_or_nothing (h : a.Reachable) :
    a.Mirrors ∧ ∀ (c : Container) (front : List PlacedBlock) (place : PlacedBlock)
      (back : List PlacedBlock), c.place.placed = front ++ place :: back →
      ∀ before, front.foldlM (addBlock? c) (a.opened c) = some before →
        a.addContainer? c = (addBlock? c before place).bind (back.foldlM (addBlock? c)) ∧
        before.Mirrors ∧
        (before.Settles c place ↔ ¬ (before.admits place = true ∧
          (place.block.Outgrows place.address ∨ place.block.Negates place.address))) := by
  obtain ⟨parts, hholds⟩ := h.holds
  refine ⟨hholds.mirrors, fun c front place back hplaced before hbefore => ?_⟩
  have hstops : ∀ p ∈ front ++ place :: back, p.stop ≤ 0x100000000 := by
    rw [← hplaced]
    exact fun p hp => Container.stop_le_of_mem_place hp
  have hstop : place.stop ≤ 0x100000000 :=
    hstops place (List.mem_append_right _ List.mem_cons_self)
  obtain ⟨taken, -, hreached, -⟩ := (hholds.opened c).addBlocks (c := c)
    fun p hp => hstops p (List.mem_append_left _ hp)
  rw [← eq_foldl_of_foldlM_eq_some (fun _ _ _ => addBlock?_eq_some) hbefore] at hreached
  have hrun : a.addContainer? c = (addBlock? c before place).bind (back.foldlM (addBlock? c)) := by
    rw [addContainer?, hplaced, List.foldlM_append, hbefore]
    rfl
  refine ⟨hrun, hreached.mirrors, ?_⟩
  rw [hreached.settles_iff hstop, Ne, addBlock?_eq_none_iff hstop]

end Assembly

namespace Specimen

def resident : Container :=
  { name := "resident"
    base := 0x1000
    blocks := [{ name := "first", length := 16 }] }

def intruder : Container :=
  { name := "intruder"
    base := 0x1008
    blocks := [{ name := "second", length := 16 }, { name := "third", length := 4 }] }

/-- A container whose first block runs into another one: the block behind it, tried after the failure,
still settles. -/
theorem intruder_all_or_nothing :
    let second : PlacedBlock := ⟨0, { name := "second", length := 16 }, 0x1008⟩
    let third : PlacedBlock := ⟨1, { name := "third", length := 4 }, 0x1018⟩
    ∃ a before, ({ name := "" } : Assembly).addContainer? resident = some a ∧
      [second].foldlM (Assembly.addBlock? intruder) (a.opened intruder) = some before ∧
      a.Mirrors ∧ before.Mirrors ∧ before.Settles intruder third := by
  intro second third
  obtain ⟨a, ha⟩ : ∃ a, ({ name := "" } : Assembly).addContainer? resident = some a := ⟨_, rfl⟩
  have hplaced : intruder.place.placed = [second] ++ third :: [] := rfl
  obtain ⟨before, hbefore⟩ :
      ∃ before, [second].foldlM (Assembly.addBlock? intruder) (a.opened intruder) = some before := by
    cases ha
    exact ⟨_, rfl⟩
  obtain ⟨hmirrors, hstep⟩ := Assembly.Reachable.all_or_nothing (.add (.start "") ha)
  obtain ⟨-, hbeforeMirrors, hsettles⟩ := hstep intruder [second] third [] hplaced before hbefore
  refine ⟨a, before, ha, hbefore, hmirrors, hbeforeMirrors, hsettles.2 ?_⟩
  rintro ⟨-, houtgrows | ⟨run, hrun, p, hp, -⟩⟩
  · cases Block.place?_eq_none_iff.2 houtgrows
  · cases hrun
    cases hp

/-- Where a container ends the run, its only block does: there is no state behind it in which it could
have been dropped or kept. -/
theorem lone_not_settles_of_none {c : Container} {place : PlacedBlock} (hplaced : c.place.placed = [place])
    (hnone : ({ name := "" } : Assembly).addContainer? c = none) :
    ¬ (({ name := "" } : Assembly).opened c).Settles c place := by
  rintro ⟨after, hafter, -⟩
  rw [Assembly.addContainer?, hplaced, List.foldlM_cons, hafter] at hnone
  cases hnone

/-- The only block of the only container is tried in the first state there is. With an array of 2^64 bytes it
is neither dropped nor kept, and neither is it with a text that negates the least word. -/
theorem lone_not_settles :
    (¬ (({ name := "" } : Assembly).opened
        (loneContainer (.array .u16 9223372036854775808) (.int 0))).Settles
      (loneContainer (.array .u16 9223372036854775808) (.int 0))
      ⟨0, loneBlock (.array .u16 9223372036854775808) (.int 0), 0⟩) ∧
    ¬ (({ name := "" } : Assembly).opened (loneContainer (.scalar .u8) (.str leastNegated))).Settles
      (loneContainer (.scalar .u8) (.str leastNegated))
      ⟨0, loneBlock (.scalar .u8) (.str leastNegated), 0⟩ := by
  have hlarge : ({ name := "" } : Assembly).addContainer?
      (loneContainer (.array .u16 9223372036854775808) (.int 0)) = none :=
    Option.isNone_iff_eq_none.1 (by decide +kernel)
  have hleast : ({ name := "" } : Assembly).addContainer?
      (loneContainer (.scalar .u8) (.str leastNegated)) = none :=
    Option.isNone_iff_eq_none.1 (by decide +kernel)
  exact ⟨lone_not_settles_of_none rfl hlarge, lone_not_settles_of_none rfl hleast⟩

end Specimen

end FlashParams
