import Mathlib.Data.List.Perm.Basic
import FlashParams.Proofs.Assembly.Selection
import FlashParams.Proofs.Revision.Blocks

/-!
# A revised declaration compiles

Whether a declaration compiles is a property of its parts (`Declaration.compiles_iff`), and so is what it
compiles to (`Declaration.consists_of_compile`). A revision has the same parts in the same order, each
moved and each with a revised sheet (`Part.Moved`). Nothing that is compared across parts, names and
spans, can tell the two apart, so the revision compiles too (`Declaration.Revises.fits`), and records,
symbols and, if the literals were kept, segments are those of before, moved
(`Declaration.Revises.compile`).

The segments take one more step. Parts stand in declaration order and segments in the order of their
addresses; that the moved segments are those of the revised image is clear only up to their order, and
the order is settled by both being ascending (`Image.segments_moved`).

A revision is mostly given by a function on blocks. For what has compiled it is then enough to look at
each block where it was placed (`Declaration.revises_map`).
-/

set_option autoImplicit false

namespace FlashParams

/-! ## Related lists -/

theorem pairwise_of_forall₂ {α β : Type} {S : α → β → Prop} {R : α → α → Prop} {R' : β → β → Prop}
    {as : List α} {bs : List β} (h : List.Forall₂ S as bs) (hR : as.Pairwise R)
    (hstep : ∀ a a' b b', S a b → S a' b' → R a a' → R' b b') : bs.Pairwise R' := by
  induction h with
  | nil => exact .nil
  | @cons a b as bs hab hrest ih =>
    obtain ⟨hfirst, hothers⟩ := List.pairwise_cons.1 hR
    refine List.pairwise_cons.2 ⟨fun b' hb' => ?_, ih hothers⟩
    obtain ⟨a', ha', hab'⟩ := forall₂_exists_right hrest b' hb'
    exact hstep a a' b b' hab hab' (hfirst a' ha')

theorem eq_of_forall₂ {α : Type} {R : α → α → Prop} {as bs : List α} (h : List.Forall₂ R as bs)
    (hR : ∀ a b, R a b → b = a) : bs = as := by
  have hmap := map_eq_of_forall₂ (f := id) (g := id) h fun a b hab => (hR a b hab).symm
  rwa [List.map_id, List.map_id, eq_comm] at hmap

/-! ## What a layout consists of, moved -/

structure BlockRecord.Moved (δ : Int) (r r' : BlockRecord) : Prop where
  same : r' = { r with containerBase := r'.containerBase, address := r'.address }
  containerBase : (r'.containerBase.toNat : Int) = r.containerBase.toNat + δ
  address : (r'.address.toNat : Int) = r.address.toNat + δ

structure Segment.Moved (δ : Int) (s s' : Segment) : Prop where
  bytes : s'.bytes = s.bytes
  base : (s'.base.toNat : Int) = s.base.toNat + δ

theorem eq_of_moved_zero {a a' : UInt32} (h : (a'.toNat : Int) = a.toNat + 0) : a' = a :=
  UInt32.toNat_inj.1 (by omega)

theorem BlockRecord.Moved.eq {r r' : BlockRecord} (h : r.Moved 0 r') : r' = r := by
  rw [h.same, eq_of_moved_zero h.containerBase, eq_of_moved_zero h.address]

theorem Symbol.Moved.eq {s s' : Symbol} (h : s.Moved 0 s') : s' = s := by
  rw [h.same, eq_of_moved_zero h.address]

theorem Symbol.Moved.name {δ : Int} {s s' : Symbol} (h : s.Moved δ s') : s'.name = s.name := by
  rw [h.same]

theorem Segment.Moved.eq {s s' : Segment} (h : s.Moved 0 s') : s' = s := by
  obtain ⟨base, bytes⟩ := s
  obtain ⟨base', bytes'⟩ := s'
  cases h.bytes
  cases eq_of_moved_zero h.base
  rfl

/-- Two layouts with the same name, the same blocks and the same symbols, moved. Of the bytes nothing is
said, since a revision may also have other literals. -/
structure Layout.SameOutline (δ : Int) (l l' : Layout) : Prop where
  name : l'.name = l.name
  blocks : List.Forall₂ (BlockRecord.Moved δ) l.blocks l'.blocks
  symbols : List.Forall₂ (Symbol.Moved δ) l.symbols.entries l'.symbols.entries

/-- A layout at the place it is moved to: the addresses of its segments, of its blocks and their
containers and of its symbols are, and everything else is the same. -/
structure Layout.Moved (δ : Int) (l l' : Layout) : Prop where
  name : l'.name = l.name
  segments : List.Forall₂ (Segment.Moved δ) l.image.segments l'.image.segments
  blocks : List.Forall₂ (BlockRecord.Moved δ) l.blocks l'.blocks
  symbols : List.Forall₂ (Symbol.Moved δ) l.symbols.entries l'.symbols.entries

theorem SymbolTable.ext_entries {s t : SymbolTable} (h : s.entries = t.entries) : s = t := by
  obtain ⟨entries, index, nodup, rfl⟩ := s
  obtain ⟨entries', index', nodup', rfl⟩ := t
  cases h
  rfl

theorem Layout.Moved.eq {l l' : Layout} (h : l.Moved 0 l') : l' = l := by
  obtain ⟨name, image, symbols, blocks⟩ := l
  obtain ⟨name', image', symbols', blocks'⟩ := l'
  obtain rfl : name' = name := h.name
  obtain rfl : image' = image :=
    Image.ext_segments (eq_of_forall₂ h.segments fun _ _ hs => hs.eq)
  obtain rfl : symbols' = symbols :=
    SymbolTable.ext_entries (eq_of_forall₂ h.symbols fun _ _ hs => hs.eq)
  obtain rfl : blocks' = blocks := eq_of_forall₂ h.blocks fun _ _ hb => hb.eq
  rfl

/-- **Images whose segments are moved one by one have them in the same order.** Both images keep their
segments by address and moving preserves the order, so a permutation is enough to know on either side. -/
theorem Image.segments_moved {δ : Int} {m m' : Image} {segments segments' : List Segment}
    (hm : m.segments.Perm segments) (hm' : m'.segments.Perm segments')
    (h : List.Forall₂ (Segment.Moved δ) segments segments') :
    List.Forall₂ (Segment.Moved δ) m.segments m'.segments := by
  -- the segments of the first image, moved, are those of the second one up to their order
  obtain ⟨moved, hmoved, hperm⟩ := List.perm_comp_forall₂ hm h
  have hascending : Ascending moved := by
    refine pairwise_of_forall₂ hmoved m.ascending fun s t s' t' hs ht hlt => ?_
    have hsbase := hs.base
    have htbase := ht.base
    rw [UInt32.lt_iff_toNat_lt] at hlt ⊢
    omega
  have hsame : (⟨moved, hascending⟩ : Image) = m' := Image.eq_of_perm (hperm.trans hm'.symm)
  rwa [← hsame]

/-! ## Parts -/

structure Part.Moved (kept : Prop) (δ : Int) (p p' : Part) : Prop where
  name : p'.container.name = p.container.name
  base : (p'.container.base.toNat : Int) = p.container.base.toNat + δ
  place : p.place.Moved kept p.container.base δ p'.place

section

variable {kept : Prop} {δ : Int} (hδ : 16384 ∣ δ) {p p' : Part} (h : p.Moved kept δ p')

include h in
theorem Part.Moved.record : p.record.Moved δ p'.record := by
  refine ⟨?_, h.base, h.place.address⟩
  have hblock := h.place.revises.block
  unfold Part.record
  rw [h.name, hblock.name, hblock.length, hblock.fill, hblock.byteOrder, hblock.header,
    hblock.comment]

include hδ h

theorem Part.Moved.sheet (hp : p.Sound) :
    p'.sheet.faults = [] ∧ List.Forall₂ (Patch.Moved kept δ) p.sheet.patches p'.sheet.patches := by
  have hstop' := h.place.stop_le
  rw [PlacedBlock.stop, h.place.revises.block.length] at hstop'
  exact Block.sheet_moved h.place.address h.name h.place.revises.block hδ hp.stop hstop' hp.clean

theorem Part.Moved.symbols (hp : p.Sound) :
    List.Forall₂ (Symbol.Moved δ) p.symbols p'.symbols := by
  rw [Part.symbols, Part.symbols, List.forall₂_map_left_iff, List.forall₂_map_right_iff]
  exact (h.sheet hδ hp).2.imp fun q q' hq => hq.symbol

theorem Part.Moved.symbolNames (hp : p.Sound) :
    p'.symbols.map (·.name) = p.symbols.map (·.name) :=
  (map_eq_of_forall₂ (h.symbols hδ hp) fun _ _ hs => hs.name.symm).symm

theorem Part.Moved.sound (hp : p.Sound) : p'.Sound := by
  refine ⟨(h.sheet hδ hp).1, h.place.stop_le, ?_⟩
  rw [h.symbolNames hδ hp]
  exact hp.symbolNames

theorem Part.Moved.segments (hp : p.Sound) (hkept : kept) :
    List.Forall₂ (Segment.Moved δ) p.segments p'.segments := by
  have hbytes : p'.bytes = p.bytes := by
    have hblock := h.place.revises.block
    rw [Part.bytes, Part.bytes, Block.bytesWith, Block.bytesWith, Block.blank, Block.blank,
      hblock.length, hblock.fill]
    exact overlay_moved h.place.address (h.sheet hδ hp).2 hkept _
  unfold Part.segments
  rw [hbytes]
  split
  · exact .nil
  · exact .cons ⟨hbytes, h.place.address⟩ .nil

end

theorem Part.Apart.moved {kept : Prop} {δ : Int} (hδ : 16384 ∣ δ) {p p' q q' : Part}
    (hp : p.Sound ∧ p.Moved kept δ p') (hq : q.Sound ∧ q.Moved kept δ q') (h : p.Apart q) :
    p'.Apart q' := by
  obtain ⟨hpsound, hp⟩ := hp
  obtain ⟨hqsound, hq⟩ := hq
  refine ⟨?_, ?_, fun s' hs' t' ht' => ?_⟩
  · rw [hp.place.span.meets hq.place.span]
    exact h.spans
  · rw [hp.place.revises.block.name, hq.place.revises.block.name]
    exact h.names
  · obtain ⟨s, hs, hss'⟩ := forall₂_exists_right (hp.symbols hδ hpsound) s' hs'
    obtain ⟨t, ht, htt'⟩ := forall₂_exists_right (hq.symbols hδ hqsound) t' ht'
    rw [hss'.name, htt'.name]
    exact h.symbolNames s hs t ht

/-! ## Declarations -/

/-- A declaration and a revision of it, moved as a whole. There is one relation for pinned offsets, moved
containers and new literals, so that a layout is compared with a revised one only once. -/
structure Declaration.Revises (kept : Prop) (δ : Int) (d d' : Declaration) : Prop where
  name : d'.name = d.name
  containers : List.Forall₂ (Container.Revises kept δ) d.containers d'.containers

section

variable {kept : Prop} {δ : Int} {d d' : Declaration} (hδ : 16384 ∣ δ)
  (h : d.Revises kept δ d') (hfits : d.Fits)
include hδ h hfits

theorem Declaration.Revises.parts :
    List.Forall₂ (fun p p' => p.Sound ∧ p.Moved kept δ p') d.parts d'.parts := by
  have hall : List.Forall₂ (Part.Moved kept δ) d.parts d'.parts := by
    have hcontainers := (List.forall₂_and_left _ _).2 ⟨hfits.placed, h.containers⟩
    refine List.rel_flatMap hcontainers fun c c' ⟨hplaced, hc⟩ => ?_
    rw [Container.parts, Container.parts, List.forall₂_map_left_iff, List.forall₂_map_right_iff]
    exact (Container.place_moved hδ hc hplaced).2.imp fun p p' hp => ⟨hc.name, hc.base, hp⟩
  exact (List.forall₂_and_left _ _).2 ⟨hfits.parts.sound, hall⟩

/-- **What fits, fits after a revision.** Containers place their blocks as before, moved, and parts that
were apart are moved alike, so neither half of fitting is lost. -/
theorem Declaration.Revises.fits : d'.Fits := by
  have hparts := h.parts hδ hfits
  refine ⟨fun c' hc' => ?_, fun p' hp' => ?_, ?_⟩
  · obtain ⟨c, hc, hpair⟩ := forall₂_exists_right h.containers c' hc'
    exact (Container.place_moved hδ hpair (hfits.placed c hc)).1
  · obtain ⟨p, -, hsound, hmoved⟩ := forall₂_exists_right hparts p' hp'
    exact hmoved.sound hδ hsound
  · exact pairwise_of_forall₂ hparts hfits.parts.apart fun p q p' q' hp hq hpq =>
      hpq.moved hδ hp hq

end

/-- **A revised declaration compiles to the layout, moved.** Its bytes are the same if its literals are. -/
theorem Declaration.Revises.compile {kept : Prop} {δ : Int} {d d' : Declaration} (hδ : 16384 ∣ δ)
    (h : d.Revises kept δ d') {l : Layout} (hl : d.compile = .ok l) :
    ∃ l', d'.compile = .ok l' ∧ l.SameOutline δ l' ∧
      (kept → List.Forall₂ (Segment.Moved δ) l.image.segments l'.image.segments) := by
  have hfits := Declaration.compiles_iff.1 ⟨l, hl⟩
  obtain ⟨l', hl'⟩ := Declaration.compiles_iff.2 (h.fits hδ hfits)
  have hwhole := (d.consists_of_compile hl).1
  have hother := (d'.consists_of_compile hl').1
  have hparts := h.parts hδ hfits
  -- records and symbols stand in the order of the parts, segments in an order of their own
  refine ⟨l', hl', ⟨?_, ?_, ?_⟩, fun hkept => ?_⟩
  · rw [Declaration.name_of_compile hl, Declaration.name_of_compile hl', h.name]
  · rw [hwhole.blocks, hother.blocks, List.forall₂_map_left_iff, List.forall₂_map_right_iff]
    exact hparts.imp fun p p' hp => hp.2.record
  · rw [hwhole.symbols, hother.symbols]
    exact List.rel_flatMap hparts fun p p' hp => hp.2.symbols hδ hp.1
  · refine Image.segments_moved hwhole.segments hother.segments ?_
    exact List.rel_flatMap hparts fun p p' hp => hp.2.segments hδ hp.1 hkept

theorem Declaration.Revises.compile_kept {δ : Int} {d d' : Declaration} (hδ : 16384 ∣ δ)
    (h : d.Revises True δ d') {l : Layout} (hl : d.compile = .ok l) :
    ∃ l', d'.compile = .ok l' ∧ l.Moved δ l' := by
  obtain ⟨l', hl', houtline, hsegments⟩ := h.compile hδ hl
  exact ⟨l', hl', houtline.name, hsegments trivial, houtline.blocks, houtline.symbols⟩

/-! ## Revisions of what compiles -/

/-- Every block has bytes. A block without any may lie at the end of the address space, where a fixed
distance to it cannot be given and moving it can change the address it gets. -/
def Declaration.Solid (d : Declaration) : Prop :=
  ∀ c ∈ d.containers, ∀ b ∈ c.blocks, 0 < b.length

theorem Part.Sound.placed {p : Part} (h : p.Sound) :
    (p.place.block.place p.place.address).faults = [] :=
  ((Block.clean_iff h.stop).1 h.clean).1

section

variable {d : Declaration} {l : Layout} (h : d.compile = .ok l)
include h

theorem Declaration.sound_of_part {p : Part} (hp : p ∈ d.parts) : p.Sound :=
  (d.consists_of_compile h).1.compatible.sound p hp

/-- A declaration is revised by changing its containers one by one, and in each its blocks one by one, if
every block is revised where the layout has it. With this a particular revision has to say only what
becomes of a block. -/
theorem Declaration.revises_map {kept : Prop} {δ : Int} {f : Container → Container}
    {g : Container → Block → Block} (hname : ∀ c, (f c).name = c.name)
    (hbase : ∀ c ∈ d.containers, ((f c).base.toNat : Int) = c.base.toNat + δ)
    (hblocks : ∀ c, (f c).blocks = c.blocks.map (g c))
    (hparts : ∀ p ∈ d.parts,
      p.place.Revises kept p.container.base δ (g p.container p.place.block)) :
    d.Revises kept δ { d with containers := d.containers.map f } := by
  refine ⟨rfl, ?_⟩
  dsimp only
  rw [List.forall₂_map_right_iff]
  refine List.forall₂_same.2 fun c hc => ⟨hname c, hbase c hc, ?_⟩
  have hplaced := Container.blocks_of_none_left ((d.consists_of_compile h).2 c hc)
  rw [hblocks, ← hplaced, List.map_map, List.forall₂_map_right_iff]
  refine List.forall₂_same.2 fun p hp => ?_
  exact hparts ⟨c, p⟩ (List.mem_flatMap.2 ⟨c, hc, List.mem_map_of_mem hp⟩)

end

end FlashParams
