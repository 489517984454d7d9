import FlashParams.Proofs.Assembly.AllOrNothing
import FlashParams.Proofs.Assembly.Compatible
import FlashParams.Proofs.Assembly.Contents
import FlashParams.Proofs.Image.Insert

/-!
# Containers do not depend on each other

All containers share one image, one symbol table and one list of names, and still a container
compiles to the same blocks, symbols and bytes in any company. That a selection compiles at all is
`Declaration.Fits.of_subperm`. What it compiles to is read off its parts, which are those of the
whole declaration: `Declaration.Fits.filter_parts` finds the parts of a container by the names of
its blocks, and `filter_flatMap_of_const` carries that over to what the parts contribute.

Containers are told apart by the names of their blocks (`Container.owns`) because these are
distinct, while two containers may have one name. A segment has no name; it belongs to the block
that has its addresses (`Layout.inContainer`).
-/

set_option autoImplicit false

namespace FlashParams

open scoped List

/-! ## What belongs to a container -/

/-- Whether a container has a block of this name. Names of blocks are unique in a layout, so they tell
the records and symbols of one container from those of all others. -/
def Container.owns (c : Container) (name : String) : Bool :=
  c.blocks.any (·.name = name)

/-- Whether a segment is the span of a block of this container. Segments have no names, and it is through
the records that they belong to a container. -/
def Layout.inContainer (l : Layout) (c : Container) (s : Segment) : Bool :=
  l.blocks.any fun b => c.owns b.name && b.span = s.span

/-- A layout has what another one has of the containers picked: the same segments, and their blocks and
symbols container by container. -/
structure Layout.Selects (l : Layout) (picked : List Container) (l' : Layout) : Prop where
  name : l'.name = l.name
  image : l'.image.segments = l.image.segments.filter fun s => picked.any (l.inContainer · s)
  blocks : l'.blocks = picked.flatMap fun c => l.blocks.filter (c.owns ·.name)
  symbols : l'.symbols.entries = picked.flatMap fun c => l.symbols.entries.filter (c.owns ·.block)

/-- What items contribute, filtered by something all contributions of an item have in common: the same as
leaving out whole items. -/
theorem filter_flatMap_of_const {α β : Type} {items : List α} {f : α → List β} {keep : β → Bool}
    {own : α → Bool} (h : ∀ x ∈ items, ∀ y ∈ f x, keep y = own x) :
    (items.flatMap f).filter keep = (items.filter own).flatMap f := by
  induction items with
  | nil => rfl
  | cons x rest ih =>
    have hrest := ih fun y hy => h y (List.mem_cons_of_mem _ hy)
    have hx := h x List.mem_cons_self
    rw [List.flatMap_cons, List.filter_append, hrest, List.filter_cons]
    split
    · rename_i hown
      rw [List.filter_eq_self.2 fun y hy => (hx y hy).trans hown, List.flatMap_cons]
    · rename_i hown
      rw [List.filter_eq_nil_iff.2 fun y hy => (hx y hy).symm ▸ hown, List.nil_append]

section

variable {c : Container} (hplaced : c.place.unplaced = [])
include hplaced

theorem Container.owns_iff {name : String} :
    c.owns name = true ↔ ∃ p ∈ c.parts, p.place.block.name = name := by
  have hsame : c.owns name = c.parts.any (·.place.block.name = name) := by
    unfold Container.owns Container.parts
    rw [← Container.blocks_of_none_left hplaced, List.any_map, List.any_map]
    rfl
  simp only [hsame, List.any_eq_true, decide_eq_true_eq]

theorem Container.filter_of_apart {parts : List Part} (h : ∀ p ∈ parts, ∀ q ∈ c.parts, q.Apart p) :
    parts.filter (c.owns ·.place.block.name) = [] := by
  refine List.filter_eq_nil_iff.2 fun p hp howned => ?_
  obtain ⟨q, hq, hname⟩ := (Container.owns_iff hplaced).1 howned
  exact (h p hp q hq).names hname

end

variable {d : Declaration}

/-- **The parts of a container are those whose names it owns.** Names of blocks are unique across
containers, and only for that reason can a part be given back to its container. -/
theorem Declaration.Fits.filter_parts (h : d.Fits) {c : Container} (hc : c ∈ d.containers) :
    d.parts.filter (c.owns ·.place.block.name) = c.parts := by
  have hplaced := h.placed c hc
  have hapart := h.parts.apart
  obtain ⟨front, back, hsplit⟩ := List.append_of_mem hc
  rw [Declaration.parts, hsplit, List.flatMap_append, List.flatMap_cons] at hapart ⊢
  obtain ⟨-, hrest, hfront⟩ := List.pairwise_append.1 hapart
  obtain ⟨-, -, hback⟩ := List.pairwise_append.1 hrest
  have hbefore := Container.filter_of_apart hplaced fun p hp q hq =>
    (hfront p hp q (List.mem_append_left _ hq)).symm
  have hafter := Container.filter_of_apart hplaced fun p hp q hq => hback q hq p hp
  have hown : c.parts.filter (c.owns ·.place.block.name) = c.parts :=
    List.filter_eq_self.2 fun p hp => (Container.owns_iff hplaced).2 ⟨p, hp, rfl⟩
  rw [List.filter_append, List.filter_append, hbefore, hown, hafter, List.append_nil,
    List.nil_append]

theorem Declaration.Fits.perm_parts (h : d.Fits) {picked : List Container}
    (hsub : picked <+~ d.containers) :
    (d.parts.filter fun p => picked.any (·.owns p.place.block.name)) ~
      (d.withContainers picked).parts := by
  have hnodup := h.parts.nodup.filter fun p => picked.any (·.owns p.place.block.name)
  refine (List.perm_ext_iff_of_nodup hnodup (h.of_subperm hsub).parts.nodup).2 fun p => ?_
  have hmem : ∀ c ∈ picked, p ∈ c.parts ↔ p ∈ d.parts ∧ c.owns p.place.block.name = true :=
    fun c hc => by rw [← h.filter_parts (hsub.subset hc), List.mem_filter]
  show _ ↔ p ∈ picked.flatMap Container.parts
  rw [List.mem_filter, List.any_eq_true, List.mem_flatMap]
  constructor
  · rintro ⟨hp, c, hc, howns⟩
    exact ⟨c, hc, (hmem c hc).2 ⟨hp, howns⟩⟩
  · rintro ⟨c, hc, hp⟩
    obtain ⟨hp, howns⟩ := (hmem c hc).1 hp
    exact ⟨hp, c, hc, howns⟩

/-! ## What the parts contribute -/

section

variable {parts : List Part} {l : Layout} (h : Consists parts l.image l.symbols l.blocks)
include h

theorem Consists.block_symbol {p : Part} (hp : p ∈ parts) {s : Symbol} (hs : s ∈ p.symbols) :
    s.block = p.place.block.name := by
  obtain ⟨q, hq, rfl⟩ := List.mem_map.1 hs
  obtain ⟨e, -, hlaid⟩ := h.exists_element hp hq
  exact (Element.describes_of_laid hlaid).block

theorem Consists.inContainer_segment {c : Container} {p : Part} (hp : p ∈ parts) {s : Segment}
    (hs : s ∈ p.segments) : l.inContainer c s = c.owns p.place.block.name := by
  obtain ⟨rfl, hbytes⟩ := Part.mem_segments.1 hs
  have hstop := h.stops p hp
  have hspan := Part.segment_span hstop
  have hne : p.place.span.start < p.place.span.stop := by
    have hlen := List.length_pos_iff.2 hbytes
    rw [Part.length_bytes hstop] at hlen
    exact Nat.lt_add_of_pos_right hlen
  unfold Layout.inContainer
  rw [h.blocks, List.any_map, Bool.eq_iff_iff, List.any_eq_true]
  constructor
  · rintro ⟨q, hq, hfound⟩
    obtain ⟨howns, hsame⟩ := Bool.and_eq_true_iff.1 hfound
    have hpq : p.place.span = q.place.span := hspan.symm.trans (of_decide_eq_true hsame).symm
    rwa [h.compatible.eq_of_span_eq hp hq hne hpq]
  · exact fun howns => ⟨p, hp, Bool.and_eq_true_iff.2 ⟨howns, decide_eq_true hspan.symm⟩⟩

end

/-! ## Names of layouts -/

theorem Assembly.name_addBlock (a : Assembly) (c : Container) (place : PlacedBlock) :
    (a.addBlock c place).name = a.name := by
  unfold addBlock
  dsimp only [note]
  split
  · rfl
  split
  · rfl
  split
  · rfl
  unfold settle
  split <;> rfl

theorem Declaration.name_of_compile {l : Layout} (h : d.compile = .ok l) : l.name = d.name := by
  have hcontainer : ∀ (a : Assembly) (c : Container), (a.addContainer c).name = a.name :=
    fun a c => List.foldlRecOn (motive := fun b : Assembly => b.name = a.name) c.place.placed
      (fun a p => a.addBlock c p) rfl fun b hb p _ => (b.name_addBlock c p).trans hb
  have hname : d.assembly.name = d.name :=
    List.foldlRecOn (motive := fun b : Assembly => b.name = d.name) d.containers
      Assembly.addContainer rfl fun b hb c _ => (hcontainer b c).trans hb
  unfold Declaration.compile Assembly.finish at h
  split at h
  · cases h
    exact hname
  · cases h

/-! ## Independence -/

/-- A selection of containers compiles to what the whole compiles to of them. Nothing has to be run again
for it: a selection of compatible parts is compatible, and the layout of a declaration is read off its
parts. -/
theorem Declaration.selects_of_subperm {l : Layout} (h : d.compile = .ok l)
    {picked : List Container} (hsub : picked <+~ d.containers) :
    ∃ l', (d.withContainers picked).compile = .ok l' ∧ l.Selects picked l' := by
  have hfits : d.Fits := Declaration.compiles_iff.1 ⟨l, h⟩
  obtain ⟨l', hl'⟩ := Declaration.compiles_iff.2 (hfits.of_subperm hsub)
  have hwhole := (d.consists_of_compile h).1
  have hpart := (Declaration.consists_of_compile hl').1
  have howned : ∀ c ∈ picked, d.parts.filter (c.owns ·.place.block.name) = c.parts :=
    fun c hc => hfits.filter_parts (hsub.subset hc)
  refine ⟨l', hl', ?_, ?_, ?_, ?_⟩
  · rw [Declaration.name_of_compile h, Declaration.name_of_compile hl']
    rfl
  · have hsegments : l'.image.segments ~
        l.image.segments.filter fun s => picked.any (l.inContainer · s) := calc
      l'.image.segments ~ (d.withContainers picked).parts.flatMap Part.segments := hpart.segments
      _ ~ (d.parts.filter fun p => picked.any (·.owns p.place.block.name)).flatMap
            Part.segments := (hfits.perm_parts hsub).symm.flatMap_right _
      _ = (d.parts.flatMap Part.segments).filter fun s => picked.any (l.inContainer · s) := by
        refine (filter_flatMap_of_const fun p hp s hs => ?_).symm
        simp only [hwhole.inContainer_segment hp hs]
      _ ~ _ := hwhole.segments.symm.filter _
    exact congrArg Image.segments
      (Image.eq_of_perm (n := ⟨_, l.image.ascending.filter _⟩) hsegments)
  · rw [hpart.blocks, Declaration.parts, List.map_flatMap]
    refine List.flatMap_congr fun c hc => ?_
    rw [hwhole.blocks, List.filter_map, ← howned c hc]
    rfl
  · rw [hpart.symbols, Declaration.parts, List.flatMap_assoc]
    refine List.flatMap_congr fun c hc => ?_
    rw [hwhole.symbols, ← howned c hc]
    refine (filter_flatMap_of_const fun p hp s hs => ?_).symm
    rw [hwhole.block_symbol hp hs]

/-- The order of containers is that of blocks and symbols, not of the image. Images keep their segments
by address, so two with the same segments are equal. -/
theorem Declaration.image_of_perm {order : List Container} (hperm : order ~ d.containers)
    {l l' : Layout} (h : d.compile = .ok l) (h' : (d.withContainers order).compile = .ok l') :
    l'.image = l.image := by
  have hwhole := (d.consists_of_compile h).1
  have hother := (Declaration.consists_of_compile h').1
  have hparts : (d.withContainers order).parts ~ d.parts := hperm.flatMap_right Container.parts
  exact Image.eq_of_perm
    (hother.segments.trans ((hparts.flatMap_right Part.segments).trans hwhole.segments.symm))

/-- **Containers are independent of each other.** Whatever containers of a declaration that compiles
are picked, each at most once and in whatever order, they compile to what there was of them; and the
order of all containers decides neither whether there is an image nor which one it is. -/
theorem Declaration.containers_independent (d : Declaration) :
    (∀ l, d.compile = .ok l → ∀ picked, picked <+~ d.containers →
      ∃ l', (d.withContainers picked).compile = .ok l' ∧ l.Selects picked l') ∧
    ∀ order, order ~ d.containers →
      (d.withContainers order).compile.isOk = d.compile.isOk ∧
      ∀ l l', d.compile = .ok l → (d.withContainers order).compile = .ok l' →
        l'.image = l.image := by
  refine ⟨fun l h picked hsub => d.selects_of_subperm h hsub, fun order hperm => ⟨?_, ?_⟩⟩
  · rw [Bool.eq_iff_iff, Declaration.isOk_compile_iff, Declaration.isOk_compile_iff]
    exact ⟨fun h => h.of_subperm hperm.symm.subperm, fun h => h.of_subperm hperm.subperm⟩
  · exact fun l l' h h' => Declaration.image_of_perm hperm h h'

namespace Specimen

theorem declaration_containers_independent :
    ∃ l, declaration.compile = .ok l ∧
      (∃ l', (declaration.withContainers declaration.containers.reverse).compile = .ok l' ∧
        l.Selects declaration.containers.reverse l' ∧ l'.image = l.image) ∧
      ∃ l', (declaration.withContainers (declaration.containers.drop 1)).compile = .ok l' ∧
        l.Selects (declaration.containers.drop 1) l' := by
  have hcompiles : declaration.compile.isOk = true := by decide +kernel
  obtain ⟨l, hl⟩ := Declaration.compiles_iff.2 (Declaration.isOk_compile_iff.1 hcompiles)
  obtain ⟨hselects, horder⟩ := Declaration.containers_independent declaration
  have hperm := declaration.containers.reverse_perm
  obtain ⟨l', hl', hselected⟩ := hselects l hl _ hperm.subperm
  have himage := (horder _ hperm).2 l l' hl hl'
  have hlast := hselects l hl _ (declaration.containers.drop_sublist 1).subperm
  exact ⟨l, hl, ⟨l', hl', hselected, himage⟩, hlast⟩

end Specimen

end FlashParams
