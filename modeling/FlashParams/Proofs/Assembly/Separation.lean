import FlashParams.Proofs.Assembly.Contents

/-!
# Nothing overlaps and nothing leaves its place

No single check keeps the pieces of a layout apart. Fields are compared within their block, blocks
within their container when they are placed and once more with the blocks of all containers when they
are assembled, and names with everything that has been tried or entered. Two symbols of different
blocks are never compared at all. They are apart because each lies inside its own block and the blocks
are apart (`Consists.symbols_apart`).

Alignment is where something could have been lost on the way. An address is resolved exactly and then
narrowed, and what is recorded is the narrowed one. For a field the two are equal; for a block they are
unless it has no bytes and ends the address space, and the zero it is narrowed to is aligned to
anything (`Container.dvd_of_mem_place`).
-/

set_option autoImplicit false

namespace FlashParams

/-! ## The elements of a declaration -/

/-- The elements declared, each with its container and its block, in the order of their symbols. The list
is that of the declaration; that the table of symbols follows it is part of what is proved. -/
def Declaration.elements (d : Declaration) : List (Container × Block × Element) :=
  (d.containers.flatMap fun c => c.blocks.map (c, ·)).flatMap fun (c, b) =>
    b.elements.map fun e => (c, b, e)

/-- An element starts at a multiple of its alignment. A header has none of its own: it starts with its
block. -/
def Element.Aligned (address : UInt32) : Element → Prop
  | header _ => True
  | field f => f.align.toNat ∣ address.toNat

theorem Part.aligned {p : Part} (hstop : p.place.stop ≤ 0x100000000)
    (hclean : p.sheet.faults = []) :
    List.Forall₂ (fun e q => Element.Aligned q.symbol.address e) p.place.block.elements
      p.sheet.patches := by
  refine Part.forall₂_elements hstop hclean (fun _ => trivial) ?_ ?_
  · rintro place hplaced q ⟨r, type, -, -, hsymbol⟩
    rw [hsymbol]
    exact Block.dvd_of_mem_place hstop hplaced
  · rintro job - hplaced q ⟨value, -, rfl⟩
    exact Block.dvd_of_mem_place hstop hplaced

/-! ## Symbols of all blocks -/

namespace Consists

variable {parts : List Part} {image : Image} {symbols : SymbolTable} {blocks : List BlockRecord}
  (h : Consists parts image symbols blocks)
include h

theorem records_apart :
    blocks.Pairwise fun a b => a.stop ≤ b.address.toNat ∨ b.stop ≤ a.address.toNat := by
  rw [h.blocks, List.pairwise_map]
  exact h.apart.imp fun hmeets => (Span.apart_of_not_meets hmeets).symm

theorem symbols_apart :
    symbols.entries.Pairwise fun s t => s.stop ≤ t.address.toNat ∨ t.stop ≤ s.address.toNat := by
  rw [h.symbols, List.pairwise_flatMap]
  constructor
  · intro p hp
    rw [Part.symbols, List.pairwise_map]
    refine (Part.patches_apart (h.stops p hp) (h.clean p hp)).imp ?_
    exact fun hmeets => (Span.apart_of_not_meets hmeets).symm
  -- the symbols of two blocks were never compared, but their blocks were
  · refine h.apart.imp_of_mem fun {p p'} hp hp' hmeets s hs s' hs' => ?_
    obtain ⟨q, hq, rfl⟩ := List.mem_map.1 hs
    obtain ⟨q', hq', rfl⟩ := List.mem_map.1 hs'
    have hfits := h.fits hp hq
    have hfits' := h.fits hp' hq'
    rcases Span.apart_of_not_meets hmeets with hafter | hbefore
    · exact .inr (Nat.le_trans hfits'.ends (Nat.le_trans hafter hfits.low))
    · exact .inl (Nat.le_trans hfits.ends (Nat.le_trans hbefore hfits'.low))

theorem symbol_inside {s : Symbol} (hs : s ∈ symbols.entries) :
    ∃ b ∈ blocks, b.name = s.block ∧ b.container = s.container ∧
      b.address.toNat ≤ s.address.toNat ∧ s.stop ≤ b.stop ∧ b.stop ≤ 0x100000000 := by
  obtain ⟨p, hp, q, hq, rfl⟩ := h.mem_symbols.1 hs
  obtain ⟨e, -, hlaid⟩ := h.exists_element hp hq
  have hdescribes := Element.describes_of_laid hlaid
  have hfits := h.fits hp hq
  refine ⟨p.record, ?_, hdescribes.block.symm, hdescribes.container.symm, hfits.low, hfits.ends,
    h.stops p hp⟩
  rw [h.blocks]
  exact List.mem_map_of_mem hp

end Consists

/-! ## The whole layout -/

/-- The pieces of a layout are apart, in their places, aligned as declared and told apart by name. Blocks
are compared across containers, elements across blocks. -/
structure Layout.Separated (l : Layout) (d : Declaration) : Prop where
  /-- Of two blocks, one ends before the other starts, whatever their containers. -/
  blocks : l.blocks.Pairwise fun a b => a.stop ≤ b.address.toNat ∨ b.stop ≤ a.address.toNat
  symbols : l.symbols.entries.Pairwise fun s t =>
    s.stop ≤ t.address.toNat ∨ t.stop ≤ s.address.toNat
  inside : ∀ s ∈ l.symbols.entries, ∃ b ∈ l.blocks, b.name = s.block ∧ b.container = s.container ∧
    b.address.toNat ≤ s.address.toNat ∧ s.stop ≤ b.stop ∧ b.stop ≤ 0x100000000
  /-- The records are those of the blocks declared, each at a multiple of its alignment. -/
  blockStarts : List.Forall₂
    (fun cb r => BlockRecord.Declares r cb.1 cb.2 ∧ cb.2.align.toNat ∣ r.address.toNat)
    (d.containers.flatMap fun c => c.blocks.map (c, ·)) l.blocks
  /-- The symbols are those of the elements declared, each at a multiple of its alignment. -/
  elementStarts : List.Forall₂
    (fun cbe s => Element.Describes cbe.1 cbe.2.1 cbe.2.2 s ∧ cbe.2.2.Aligned s.address)
    d.elements l.symbols.entries
  blockNames : (d.containers.flatMap fun c => c.blocks.map (·.name)).Nodup
  symbolNames : (l.symbols.entries.map (·.name)).Nodup
  /-- The names of symbols are distinct as they were declared, not by leaving one out. -/
  elementNames : (d.elements.map fun cbe => cbe.2.2.symbolName cbe.2.1).Nodup

variable {d : Declaration} {l : Layout}

theorem Consists.forall₂_elements {parts : List Part}
    (h : Consists parts l.image l.symbols l.blocks)
    (hparts : parts.map (fun p => (p.container, p.place.block)) =
      d.containers.flatMap fun c => c.blocks.map (c, ·)) :
    List.Forall₂
      (fun cbe s => Element.Describes cbe.1 cbe.2.1 cbe.2.2 s ∧ cbe.2.2.Aligned s.address)
      d.elements l.symbols.entries := by
  rw [h.symbols, Declaration.elements, ← hparts, List.flatMap_map]
  have hsame : List.Forall₂ (fun p q => p = q ∧ q ∈ parts) parts parts :=
    List.forall₂_same.2 fun p hp => ⟨rfl, hp⟩
  refine List.rel_flatMap hsame ?_
  rintro p q ⟨rfl, hp⟩
  rw [Part.symbols, List.forall₂_map_left_iff, List.forall₂_map_right_iff]
  have hlaid := Part.laid (h.stops p hp) (h.clean p hp)
  have haligned := Part.aligned (h.stops p hp) (h.clean p hp)
  exact List.Forall₂.mp (fun e q he hq => ⟨Element.describes_of_laid he, hq⟩) hlaid haligned

/-- **The pieces of a finished layout are apart and in their places.** Apartness comes from the parts
being compatible, places and alignments from the placement of each block. -/
theorem Declaration.separated_of_compile (h : d.compile = .ok l) : l.Separated d := by
  obtain ⟨hconsists, hunplaced⟩ := d.consists_of_compile h
  have hparts := Declaration.map_parts hunplaced
  have helements := hconsists.forall₂_elements hparts
  refine ⟨hconsists.records_apart, hconsists.symbols_apart, fun s => hconsists.symbol_inside, ?_,
    helements, ?_, l.symbols.nodup, ?_⟩
  · rw [← hparts, hconsists.blocks, List.forall₂_map_left_iff, List.forall₂_map_right_iff]
    refine List.forall₂_same.2 fun p hp => ⟨rfl, ?_⟩
    exact Container.dvd_of_mem_place (Declaration.mem_of_part hp).2
  · have hnames : d.containers.flatMap (fun c => c.blocks.map (·.name)) =
        d.parts.map (·.place.block.name) := by
      have := congrArg (List.map (·.2.name)) hparts
      rw [List.map_map, List.map_flatMap] at this
      simpa only [List.map_map, Function.comp_def] using this.symm
    rw [hnames]
    exact hconsists.names
  · rw [map_eq_of_forall₂ helements fun cbe s hs => hs.1.name.symm]
    exact l.symbols.nodup

namespace Specimen

theorem separated_declaration :
    ∃ l, declaration.compile = .ok l ∧ l.Separated declaration := by
  have hcompiles : declaration.compile.isOk = true := by decide +kernel
  cases hl : declaration.compile with
  | error rejection =>
    rw [hl] at hcompiles
    cases hcompiles
  | ok l => exact ⟨l, rfl, Declaration.separated_of_compile hl⟩

/-- Blocks with different names, and elements with different names, but one symbol. -/
def homonyms : Declaration :=
  let byte (name : String) : Field :=
    .parameter ⟨name, .next, .scalar .u8, 1, .int 0, none, none⟩
  { containers :=
      [{ name := "flash"
         base := 0
         blocks := [{ name := "a", length := 1, fields := [byte "b_c"] },
           { name := "a_b", length := 1, fields := [byte "c"] }] }] }

example : homonyms.compile.isOk = false := by decide +kernel

end Specimen

end FlashParams
