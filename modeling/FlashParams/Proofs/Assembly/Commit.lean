import FlashParams.Proofs.Assembly.Finished
import FlashParams.Proofs.Assembly.Table
import FlashParams.Proofs.Placement.Blocks

/-!
# One block against the assembly

`Assembly.addBlock` has five ways out. `verdict` computes the faults of a block *before* anything is
touched, from its sheet, the names tried, the blocks recorded and the symbols entered. It reduces the
five ways to two: with an empty verdict the state grows (`addBlock_of_clean`), with any other one the
faults are reported and image, symbols and blocks are those from before (`addBlock_of_fault`).

That the second is true although the block's bytes have been written by then is the point of
`Consists`, the invariant of a run: image, symbols and blocks are, put together, what the assembled
blocks contribute one by one. It says in particular that every segment is the span of a recorded
block. A block that meets no recorded block therefore has room (`Consists.room`), its segment starts
where no other does, and discarding that segment gives back the image there was.
-/

set_option autoImplicit false

namespace FlashParams

/-! ## Entering symbols -/

/-- Symbols that do not clash are all entered, in order. `seen` are those entered already of the ones
that were checked together: the check looks at all symbols of a block first, and the table grows only
afterwards. -/
theorem SymbolTable.entries_insertAll {table : SymbolTable} {symbols seen : List Symbol}
    {t : SymbolTable} (ht : t.entries = table.entries ++ seen)
    (h : Draft.clashes table seen symbols = []) :
    (t.insertAll symbols).entries = t.entries ++ symbols := by
  induction symbols generalizing seen t with
  | nil => exact (List.append_nil _).symm
  | cons s rest ih =>
    unfold Draft.clashes at h
    split at h
    · cases h
    · rename_i hnew
      obtain ⟨htable, hseen⟩ := Option.or_eq_none_iff.1 hnew
      -- `t` holds the table and what has been entered since, and both were asked
      have hget : t.get? s.name = none := by
        rw [SymbolTable.get?_eq_find?, ht, List.find?_append, ← SymbolTable.get?_eq_find?]
        exact Option.or_eq_none_iff.2 ⟨htable, hseen⟩
      obtain ⟨t', hinsert, hentries⟩ := SymbolTable.insert_of_new hget
      have hrest : t'.entries = table.entries ++ (seen ++ [s]) := by
        rw [hentries, ht, List.append_assoc]
      have hstep : t.insertAll (s :: rest) = t'.insertAll rest := by
        unfold SymbolTable.insertAll
        rw [List.foldl_cons, hinsert]
      rw [hstep, ih hrest h, hentries, List.append_assoc]
      rfl

/-! ## What a block contributes -/

/-- A block with its address and the container it belongs to. It is what the rest of the development
calls a contribution: everything a block adds to a layout is a function of its part. -/
structure Part where
  container : Container
  place : PlacedBlock

namespace Part

def sheet (p : Part) : Sheet :=
  p.place.block.sheet p.container p.place.address

def symbols (p : Part) : List Symbol :=
  p.sheet.patches.map (·.symbol)

def bytes (p : Part) : List UInt8 :=
  p.place.block.bytesWith p.place.address p.sheet.patches

def segment (p : Part) : Segment :=
  ⟨p.place.address, p.bytes⟩

def segments (p : Part) : List Segment :=
  if p.bytes = [] then [] else [p.segment]

def record (p : Part) : BlockRecord :=
  { container := p.container.name
    containerBase := p.container.base
    name := p.place.block.name
    address := p.place.address
    length := p.place.block.length
    fill := p.place.block.fill
    byteOrder := p.place.block.byteOrder
    header := p.place.block.header
    comment := p.place.block.comment }

variable {p : Part}

theorem length_bytes (hstop : p.place.stop ≤ 0x100000000) :
    p.bytes.length = p.place.block.length.toNat :=
  Block.length_bytesWith (p.place.block.fits_sheet p.container hstop)

theorem bytes_eq_nil_iff (hstop : p.place.stop ≤ 0x100000000) :
    p.bytes = [] ↔ p.place.block.length = 0 := by
  rw [← List.length_eq_zero_iff, length_bytes hstop, ← UInt32.toNat_inj]
  rfl

theorem span_segment (hstop : p.place.stop ≤ 0x100000000) :
    p.segment.stop = p.place.stop := by
  show p.place.address.toNat + p.bytes.length = _
  rw [length_bytes hstop]
  rfl

theorem mem_segments {s : Segment} : s ∈ p.segments ↔ s = p.segment ∧ p.bytes ≠ [] := by
  unfold segments
  split
  · rename_i hnil
    exact ⟨fun h => absurd h List.not_mem_nil, fun h => absurd hnil h.2⟩
  · rename_i hne
    exact ⟨fun h => ⟨List.mem_singleton.1 h, hne⟩, fun h => List.mem_singleton.2 h.1⟩

end Part

/-- Image, symbols and blocks are what parts contribute, the parts being free of faults, apart from each
other and of different names. All statements about a finished layout go through this one, since it names
a part for each of its bytes, symbols and records. -/
structure Consists (parts : List Part) (image : Image) (symbols : SymbolTable)
    (blocks : List BlockRecord) : Prop where
  blocks : blocks = parts.map Part.record
  symbols : symbols.entries = parts.flatMap Part.symbols
  segments : image.segments.Perm (parts.flatMap Part.segments)
  wellFormed : image.WellFormed
  clean : ∀ p ∈ parts, p.sheet.faults = []
  stops : ∀ p ∈ parts, p.place.stop ≤ 0x100000000
  apart : parts.Pairwise fun p q => p.place.span.meets q.place.span = false
  names : (parts.map (·.place.block.name)).Nodup

section

variable {parts : List Part} {image : Image} {symbols : SymbolTable} {blocks : List BlockRecord}

theorem Consists.empty : Consists [] Image.empty SymbolTable.empty [] :=
  ⟨rfl, rfl, .nil, Image.wellFormed_empty, List.forall_mem_nil _, List.forall_mem_nil _, .nil, .nil⟩

theorem Consists.part_of_mem (h : Consists parts image symbols blocks) {s : Segment}
    (hs : s ∈ image.segments) : ∃ p ∈ parts, s = p.segment ∧ p.bytes ≠ [] := by
  obtain ⟨p, hp, hsp⟩ := List.mem_flatMap.1 (h.segments.mem_iff.1 hs)
  exact ⟨p, hp, Part.mem_segments.1 hsp⟩

/-- **A span that meets no recorded block is free.** The code looks at the records alone before it
writes, and this is why that is enough for the write to succeed. -/
theorem Consists.room (h : Consists parts image symbols blocks) {place : PlacedBlock}
    (hstop : place.stop ≤ 0x100000000)
    (hfree : ∀ b ∈ blocks, place.span.meets b.span = false) :
    image.Room place.address place.block.length.toNat := by
  refine ⟨h.wellFormed, fun t ht => ?_, hstop⟩
  obtain ⟨p, hp, rfl, -⟩ := h.part_of_mem ht
  have hrecord : p.record ∈ blocks := by
    rw [h.blocks]
    exact List.mem_map_of_mem hp
  rw [Part.span_segment (h.stops p hp)]
  exact Span.apart_of_not_meets (hfree _ hrecord)

end

/-! ## The verdict -/

namespace Assembly

/-- The faults a block has against the state of an assembly, as a function of both. Computed like this
they can be compared with what the step does, which interleaves them with its writes. -/
def verdict (a : Assembly) (container : Container) (place : PlacedBlock) : List Fault :=
  match a.tried.lookup place.block.name with
  | some first => [.duplicateName place.block.name first]
  | none =>
    match a.blocks.find? fun b => place.span.meets b.span with
    | some other =>
      [.blockOverlap place.block.name other.name place.address (clampAddress place.stop)]
    | none =>
      let p : Part := ⟨container, place⟩
      p.sheet.faults ++ Draft.clashes a.symbols [] p.symbols

/-- What holds between containers: the state consists of parts, and their names have been tried. Names
may have been tried by blocks that are no parts; those have failed. -/
structure Holds (a : Assembly) (parts : List Part) : Prop where
  consists : Consists parts a.image a.symbols a.blocks
  tried : ∀ p ∈ parts, (a.tried.lookup p.place.block.name).isSome

variable {a : Assembly} {container : Container} {place : PlacedBlock} {parts : List Part}

/-- The draft of a block that has room, after its last stage. It is a definition of its own because both
ends of a step, committing and discarding, start from it. -/
def built (a : Assembly) (container : Container) (place : PlacedBlock) : Draft :=
  let (draft, placed, jobs) := a.resolved place.block place.address
  Draft.build a.symbols container place.block place.address placed jobs
    { draft with image := a.image.withBytes place.address place.block.blank }

theorem built_spec (container : Container)
    (hroom : a.image.Room place.address place.block.length.toNat) :
    let p : Part := ⟨container, place⟩
    (a.built container place).image = a.image.withBytes place.address p.bytes ∧
      (a.built container place).symbols = p.symbols ∧
      (a.built container place).faults = p.sheet.faults ++ Draft.clashes a.symbols [] p.symbols := by
  obtain ⟨himage, hsymbols, hfaults, -⟩ :=
    shows_build a.symbols container hroom
      (d := { (a.resolved place.block place.address).1 with
        image := a.image.withBytes place.address place.block.blank }) rfl rfl rfl
  exact ⟨himage, hsymbols, hfaults⟩

/-- A new block that meets none is built and settled. Here the stages of the step are put into one
equation; what becomes of the block is left open. -/
theorem addBlock_of_new (container : Container)
    (hname : a.tried.lookup place.block.name = none)
    (hfree : a.blocks.find? (fun b => place.span.meets b.span) = none)
    (hroom : a.image.Room place.address place.block.length.toNat) :
    ∃ a' : Assembly, a'.image = a.image ∧ a'.symbols = a.symbols ∧ a'.blocks = a.blocks ∧
      a'.diagnostics = a.diagnostics ∧ a'.tried = a.tried ++ [(place.block.name, place.address)] ∧
      a.addBlock container place =
        a'.settle container place.block place.address (a.built container place) := by
  refine ⟨{ a.note .info (s!"  block {place.block.name} @ " ++ Numeral.address place.address
      ++ " length " ++ Numeral.address place.block.length) with
    tried := a.tried ++ [(place.block.name, place.address)] }, rfl, rfl, rfl, rfl, rfl, ?_⟩
  have hfill := a.image.fill?_eq place.block.fill hroom.stop
  unfold addBlock
  dsimp only [note]
  rw [hname]
  dsimp only
  rw [hfree]
  dsimp only [resolved, Draft.advance]
  rw [hfill]
  rfl

/-! ## The two ways a block can go -/

def charge (container : Container) (block : Block) (faults : List Fault) : List Diagnostic :=
  faults.map fun f => ⟨container.name, block.name, f⟩

theorem verdict_of_new (hname : a.tried.lookup place.block.name = none)
    (hfree : a.blocks.find? (fun b => place.span.meets b.span) = none) :
    let p : Part := ⟨container, place⟩
    a.verdict container place = p.sheet.faults ++ Draft.clashes a.symbols [] p.symbols := by
  rw [verdict, hname]
  dsimp only
  rw [hfree]

theorem new_of_clean (h : a.verdict container place = []) :
    let p : Part := ⟨container, place⟩
    a.tried.lookup place.block.name = none ∧
      a.blocks.find? (fun b => place.span.meets b.span) = none ∧
      p.sheet.faults = [] ∧ Draft.clashes a.symbols [] p.symbols = [] := by
  unfold verdict at h
  split at h
  · cases h
  · rename_i hname
    split at h
    · cases h
    · rename_i hfree
      exact ⟨hname, hfree, List.append_eq_nil_iff.1 h⟩

/-- Names are tried once: the first time a name comes up it is entered, whatever becomes of it. So a
block named like one that failed is a duplicate too. -/
theorem tried_addBlock (a : Assembly) (container : Container) (place : PlacedBlock) :
    (a.addBlock container place).tried =
      match a.tried.lookup place.block.name with
      | some _ => a.tried
      | none => a.tried ++ [(place.block.name, place.address)] := by
  unfold addBlock
  dsimp only [note]
  cases a.tried.lookup place.block.name with
  | some first => rfl
  | none =>
    dsimp only
    split
    · rfl
    · split
      · rfl
      · unfold settle
        split <;> rfl

theorem lookup_addBlock {name : String}
    (h : (a.tried.lookup name).isSome ∨ name = place.block.name) :
    ((a.addBlock container place).tried.lookup name).isSome := by
  rw [tried_addBlock]
  cases hname : a.tried.lookup place.block.name with
  | some first =>
    rcases h with h | rfl
    · exact h
    · rw [hname]
      rfl
  | none =>
    dsimp only
    rw [List.lookup_append]
    rcases h with h | rfl
    · rw [Option.isSome_or, h]
      rfl
    · rw [hname, List.lookup_cons_self]
      rfl

section

variable (h : a.Holds parts) (hstop : place.stop ≤ 0x100000000)
include h hstop

theorem Holds.room (hfree : a.blocks.find? (fun b => place.span.meets b.span) = none) :
    a.image.Room place.address place.block.length.toNat :=
  h.consists.room hstop fun b hb => Bool.eq_false_iff.2 (List.find?_eq_none.1 hfree b hb)

theorem Holds.room_bytes (container : Container)
    (hfree : a.blocks.find? (fun b => place.span.meets b.span) = none) :
    let p : Part := ⟨container, place⟩
    a.image.Room place.address p.bytes.length := by
  intro p
  rw [Part.length_bytes (p := p) hstop]
  exact h.room hstop hfree

/-- What a block has written is discarded by its base, where no other segment starts. A failed block is
taken out again by that address alone, and with another segment there it would be the other's bytes that
go. -/
theorem Holds.discard_built (container : Container)
    (hfree : a.blocks.find? (fun b => place.span.meets b.span) = none) :
    (if place.block.length = 0 then (a.built container place).image
      else (a.built container place).image.discard place.address) = a.image := by
  obtain ⟨himage, -⟩ := built_spec container (h.room hstop hfree)
  have hempty := Part.bytes_eq_nil_iff (p := ⟨container, place⟩) hstop
  rw [himage]
  split
  · rename_i hzero
    exact if_pos (hempty.2 hzero)
  · rename_i hne
    exact (h.room_bytes hstop container hfree).discard_withBytes (mt hempty.1 hne)

/-- **A block with faults changes nothing.** All the faults that its verdict finds are reported, and what
was written while they were found is discarded again. -/
theorem Holds.addBlock_of_fault (hfault : a.verdict container place ≠ []) :
    (a.addBlock container place).image = a.image ∧
      (a.addBlock container place).symbols = a.symbols ∧
      (a.addBlock container place).blocks = a.blocks ∧
      (a.addBlock container place).diagnostics =
        a.diagnostics ++ charge container place.block (a.verdict container place) := by
  cases hname : a.tried.lookup place.block.name with
  | some first =>
    rw [verdict, hname]
    unfold addBlock
    dsimp only [note]
    rw [hname]
    exact ⟨rfl, rfl, rfl, rfl⟩
  | none =>
    cases hfree : a.blocks.find? (fun b => place.span.meets b.span) with
    | some other =>
      rw [verdict, hname]
      dsimp only
      rw [hfree]
      unfold addBlock
      dsimp only [note]
      rw [hname]
      dsimp only
      rw [hfree]
      exact ⟨rfl, rfl, rfl, rfl⟩
    | none =>
      have hroom := h.room hstop hfree
      obtain ⟨-, -, hfaults⟩ := built_spec container hroom
      obtain ⟨a', -, hsymbols', hblocks', hdiagnostics', -, hadd⟩ :=
        addBlock_of_new container hname hfree hroom
      rw [verdict_of_new hname hfree] at hfault ⊢
      rw [← hfaults] at hfault ⊢
      rw [hadd]
      unfold settle
      rw [if_neg (by rwa [List.isEmpty_iff])]
      refine ⟨h.discard_built hstop container hfree, hsymbols', hblocks', ?_⟩
      show a'.diagnostics ++ _ = _
      rw [hdiagnostics']
      rfl

/-- **A block without faults is taken in whole.** Its bytes are in place already when this is decided;
what is left is to keep them and to enter the symbols, none of which clashes. -/
theorem Holds.addBlock_of_clean (hclean : a.verdict container place = []) :
    let p : Part := ⟨container, place⟩
    (a.addBlock container place).image = a.image.withBytes place.address p.bytes ∧
      (a.addBlock container place).symbols.entries = a.symbols.entries ++ p.symbols ∧
      (a.addBlock container place).blocks = a.blocks ++ [p.record] ∧
      (a.addBlock container place).diagnostics = a.diagnostics := by
  obtain ⟨hname, hfree, hsheet, hclash⟩ := new_of_clean hclean
  have hroom := h.room hstop hfree
  obtain ⟨himage, hsymbols, hfaults⟩ := built_spec container hroom
  obtain ⟨a', -, hsymbols', hblocks', hdiagnostics', -, hadd⟩ :=
    addBlock_of_new container hname hfree hroom
  have hnone : (a.built container place).faults = [] := by
    rw [hfaults, hsheet, hclash]
    rfl
  rw [hadd]
  unfold settle
  rw [if_pos (by rw [hnone]; rfl)]
  refine ⟨himage, ?_, ?_, hdiagnostics'⟩
  · show (a'.symbols.insertAll (a.built container place).symbols).entries = _
    rw [hsymbols', hsymbols]
    exact SymbolTable.entries_insertAll (List.append_nil _).symm hclash
  · show a'.blocks ++ _ = _
    rw [hblocks']
    rfl

/-- The segments after a block has been taken in are those from before and its own. A block that touches
another one does not grow into its segment, so segments remain blocks. -/
theorem Holds.segments_withBytes
    (hfree : a.blocks.find? (fun b => place.span.meets b.span) = none) :
    let p : Part := ⟨container, place⟩
    (a.image.withBytes place.address p.bytes).segments.Perm (a.image.segments ++ p.segments) := by
  intro p
  unfold Part.segments
  split
  · rename_i hnil
    rw [Image.withBytes, if_pos hnil, List.append_nil]
  · rename_i hne
    exact ((h.room_bytes hstop container hfree).perm_withBytes hne).trans
      (List.perm_append_singleton _ _).symm

theorem Holds.consists_addBlock (hclean : a.verdict container place = []) :
    Consists (parts ++ [⟨container, place⟩]) (a.addBlock container place).image
      (a.addBlock container place).symbols (a.addBlock container place).blocks := by
  obtain ⟨hname, hfree, hsheet, -⟩ := new_of_clean hclean
  obtain ⟨himage, hsymbols, hblocks, -⟩ := h.addBlock_of_clean hstop hclean
  have hmem : ∀ {P : Part → Prop}, (∀ q ∈ parts, P q) → P ⟨container, place⟩ →
      ∀ q ∈ parts ++ [⟨container, place⟩], P q := fun hall hnew =>
    List.forall_mem_append.2 ⟨hall, List.forall_mem_singleton.2 hnew⟩
  refine ⟨?_, ?_, ?_, ?_, hmem h.consists.clean hsheet, hmem h.consists.stops hstop, ?_, ?_⟩
  · rw [hblocks, h.consists.blocks, List.map_append]
    rfl
  · rw [hsymbols, h.consists.symbols, List.flatMap_append, List.flatMap_singleton]
  · rw [himage, List.flatMap_append, List.flatMap_singleton]
    exact (h.segments_withBytes hstop hfree).trans (h.consists.segments.append_right _)
  · rw [himage]
    exact (h.room_bytes hstop container hfree).withBytes
  · refine List.pairwise_append.2 ⟨h.consists.apart, List.pairwise_singleton _ _,
      fun q hq r hr => ?_⟩
    rw [List.mem_singleton.1 hr, Span.meets_comm]
    have hrecord : q.record ∈ a.blocks := by
      rw [h.consists.blocks]
      exact List.mem_map_of_mem hq
    exact Bool.eq_false_iff.2 (List.find?_eq_none.1 hfree _ hrecord)
  -- a name that has a part has been tried, and this one has not
  · rw [List.map_append, List.nodup_append]
    refine ⟨h.consists.names, List.pairwise_singleton _ _, fun n hn n' hn' => ?_⟩
    obtain ⟨q, hq, rfl⟩ := List.mem_map.1 hn
    rw [List.map_singleton, List.mem_singleton] at hn'
    rintro rfl
    have hold := h.tried q hq
    rw [hn', hname] at hold
    cases hold

/-- One block: the state consists of what it did and of the block if that had no faults. Runs of blocks
are inductions over this, with the parts as the only thing carried along. -/
theorem Holds.addBlock (container : Container) :
    (a.verdict container place = [] ∧
        (a.addBlock container place).Holds (parts ++ [⟨container, place⟩])) ∨
      (a.verdict container place ≠ [] ∧ (a.addBlock container place).Holds parts) := by
  have htried : ∀ q ∈ parts, ((a.addBlock container place).tried.lookup q.place.block.name).isSome :=
    fun q hq => lookup_addBlock (.inl (h.tried q hq))
  by_cases hclean : a.verdict container place = []
  · exact .inl ⟨hclean, h.consists_addBlock hstop hclean, List.forall_mem_append.2
      ⟨htried, List.forall_mem_singleton.2 (lookup_addBlock (.inr rfl))⟩⟩
  · obtain ⟨himage, hsymbols, hblocks, -⟩ := h.addBlock_of_fault hstop hclean
    refine .inr ⟨hclean, ?_, htried⟩
    rw [himage, hsymbols, hblocks]
    exact h.consists

end

end Assembly

end FlashParams
