import FlashParams.Proofs.Assembly.Run

/-!
# What every symbol stands for

A finished sheet was described by *placed* fields (`Block.Finished`). Placement is internal; what a
declaration has are elements: its header, its parameters, its checksums. `Element.Laid` says of an
element and a patch that the one has become the other, and `Part.laid` matches the elements of a block
with its patches, one to one and in order. `Element.Describes` is the part of it that speaks of the
symbol alone.

From here on a fact about a symbol is a fact about an element of the declaration and the other way
round: `exists_patch` goes from a declared element to its patch, `exists_element` back.
-/

set_option autoImplicit false

namespace FlashParams

inductive Element where
  | header (h : Header)
  | field (f : Field)

def Field.isChecksum : Field → Bool
  | .parameter _ => false
  | .checksum _ => true

/-- The elements of a block in the order of their symbols: the header if there is one, then the
parameters, then the checksums. Checksums come last in the table wherever they stand in the block,
because they are computed when all else is written. -/
def Block.elements (b : Block) : List Element :=
  b.header.toList.map .header
    ++ (b.fields.filter (!·.isChecksum) ++ b.fields.filter (·.isChecksum)).map .field

theorem Block.mem_elements_of_field {b : Block} {f : Field} (h : f ∈ b.fields) :
    Element.field f ∈ b.elements := by
  refine List.mem_append_right _ (List.mem_map_of_mem ?_)
  cases hf : f.isChecksum with
  | false => exact List.mem_append_left _ (List.mem_filter.2 ⟨h, by rw [hf]; rfl⟩)
  | true => exact List.mem_append_right _ (List.mem_filter.2 ⟨h, hf⟩)

theorem Block.field_of_mem_elements {b : Block} {f : Field} (h : Element.field f ∈ b.elements) :
    f ∈ b.fields := by
  rcases List.mem_append.1 h with h | h
  · obtain ⟨header, -, he⟩ := List.mem_map.1 h
    cases he
  · obtain ⟨g, hg, he⟩ := List.mem_map.1 h
    cases he
    rcases List.mem_append.1 hg with hg | hg
    · exact (List.mem_filter.1 hg).1
    · exact (List.mem_filter.1 hg).1

/-- What an element of a block leaves in a sheet, the block's bytes being `bytes` in the end. The bytes
are needed for checksums only, which are computed over them. -/
def Element.Laid (container : Container) (block : Block) (base : UInt32) (bytes : List UInt8) :
    Element → Patch → Prop
  | .header h, p => p = ⟨block.headerSymbol container base, h.bytes block.length block.byteOrder⟩
  | .field (.parameter q), p =>
    ∃ (place : PlacedField) (type : StoredType), place.occupant = .parameter q type ∧
      q.type.stored q.value = .ok type ∧
      type.encode (q.byteOrder.getD block.byteOrder) q.value = .ok p.bytes ∧
      p.symbol = place.symbol container block (q.byteOrder.getD block.byteOrder)
  | .field (.checksum c), p =>
    ∃ job : ChecksumJob, job.checksum = c ∧ job.Sound block base ∧
      job.HasValue container block base bytes p

/-! ## Elements and their symbols -/

namespace Element

def symbolName (b : Block) : Element → String
  | header _ => headerSymbolName b.name
  | field f => fieldSymbolName b.name f.name

def fieldName? : Element → Option String
  | header _ => none
  | field f => some f.name

/-- What the symbol of an element describes; the type of a parameter is settled by its literal, so the
declared type of an array or a text may lack the length that the symbol has. -/
def HasKind : Element → SymbolKind → Prop
  | header _, kind => kind = .header
  | field (.parameter p), kind =>
    ∃ type, p.type.stored p.value = .ok type ∧ kind = .parameter type
  | field (.checksum c), kind => kind = .checksum c.type

structure Describes (c : Container) (b : Block) (e : Element) (s : Symbol) : Prop where
  container : s.container = c.name
  block : s.block = b.name
  name : s.name = e.symbolName b
  field : s.field = e.fieldName?
  kind : e.HasKind s.kind

end Element

theorem Element.describes_of_laid {c : Container} {b : Block} {base : UInt32} {bytes : List UInt8}
    {e : Element} {q : Patch} (h : e.Laid c b base bytes q) : e.Describes c b q.symbol := by
  match e with
  | .header _ =>
    rw [h]
    exact ⟨rfl, rfl, rfl, rfl, rfl⟩
  | .field (.parameter p) =>
    obtain ⟨place, type, hocc, hstored, -, hsymbol⟩ := h
    have hname : place.name = p.name := by
      rw [PlacedField.name, hocc]
      rfl
    have hkind : place.occupant.kind = .parameter type := by
      rw [hocc]
      rfl
    rw [hsymbol]
    exact ⟨rfl, rfl, congrArg (fieldSymbolName _) hname, congrArg some hname, type, hstored, hkind⟩
  | .field (.checksum d) =>
    obtain ⟨job, rfl, hsound, value, -, rfl⟩ := h
    have hname : job.place.name = job.checksum.name := by
      rw [PlacedField.name, hsound.occupant]
      rfl
    have hkind : job.place.occupant.kind = .checksum job.checksum.type := by
      rw [hsound.occupant]
      rfl
    exact ⟨rfl, rfl, congrArg (fieldSymbolName _) hname, congrArg some hname, hkind⟩

/-! ## Elements of an assembled block -/

/-- The block of a record, apart from its address. Where a block is placed takes the blocks in front of
it to say; all else it has from its declaration. -/
def BlockRecord.Declares (r : BlockRecord) (c : Container) (b : Block) : Prop :=
  r = { container := c.name
        containerBase := c.base
        name := b.name
        address := r.address
        length := b.length
        fill := b.fill
        byteOrder := b.byteOrder
        header := b.header
        comment := b.comment }

theorem Occupant.isChecksum_field (place : PlacedField) :
    place.occupant.field.isChecksum = place.isChecksum := by
  unfold PlacedField.isChecksum
  cases place.occupant <;> rfl

theorem Field.stored_of_occupant {q r : Parameter} {type : StoredType}
    (h : (Field.parameter q).occupant = .ok (.parameter r type)) :
    q.type.stored q.value = .ok type := by
  rw [Field.occupant] at h
  cases hfound : q.type.stored q.value with
  | ok found =>
    rw [hfound] at h
    cases h
    rfl
  | error cause =>
    rw [hfound] at h
    cases h

section

variable {p : Part} (hstop : p.place.stop ≤ 0x100000000) (hclean : p.sheet.faults = [])
include hstop hclean

/-- Elements and patches stand in one order: what relates a header, a placed parameter and a computed
checksum to the patch each of them leaves relates the two lists. With `R` left open, kinds, names and
bytes are all instances of one induction. -/
theorem Part.forall₂_elements {R : Element → Patch → Prop}
    (hheader : ∀ header : Header, R (.header header)
      ⟨p.place.block.headerSymbol p.container p.place.address,
        header.bytes p.place.block.length p.place.block.byteOrder⟩)
    (hvalue : ∀ place ∈ (p.place.block.place p.place.address).placed, ∀ q,
      place.HasValue p.container p.place.block q → R (.field place.occupant.field) q)
    (hsum : ∀ job : ChecksumJob, job.Sound p.place.block p.place.address →
      job.place ∈ (p.place.block.place p.place.address).placed → ∀ q,
        job.HasValue p.container p.place.block p.place.address p.bytes q →
          R (.field job.place.occupant.field) q) :
    List.Forall₂ R p.place.block.elements p.sheet.patches := by
  obtain ⟨values, sums, h⟩ := Block.finished hstop hclean
  have hfields := Block.fields_of_no_fault h.placement
  have hfilter : ∀ keep : Field → Bool,
      p.place.block.fields.filter keep =
        ((p.place.block.place p.place.address).placed.filter (keep ·.occupant.field)).map
          (·.occupant.field) := by
    intro keep
    rw [← hfields, List.filter_map]
    rfl
  rw [Block.elements, List.map_append, ← List.append_assoc]
  show List.Forall₂ _ _ (p.place.block.sheet p.container p.place.address).patches
  rw [h.patches]
  refine List.rel_append (List.rel_append ?_ ?_) ?_
  -- the header, for which the block has room
  · unfold Block.headerPatch?
    cases hdeclared : p.place.block.header with
    | none => exact .nil
    | some header =>
      have hroom := Block.header_fits_of_no_fault h.placement (by rw [hdeclared]; rfl)
      dsimp only
      rw [if_pos hroom]
      exact .cons (hheader header) .nil
  · rw [hfilter, List.map_map, List.forall₂_map_left_iff]
    have hvalues := (List.forall₂_and_left _ _).2
      ⟨fun place hplace => (List.mem_filter.1 hplace).1, h.values⟩
    simp only [Occupant.isChecksum_field]
    exact hvalues.imp fun place q ⟨hplaced, hq⟩ => hvalue place hplaced q hq
  -- a checksum has a job, which stands at its place in the list
  · have hplaces := places_of_no_fault hstop h.ranges
    rw [hfilter]
    simp only [Occupant.isChecksum_field]
    rw [← hplaces, List.map_map, List.map_map, List.forall₂_map_left_iff]
    have hsums := (List.forall₂_and_left _ _).2
      ⟨fun job hjob => sound_of_mem_jobs hstop job hjob, h.sums⟩
    exact hsums.imp fun job q ⟨⟨hjob, hplaced⟩, hq⟩ => hsum job hjob hplaced q hq

/-- **Elements and patches correspond one to one, in order.** Counting symbols, finding the symbol of a
field and finding the field of a symbol are all read off this list of pairs. -/
theorem Part.laid :
    List.Forall₂ (Element.Laid p.container p.place.block p.place.address p.bytes)
      p.place.block.elements p.sheet.patches := by
  have hsound := p.place.block.sound_place p.place.address hstop
  refine Part.forall₂_elements hstop hclean (fun _ => rfl) ?_ ?_
  -- the stored type is the one placement found, which `typed` says is that of the literal
  · rintro place hplaced patch ⟨q, type, hocc, hencode, hsymbol⟩
    have htyped := hsound.typed place hplaced
    rw [hocc] at htyped ⊢
    exact ⟨place, type, hocc, Field.stored_of_occupant htyped, hencode, hsymbol⟩
  · intro job hjob _ patch hvalue
    rw [hjob.occupant]
    exact ⟨job, rfl, hjob, hvalue⟩

theorem Part.patches_apart :
    p.sheet.patches.Pairwise fun q r => q.symbol.span.meets r.symbol.span = false := by
  obtain ⟨values, sums, h⟩ := Block.finished hstop hclean
  exact h.apart hstop

end

section

variable {parts : List Part} {image : Image} {symbols : SymbolTable} {blocks : List BlockRecord}
  (h : Consists parts image symbols blocks) {p : Part} (hp : p ∈ parts)
include h hp

theorem Consists.exists_patch {e : Element} (he : e ∈ p.place.block.elements) :
    ∃ q ∈ p.sheet.patches, e.Laid p.container p.place.block p.place.address p.bytes q :=
  forall₂_exists_left (Part.laid (h.stops p hp) (h.clean p hp)) e he

theorem Consists.exists_element {q : Patch} (hq : q ∈ p.sheet.patches) :
    ∃ e ∈ p.place.block.elements,
      e.Laid p.container p.place.block p.place.address p.bytes q :=
  forall₂_exists_right (Part.laid (h.stops p hp) (h.clean p hp)) q hq

end

end FlashParams
