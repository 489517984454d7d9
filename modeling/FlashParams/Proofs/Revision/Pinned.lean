import FlashParams.Proofs.Placement.Reach
import FlashParams.Proofs.Revision.Compile

/-!
# Placeholders and what they stand for

A declaration may leave open where a block or a field goes, where the range of a checksum ends and how
long a value is. Once it has compiled the layout says all of that. `Declaration.pinned` writes the
answers into the declaration, and the result is a declaration without placeholders that compiles to the
same layout (`Declaration.compile_pinned`).

Every replacement goes through checks the placeholder did not: a fixed offset has to be aligned, where an
open one is rounded up; the end of a range is resolved from the start of the block instead of from the
checksum. What is written down is a distance and a distance can only be written down if it is not
negative. That fields are not in front of their block is known (`FieldRun.Sound.low`). Blocks can be in
front of their container, but only behind one without bytes at the end of the address space
(`Container.placedInReach_placeFirst`), so it is here that blocks are asked to have bytes.
-/

set_option autoImplicit false

namespace FlashParams

/-! ## Writing the answers down -/

/-- A declared type with the length it gets from a literal. A text that is open gets one byte more than
it needs, for the zero behind it. -/
def DeclaredType.settled : DeclaredType → Literal → DeclaredType
  | .scalar t, .array items => .array t items.length
  | .text none, .str s => .text (some (s.utf8ByteSize + 1))
  | declared, _ => declared

/-- The end of a range as a distance; `base` is the address of the block and `address` that of the
checksum. The range ends with the byte in front of the checksum, so one is taken off. -/
def CoverageEnd.pinned (base address : UInt32) : CoverageEnd → CoverageEnd
  | .fixed distance => .fixed distance
  | .beforeSelf => .fixed (address - 1 - base)

def Parameter.pinned (base address : UInt32) (p : Parameter) : Parameter :=
  { p with offset := .fixed (address - base), type := p.type.settled p.value }

def Checksum.pinned (base address : UInt32) (c : Checksum) : Checksum :=
  { c with
    offset := .fixed (address - base)
    coverage := { c.coverage with last := c.coverage.last.pinned base address } }

def Field.pinned (base address : UInt32) : Field → Field
  | .parameter p => .parameter (p.pinned base address)
  | .checksum c => .checksum (c.pinned base address)

def Occupant.pinned (base address : UInt32) : Occupant → Occupant
  | .parameter p type => .parameter (p.pinned base address) type
  | .checksum c => .checksum (c.pinned base address)

theorem Occupant.field_pinned (base address : UInt32) (o : Occupant) :
    (o.pinned base address).field = o.field.pinned base address := by
  cases o <;> rfl

/-- The address of a block of this name, if there is one. Pinning looks addresses up in the layout by
name, as someone would who replaces the placeholders by hand. -/
def Layout.blockAddress? (l : Layout) (block : String) : Option UInt32 :=
  (l.blocks.find? (·.name = block)).map (·.address)

def Layout.fieldAddress? (l : Layout) (block field : String) : Option UInt32 :=
  (l.symbols.get? (fieldSymbolName block field)).map (·.address)

/-- A block where a layout has it, without placeholders; `container` is the address of its container.
What the layout does not have stays as it is. -/
def Block.pinned (l : Layout) (container : UInt32) (b : Block) : Block :=
  match l.blockAddress? b.name with
  | none => b
  | some base =>
    { b with
      offset := .fixed (base - container)
      fields := b.fields.map fun f =>
        match l.fieldAddress? b.name f.name with
        | none => f
        | some address => f.pinned base address }

def Declaration.pinned (d : Declaration) (l : Layout) : Declaration :=
  { d with
    containers := d.containers.map fun c =>
      { c with blocks := c.blocks.map (Block.pinned l c.base) } }

/-! ## Each answer -/

/-- **A settled type is stored as the type was.** Settling twice is settling once, since a type that has
its length ignores that of the literal. -/
theorem DeclaredType.stored_settled {declared : DeclaredType} {value : Literal} {type : StoredType}
    (h : declared.stored value = .ok type) : (declared.settled value).stored value = .ok type := by
  cases declared with
  | scalar t =>
    cases value with
    | array items =>
      cases items with
      | nil => cases h
      | cons _ _ => exact h
    | int _ | float _ | str _ => exact h
  | array t n => exact h
  | text size =>
    cases size with
    | some n => exact h
    | none =>
      cases value with
      | str s => exact h
      | int _ | float _ | array _ => cases h

theorem toNat_distance {base address : UInt32} (h : base.toNat ≤ address.toNat) :
    base.toNat + (address - base).toNat = address.toNat := by
  rw [UInt32.toNat_sub_of_le _ _ (UInt32.le_iff_toNat_le.2 h)]
  omega

theorem CoverageEnd.revises_pinned {base address : UInt32} {e : CoverageEnd}
    (h : e = .beforeSelf → base.toNat < address.toNat) :
    e.Revises base address (e.pinned base address) := by
  cases e with
  | fixed distance => exact .inl rfl
  | beforeSelf =>
    have hlow := h rfl
    have hone : (address - 1).toNat = address.toNat - 1 :=
      UInt32.toNat_sub_of_le _ _ (UInt32.le_iff_toNat_le.2 (by
        show 1 ≤ address.toNat
        omega))
    have hdistance : base.toNat + (address - 1 - base).toNat = (address - 1).toNat :=
      toNat_distance (by omega)
    exact .inr ⟨rfl, _, rfl, by omega⟩

/-! ## The fields of a block -/

section

variable {block : Block} {base : UInt32} (hstop : base.toNat + block.length.toNat ≤ 0x100000000)
include hstop

theorem Block.lt_of_beforeSelf
    (hranges : (checksumJobs block base (block.place base).placed).2 = []) {p : PlacedField}
    (hp : p ∈ (block.place base).placed) {c : Checksum} (hocc : p.occupant = .checksum c)
    (hself : c.coverage.last = .beforeSelf) : base.toNat < p.address.toNat := by
  have hchecksum : p.isChecksum = true := by rw [PlacedField.isChecksum, hocc]
  -- without range faults every placed checksum has its job
  have hmem := List.mem_filter.2 ⟨hp, hchecksum⟩
  rw [← places_of_no_fault hstop hranges] at hmem
  obtain ⟨job, hjob, rfl⟩ := List.mem_map.1 hmem
  have hsound := (sound_of_mem_jobs hstop job hjob).1
  have hsame : job.checksum = c := Occupant.checksum.inj (hsound.occupant.symm.trans hocc)
  exact hsound.lt_of_beforeSelf (hsame ▸ hself)

/-- Every placed field has a symbol, at its address. This is what lets the placements of a run be found
in a layout, which keeps symbols and no placements. -/
theorem Block.exists_symbol {container : Container} (h : (block.sheet container base).faults = [])
    {p : PlacedField} (hp : p ∈ (block.place base).placed) :
    ∃ q ∈ (block.sheet container base).patches,
      q.symbol.name = fieldSymbolName block.name p.name ∧ q.symbol.address = p.address := by
  obtain ⟨values, sums, hfinished⟩ := Block.finished hstop h
  rw [hfinished.patches]
  cases hchecksum : p.isChecksum with
  | false =>
    obtain ⟨q, hq, parameter, type, -, -, hsymbol⟩ := forall₂_exists_left hfinished.values p
      (List.mem_filter.2 ⟨hp, by rw [hchecksum]; rfl⟩)
    refine ⟨q, List.mem_append_left _ (List.mem_append_right _ hq), ?_⟩
    rw [hsymbol]
    exact ⟨rfl, rfl⟩
  | true =>
    have hmem := List.mem_filter.2 ⟨hp, hchecksum⟩
    rw [← places_of_no_fault hstop hfinished.ranges] at hmem
    obtain ⟨job, hjob, rfl⟩ := List.mem_map.1 hmem
    obtain ⟨q, hq, value, -, rfl⟩ := forall₂_exists_left hfinished.sums job hjob
    exact ⟨_, List.mem_append_right _ hq, rfl, rfl⟩

/-- **A placed field without its placeholders is a revision of the field.** Its offset is now the
distance to where it was placed, and its range, if it has one, ends where it did. -/
theorem Block.occupant_revises_pinned
    (hranges : (checksumJobs block base (block.place base).placed).2 = []) {p : PlacedField}
    (hp : p ∈ (block.place base).placed) :
    Occupant.Revises True block.byteOrder base p.address p.occupant
      (p.occupant.pinned base p.address) := by
  have hsound := block.sound_place base hstop
  have hoffset : ∀ o : Offset, o.Revises base p.address (.fixed (p.address - base)) := fun o =>
    .inr ⟨_, rfl, toNat_distance (hsound.low p hp)⟩
  have htyped := hsound.typed p hp
  cases hocc : p.occupant with
  | parameter q type =>
    rw [hocc] at htyped
    exact .parameter (hoffset _) (DeclaredType.stored_settled (Field.stored_of_occupant htyped))
      (fun _ => rfl) fun hq => hq
  | checksum c =>
    exact .checksum (hoffset _)
      (CoverageEnd.revises_pinned (Block.lt_of_beforeSelf hstop hranges hp hocc))

end

/-! ## The whole declaration -/

variable {d : Declaration} {l : Layout}

theorem Consists.blockAddress?_eq {parts : List Part} (h : Consists parts l.image l.symbols l.blocks)
    {p : Part} (hp : p ∈ parts) :
    l.blockAddress? p.place.block.name = some p.place.address := by
  rw [Layout.blockAddress?, h.find_record hp]
  rfl

theorem Consists.fieldAddress?_eq {parts : List Part} (h : Consists parts l.image l.symbols l.blocks)
    {p : Part} (hp : p ∈ parts) {place : PlacedField}
    (hplace : place ∈ (p.place.block.place p.place.address).placed) :
    l.fieldAddress? p.place.block.name place.name = some place.address := by
  obtain ⟨q, hq, hname, haddress⟩ := Block.exists_symbol (h.stops p hp) (h.clean p hp) hplace
  rw [Layout.fieldAddress?, ← hname, h.get?_symbol hp hq, Option.map_some, haddress]

theorem Consists.block_revises_pinned {parts : List Part}
    (h : Consists parts l.image l.symbols l.blocks) {p : Part} (hp : p ∈ parts)
    (container : UInt32) :
    p.place.block.Revises True p.place.address (p.place.block.pinned l container) := by
  have hstop := h.stops p hp
  obtain ⟨hplace, hranges, -⟩ := (Block.clean_iff hstop).1 (h.clean p hp)
  unfold Block.pinned
  rw [h.blockAddress?_eq hp]
  refine ⟨rfl, rfl, rfl, rfl, rfl, rfl, rfl, (p.place.block.place p.place.address).placed.map
    fun place => place.occupant.pinned p.place.address place.address, ?_, ?_⟩
  · dsimp only
    rw [← Block.fields_of_no_fault hplace, List.map_map, List.map_map]
    refine List.map_congr_left fun place hmem => ?_
    have haddress : l.fieldAddress? p.place.block.name place.occupant.field.name =
        some place.address := h.fieldAddress?_eq hp hmem
    simp only [Function.comp_apply, haddress, Occupant.field_pinned]
  · rw [List.forall₂_map_right_iff]
    exact List.forall₂_same.2 fun place hmem => Block.occupant_revises_pinned hstop hranges hmem

/-- Placed blocks with bytes are not in front of their container. One without bytes can be, behind the
end of the address space, and then there is no distance to pin. -/
theorem Container.base_le_of_mem_place {c : Container} (hsolid : ∀ b ∈ c.blocks, 0 < b.length)
    {p : PlacedBlock} (hp : p ∈ c.place.placed) : c.base.toNat ≤ p.address.toNat := by
  have hbrims : ¬ c.Brims := by
    rintro ⟨front, b, back, hsplit, hlength, -⟩
    have hmem : b ∈ c.blocks := by
      rw [hsplit]
      exact List.mem_append_right _ List.mem_cons_self
    exact UInt32.pos_iff_ne_zero.1 (hsolid b hmem) hlength
  have hreach : PlacedInReach c.base c.place.placed :=
    Container.placedInReach_placeFirst hbrims (List.append_nil _).symm
  exact hreach.above p hp

/-- **Without its placeholders a declaration is a revision of itself.** It is a revision that moves
nothing and keeps the literals. -/
theorem Declaration.revises_pinned (h : d.compile = .ok l) (hsolid : d.Solid) :
    d.Revises True 0 (d.pinned l) := by
  have hconsists := (d.consists_of_compile h).1
  refine Declaration.revises_map h (g := fun c => Block.pinned l c.base) (fun _ => rfl)
    (fun c _ => (Int.add_zero _).symm) (fun _ => rfl) fun p hp => ?_
  have hstop := hconsists.stops p hp
  obtain ⟨hc, hb⟩ := Declaration.block_of_part h hp
  have hplace := (Declaration.mem_of_part hp).2
  have hoffset : (p.place.block.pinned l p.container.base).offset =
      .fixed (p.place.address - p.container.base) := by
    unfold Block.pinned
    rw [hconsists.blockAddress?_eq hp]
  refine ⟨hconsists.block_revises_pinned hp p.container.base, .inr ⟨_, hoffset, ?_⟩, by omega,
    .inl (UInt32.pos_iff_ne_zero.1 (hsolid _ hc _ hb))⟩
  exact toNat_distance (Container.base_le_of_mem_place (hsolid _ hc) hplace)

/-- **Symbolic and explicit layouts agree.** Whatever was left for the layout to decide may be written
down as it was decided, and the outcome is the very same layout. It can therefore be kept with its
addresses fixed and read as the original was. -/
theorem Declaration.compile_pinned (h : d.compile = .ok l) (hsolid : d.Solid) :
    (d.pinned l).compile = .ok l := by
  obtain ⟨l', hl', hmoved⟩ :=
    (Declaration.revises_pinned h hsolid).compile_kept (Int.dvd_zero _) h
  rw [hl', hmoved.eq]

namespace Specimen

def labels : Block :=
  { name := "labels"
    length := 64
    align := 16
    header := some ⟨1, 0, 0, 7⟩
    fields :=
      [.parameter ⟨"name", .next, .text none, 1, .str "pump", none, none⟩,
        .parameter ⟨"curve", .next, .scalar .u16, 4, .array [.int 1, .int 2, .int 3], none, none⟩,
        .checksum
          { name := "sum"
            offset := .next
            type := .u32
            align := 4
            coverage := {}
            params := {}
            comment := none }] }

def symbolic : Declaration :=
  { containers :=
      [{ name := "flash", base := 0x1000, blocks := [{ name := "front", length := 5 }, labels] }] }

theorem symbolic_compile_pinned :
    ∃ l, symbolic.compile = .ok l ∧ l.blockAddress? "labels" = some 0x1010 ∧
      l.fieldAddress? "labels" "sum" = some 0x1030 ∧ (symbolic.pinned l).compile = .ok l := by
  have hplaces : symbolic.compile.toOption.any (fun l =>
      l.blockAddress? "labels" = some 0x1010 ∧ l.fieldAddress? "labels" "sum" = some 0x1030) =
        true := by
    decide +kernel
  have hsolid : symbolic.Solid := by unfold Declaration.Solid; decide
  cases hl : symbolic.compile with
  | error rejection =>
    rw [hl] at hplaces
    cases hplaces
  | ok l =>
    rw [hl] at hplaces
    obtain ⟨hblock, hfield⟩ := of_decide_eq_true hplaces
    exact ⟨l, rfl, hblock, hfield, Declaration.compile_pinned hl hsolid⟩

end Specimen

end FlashParams
