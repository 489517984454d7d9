import FlashParams.Proofs.Assembly.Elements
import FlashParams.Proofs.Image.Memory

/-!
# What a finished image holds

A layout consists of the parts of its declaration (`Declaration.consists_of_compile`), so its image is
a union of segments, one for each block with bytes, and no segment knows of another. A read inside one
block is therefore a read in that block's own bytes (`Consists.read?_part`), and everything in this
module comes down to it: the bytes of a symbol (`Consists.symbolBytes?_eq`), the bytes beside all
symbols (`Consists.byteAt?_outside`) and which addresses there are at all (`Consists.mem_bytes_iff`).

`Layout.Renders` puts the four together and says what it means that an image is the one declared.
-/

set_option autoImplicit false

namespace FlashParams

/-! ## Names -/

namespace Consists

variable {parts : List Part} {image : Image} {symbols : SymbolTable} {blocks : List BlockRecord}
  (h : Consists parts image symbols blocks) {p : Part} (hp : p ∈ parts)

include h hp in
theorem find_record : blocks.find? (·.name = p.place.block.name) = some p.record := by
  have hnames : (blocks.map (·.name)).Nodup := by
    rw [h.blocks, List.map_map]
    exact h.names
  have hmem : p.record ∈ blocks := by
    rw [h.blocks]
    exact List.mem_map_of_mem hp
  exact find?_of_nodup (·.name) hnames hmem

include h in
theorem mem_symbols {s : Symbol} :
    s ∈ symbols.entries ↔ ∃ p ∈ parts, ∃ q ∈ p.sheet.patches, q.symbol = s := by
  rw [h.symbols, List.mem_flatMap]
  exact exists_congr fun p => and_congr_right fun _ => List.mem_map

include h hp in
theorem get?_symbol {q : Patch} (hq : q ∈ p.sheet.patches) :
    symbols.get? q.symbol.name = some q.symbol :=
  (symbols.get?_eq_find? _).trans
    (find?_of_nodup (·.name) symbols.nodup (h.mem_symbols.2 ⟨p, hp, q, hq, rfl⟩))

/-! ## Bytes -/

include h hp in
/-- A block with an address has its segment. A block without bytes has none, and no address to ask for
either. -/
theorem segment_mem {a : Nat} (hlow : p.place.address.toNat ≤ a) (hhigh : a < p.place.stop) :
    p.segment ∈ image.segments := by
  have hne : p.bytes ≠ [] := by
    intro hnil
    have hlen := Part.length_bytes (h.stops p hp)
    rw [hnil, List.length_nil] at hlen
    rw [PlacedBlock.stop, ← hlen] at hhigh
    omega
  exact h.segments.mem_iff.2 (List.mem_flatMap.2 ⟨p, hp, Part.mem_segments.2 ⟨rfl, hne⟩⟩)

include h in
/-- The addresses that have a byte are those of the blocks. Gaps between fields count among them: they
hold the fill byte. -/
theorem mem_bytes_iff {a : Nat} :
    (∃ byte, (a, byte) ∈ image.bytes) ↔ ∃ b ∈ blocks, b.address.toNat ≤ a ∧ a < b.stop := by
  rw [Image.exists_mem_bytes_iff]
  constructor
  · rintro ⟨s, hs, hlow, hhigh⟩
    obtain ⟨p, hp, rfl, -⟩ := h.part_of_mem hs
    refine ⟨p.record, ?_, hlow, ?_⟩
    · rw [h.blocks]
      exact List.mem_map_of_mem hp
    · rwa [Part.span_segment (h.stops p hp)] at hhigh
  · rintro ⟨b, hb, hlow, hhigh⟩
    rw [h.blocks] at hb
    obtain ⟨p, hp, rfl⟩ := List.mem_map.1 hb
    refine ⟨p.segment, h.segment_mem hp hlow hhigh, hlow, ?_⟩
    rw [Part.span_segment (h.stops p hp)]
    exact hhigh

section

include h hp

theorem read?_part {first last : UInt32} (hlow : p.place.address.toNat ≤ first.toNat)
    (hforward : first.toNat ≤ last.toNat) (hinside : last.toNat < p.place.stop) :
    image.read? first last =
      some ((p.bytes.drop (first.toNat - p.place.address.toNat)).take
        (last.toNat - first.toNat + 1)) := by
  have hmem := h.segment_mem hp (Nat.le_trans hlow hforward) hinside
  have hstop := Part.span_segment (h.stops p hp)
  exact Image.read?_of_mem h.wellFormed hmem hlow hforward (by rwa [hstop])

theorem byteAt?_part {a : UInt32} (hlow : p.place.address.toNat ≤ a.toNat)
    (hhigh : a.toNat < p.place.stop) :
    image.byteAt? a = p.bytes[a.toNat - p.place.address.toNat]? := by
  have hmem := h.segment_mem hp hlow hhigh
  have hstop := Part.span_segment (h.stops p hp)
  exact Image.byteAt?_of_mem h.wellFormed hmem hlow (by rwa [hstop])

theorem fits {q : Patch} (hq : q ∈ p.sheet.patches) :
    q.Fits p.place.address p.place.block.length.toNat :=
  Block.fits_sheet p.container (h.stops p hp) q hq

/-- Where a block has a symbol it has the bytes of its patch. Patches of one block lie apart, so the
order in which they are laid over the blank bytes is of no account. -/
theorem window_patch {q : Patch} (hq : q ∈ p.sheet.patches) :
    (p.bytes.drop (q.symbol.address.toNat - p.place.address.toNat)).take q.bytes.length =
      q.bytes := by
  have hblank := p.place.block.length_blank
  refine window_overlay_of_mem (fun r hr => ?_) (Part.patches_apart (h.stops p hp) (h.clean p hp)) hq
  rw [hblank]
  exact h.fits hp hr

theorem read?_patch {q : Patch} (hq : q ∈ p.sheet.patches) (hpos : 0 < q.symbol.size.toNat) :
    image.read? q.symbol.address (q.symbol.address + (q.symbol.size - 1)) = some q.bytes := by
  have hstop := h.stops p hp
  have hfits := h.fits hp hq
  have hlow := hfits.low
  have hends := hfits.ends
  -- the last address does not wrap, since the block ends inside the address space
  have hlast : (q.symbol.address + (q.symbol.size - 1)).toNat =
      q.symbol.address.toNat + (q.symbol.size.toNat - 1) := by
    have hone : (1 : UInt32) ≤ q.symbol.size := UInt32.le_iff_toNat_le.2 hpos
    have hsize : (q.symbol.size - 1).toNat = q.symbol.size.toNat - 1 :=
      UInt32.toNat_sub_of_le _ _ hone
    rw [UInt32.toNat_add, hsize]
    apply Nat.mod_eq_of_lt
    rw [Symbol.stop] at hends
    rw [PlacedBlock.stop] at hstop
    omega
  rw [Symbol.stop] at hends
  rw [h.read?_part hp hlow (by omega) (by rw [PlacedBlock.stop]; omega), hlast,
    show q.symbol.address.toNat + (q.symbol.size.toNat - 1) - q.symbol.address.toNat + 1 =
      q.symbol.size.toNat by omega, ← hfits.sized, h.window_patch hp hq]

theorem byteAt?_outside {a : UInt32} (hlow : p.place.address.toNat ≤ a.toNat)
    (hhigh : a.toNat < p.place.stop)
    (hout : ∀ q ∈ p.sheet.patches,
      ¬ (q.symbol.address.toNat ≤ a.toNat ∧ a.toNat < q.symbol.stop)) :
    image.byteAt? a = some p.place.block.fill := by
  have hblank := p.place.block.length_blank
  have hkeep : p.bytes[a.toNat - p.place.address.toNat]? =
      p.place.block.blank[a.toNat - p.place.address.toNat]? := by
    refine getElem?_overlay_of_outside (fun q hq => ?_) fun q hq => ?_
    · rw [hblank]
      exact h.fits hp hq
    · rw [Nat.add_sub_cancel' hlow]
      exact hout q hq
  rw [h.byteAt?_part hp hlow hhigh, hkeep, Block.blank, List.getElem?_replicate, if_pos]
  rw [PlacedBlock.stop] at hhigh
  omega

theorem read?_header {header : Header} (hheader : p.place.block.header = some header) :
    image.read? p.place.address (p.place.address + 15) =
      some (header.bytes p.place.block.length p.place.block.byteOrder) := by
  have hmem : Element.header header ∈ p.place.block.elements := by
    refine List.mem_append_left _ (List.mem_map_of_mem ?_)
    exact Option.mem_toList.2 hheader
  obtain ⟨q, hq, hlaid⟩ := h.exists_patch hp hmem
  have hsize : 0 < (UInt32.ofNat Header.size).toNat := by decide
  have hlast : UInt32.ofNat Header.size - 1 = 15 := by decide
  have hread := h.read?_patch hp hq
  rw [hlaid] at hread
  rw [← hlast]
  exact hread hsize

end

end Consists

variable {d : Declaration} {l : Layout}

theorem Consists.symbolBytes?_eq {parts : List Part}
    (h : Consists parts l.image l.symbols l.blocks) {p : Part} (hp : p ∈ parts) {q : Patch}
    (hq : q ∈ p.sheet.patches) : l.symbolBytes? q.symbol = some q.bytes := by
  unfold Layout.symbolBytes?
  split
  · rename_i hzero
    have hsized := (h.fits hp hq).sized
    rw [hzero] at hsized
    rw [List.length_eq_zero_iff.1 hsized]
  · rename_i hne
    exact h.read?_patch hp hq (UInt32.lt_iff_toNat_lt.1 (UInt32.pos_iff_ne_zero.2 hne))

/-! ## The image declared -/

/-- The numbers in the bytes of a header, in the order of its fields: identifier, major and minor
version, data version, the reserved word and the length. They are read back with the byte order of the
block and not compared as bytes, which says what a reader on the device would find. -/
def Header.numbers (order : ByteOrder) (bytes : List UInt8) : List Nat :=
  [order.number (bytes.take 2), order.number ((bytes.drop 2).take 2),
    order.number ((bytes.drop 4).take 2), order.number ((bytes.drop 6).take 2),
    order.number ((bytes.drop 8).take 4), order.number ((bytes.drop 12).take 4)]

theorem Header.numbers_bytes (h : Header) (length : UInt32) (order : ByteOrder) :
    Header.numbers order (h.bytes length order) =
      [h.id.toNat, h.major.toNat, h.minor.toNat, h.dataVersion.toNat, 0, length.toNat] := by
  have hword : ∀ n : UInt16, order.number (order.bytes 2 n.toNat) = n.toNat := fun n => by
    rw [ByteOrder.number_bytes]
    exact Nat.mod_eq_of_lt n.toNat_lt
  have hlong : order.number (order.bytes 4 length.toNat) = length.toNat := by
    rw [ByteOrder.number_bytes]
    exact Nat.mod_eq_of_lt length.toNat_lt
  have hzero : order.number (List.replicate 4 0) = 0 := by
    cases order <;> rfl
  have hself : ∀ n k : Nat, (order.bytes n k).take n = order.bytes n k := fun n k =>
    List.take_of_length_le (Nat.le_of_eq (order.length_bytes n k))
  have hgone : ∀ n m k : Nat, n ≤ m → (order.bytes n k).drop m = [] := fun n m k hle =>
    List.drop_eq_nil_of_le (by rwa [order.length_bytes])
  unfold Header.numbers Header.bytes
  simp only [List.take_append, List.drop_append, ByteOrder.length_bytes, List.length_append,
    List.length_replicate]
  simp [hself, hgone, hword, hlong]
  exact hzero

/-- The symbol of a parameter holds what its literal encodes to, in the byte order of the parameter if it
has one of its own. -/
structure Layout.HasParameter (l : Layout) (c : Container) (b : Block) (p : Parameter) (s : Symbol) :
    Prop where
  container : s.container = c.name
  block : s.block = b.name
  field : s.field = some p.name
  name : s.name = fieldSymbolName b.name p.name
  value : ∃ type bytes, p.type.stored p.value = .ok type ∧ s.kind = .parameter type ∧
    type.encode (p.byteOrder.getD b.byteOrder) p.value = .ok bytes ∧
    l.symbolBytes? s = some bytes

/-- The image of a layout is the one declared, told from the declaration: which records there are and
where, what stands in each header, at each parameter and between them. Its members go both ways, so
nothing else is in the image. -/
structure Layout.Renders (l : Layout) (d : Declaration) : Prop where
  /-- The records are those of the blocks declared. -/
  blocks : List.Forall₂ (fun cb r => BlockRecord.Declares r cb.1 cb.2)
    (d.containers.flatMap fun c => c.blocks.map (c, ·)) l.blocks
  /-- There are bytes in the blocks and nowhere else. -/
  addresses : ∀ a, (∃ byte, (a, byte) ∈ l.image.bytes) ↔
    ∃ b ∈ l.blocks, b.address.toNat ≤ a ∧ a < b.stop
  /-- A block with a header starts with it. -/
  headers : ∀ b ∈ l.blocks, ∀ header, b.header = some header →
    ∃ bytes, l.image.read? b.address (b.address + 15) = some bytes ∧
      bytes = header.bytes b.length b.byteOrder ∧
      Header.numbers b.byteOrder bytes =
        [header.id.toNat, header.major.toNat, header.minor.toNat, header.dataVersion.toNat, 0,
          b.length.toNat]
  /-- Every parameter declared has a symbol. -/
  parameters : ∀ c ∈ d.containers, ∀ b ∈ c.blocks, ∀ p, .parameter p ∈ b.fields →
    ∃ s, l.symbols.get? (fieldSymbolName b.name p.name) = some s ∧ l.HasParameter c b p s
  /-- Every symbol of a parameter belongs to a parameter declared. -/
  literals : ∀ s ∈ l.symbols.entries, ∀ type, s.kind = .parameter type →
    ∃ c ∈ d.containers, ∃ b ∈ c.blocks, ∃ p, .parameter p ∈ b.fields ∧ l.HasParameter c b p s
  /-- The other bytes are fill bytes. -/
  filled : ∀ b ∈ l.blocks, ∀ a : UInt32, b.address.toNat ≤ a.toNat → a.toNat < b.stop →
    (∀ s ∈ l.symbols.entries, ¬ (s.address.toNat ≤ a.toNat ∧ a.toNat < s.stop)) →
    l.image.byteAt? a = some b.fill

theorem Layout.hasParameter_of_laid {parts : List Part}
    (h : Consists parts l.image l.symbols l.blocks) {p : Part} (hp : p ∈ parts) {q : Patch}
    (hq : q ∈ p.sheet.patches) {r : Parameter}
    (hlaid : Element.Laid p.container p.place.block p.place.address p.bytes
      (.field (.parameter r)) q) :
    l.HasParameter p.container p.place.block r q.symbol := by
  obtain ⟨hcontainer, hblock, hname, hfield, type, hstored, hkind⟩ :=
    Element.describes_of_laid hlaid
  obtain ⟨place, other, -, hother, hencode, -⟩ := hlaid
  -- the literal has one stored type
  cases hstored.symm.trans hother
  exact ⟨hcontainer, hblock, hfield, hname, type, q.bytes, hstored, hkind, hencode,
    h.symbolBytes?_eq hp hq⟩

/-- Only parameters have symbols of their kind. It gives the direction from a symbol in the table back to
the declaration. -/
theorem Layout.exists_parameter {parts : List Part}
    (h : Consists parts l.image l.symbols l.blocks) {p : Part} (hp : p ∈ parts) {q : Patch}
    (hq : q ∈ p.sheet.patches) {type : StoredType} (hkind : q.symbol.kind = .parameter type) :
    ∃ r, .parameter r ∈ p.place.block.fields ∧
      l.HasParameter p.container p.place.block r q.symbol := by
  obtain ⟨e, he, hlaid⟩ := h.exists_element hp hq
  have hdescribed := (Element.describes_of_laid hlaid).kind
  match e with
  | .header _ =>
    have hother : q.symbol.kind = .header := hdescribed
    cases hkind.symm.trans hother
  | .field (.parameter r) =>
    exact ⟨r, Block.field_of_mem_elements he, Layout.hasParameter_of_laid h hp hq hlaid⟩
  | .field (.checksum c) =>
    have hother : q.symbol.kind = .checksum c.type := hdescribed
    cases hkind.symm.trans hother

theorem Declaration.block_of_part (h : d.compile = .ok l) {p : Part} (hp : p ∈ d.parts) :
    p.container ∈ d.containers ∧ p.place.block ∈ p.container.blocks := by
  obtain ⟨hc, hplace⟩ := Declaration.mem_of_part hp
  refine ⟨hc, ?_⟩
  rw [← Container.blocks_of_none_left ((d.consists_of_compile h).2 _ hc)]
  exact List.mem_map_of_mem hplace

theorem Declaration.map_parts (h : ∀ c ∈ d.containers, c.place.unplaced = []) :
    d.parts.map (fun p => (p.container, p.place.block)) =
      d.containers.flatMap fun c => c.blocks.map (c, ·) := by
  unfold Declaration.parts
  rw [List.map_flatMap]
  refine List.flatMap_congr fun c hc => ?_
  rw [← Container.blocks_of_none_left (h c hc), Container.parts, List.map_map, List.map_map]
  rfl

/-- **The finished image is exactly what was declared.** Every byte has one of four sources, a header, a
parameter, a checksum or the fill, and each of them is accounted for. -/
theorem Declaration.renders_of_compile (h : d.compile = .ok l) : l.Renders d := by
  obtain ⟨hconsists, hunplaced⟩ := d.consists_of_compile h
  have hpart : ∀ b ∈ l.blocks, ∃ p ∈ d.parts, p.record = b := by
    intro b hb
    rw [hconsists.blocks] at hb
    exact List.mem_map.1 hb
  refine ⟨?_, fun a => hconsists.mem_bytes_iff, ?_, ?_, ?_, ?_⟩
  · rw [← Declaration.map_parts hunplaced, hconsists.blocks, List.forall₂_map_left_iff,
      List.forall₂_map_right_iff]
    exact List.forall₂_same.2 fun p _ => rfl
  · intro b hb header hheader
    obtain ⟨p, hp, rfl⟩ := hpart b hb
    exact ⟨_, hconsists.read?_header hp hheader, rfl, Header.numbers_bytes header _ _⟩
  · intro c hc b hb r hr
    obtain ⟨p, hp, rfl, rfl⟩ := Declaration.part_of_mem h hc hb
    obtain ⟨q, hq, hlaid⟩ := hconsists.exists_patch hp (Block.mem_elements_of_field hr)
    have hparameter := Layout.hasParameter_of_laid hconsists hp hq hlaid
    exact ⟨q.symbol, hparameter.name ▸ hconsists.get?_symbol hp hq, hparameter⟩
  · intro s hs type hkind
    obtain ⟨p, hp, q, hq, rfl⟩ := hconsists.mem_symbols.1 hs
    obtain ⟨hc, hb⟩ := Declaration.block_of_part h hp
    exact ⟨p.container, hc, p.place.block, hb, Layout.exists_parameter hconsists hp hq hkind⟩
  · intro b hb a hlow hhigh hout
    obtain ⟨p, hp, rfl⟩ := hpart b hb
    refine hconsists.byteAt?_outside hp hlow hhigh fun q hq => ?_
    exact hout q.symbol (hconsists.mem_symbols.2 ⟨p, hp, q, hq, rfl⟩)

namespace Specimen

def contents : Checksum :=
  { name := "contents"
    offset := .fixed 28
    type := .u32
    align := 4
    coverage := {}
    params := {}
    comment := none }

/-- A block with a header, a checksum over the header, a parameter in the other byte order, and a
checksum that covers all three. Later examples take it over, since it has one element of each kind. -/
def calibration : Block :=
  { name := "calibration"
    length := 32
    fill := 0xFF
    header := some ⟨1, 2, 3, 4⟩
    fields :=
      [.checksum
         { name := "identity"
           offset := .next
           type := .u16
           align := 1
           coverage := { last := .fixed 15 }
           params := { polynomial := 0x1021, init := 0xFFFF }
           comment := none },
       .parameter
         { name := "gain"
           offset := .fixed 20
           type := .scalar .u16
           align := 2
           value := .int 0x1234
           byteOrder := some .big
           comment := none },
       .checksum contents] }

def flash : Container :=
  { name := "flash", base := 0x1000, blocks := [calibration] }

/-- The second container goes on where the first one ends. -/
def declaration : Declaration :=
  { containers :=
      [flash, { name := "tail", base := 0x1020, blocks := [{ name := "reserve", length := 4 }] }] }

theorem renders_declaration : ∃ l, declaration.compile = .ok l ∧ l.Renders declaration := by
  have hcompiles : declaration.compile.isOk = true := by decide +kernel
  cases hl : declaration.compile with
  | error rejection =>
    rw [hl] at hcompiles
    cases hcompiles
  | ok l => exact ⟨l, rfl, Declaration.renders_of_compile hl⟩

end Specimen

end FlashParams
