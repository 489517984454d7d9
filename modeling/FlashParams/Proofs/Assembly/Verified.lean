import FlashParams.Proofs.Assembly.Contents

/-!
# Every stored checksum verifies

A device that checks its parameters reads a range of the finished image, runs the check over it and
compares the result with the bytes stored for it. While the image was being built the same range held
something else for some of the time: the value was computed when later checksums of the block were
still fill bytes and later blocks were not there at all.

That the comparison succeeds nevertheless was settled in two steps. Inside the block no later patch
touches the range (`Running.final`), so the value is the one over the finished *block*. And a read
inside a block of the finished image gives the bytes of that block (`Consists.read?_part`), whatever
else has been assembled since. What is left is to store the value and read it back, which loses
nothing because a check is as wide as its type.
-/

set_option autoImplicit false

namespace FlashParams

/-! ## Storing a value -/

theorem Crc.width_of_ofParams {width : Nat} {params : CrcParams} {crc : Crc}
    (h : Crc.ofParams width params = .ok crc) : crc.width = width := by
  unfold Crc.ofParams at h
  split at h
  · cases h
  · split at h
    · cases h
    · split at h
      · cases h
      · cases h
        rfl

theorem Scalar.size_le (t : Scalar) : t.size ≤ 8 := by
  cases t <;> decide

theorem patternOf_patternBytes {t : Scalar} {order : ByteOrder} {value : Nat}
    (h : value < Nat.pow 2 t.bits) : patternOf order (t.patternBytes order value) = value := by
  have hall : (t.patternBytes order value).take 8 = order.bytes t.size value :=
    List.take_of_length_le (by
      rw [Scalar.patternBytes, ByteOrder.length_bytes]
      exact t.size_le)
  have hwidth : Nat.pow 2 t.bits = Nat.pow 256 t.size := by
    cases t <;> rfl
  rw [patternOf, hall, ByteOrder.number_bytes]
  exact Nat.mod_eq_of_lt (hwidth ▸ h)

/-- The value of a job is that of its check over its range, and fits the check's type. That the check can
be set up is part of it: a job whose check is unfit has no value. -/
theorem ChecksumJob.exists_crc {job : ChecksumJob} {data : List UInt8} {value : Nat}
    (h : job.valueOver data = .ok value) :
    ∃ crc, Crc.ofParams job.checksum.type.bits job.checksum.params = .ok crc ∧
      value = (crc.checksum (accessOrder job.checksum.coverage.access.toNat
        job.checksum.coverage.swap data)).toNat ∧
      value < Nat.pow 2 job.checksum.type.bits := by
  unfold ChecksumJob.valueOver at h
  split at h
  · cases h
  · rename_i crc hcrc
    cases h
    refine ⟨crc, hcrc, rfl, ?_⟩
    rw [← Crc.width_of_ofParams hcrc]
    exact BitVec.isLt _

/-! ## The finished image -/

/-- The bytes stored for a checksum are those of the check over the range it declares. The range is read
from the layout's own image, as a loader would that verifies what it finds. -/
structure Layout.Verifies (l : Layout) (b : BlockRecord) (c : Checksum) (s : Symbol)
    (first last : UInt32) (data stored : List UInt8) (crc : Crc) : Prop where
  starts : first.toNat = b.address.toNat + c.coverage.first.toNat
  ends : last.toNat =
    match c.coverage.last with
    | .fixed distance => b.address.toNat + distance.toNat
    | .beforeSelf => s.address.toNat - 1
  forward : first.toNat ≤ last.toNat
  inside : b.address.toNat ≤ first.toNat ∧ last.toNat < b.stop
  apart : s.stop ≤ first.toNat ∨ last.toNat < s.address.toNat
  read : l.image.read? first last = some data
  check : Crc.ofParams c.type.bits c.params = .ok crc
  found : l.symbolBytes? s = some stored
  holds : patternOf b.byteOrder stored =
    (crc.checksum (accessOrder c.coverage.access.toNat c.coverage.swap data)).toNat

theorem Checksum.eq_of_range {c : Checksum} {base : UInt32} {place : PlacedField} {first last : Nat}
    (h : c.range base place = .ok (first, last)) :
    first = base.toNat + c.coverage.first.toNat ∧
      last = match c.coverage.last with
        | .fixed distance => base.toNat + distance.toNat
        | .beforeSelf => place.address.toNat - 1 := by
  unfold Checksum.range at h
  cases hlast : c.coverage.last with
  | fixed distance =>
    rw [hlast] at h
    cases h
    exact ⟨rfl, rfl⟩
  | beforeSelf =>
    rw [hlast] at h
    dsimp only at h
    split at h
    · cases h
    · cases h
      exact ⟨rfl, rfl⟩

variable {d : Declaration} {l : Layout}

/-- One checksum of one part. Ranges were resolved against the placement and values computed while the
block was built; here both are restated for the finished layout. -/
theorem Consists.verifies {parts : List Part} (h : Consists parts l.image l.symbols l.blocks)
    {p : Part} (hp : p ∈ parts) {q : Patch} (hq : q ∈ p.sheet.patches) {c : Checksum}
    (hlaid : Element.Laid p.container p.place.block p.place.address p.bytes
      (.field (.checksum c)) q) :
    ∃ first last data stored crc, l.Verifies p.record c q.symbol first last data stored crc := by
  obtain ⟨job, rfl, hsound, value, hvalue, rfl⟩ := hlaid
  obtain ⟨crc, hcrc, hcheck, hfits⟩ := ChecksumJob.exists_crc hvalue
  obtain ⟨hfirst, hlast⟩ := Checksum.eq_of_range hsound.range
  refine ⟨job.first, job.last, job.covered p.place.address p.bytes, _, crc, hfirst, hlast,
    hsound.forward, ⟨hsound.low, hsound.inside⟩, PlacedField.not_meetsRange_iff.1 hsound.own,
    h.read?_part hp hsound.low hsound.forward hsound.inside, hcrc, h.symbolBytes?_eq hp hq, ?_⟩
  exact (patternOf_patternBytes hfits).trans hcheck

/-- **Every stored checksum verifies against the final image.** The statement gives the record, the
symbol and the bytes, so it is what a loader would do that has the layout and the image and nothing else. -/
theorem Declaration.checksums_verify (h : d.compile = .ok l) {container : Container}
    (hcontainer : container ∈ d.containers) {block : Block} (hblock : block ∈ container.blocks)
    {c : Checksum} (hc : .checksum c ∈ block.fields) :
    ∃ b s, l.blocks.find? (·.name = block.name) = some b ∧ b.Declares container block ∧
      l.symbols.get? (fieldSymbolName block.name c.name) = some s ∧ s.kind = .checksum c.type ∧
      ∃ first last data stored crc, l.Verifies b c s first last data stored crc := by
  obtain ⟨hconsists, -⟩ := d.consists_of_compile h
  obtain ⟨p, hp, rfl, rfl⟩ := Declaration.part_of_mem h hcontainer hblock
  obtain ⟨q, hq, hlaid⟩ := hconsists.exists_patch hp (Block.mem_elements_of_field hc)
  have hdescribes := Element.describes_of_laid hlaid
  have hname : q.symbol.name = fieldSymbolName p.place.block.name c.name := hdescribes.name
  exact ⟨p.record, q.symbol, hconsists.find_record hp, rfl, hname ▸ hconsists.get?_symbol hp hq,
    hdescribes.kind, hconsists.verifies hp hq hlaid⟩

namespace Specimen

theorem contents_verifies :
    ∃ l, declaration.compile = .ok l ∧ ∃ b s,
      l.blocks.find? (·.name = "calibration") = some b ∧
        l.symbols.get? (fieldSymbolName "calibration" "contents") = some s ∧
        ∃ first last data stored crc, l.Verifies b contents s first last data stored crc := by
  have hcompiles : declaration.compile.isOk = true := by decide +kernel
  have hcontainer : flash ∈ declaration.containers := List.mem_cons_self
  have hblock : calibration ∈ flash.blocks := List.mem_cons_self
  have hc : Field.checksum contents ∈ calibration.fields :=
    List.mem_cons_of_mem _ (List.mem_cons_of_mem _ List.mem_cons_self)
  cases hl : declaration.compile with
  | error rejection =>
    rw [hl] at hcompiles
    cases hcompiles
  | ok l =>
    obtain ⟨b, s, hb, -, hs, -, hverifies⟩ :=
      Declaration.checksums_verify hl hcontainer hblock hc
    exact ⟨l, rfl, b, s, hb, hs, hverifies⟩

end Specimen

end FlashParams
