import FlashParams.Proofs.Revision.Fields

/-!
# The sheet of a revised block

From the places of the fields to the bytes of the block. The jobs of the checksums are moved with their
fields (`checksumJobs_moved`): the end of a range may be written differently, but it is the same byte.
The two sheets are then laid side by side, patch by patch, and neither the order of the patches nor the
size of any of them depends on what was revised.

The bytes do. `Patch.Moved` promises them only if the literals were kept, and then it promises those of
the checksums as well: a checksum reads its range relative to the start of the block, where both sheets
hold equal bytes at that time (`overlay_moved`).

That the revised sheet has no faults is not part of this comparison. It follows from what a sheet without
faults is (`Block.clean_iff`): its fields are placed, its ranges are in order, its literals have bytes,
and nothing else can go wrong.
-/

set_option autoImplicit false

namespace FlashParams

/-! ## Sheets without faults -/

def PlacedField.Encodes (order : ByteOrder) (p : PlacedField) : Prop :=
  ∀ q type, p.occupant = .parameter q type →
    ∃ bytes, type.encode (q.byteOrder.getD order) q.value = .ok bytes

section

variable {container : Container} {block : Block} {base : UInt32}

theorem Sheet.faults_putParameters {placed : List PlacedField} {s : Sheet}
    (h : ∀ p ∈ placed, p.Encodes block.byteOrder) :
    (placed.foldl (Sheet.putParameter container block) s).faults = s.faults := by
  induction placed generalizing s with
  | nil => rfl
  | cons p rest ih =>
    obtain ⟨hp, hrest⟩ := List.forall_mem_cons.1 h
    rw [List.foldl_cons, ih hrest, Sheet.putParameter]
    cases hocc : p.occupant with
    | checksum c => rfl
    | parameter q type =>
      obtain ⟨bytes, hbytes⟩ := hp q type hocc
      simp only [hbytes]
      rfl

theorem Sheet.faults_putChecksums {jobs : List ChecksumJob} {s : Sheet}
    (h : ∀ job ∈ jobs, ∃ crc, Crc.ofParams job.checksum.type.bits job.checksum.params = .ok crc) :
    (jobs.foldl (Sheet.putChecksum container block base) s).faults = s.faults := by
  induction jobs generalizing s with
  | nil => rfl
  | cons job rest ih =>
    obtain ⟨⟨crc, hcrc⟩, hrest⟩ := List.forall_mem_cons.1 h
    rw [List.foldl_cons, ih hrest, Sheet.putChecksum, ChecksumJob.valueOver, hcrc]
    rfl

/-- The sheet with all parameters laid and no checksum yet. What checksums cover is the same in two
sheets that agree up to here, and so they are compared at this point. -/
def Block.valueSheet (b : Block) (container : Container) (base : UInt32) : Sheet :=
  (b.place base).placed.foldl (Sheet.putParameter container b)
    { patches := (b.headerPatch? container base).toList
      faults := (b.place base).faults ++ (checksumJobs b base (b.place base).placed).2 }

theorem Block.sheet_eq (hplace : (block.place base).faults = [])
    (hranges : (checksumJobs block base (block.place base).placed).2 = [])
    (hencodes : ∀ p ∈ (block.place base).placed, p.Encodes block.byteOrder) :
    block.sheet container base = (checksumJobs block base (block.place base).placed).1.foldl
      (Sheet.putChecksum container block base) (block.valueSheet container base) := by
  have hnone : (block.valueSheet container base).faults = [] := by
    rw [Block.valueSheet, Sheet.faults_putParameters hencodes, hplace, hranges]
    rfl
  exact if_pos (by rw [List.isEmpty_iff]; exact hnone)

/-- **A sheet has no faults when its fields have places, its ranges are in order and its literals have
bytes.** No checksum adds one, since its configuration was tried when its range was resolved. -/
theorem Block.clean_iff (hstop : base.toNat + block.length.toNat ≤ 0x100000000) :
    (block.sheet container base).faults = [] ↔
      (block.place base).faults = [] ∧
        (checksumJobs block base (block.place base).placed).2 = [] ∧
        ∀ p ∈ (block.place base).placed, p.Encodes block.byteOrder := by
  constructor
  · intro h
    obtain ⟨values, sums, hfinished⟩ := Block.finished hstop h
    refine ⟨hfinished.placement, hfinished.ranges, fun p hp q type hocc => ?_⟩
    have hparameter : (!p.isChecksum) = true := by
      rw [PlacedField.isChecksum, hocc]
      rfl
    obtain ⟨patch, -, q', type', hocc', hbytes, -⟩ :=
      forall₂_exists_left hfinished.values p (List.mem_filter.2 ⟨hp, hparameter⟩)
    cases hocc.symm.trans hocc'
    exact ⟨_, hbytes⟩
  · rintro ⟨hplace, hranges, hencodes⟩
    rw [Block.sheet_eq hplace hranges hencodes, Sheet.faults_putChecksums, Block.valueSheet,
      Sheet.faults_putParameters hencodes, hplace, hranges]
    · rfl
    · exact fun job hjob => (sound_of_mem_jobs hstop job hjob).1.fit

end

/-! ## Revised blocks -/

/-- A block at an address and a revision of what it holds. Its own offset is not compared, as that is the
business of the container. -/
structure Block.Revises (kept : Prop) (address : UInt32) (b b' : Block) : Prop where
  name : b'.name = b.name
  length : b'.length = b.length
  align : b'.align = b.align
  fill : b'.fill = b.fill
  byteOrder : b'.byteOrder = b.byteOrder
  header : b'.header = b.header
  comment : b'.comment = b.comment
  fields : ∃ revised : List Occupant, b'.fields = revised.map (·.field) ∧
    List.Forall₂ (fun p o' => Occupant.Revises kept b.byteOrder address p.address p.occupant o')
      (b.place address).placed revised

theorem Block.Revises.refl {kept : Prop} {address : UInt32} {b : Block}
    (hstop : address.toNat + b.length.toNat ≤ 0x100000000) (h : (b.place address).faults = []) :
    b.Revises kept address b := by
  refine ⟨rfl, rfl, rfl, rfl, rfl, rfl, rfl, (b.place address).placed.map (·.occupant), ?_, ?_⟩
  · rw [List.map_map, ← Block.fields_of_no_fault h]
    rfl
  · rw [List.forall₂_map_right_iff]
    exact List.forall₂_same.2 fun p hp => .refl ((b.sound_place address hstop).typed p hp)

/-! ## Ranges -/

/-- The job of a checksum and that of its revision. The ranges are moved as a whole, ends included,
whether or not the end was written down in the same way. -/
structure ChecksumJob.Moved (kept : Prop) (order : ByteOrder) (base : UInt32) (δ : Int)
    (job job' : ChecksumJob) : Prop where
  place : job.place.Moved kept order base δ job'.place
  checksum : Occupant.Revises kept order base job.place.address (.checksum job.checksum)
    (.checksum job'.checksum)
  first : (job'.first.toNat : Int) = job.first.toNat + δ
  last : (job'.last.toNat : Int) = job.last.toNat + δ

section

variable {kept : Prop} {order : ByteOrder} {base base' : UInt32} {δ : Int}

theorem ChecksumJob.Moved.valueOver {job job' : ChecksumJob} (h : job.Moved kept order base δ job')
    (data : List UInt8) : job'.valueOver data = job.valueOver data := by
  have hchecksum := h.checksum
  obtain ⟨c, place, first, last⟩ := job
  obtain ⟨c', place', first', last'⟩ := job'
  cases hchecksum
  rfl

variable (hbase : (base'.toNat : Int) = base.toNat + δ)
include hbase

theorem ChecksumJob.Moved.covered {job job' : ChecksumJob} (h : job.Moved kept order base δ job')
    (bytes : List UInt8) : job'.covered base' bytes = job.covered base bytes := by
  have hfirst := h.first
  have hlast := h.last
  unfold ChecksumJob.covered
  congr 1
  · omega
  · congr 1
    omega

theorem Checksum.range_moved {c c' : Checksum} {place place' : PlacedField}
    (hrevised : Occupant.Revises kept order base place.address (.checksum c) (.checksum c'))
    (haddress : (place'.address.toNat : Int) = place.address.toNat + δ)
    (hlow : base.toNat ≤ place.address.toNat) {first last : Nat}
    (h : c.range base place = .ok (first, last)) :
    ∃ first' last', c'.range base' place' = .ok (first', last') ∧
      (first' : Int) = first + δ ∧ (last' : Int) = last + δ := by
  cases hrevised with
  | @checksum c offset end' _ hend =>
    unfold Checksum.range at h ⊢
    dsimp only at h ⊢
    rcases hend with rfl | ⟨hself, distance, rfl, hdistance⟩
    · cases hlast : c.coverage.last with
      | fixed distance =>
        rw [hlast] at h
        cases h
        exact ⟨_, _, rfl, by omega, by omega⟩
      | beforeSelf =>
        rw [hlast] at h
        dsimp only at h ⊢
        split at h
        · cases h
        · rename_i hne
          cases h
          have hne' := mt UInt32.toNat_inj.1 hne
          have hother : ¬ place'.address = base' := by
            rw [← UInt32.toNat_inj]
            omega
          rw [if_neg hother]
          exact ⟨_, _, rfl, by omega, by omega⟩
    · rw [hself] at h
      dsimp only at h
      split at h
      · cases h
      · cases h
        exact ⟨_, _, rfl, by omega, by omega⟩

omit hbase in
theorem PlacedField.Moved.meetsRange {p p' : PlacedField} (h : p.Moved kept order base δ p')
    {first first' last last' : Nat} (hfirst : (first' : Int) = first + δ)
    (hlast : (last' : Int) = last + δ) : p'.meetsRange first' last' = p.meetsRange first last := by
  have haddress := h.address
  have hstop := h.stop
  have hbefore : decide (first' < p'.stop) = decide (first < p.stop) :=
    decide_eq_decide.2 (by omega)
  have hafter : decide (p'.address.toNat ≤ last') = decide (p.address.toNat ≤ last) :=
    decide_eq_decide.2 (by omega)
  rw [PlacedField.meetsRange, PlacedField.meetsRange, hbefore, hafter]

variable {block block' : Block} (hlength : block'.length = block.length)
  (hstop : base.toNat + block.length.toNat ≤ 0x100000000)
  (hstop' : base'.toNat + block.length.toNat ≤ 0x100000000)
include hlength hstop hstop'

/-- **The range of a revised checksum passes the checks it passed before.** The checks look at distances
within the block, at its end and at later checksums, all of which are moved together. -/
theorem Checksum.job_moved {c c' : Checksum} {place place' : PlacedField}
    {later later' : List PlacedField} (hplace : place.Moved kept order base δ place')
    (hocc : place.occupant = .checksum c) (hocc' : place'.occupant = .checksum c')
    (hlow : base.toNat ≤ place.address.toNat)
    (hlater : List.Forall₂ (PlacedField.Moved kept order base δ) later later') {job : ChecksumJob}
    (h : c.job block base place later = .ok job) :
    ∃ job', c'.job block' base' place' later' = .ok job' ∧ job.Moved kept order base δ job' := by
  obtain ⟨first, last, hadm, hwords, rfl⟩ := Checksum.job_eq_ok_iff.1 h
  have hrevised := hplace.occupant
  rw [hocc, hocc'] at hrevised
  obtain ⟨first', last', hrange, hfirst, hlast⟩ :=
    Checksum.range_moved hbase hrevised hplace.address hlow hadm.resolved
  have hforward := hadm.forward
  have hinside := hadm.inside
  have hspan : last' - first' = last - first := by omega
  have hnarrow : (lowAddress first).toNat = first ∧ (lowAddress last).toNat = last ∧
      (lowAddress first').toNat = first' ∧ (lowAddress last').toNat = last' := by
    refine ⟨toNat_lowAddress ?_, toNat_lowAddress ?_, toNat_lowAddress ?_, toNat_lowAddress ?_⟩ <;>
      omega
  refine ⟨⟨c', place', lowAddress first', lowAddress last'⟩, Checksum.job_eq_ok_iff.2
    ⟨first', last', ⟨hrange, by omega, ?_, ?_, fun p' hp' hpc => ?_, ?_, ?_⟩, ?_, rfl⟩,
    hplace, hrevised, ?_, ?_⟩
  · rw [hlength]
    omega
  · rw [hplace.meetsRange hfirst hlast]
    exact hadm.own
  · obtain ⟨p, hp, hpair⟩ := forall₂_exists_right hlater p' hp'
    rw [hpair.meetsRange hfirst hlast]
    exact hadm.later p hp (hpair.isChecksum ▸ hpc)
  · cases hrevised
    exact hadm.access
  · cases hrevised
    exact hadm.fit
  · rw [hspan]
    cases hrevised
    exact hwords
  · dsimp only
    rw [hnarrow.1, hnarrow.2.2.1, hfirst]
  · dsimp only
    rw [hnarrow.2.1, hnarrow.2.2.2, hlast]

theorem checksumJobs_moved {placed placed' : List PlacedField}
    (hplaced : List.Forall₂ (PlacedField.Moved kept order base δ) placed placed')
    (hlow : ∀ p ∈ placed, base.toNat ≤ p.address.toNat)
    (h : (checksumJobs block base placed).2 = []) :
    (checksumJobs block' base' placed').2 = [] ∧
      List.Forall₂ (ChecksumJob.Moved kept order base δ) (checksumJobs block base placed).1
        (checksumJobs block' base' placed').1 := by
  induction hplaced with
  | nil => exact ⟨rfl, .nil⟩
  | @cons place place' later later' hpair hrest ih =>
    obtain ⟨hfirst, hlow⟩ := List.forall_mem_cons.1 hlow
    have hrevised := hpair.occupant
    unfold checksumJobs at h ⊢
    cases hocc : place.occupant with
    | parameter q type =>
      rw [hocc] at h hrevised
      generalize hocc' : place'.occupant = o' at hrevised ⊢
      cases hrevised
      exact ih hlow h
    | checksum c =>
      rw [hocc] at h hrevised
      generalize hocc' : place'.occupant = o' at hrevised ⊢
      cases hrevised with
      | @checksum _ offset last _ _ =>
        dsimp only at h ⊢
        split at h
        · rename_i job hjob
          obtain ⟨job', hjob', hjobs⟩ :=
            Checksum.job_moved hbase hlength hstop hstop' hpair hocc hocc' hfirst hrest hjob
          obtain ⟨hfaults, hpairs⟩ := ih hlow h
          rw [hjob']
          exact ⟨hfaults, .cons hjobs hpairs⟩
        · cases h

end

/-! ## Patches -/

structure Symbol.Moved (δ : Int) (s s' : Symbol) : Prop where
  same : s' = { s with address := s'.address }
  address : (s'.address.toNat : Int) = s.address.toNat + δ

structure Patch.Moved (kept : Prop) (δ : Int) (p p' : Patch) : Prop where
  symbol : p.symbol.Moved δ p'.symbol
  bytes : kept → p'.bytes = p.bytes

section

variable {kept : Prop} {base base' : UInt32} {δ : Int} (hbase : (base'.toNat : Int) = base.toNat + δ)

include hbase in
/-- Equal patches at moved places give equal bytes. Addresses enter only as distances from the block, and
those are the same. -/
theorem overlay_moved {patches patches' : List Patch}
    (h : List.Forall₂ (Patch.Moved kept δ) patches patches') (hkept : kept) (bytes : List UInt8) :
    overlay base' bytes patches' = overlay base bytes patches := by
  induction h generalizing bytes with
  | nil => rfl
  | @cons p p' rest rest' hp _ ih =>
    have hover : p'.over base' bytes = p.over base bytes := by
      have haddress := hp.symbol.address
      unfold Patch.over
      rw [hp.bytes hkept]
      congr 1
      omega
    show overlay base' (p'.over base' bytes) rest' = overlay base (p.over base bytes) rest
    rw [hover, ih]

variable {container container' : Container} (hcontainer : container'.name = container.name)
  {block block' : Block} (hblock : block.Revises kept base block')

include hcontainer hblock

theorem PlacedField.Moved.symbol {p p' : PlacedField}
    (h : p.Moved kept block.byteOrder base δ p') (order : ByteOrder) :
    (p.symbol container block order).Moved δ (p'.symbol container' block' order) := by
  refine ⟨?_, h.address⟩
  unfold PlacedField.symbol
  rw [hcontainer, hblock.name, h.name, h.size, h.occupant.kind, h.occupant.comment]

theorem Sheet.patches_putParameter {s s' : Sheet}
    (hs : List.Forall₂ (Patch.Moved kept δ) s.patches s'.patches) {p p' : PlacedField}
    (h : p.Moved kept block.byteOrder base δ p') (hp : p.Encodes block.byteOrder) :
    List.Forall₂ (Patch.Moved kept δ) (s.putParameter container block p).patches
      (s'.putParameter container' block' p').patches := by
  have hrevised := h.occupant
  have hsymbol := h.symbol hcontainer hblock
  unfold Sheet.putParameter
  cases hocc : p.occupant with
  | checksum c =>
    rw [hocc] at hrevised
    generalize p'.occupant = o' at hrevised ⊢
    cases hrevised
    exact hs
  | parameter q type =>
    obtain ⟨bytes, hbytes⟩ := hp q type hocc
    rw [hocc] at hrevised
    generalize p'.occupant = o' at hrevised ⊢
    cases hrevised with
    | @parameter _ _ offset declared value _ _ hvalue hencodes =>
      obtain ⟨bytes', hbytes'⟩ := hencodes ⟨bytes, hbytes⟩
      dsimp only
      rw [hblock.byteOrder, hbytes, hbytes']
      refine List.rel_append hs (.cons ⟨hsymbol _, fun hkept => ?_⟩ .nil)
      rw [hvalue hkept, hbytes] at hbytes'
      exact (Except.ok.inj hbytes').symm

include hbase in
theorem Sheet.patches_putChecksum {s s' : Sheet}
    (hs : List.Forall₂ (Patch.Moved kept δ) s.patches s'.patches) {job job' : ChecksumJob}
    (h : job.Moved kept block.byteOrder base δ job')
    (hfit : ∃ crc, Crc.ofParams job.checksum.type.bits job.checksum.params = .ok crc) :
    List.Forall₂ (Patch.Moved kept δ) (s.putChecksum container block base job).patches
      (s'.putChecksum container' block' base' job').patches := by
  obtain ⟨crc, hcrc⟩ := hfit
  have hvalue : ∀ data, ∃ value, job.valueOver data = .ok value := by
    intro data
    rw [ChecksumJob.valueOver, hcrc]
    exact ⟨_, rfl⟩
  obtain ⟨value, hvalue₁⟩ := hvalue (job.covered base (block.bytesWith base s.patches))
  obtain ⟨value', hvalue₂⟩ := hvalue (job'.covered base' (block'.bytesWith base' s'.patches))
  have htype : job'.checksum.type = job.checksum.type :=
    SymbolKind.checksum.inj h.checksum.kind
  unfold Sheet.putChecksum
  rw [h.valueOver, hvalue₁, hvalue₂, hblock.byteOrder, htype]
  refine List.rel_append hs (.cons ⟨h.place.symbol hcontainer hblock _, fun hkept => ?_⟩ .nil)
  -- with equal bytes in both blocks the values are the same
  have hbytes : block'.bytesWith base' s'.patches = block.bytesWith base s.patches := by
    rw [Block.bytesWith, Block.bytesWith, Block.blank, Block.blank, hblock.length, hblock.fill]
    exact overlay_moved hbase hs hkept _
  rw [hbytes, h.covered hbase, hvalue₁] at hvalue₂
  rw [Except.ok.inj hvalue₂]

include hbase in
theorem Block.headerPatch_moved :
    List.Forall₂ (Patch.Moved kept δ) (block.headerPatch? container base).toList
      (block'.headerPatch? container' base').toList := by
  unfold Block.headerPatch?
  rw [hblock.header]
  cases block.header with
  | none => exact .nil
  | some header =>
    dsimp only
    rw [hblock.length, hblock.byteOrder]
    split
    · refine .cons ⟨⟨?_, hbase⟩, fun _ => rfl⟩ .nil
      unfold Block.headerSymbol
      rw [hcontainer, hblock.name, hblock.byteOrder]
    · exact .nil

include hbase in
/-- **The sheet of a revised block has the patches of the block, moved.** If literals were kept, so were
the bytes of every patch, those of checksums included. -/
theorem Block.sheet_moved (hδ : 16384 ∣ δ) (hstop : base.toNat + block.length.toNat ≤ 0x100000000)
    (hstop' : base'.toNat + block.length.toNat ≤ 0x100000000)
    (h : (block.sheet container base).faults = []) :
    (block'.sheet container' base').faults = [] ∧
      List.Forall₂ (Patch.Moved kept δ) (block.sheet container base).patches
        (block'.sheet container' base').patches := by
  obtain ⟨hplace, hranges, hencodes⟩ := (Block.clean_iff hstop).1 h
  obtain ⟨revised, hfields, hrevised⟩ := hblock.fields
  obtain ⟨hplace', hplaced⟩ := Block.place_moved hδ hbase hblock.length hblock.header hstop hstop'
    hplace hfields hrevised
  have hlow := (block.sound_place base hstop).low
  obtain ⟨hranges', hjobs⟩ :=
    checksumJobs_moved hbase hblock.length hstop hstop' hplaced hlow hranges
  have hencodes' : ∀ p' ∈ (block'.place base').placed, p'.Encodes block'.byteOrder := by
    intro p' hp' q' type' hocc'
    obtain ⟨p, hp, hpair⟩ := forall₂_exists_right hplaced p' hp'
    have hoccupant := hpair.occupant
    rw [hocc'] at hoccupant
    generalize hocc : p.occupant = o at hoccupant
    cases hoccupant with
    | parameter _ _ _ hvalue =>
      rw [hblock.byteOrder]
      exact hvalue (hencodes p hp _ _ hocc)
  have hstop'' : base'.toNat + block'.length.toNat ≤ 0x100000000 := by rwa [hblock.length]
  refine ⟨(Block.clean_iff hstop'').2 ⟨hplace', hranges', hencodes'⟩, ?_⟩
  rw [Block.sheet_eq hplace hranges hencodes, Block.sheet_eq hplace' hranges' hencodes']
  -- the parameters side by side, then the checksums
  have hvalues : List.Forall₂ (Patch.Moved kept δ) (block.valueSheet container base).patches
      (block'.valueSheet container' base').patches :=
    List.rel_foldl
      (P := fun s s' : Sheet => List.Forall₂ (Patch.Moved kept δ) s.patches s'.patches)
      (R := fun p p' => p.Encodes block.byteOrder ∧ p.Moved kept block.byteOrder base δ p')
      (fun _ _ hs p p' hp => Sheet.patches_putParameter hcontainer hblock hs hp.2 hp.1)
      (Block.headerPatch_moved hbase hcontainer hblock)
      ((List.forall₂_and_left _ _).2 ⟨hencodes, hplaced⟩)
  exact List.rel_foldl
    (P := fun s s' : Sheet => List.Forall₂ (Patch.Moved kept δ) s.patches s'.patches)
    (R := fun job job' => job.Sound block base ∧ job.Moved kept block.byteOrder base δ job')
    (fun _ _ hs job job' hjob => Sheet.patches_putChecksum hbase hcontainer hblock hs hjob.2 hjob.1.fit)
    hvalues
    ((List.forall₂_and_left _ _).2 ⟨fun job hjob => (sound_of_mem_jobs hstop job hjob).1, hjobs⟩)

end

end FlashParams
