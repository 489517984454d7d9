import FlashParams.Layout.Assembly
import FlashParams.Proofs.Assembly.Patch
import FlashParams.Proofs.Image.Insert
import FlashParams.Proofs.Placement.Coverage
import FlashParams.Proofs.Placement.Fields
import FlashParams.Proofs.Value.Length

/-!
# A block on its own

`Draft` works on the image all blocks share, and its faults include two that speak of that image: a
write outside every segment, a range that is not in the image. `Sheet` is the same block without an
image. It knows the patches laid so far and the faults found, and its checksums read the bytes those
patches give.

`Draft.Shows` ties the two: the image is the one before the block plus *one* segment, whose bytes are
those of the sheet. Every operation keeps it (`Shows.put` is the one that touches bytes, the others
are case splits around it), so a finished draft is a finished sheet put into the image
(`shows_build`). Two things come with that and cost nothing further:

* a block's bytes, symbols and faults depend on the block, its address and its container's name,
  never on what is in the image already;
* neither of the two faults about the image is ever reported, since a sheet cannot express them.

What the tie needs of the image is `Image.Room`: it is well-formed and the block's span is free.
`Image.withBytes` is `insert` with the one exception the assembler makes, that a span without bytes is
not stored at all.
-/

set_option autoImplicit false

namespace FlashParams

/-! ## Room for a block in an image -/

/-- A well-formed image with a free span inside the address space. It is what a block finds when it is
tried, and all that is needed of an image for the draft in it to be computed without one. -/
structure Image.Room (m : Image) (base : UInt32) (length : Nat) : Prop where
  wellFormed : m.WellFormed
  free : m.Free base.toNat length
  stop : base.toNat + length ≤ 0x100000000

/-- The image with bytes put into a free span; a span without bytes is not stored. An empty segment would
break the order of the segments, and it could not be read back either. -/
def Image.withBytes (m : Image) (base : UInt32) (bytes : List UInt8) : Image :=
  if bytes = [] then m else m.insert ⟨base, bytes⟩

section

variable {m : Image} {base : UInt32} {bytes : List UInt8}

theorem Image.withBytes_of_pos (h : 0 < bytes.length) :
    m.withBytes base bytes = m.insert ⟨base, bytes⟩ :=
  if_neg (List.length_pos_iff.1 h)

theorem Image.Room.insert (hm : m.Room base bytes.length) (hpos : 0 < bytes.length) :
    (m.insert ⟨base, bytes⟩).WellFormed :=
  hm.wellFormed.insert (List.length_pos_iff.1 hpos) hm.stop hm.free

theorem Image.Room.withBytes (hm : m.Room base bytes.length) :
    (m.withBytes base bytes).WellFormed := by
  unfold Image.withBytes
  split
  · exact hm.wellFormed
  · rename_i hne
    exact hm.insert (List.length_pos_iff.2 hne)

theorem Image.Room.base_ne (hm : m.Room base bytes.length) (hne : bytes ≠ []) :
    ∀ t ∈ m.segments, t.base ≠ base :=
  hm.free.base_ne hm.wellFormed (List.length_pos_iff.2 hne)

theorem Image.Room.perm_withBytes (hm : m.Room base bytes.length) (hne : bytes ≠ []) :
    (m.withBytes base bytes).segments.Perm (⟨base, bytes⟩ :: m.segments) := by
  rw [Image.withBytes, if_neg hne]
  exact Image.perm_insert (s := ⟨base, bytes⟩) (hm.base_ne hne)

theorem Image.Room.discard_withBytes (hm : m.Room base bytes.length) (hne : bytes ≠ []) :
    (m.withBytes base bytes).discard base = m := by
  rw [Image.withBytes, if_neg hne]
  exact Image.discard_insert (s := ⟨base, bytes⟩) (hm.base_ne hne)

theorem Image.fill?_eq (m : Image) {length : Nat} (byte : UInt8) (h : base.toNat + length ≤ 0x100000000) :
    m.fill? base length byte = some (m.withBytes base (List.replicate length byte)) := by
  have hspace : inAddressSpace base length = true := decide_eq_true h
  unfold Image.fill? Image.withBytes
  rw [if_pos hspace]
  by_cases hzero : length = 0
  · rw [if_pos hzero, hzero]
    rfl
  · rw [if_neg hzero, if_neg (by simpa using hzero)]

end

/-! ## Sheets -/

def Block.blank (b : Block) : List UInt8 :=
  List.replicate b.length.toNat b.fill

def Block.bytesWith (b : Block) (base : UInt32) (patches : List Patch) : List UInt8 :=
  overlay base b.blank patches

/-- The patch of the header, if one is declared and the block has room for it. Without room the header is
a fault of the placement, and nothing is written for it. -/
def Block.headerPatch? (b : Block) (container : Container) (base : UInt32) : Option Patch :=
  match b.header with
  | some header =>
    if Header.size ≤ b.length.toNat then
      some ⟨b.headerSymbol container base, header.bytes b.length b.byteOrder⟩
    else none
  | none => none

def ChecksumJob.covered (job : ChecksumJob) (base : UInt32) (bytes : List UInt8) : List UInt8 :=
  (bytes.drop (job.first.toNat - base.toNat)).take (job.last.toNat - job.first.toNat + 1)

def ChecksumJob.valueOver (job : ChecksumJob) (data : List UInt8) : Except Fault Nat :=
  match Crc.ofParams job.checksum.type.bits job.checksum.params with
  | .error reason => .error (.malformedChecksum job.checksum.name (.unfit reason))
  | .ok crc =>
    let coverage := job.checksum.coverage
    .ok (crc.checksum (accessOrder coverage.access.toNat coverage.swap data)).toNat

/-- A block under construction: what has been laid over its fill bytes, and what is wrong. It does
without an image and without stages, and so it is a function of the block and its address alone. -/
structure Sheet where
  patches : List Patch
  faults : List Fault

namespace Sheet

def put (s : Sheet) (p : Patch) : Sheet :=
  { s with patches := s.patches ++ [p] }

def fail (s : Sheet) (fault : Fault) : Sheet :=
  { s with faults := s.faults ++ [fault] }

def putParameter (container : Container) (block : Block) (s : Sheet) (place : PlacedField) :
    Sheet :=
  match place.occupant with
  | .checksum _ => s
  | .parameter p type =>
    let order := p.byteOrder.getD block.byteOrder
    match type.encode order p.value with
    | .ok bytes => s.put ⟨place.symbol container block order, bytes⟩
    | .error cause => s.fail (.valueRange p.name type.name cause)

/-- Computes a checksum over the patches laid so far and lays it. The code reads those bytes back from
the image; `Draft.Shows.value_eq` says that they are the same. -/
def putChecksum (container : Container) (block : Block) (base : UInt32) (s : Sheet)
    (job : ChecksumJob) : Sheet :=
  match job.valueOver (job.covered base (block.bytesWith base s.patches)) with
  | .error fault => s.fail fault
  | .ok value =>
    s.put ⟨job.place.symbol container block block.byteOrder,
      job.checksum.type.patternBytes block.byteOrder value⟩

end Sheet

/-- A block at an address, from its fields to its last checksum. It is what a draft comes to when none of
its writes fails, and none does. -/
def Block.sheet (b : Block) (container : Container) (base : UInt32) : Sheet :=
  let placed := (b.place base).placed
  let jobs := checksumJobs b base placed
  let s : Sheet :=
    { patches := (b.headerPatch? container base).toList
      faults := (b.place base).faults ++ jobs.2 }
  let s := placed.foldl (Sheet.putParameter container b) s
  if s.faults.isEmpty then jobs.1.foldl (Sheet.putChecksum container b base) s else s

/-! ## A draft shows a sheet -/

/-- The draft is the sheet, put into an image at the place of its block. All stages of the draft keep
this relation, and in the end it turns a statement about images into one about lists of bytes. -/
structure Draft.Shows (m : Image) (block : Block) (base : UInt32) (d : Draft) (s : Sheet) : Prop where
  image : d.image = m.withBytes base (block.bytesWith base s.patches)
  symbols : d.symbols = s.patches.map (·.symbol)
  faults : d.faults = s.faults
  fits : ∀ p ∈ s.patches, p.Fits base block.length.toNat

structure PlacedField.Fits (base : UInt32) (length : Nat) (p : PlacedField) : Prop where
  sized : p.size.toNat = p.occupant.kind.size
  low : base.toNat ≤ p.address.toNat
  starts : p.address.toNat < base.toNat + length
  ends : p.stop ≤ base.toNat + length

theorem Block.fits_of_mem_place {b : Block} {base : UInt32}
    (hstop : base.toNat + b.length.toNat ≤ 0x100000000) :
    ∀ p ∈ (b.place base).placed, p.Fits base b.length.toNat := by
  intro p hp
  have h := b.sound_place base hstop
  exact ⟨h.sized p hp, h.low p hp, h.starts p hp, h.ends p hp⟩

theorem PlacedField.Fits.patch {base : UInt32} {length : Nat} {p : PlacedField}
    (h : p.Fits base length) (container : Container) (block : Block) (order : ByteOrder)
    {bytes : List UInt8} (hlen : bytes.length = p.occupant.kind.size) :
    Patch.Fits base length ⟨p.symbol container block order, bytes⟩ := by
  refine ⟨?_, h.low, h.starts, h.ends⟩
  show bytes.length = p.size.toNat
  rw [hlen, h.sized]

theorem Block.fits_header {b : Block} {base : UInt32} (container : Container) (header : Header)
    (hroom : Header.size ≤ b.length.toNat) :
    Patch.Fits base b.length.toNat
      ⟨b.headerSymbol container base, header.bytes b.length b.byteOrder⟩ := by
  have hsize : (UInt32.ofNat Header.size).toNat = Header.size := rfl
  refine ⟨?_, Nat.le_refl _, ?_, ?_⟩
  · exact Header.length_bytes header b.length b.byteOrder
  · show base.toNat < base.toNat + b.length.toNat
    rw [Header.size] at hroom
    omega
  · show base.toNat + (UInt32.ofNat Header.size).toNat ≤ base.toNat + b.length.toNat
    omega

theorem Block.fits_of_mem_jobs {b : Block} {base : UInt32}
    (hstop : base.toNat + b.length.toNat ≤ 0x100000000) :
    ∀ job ∈ (checksumJobs b base (b.place base).placed).1,
      job.Sound b base ∧ job.place.Fits base b.length.toNat := by
  intro job hjob
  obtain ⟨hsound, hmem⟩ := sound_of_mem_jobs hstop job hjob
  exact ⟨hsound, b.fits_of_mem_place hstop _ hmem⟩

section

variable {m : Image} {container : Container} {block : Block} {base : UInt32}

theorem Block.length_blank (b : Block) : b.blank.length = b.length.toNat :=
  List.length_replicate

theorem Block.length_bytesWith {patches : List Patch}
    (h : ∀ p ∈ patches, p.Fits base block.length.toNat) :
    (block.bytesWith base patches).length = block.length.toNat := by
  rw [← block.length_blank] at h ⊢
  exact length_overlay h

namespace Draft.Shows

variable {d : Draft} {s : Sheet}

theorem fail (h : d.Shows m block base s) (fault : Fault) :
    (d.fail fault).Shows m block base (s.fail fault) := by
  refine ⟨h.image, h.symbols, ?_, h.fits⟩
  show d.faults ++ [fault] = s.faults ++ [fault]
  rw [h.faults]

theorem advance (h : d.Shows m block base s) (stage : Stage) :
    (d.advance block stage).Shows m block base s :=
  ⟨h.image, h.symbols, h.faults, h.fits⟩

theorem image_insert (hm : m.Room base block.length.toNat) (h : d.Shows m block base s)
    (hpos : 0 < block.length.toNat) :
    d.image = m.insert ⟨base, block.bytesWith base s.patches⟩ ∧
      (m.insert ⟨base, block.bytesWith base s.patches⟩).WellFormed := by
  rw [← Block.length_bytesWith h.fits] at hm hpos
  exact ⟨h.image.trans (Image.withBytes_of_pos hpos), hm.insert hpos⟩

/-- **Writing a patch that fits succeeds, and changes the block's own segment only.** The write finds its
segment because the segment starts at the block, however many others there are. -/
theorem put (hm : m.Room base block.length.toNat) (h : d.Shows m block base s) {p : Patch}
    (hp : p.Fits base block.length.toNat) (name : String) :
    (d.put name p.symbol.address p.bytes p.symbol).Shows m block base (s.put p) := by
  have hfits : ∀ q ∈ s.patches ++ [p], q.Fits base block.length.toNat :=
    List.forall_mem_append.2 ⟨h.fits, List.forall_mem_singleton.2 hp⟩
  have hlen := Block.length_bytesWith h.fits
  have hlen' := Block.length_bytesWith hfits
  have hlow := hp.low
  have hstarts := hp.starts
  have hends := hp.ends
  have hpos : 0 < block.length.toNat := by omega
  obtain ⟨himage, hwf⟩ := h.image_insert hm hpos
  have hbytes : block.bytesWith base (s.patches ++ [p]) =
      Segment.splice (block.bytesWith base s.patches)
        (p.symbol.address.toNat - base.toNat) p.bytes :=
    overlay_append base block.blank s.patches [p]
  -- the segment written to is the one put in last, so only its bytes change
  have hwrite : d.image.write? p.symbol.address p.bytes =
      some (m.insert ⟨base, block.bytesWith base (s.patches ++ [p])⟩) := by
    rw [himage, hbytes]
    refine Image.write?_insert hwf hlow ?_ ?_
    · show _ < base.toNat + (block.bytesWith base s.patches).length
      omega
    · show _ ≤ base.toNat + (block.bytesWith base s.patches).length
      rw [hp.sized]
      rw [Symbol.stop] at hends
      omega
  unfold Draft.put
  rw [hwrite]
  refine ⟨?_, ?_, h.faults, hfits⟩
  · exact (Image.withBytes_of_pos (by rw [hlen']; exact hpos)).symm
  · show d.symbols ++ [p.symbol] = (s.patches ++ [p]).map (·.symbol)
    rw [h.symbols, List.map_append, List.map_singleton]

theorem putHeader (container : Container) (hm : m.Room base block.length.toNat) {faults : List Fault}
    (h : d.Shows m block base ⟨[], faults⟩) :
    (d.putHeader container block base).Shows m block base
      ⟨(block.headerPatch? container base).toList, faults⟩ := by
  unfold Draft.putHeader Block.headerPatch?
  cases block.header with
  | none => exact h
  | some header =>
    dsimp only
    split
    · rename_i hroom
      exact h.put hm (p := ⟨block.headerSymbol container base, _⟩)
        (Block.fits_header container header hroom) _
    · exact h

theorem putParameter (hm : m.Room base block.length.toNat) (h : d.Shows m block base s)
    {place : PlacedField} (hplace : place.Fits base block.length.toNat) :
    (d.putParameter container block place).Shows m block base
      (s.putParameter container block place) := by
  unfold Draft.putParameter Sheet.putParameter
  cases hocc : place.occupant with
  | checksum c => exact h
  | parameter p type =>
    dsimp only
    cases hbytes : type.encode (p.byteOrder.getD block.byteOrder) p.value with
    | error cause => exact h.fail _
    | ok bytes =>
      have hlen : bytes.length = place.occupant.kind.size := by
        rw [hocc]
        exact StoredType.length_of_encode hbytes
      exact h.put hm (hplace.patch container block _ hlen) p.name

theorem putParameters (container : Container) (hm : m.Room base block.length.toNat)
    {placed : List PlacedField}
    (h : d.Shows m block base s) (hplaced : ∀ p ∈ placed, p.Fits base block.length.toNat) :
    (placed.foldl (Draft.putParameter container block) d).Shows m block base
      (placed.foldl (Sheet.putParameter container block) s) := by
  induction placed generalizing d s with
  | nil => exact h
  | cons place rest ih =>
    exact ih (h.putParameter hm (hplaced place List.mem_cons_self))
      fun p hp => hplaced p (List.mem_cons_of_mem _ hp)

/-- A checksum reads in the image what its sheet has there. The range lies in the block, so the read
stays within one segment. -/
theorem value_eq (hm : m.Room base block.length.toNat) (h : d.Shows m block base s)
    {job : ChecksumJob} (hjob : job.Sound block base) :
    job.value d.image = job.valueOver (job.covered base (block.bytesWith base s.patches)) := by
  have hlen := Block.length_bytesWith h.fits
  have hlow := hjob.low
  have hforward := hjob.forward
  have hinside := hjob.inside
  obtain ⟨himage, hwf⟩ := h.image_insert hm (by omega)
  have hread : d.image.read? job.first job.last =
      some (job.covered base (block.bytesWith base s.patches)) := by
    rw [himage]
    refine Image.read?_of_mem hwf (Image.mem_insert_self _ _) hlow hforward ?_
    show _ < base.toNat + (block.bytesWith base s.patches).length
    omega
  cases hcrc : Crc.ofParams job.checksum.type.bits job.checksum.params with
  | error reason => simp only [ChecksumJob.value, ChecksumJob.valueOver, hcrc]
  | ok crc => simp only [ChecksumJob.value, ChecksumJob.valueOver, hcrc, hread]

theorem putChecksum (hm : m.Room base block.length.toNat) (h : d.Shows m block base s)
    {job : ChecksumJob} (hjob : job.Sound block base)
    (hplace : job.place.Fits base block.length.toNat) :
    (d.putChecksum container block job).Shows m block base
      (s.putChecksum container block base job) := by
  unfold Draft.putChecksum Sheet.putChecksum
  rw [h.value_eq hm hjob]
  cases job.valueOver (job.covered base (block.bytesWith base s.patches)) with
  | error fault => exact h.fail fault
  | ok value =>
    have hlen : (job.checksum.type.patternBytes block.byteOrder value).length =
        job.place.occupant.kind.size := by
      rw [hjob.occupant]
      exact ByteOrder.length_bytes _ _ _
    refine Draft.Shows.put hm (d := { d with journal := d.journal ++ [job.entry value] })
      ⟨h.image, h.symbols, h.faults, h.fits⟩ (hplace.patch container block _ hlen) _

theorem putChecksums (hm : m.Room base block.length.toNat) {jobs : List ChecksumJob}
    (h : d.Shows m block base s)
    (hjobs : ∀ job ∈ jobs, job.Sound block base ∧ job.place.Fits base block.length.toNat) :
    (jobs.foldl (Draft.putChecksum container block) d).Shows m block base
      (jobs.foldl (Sheet.putChecksum container block base) s) := by
  induction jobs generalizing d s with
  | nil => exact h
  | cons job rest ih =>
    obtain ⟨hsound, hfits⟩ := hjobs job List.mem_cons_self
    exact ih (h.putChecksum hm hsound hfits) fun j hj => hjobs j (List.mem_cons_of_mem _ hj)

end Draft.Shows

/-- **A finished draft is a finished sheet**, except that only the draft compares its symbols with a
table. -/
theorem shows_build (table : SymbolTable) (container : Container) (hm : m.Room base block.length.toNat) {d : Draft}
    (himage : d.image = m.withBytes base block.blank) (hsymbols : d.symbols = [])
    (hfaults : d.faults = (block.place base).faults
      ++ (checksumJobs block base (block.place base).placed).2) :
    let s := block.sheet container base
    let built := Assembly.Draft.build table container block base (block.place base).placed
      (checksumJobs block base (block.place base).placed).1 d
    built.image = m.withBytes base (block.bytesWith base s.patches) ∧
      built.symbols = s.patches.map (·.symbol) ∧
      built.faults = s.faults ++ Draft.clashes table [] (s.patches.map (·.symbol)) ∧
      ∀ p ∈ s.patches, p.Fits base block.length.toNat := by
  have hplaced := block.fits_of_mem_place hm.stop
  have hjobs := block.fits_of_mem_jobs hm.stop
  have hstart : d.Shows m block base ⟨[], (block.place base).faults
      ++ (checksumJobs block base (block.place base).placed).2⟩ :=
    ⟨himage, hsymbols, hfaults, List.forall_mem_nil _⟩
  have hvalues := ((hstart.putHeader container hm).putParameters container hm hplaced).advance
    .valuesPlaced
  -- the third stage is skipped on both sides or on neither, the faults being the same
  have hfinal : ∀ {e : Draft} {s : Sheet}, e.Shows m block base s →
      (if e.faults.isEmpty then
        (checksumJobs block base (block.place base).placed).1.foldl
          (Draft.putChecksum container block) e else e).Shows m block base
      (if s.faults.isEmpty then
        (checksumJobs block base (block.place base).placed).1.foldl
          (Sheet.putChecksum container block base) s else s) := by
    intro e s h
    rw [h.faults]
    split
    · exact h.putChecksums hm hjobs
    · exact h
  have h := hfinal hvalues
  refine ⟨h.image, h.symbols, ?_, h.fits⟩
  show _ ++ Draft.clashes table [] _ = _ ++ Draft.clashes table [] _
  rw [h.faults, h.symbols]
  rfl

/-- The patches of a block fit it. The draft that shows this starts from an empty image: where the block
stands among others has no part in it. -/
theorem Block.fits_sheet (container : Container) (hstop : base.toNat + block.length.toNat ≤ 0x100000000) :
    ∀ p ∈ (block.sheet container base).patches, p.Fits base block.length.toNat := by
  have hroom : Image.empty.Room base block.length.toNat :=
    ⟨Image.wellFormed_empty, List.forall_mem_nil _, hstop⟩
  let d : Draft :=
    { stage := .empty
      image := Image.empty.withBytes base block.blank
      symbols := []
      faults := (block.place base).faults
        ++ (checksumJobs block base (block.place base).placed).2
      journal := [] }
  exact (shows_build .empty container hroom (d := d) rfl rfl rfl).2.2.2

end

end FlashParams
