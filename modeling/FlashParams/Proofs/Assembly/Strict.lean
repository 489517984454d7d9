import FlashParams.Proofs.Assembly.External

/-!
# Checks that never fail

The assembler looks at its own work in five places. A block takes its stages one at a time; the span
of a block can be filled; what has been placed can be written; the check of a checksum can be set up
a second time; the range of a checksum can be read. None of these is about the declaration. If one of
them did not hold, the assembler would contradict itself, and what it does then (a fault of the image,
a stage left out) is nothing a user could act on.

`Strict` is the assembler that insists: step by step it does what `Assembly` does, but where one of the
five does not hold it gives up the whole run. `Strict.run_eq_assembly` says that it never does, whatever
the containers are. It has the state of the plain run at the end, and no diagnostic in it speaks of the
image.

Both halves come from `Draft.Shows`. A sheet has no fault of the image, so a draft that shows one
after a write has none either, and the write took place; it keeps showing one however many *other*
faults the block has collected on the way.
-/

set_option autoImplicit false

namespace FlashParams

/-! ## The assembler that insists -/

namespace Strict

/-- Goes on with `next` if `check` holds; the run ends here if not. A check of the source on itself
reports an error and carries on, which hides the failure from statements about the end; here it does not. -/
def insist {α : Type} (check : Bool) (next : α) : Option α :=
  if check then some next else none

theorem insist_eq {α : Type} {check : Bool} (h : check = true) (next : α) :
    insist check next = some next :=
  if_pos h

def advance (block : Block) (stage : Stage) (d : Draft) : Option Draft :=
  insist (d.stage.next? = some stage) (d.advance block stage)

theorem advance_eq (block : Block) {stage : Stage} {d : Draft} (h : d.stage.next? = some stage) :
    advance block stage d = some (d.advance block stage) :=
  insist_eq (decide_eq_true h) _

def put (name : String) (address : UInt32) (bytes : List UInt8) (symbol : Symbol) (d : Draft) :
    Option Draft :=
  insist (d.image.write? address bytes).isSome (d.put name address bytes symbol)

def putHeader (container : Container) (block : Block) (address : UInt32) (d : Draft) :
    Option Draft :=
  match block.header with
  | some header =>
    if Header.size ≤ block.length.toNat then
      put block.name address (header.bytes block.length block.byteOrder)
        (block.headerSymbol container address) d
    else some d
  | none => some d

def putParameter (container : Container) (block : Block) (d : Draft) (place : PlacedField) :
    Option Draft :=
  match place.occupant with
  | .checksum _ => some d
  | .parameter p type =>
    let order := p.byteOrder.getD block.byteOrder
    match type.encode order p.value with
    | .ok bytes => put p.name place.address bytes (place.symbol container block order) d
    | .error cause => some (d.fail (.valueRange p.name type.name cause))

/-- The value of a checksum: its check can be set up, and its range is in the image. The code has looked
at both before, when the range was resolved, and looks again. -/
def checksumValue (job : ChecksumJob) (image : Image) : Option Nat :=
  match Crc.ofParams job.checksum.type.bits job.checksum.params with
  | .error _ => none
  | .ok crc =>
    match image.read? job.first job.last with
    | none => none
    | some bytes =>
      let coverage := job.checksum.coverage
      some (crc.checksum (accessOrder coverage.access.toNat coverage.swap bytes)).toNat

def putChecksum (container : Container) (block : Block) (d : Draft) (job : ChecksumJob) :
    Option Draft := do
  let value ← checksumValue job d.image
  let noted := { d with journal := d.journal ++ [job.entry value] }
  put job.checksum.name job.place.address (job.checksum.type.patternBytes block.byteOrder value)
    (job.place.symbol container block block.byteOrder) noted

def resolved (a : Assembly) (block : Block) (address : UInt32) :
    Option (Draft × List PlacedField × List ChecksumJob) := do
  let run := block.place address
  let (jobs, faults) := checksumJobs block address run.placed
  let draft : Draft :=
    { stage := .empty
      image := a.image
      symbols := []
      faults := run.faults ++ faults
      journal := run.placed.map PlacedField.entry }
  let draft ← advance block .addressesResolved draft
  return (draft, run.placed, jobs)

def build (table : SymbolTable) (container : Container) (block : Block) (address : UInt32)
    (placed : List PlacedField) (jobs : List ChecksumJob) (d : Draft) : Option Draft := do
  let d ← putHeader container block address d
  let d ← placed.foldlM (putParameter container block) d
  let d ← advance block .valuesPlaced d
  let d ← if d.faults.isEmpty then jobs.foldlM (putChecksum container block) d else some d
  return d.checkNames table

def settle (a : Assembly) (container : Container) (block : Block) (address : UInt32) (d : Draft) :
    Option Assembly :=
  if d.faults.isEmpty then
    insist (d.stage.next? = some .checksummedComplete) (a.settle container block address d)
  else some (a.settle container block address d)

def addBlock (container : Container) (a : Assembly) (place : PlacedBlock) : Option Assembly :=
  let block := place.block
  let address := place.address
  let a := a.note .info
    (s!"  block {block.name} @ " ++ Numeral.address address ++ " length "
      ++ Numeral.address block.length)
  match a.tried.lookup block.name with
  | some first => some (a.report container block [.duplicateName block.name first])
  | none =>
    let a := { a with tried := a.tried ++ [(block.name, address)] }
    match a.blocks.find? fun b => place.span.meets b.span with
    | some other =>
      some (a.report container block
        [.blockOverlap block.name other.name address (clampAddress place.stop)])
    | none => do
      let (draft, placed, jobs) ← resolved a block address
      let image ← draft.image.fill? address block.length.toNat block.fill
      let d ← build a.symbols container block address placed jobs { draft with image }
      settle a container block address d

def addContainer (a : Assembly) (c : Container) : Option Assembly :=
  c.place.placed.foldlM (addBlock c) (a.opened c)

/-! ## One block -/

section

variable {m : Image} {container : Container} {block : Block} {base : UInt32} {d : Draft} {s : Sheet}

theorem stage_put (d : Draft) (name : String) (address : UInt32) (bytes : List UInt8)
    (symbol : Symbol) : (d.put name address bytes symbol).stage = d.stage := by
  unfold Draft.put
  split <;> rfl

theorem stage_putHeader (container : Container) (block : Block) (base : UInt32) (d : Draft) :
    (d.putHeader container block base).stage = d.stage := by
  unfold Draft.putHeader
  split
  · split
    · exact stage_put ..
    · rfl
  · rfl

theorem stage_putParameter (container : Container) (block : Block) (d : Draft)
    (place : PlacedField) : (d.putParameter container block place).stage = d.stage := by
  unfold Draft.putParameter
  split
  · rfl
  · dsimp only
    split
    · exact stage_put ..
    · rfl

theorem stage_putChecksum (container : Container) (block : Block) (d : Draft)
    (job : ChecksumJob) : (d.putChecksum container block job).stage = d.stage := by
  unfold Draft.putChecksum
  split
  · rfl
  · exact stage_put ..

theorem stage_foldl {α : Type} {step : Draft → α → Draft}
    (hstep : ∀ d x, (step d x).stage = d.stage) (xs : List α) (d : Draft) :
    (xs.foldl step d).stage = d.stage :=
  List.foldlRecOn (motive := fun e : Draft => e.stage = d.stage) xs step rfl
    fun e he x _ => (hstep e x).trans he

theorem stage_build (table : SymbolTable) (container : Container) (block : Block) (base : UInt32)
    (placed : List PlacedField) (jobs : List ChecksumJob) (d : Draft) :
    (Assembly.Draft.build table container block base placed jobs d).stage = .valuesPlaced := by
  unfold Assembly.Draft.build
  dsimp only [Draft.checkNames]
  split
  · exact stage_foldl (stage_putChecksum container block) jobs _
  · rfl

/-- **A patch that fits is written.** If it were not, the draft would have one fault more than its sheet,
and the two are known to have the same. -/
theorem put_eq (hm : m.Room base block.length.toNat) (h : d.Shows m block base s) {p : Patch}
    (hp : p.Fits base block.length.toNat) (name : String) :
    put name p.symbol.address p.bytes p.symbol d =
      some (d.put name p.symbol.address p.bytes p.symbol) := by
  refine insist_eq ?_ _
  have hfaults := (h.put hm hp name).faults
  unfold Draft.put at hfaults
  cases hwrite : d.image.write? p.symbol.address p.bytes with
  | some image => rfl
  | none =>
    rw [hwrite] at hfaults
    have hmore : d.faults ++ [.imageWrite name p.symbol.address p.bytes.length] = s.faults := hfaults
    rw [h.faults] at hmore
    exact absurd hmore (by simp)

theorem putHeader_eq (hm : m.Room base block.length.toNat) {faults : List Fault}
    (h : d.Shows m block base ⟨[], faults⟩) :
    putHeader container block base d = some (d.putHeader container block base) := by
  unfold putHeader Draft.putHeader
  cases block.header with
  | none => rfl
  | some header =>
    dsimp only
    split
    · rename_i hroom
      refine put_eq hm h (p := ⟨block.headerSymbol container base, _⟩)
        (Block.fits_header container header hroom) _
    · rfl

theorem putParameter_eq (hm : m.Room base block.length.toNat) (h : d.Shows m block base s)
    {place : PlacedField} (hplace : place.Fits base block.length.toNat) :
    putParameter container block d place = some (d.putParameter container block place) := by
  unfold putParameter Draft.putParameter
  cases hocc : place.occupant with
  | checksum c => rfl
  | parameter p type =>
    dsimp only
    cases hbytes : type.encode (p.byteOrder.getD block.byteOrder) p.value with
    | error cause => rfl
    | ok bytes =>
      have hlen : bytes.length = place.occupant.kind.size := by
        rw [hocc]
        exact StoredType.length_of_encode hbytes
      exact put_eq hm h (hplace.patch container block _ hlen) p.name

theorem putParameters_eq (hm : m.Room base block.length.toNat) {placed : List PlacedField}
    (h : d.Shows m block base s) (hplaced : ∀ p ∈ placed, p.Fits base block.length.toNat) :
    placed.foldlM (putParameter container block) d =
      some (placed.foldl (Draft.putParameter container block) d) := by
  induction placed generalizing d s with
  | nil => rfl
  | cons place rest ih =>
    have hplace := hplaced place List.mem_cons_self
    rw [List.foldlM_cons, putParameter_eq hm h hplace]
    exact ih (h.putParameter hm hplace) fun p hp => hplaced p (List.mem_cons_of_mem _ hp)

theorem value_eq (hm : m.Room base block.length.toNat) (h : d.Shows m block base s)
    {job : ChecksumJob} (hjob : job.Sound block base) :
    ∃ value, checksumValue job d.image = some value ∧ job.value d.image = .ok value := by
  obtain ⟨crc, hfit⟩ := hjob.fit
  have hvalue := h.value_eq hm hjob
  unfold checksumValue
  unfold ChecksumJob.value ChecksumJob.valueOver at *
  rw [hfit] at hvalue ⊢
  dsimp only at hvalue ⊢
  cases hread : d.image.read? job.first job.last with
  | none =>
    rw [hread] at hvalue
    cases hvalue
  | some bytes => exact ⟨_, rfl, rfl⟩

theorem putChecksum_eq (hm : m.Room base block.length.toNat) (h : d.Shows m block base s)
    {job : ChecksumJob} (hjob : job.Sound block base)
    (hplace : job.place.Fits base block.length.toNat) :
    putChecksum container block d job = some (d.putChecksum container block job) := by
  obtain ⟨value, hstrict, hvalue⟩ := value_eq hm h hjob
  unfold putChecksum Draft.putChecksum
  rw [hstrict, hvalue]
  have hlen : (job.checksum.type.patternBytes block.byteOrder value).length =
      job.place.occupant.kind.size := by
    rw [hjob.occupant]
    exact ByteOrder.length_bytes _ _ _
  exact put_eq hm (d := { d with journal := d.journal ++ [job.entry value] })
    ⟨h.image, h.symbols, h.faults, h.fits⟩ (hplace.patch container block _ hlen) _

theorem putChecksums_eq (hm : m.Room base block.length.toNat) {jobs : List ChecksumJob}
    (h : d.Shows m block base s)
    (hjobs : ∀ job ∈ jobs, job.Sound block base ∧ job.place.Fits base block.length.toNat) :
    jobs.foldlM (putChecksum container block) d =
      some (jobs.foldl (Draft.putChecksum container block) d) := by
  induction jobs generalizing d s with
  | nil => rfl
  | cons job rest ih =>
    obtain ⟨hsound, hfits⟩ := hjobs job List.mem_cons_self
    rw [List.foldlM_cons, putChecksum_eq hm h hsound hfits]
    exact ih (h.putChecksum hm hsound hfits) fun j hj => hjobs j (List.mem_cons_of_mem _ hj)

/-- **A block with room is built without a check failing**, whatever faults it brings along. Faults of
the declaration do not count here: fields that failed are not written at all. -/
theorem build_eq (table : SymbolTable) (container : Container) (hm : m.Room base block.length.toNat)
    {faults : List Fault} (h : d.Shows m block base ⟨[], faults⟩)
    (hstage : d.stage = .addressesResolved) :
    let jobs := (checksumJobs block base (block.place base).placed).1
    build table container block base (block.place base).placed jobs d =
      some (Assembly.Draft.build table container block base (block.place base).placed jobs d) := by
  intro jobs
  have hplaced := block.fits_of_mem_place hm.stop
  have hvalues := (h.putHeader container hm).putParameters container hm hplaced
  have hnext : ((block.place base).placed.foldl (Draft.putParameter container block)
      (d.putHeader container block base)).stage.next? = some .valuesPlaced := by
    rw [stage_foldl (stage_putParameter container block), stage_putHeader, hstage]
    rfl
  unfold build Assembly.Draft.build
  simp only [putHeader_eq hm h, putParameters_eq hm (h.putHeader container hm) hplaced,
    advance_eq block hnext, Option.bind_eq_bind, Option.bind_some]
  split
  · rw [putChecksums_eq hm (hvalues.advance .valuesPlaced) (block.fits_of_mem_jobs hm.stop)]
    rfl
  · rfl

end

/-! ## Blocks, containers, runs -/

variable {a : Assembly} {parts : List Part}

theorem settle_eq (a : Assembly) (container : Container) (block : Block) (address : UInt32)
    {d : Draft} (hstage : d.stage = .valuesPlaced) :
    settle a container block address d = some (a.settle container block address d) := by
  unfold settle
  split
  · refine insist_eq ?_ _
    rw [hstage]
    rfl
  · rfl

/-- **One block is added without a check failing**, in every state that consists of parts. Faults of the
block lead to other exits than failing checks, and those are taken by both runs alike. -/
theorem addBlock_eq (h : a.Holds parts) {place : PlacedBlock} (hstop : place.stop ≤ 0x100000000)
    (container : Container) : addBlock container a place = some (a.addBlock container place) := by
  unfold addBlock Assembly.addBlock
  dsimp only [Assembly.note]
  cases hname : a.tried.lookup place.block.name with
  | some first => rfl
  | none =>
    dsimp only
    cases hfree : a.blocks.find? fun b => place.span.meets b.span with
    | some other => rfl
    | none =>
      have hroom := h.room hstop hfree
      have hfill := a.image.fill?_eq place.block.fill hroom.stop
      have hnext : ∀ d : Draft, d.stage = .empty →
          advance place.block .addressesResolved d =
            some (d.advance place.block .addressesResolved) :=
        fun d hd => advance_eq place.block (by rw [hd]; rfl)
      dsimp only [Assembly.resolved, resolved]
      rw [hnext _ rfl]
      simp only [Option.bind_eq_bind, Option.bind_some, Draft.advance, Option.pure_def, hfill]
      rw [build_eq a.symbols container hroom ⟨rfl, rfl, rfl, List.forall_mem_nil _⟩ rfl]
      exact settle_eq _ container place.block place.address (stage_build ..)

theorem addBlocks_eq {c : Container} {placed : List PlacedBlock} (h : a.Holds parts)
    (hstop : ∀ p ∈ placed, p.stop ≤ 0x100000000) (hplain : a.Plain) :
    placed.foldlM (addBlock c) a = some (placed.foldl (fun a p => a.addBlock c p) a) ∧
      (placed.foldl (fun a p => a.addBlock c p) a).Plain := by
  induction placed generalizing a parts with
  | nil => exact ⟨rfl, hplain⟩
  | cons p rest ih =>
    have hp := hstop p List.mem_cons_self
    obtain ⟨taken, -, hnext, -⟩ := h.addBlock_account (c := c) hp
    rw [List.foldlM_cons, addBlock_eq h hp c]
    exact ih hnext (fun q hq => hstop q (List.mem_cons_of_mem _ hq)) (hplain.addBlock h hp c)

theorem addContainer_eq (h : a.Holds parts) (hplain : a.Plain) (c : Container) :
    addContainer a c = some (a.addContainer c) ∧ (a.addContainer c).Plain :=
  addBlocks_eq (h.opened c) (fun _ hp => Container.stop_le_of_mem_place hp) (hplain.opened c)

theorem addContainers_eq (containers : List Container) (h : a.Holds parts) (hplain : a.Plain) :
    containers.foldlM addContainer a = some (containers.foldl Assembly.addContainer a) ∧
      (containers.foldl Assembly.addContainer a).Plain := by
  induction containers generalizing a parts with
  | nil => exact ⟨rfl, hplain⟩
  | cons c rest ih =>
    obtain ⟨taken, -, hnext, -⟩ := h.addContainer c
    obtain ⟨hstep, hplainNext⟩ := addContainer_eq h hplain c
    rw [List.foldlM_cons, hstep]
    exact ih hnext hplainNext

/-- **No check of the assembler on itself can fail.** Whatever containers it is given, the assembler
that would give up at the first such check goes through them all and arrives at the state of the plain
one: every stage followed the one before it, every span was filled, everything placed was written,
every check was set up again, every range was read. And no diagnostic it reports speaks of the
image. -/
theorem run_eq_assembly (name : String) (containers : List Container) :
    containers.foldlM addContainer { name } =
        some (containers.foldl Assembly.addContainer { name }) ∧
      ∀ d ∈ (containers.foldl Assembly.addContainer { name }).diagnostics,
        d.fault.isInternal = false :=
  addContainers_eq containers (Assembly.holds_start name) (List.forall_mem_nil _)

end Strict

end FlashParams
