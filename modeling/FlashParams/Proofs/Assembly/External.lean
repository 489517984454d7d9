import FlashParams.Proofs.Assembly.Run

/-!
# Faults of the image

Two faults speak of the image and not of the declaration: bytes that could not be written, and a
range that could not be read. The assembler has words for them because the operations of an image may
refuse; it never has occasion to use them. Here this is followed through the assembler's own parts,
none of which makes such a fault: places, ranges, sheets, names, and with them the verdict on a block,
which is what becomes a diagnostic (`Holds.addBlock_of_fault`).
-/

set_option autoImplicit false

namespace FlashParams

/-- Whether a fault says that the assembler has lost track of its image. The source has branches for this
that it takes to be unreachable; here they are faults like others, so that their absence can be stated. -/
def Fault.isInternal : Fault → Bool
  | .imageWrite .. | .malformedChecksum _ (.outsideImage ..) => true
  | _ => false

/-- Faults that all speak of the declaration. -/
def External (faults : List Fault) : Prop :=
  ∀ fault ∈ faults, fault.isInternal = false

namespace External

variable {faults more : List Fault} {fault : Fault}

theorem nil : External [] :=
  List.forall_mem_nil _

theorem append (h : External faults) (h' : External more) : External (faults ++ more) :=
  List.forall_mem_append.2 ⟨h, h'⟩

theorem concat (h : External faults) (h' : fault.isInternal = false) :
    External (faults ++ [fault]) :=
  h.append (List.forall_mem_singleton.2 h')

end External

/-! ## Placement -/

theorem isInternal_of_placeBlock {base : UInt32} {cursor : Nat} {placed : List PlacedBlock}
    {index : Nat} {block : Block} {fault : Fault}
    (h : placeBlock base cursor placed index block = .error fault) : fault.isInternal = false := by
  unfold placeBlock at h
  split at h
  · cases h; rfl
  split at h
  · cases h; rfl
  dsimp only at h
  split at h
  · cases h; rfl
  split at h
  · cases h; rfl
  · cases h

theorem external_blockRun {base : UInt32} : ∀ (blocks : List Block) (run : BlockRun) (index : Nat),
    (∀ u ∈ run.unplaced, u.fault.isInternal = false) →
      ∀ u ∈ (run.all base index blocks).unplaced, u.fault.isInternal = false
  | [], _, _, h => h
  | block :: rest, run, index, h => by
    refine external_blockRun rest (run.step base index block) (index + 1) ?_
    unfold BlockRun.step
    split
    · exact h
    · rename_i fault hfault
      exact List.forall_mem_append.2
        ⟨h, List.forall_mem_singleton.2 (isInternal_of_placeBlock hfault)⟩

theorem Container.external_unplaced (c : Container) :
    ∀ u ∈ c.place.unplaced, u.fault.isInternal = false :=
  external_blockRun c.blocks _ 0 (List.forall_mem_nil _)

theorem isInternal_of_occupant {field : Field} {fault : Fault} (h : field.occupant = .error fault) :
    fault.isInternal = false := by
  unfold Field.occupant at h
  split at h
  · split at h
    · cases h
    · cases h; rfl
  · split at h
    · cases h; rfl
    · cases h

theorem isInternal_of_placeField {base limit cursor : Nat} {taken : List Taken} {index : Nat}
    {field : Field} {fault : Fault}
    (h : placeField base limit cursor taken index field = .error fault) :
    fault.isInternal = false := by
  unfold placeField at h
  split at h
  · cases h; rfl
  split at h
  · rename_i hocc
    cases h
    exact isInternal_of_occupant hocc
  dsimp only at h
  split at h
  · cases h; rfl
  split at h
  · cases h; rfl
  split at h
  · cases h; rfl
  split at h
  · cases h; rfl
  · cases h

theorem external_fieldRun {base limit : Nat} : ∀ (fields : List Field) (run : FieldRun) (index : Nat),
    External run.faults → External (run.all base limit index fields).faults
  | [], _, _, h => h
  | field :: rest, run, index, h => by
    refine external_fieldRun rest (run.step base limit index field) (index + 1) ?_
    unfold FieldRun.step
    split
    · exact h.concat rfl
    · split
      · exact h
      · rename_i fault hfault
        exact h.concat (isInternal_of_placeField hfault)

theorem Block.external_place (b : Block) (base : UInt32) : External (b.place base).faults := by
  refine external_fieldRun b.fields _ 0 ?_
  unfold Block.beginFields
  split
  · exact .nil
  · show External (if _ then _ else _)
    split
    · exact List.forall_mem_singleton.2 rfl
    · exact .nil

/-! ## Checksums and values -/

theorem isInternal_of_job {c : Checksum} {block : Block} {base : UInt32} {place : PlacedField}
    {later : List PlacedField} {fault : Fault} (h : c.job block base place later = .error fault) :
    fault.isInternal = false := by
  unfold Checksum.job at h
  split at h
  · rename_i hrange
    cases h
    unfold Checksum.range at hrange
    split at hrange
    · cases hrange
    · split at hrange
      · cases hrange; rfl
      · cases hrange
  · dsimp only at h
    split at h
    · cases h; rfl
    split at h
    · cases h; rfl
    split at h
    · cases h; rfl
    split at h
    · cases h; rfl
    split at h
    · cases h; rfl
    split at h
    · cases h; rfl
    split at h
    · cases h; rfl
    · cases h

theorem external_checksumJobs (block : Block) (base : UInt32) :
    ∀ placed : List PlacedField, External (checksumJobs block base placed).2
  | [] => .nil
  | place :: later => by
    have ih := external_checksumJobs block base later
    rw [checksumJobs]
    cases place.occupant with
    | parameter p type => exact ih
    | checksum c =>
      dsimp only
      cases hjob : c.job block base place later with
      | ok job => exact ih
      | error fault => exact List.forall_mem_cons.2 ⟨isInternal_of_job hjob, ih⟩

namespace Sheet

variable {container : Container} {block : Block} {base : UInt32} {s : Sheet}

theorem external_putParameter (h : External s.faults) (place : PlacedField) :
    External (s.putParameter container block place).faults := by
  unfold Sheet.putParameter
  split
  · exact h
  · dsimp only
    split
    · exact h
    · exact h.concat rfl

theorem external_putChecksum (h : External s.faults) (job : ChecksumJob) :
    External (s.putChecksum container block base job).faults := by
  unfold Sheet.putChecksum
  split
  · rename_i hvalue
    refine h.concat ?_
    unfold ChecksumJob.valueOver at hvalue
    split at hvalue
    · cases hvalue; rfl
    · cases hvalue
  · exact h

theorem external_putParameters (placed : List PlacedField) (h : External s.faults) :
    External (placed.foldl (Sheet.putParameter container block) s).faults :=
  List.foldlRecOn (motive := fun s : Sheet => External s.faults) placed _ h
    fun _ hs place _ => external_putParameter hs place

theorem external_putChecksums (jobs : List ChecksumJob) (h : External s.faults) :
    External (jobs.foldl (Sheet.putChecksum container block base) s).faults :=
  List.foldlRecOn (motive := fun s : Sheet => External s.faults) jobs _ h
    fun _ hs job _ => external_putChecksum hs job

end Sheet

theorem Block.external_sheet (b : Block) (container : Container) (base : UInt32) :
    External (b.sheet container base).faults := by
  unfold Block.sheet
  have hstart : External ((b.place base).faults
      ++ (checksumJobs b base (b.place base).placed).2) :=
    (b.external_place base).append (external_checksumJobs b base _)
  have hvalues : External ((b.place base).placed.foldl (Sheet.putParameter container b)
      ⟨(b.headerPatch? container base).toList, _⟩).faults :=
    Sheet.external_putParameters _ hstart
  dsimp only
  split
  · exact Sheet.external_putChecksums _ hvalues
  · exact hvalues

theorem external_clashes (table : SymbolTable) :
    ∀ (symbols seen : List Symbol), External (Draft.clashes table seen symbols)
  | [], _ => .nil
  | s :: rest, seen => by
    unfold Draft.clashes
    split
    · exact List.forall_mem_cons.2 ⟨rfl, external_clashes table rest seen⟩
    · exact external_clashes table rest _

/-! ## Verdicts and diagnostics -/

namespace Assembly

variable {a : Assembly} {container : Container} {place : PlacedBlock} {parts : List Part}

theorem external_verdict (a : Assembly) (container : Container) (place : PlacedBlock) :
    External (a.verdict container place) := by
  unfold verdict
  split
  · exact List.forall_mem_singleton.2 rfl
  · split
    · exact List.forall_mem_singleton.2 rfl
    · exact (place.block.external_sheet container place.address).append (external_clashes _ _ _)

/-- No diagnostic so far speaks of the image. Faults are only added, so it is enough to look at those
that each step adds. -/
def Plain (a : Assembly) : Prop :=
  ∀ d ∈ a.diagnostics, d.fault.isInternal = false

theorem Plain.addBlock (hplain : a.Plain) (h : a.Holds parts) (hstop : place.stop ≤ 0x100000000)
    (container : Container) : (a.addBlock container place).Plain := by
  unfold Plain
  by_cases hclean : a.verdict container place = []
  · obtain ⟨-, -, -, hdiagnostics⟩ := h.addBlock_of_clean hstop hclean
    rw [hdiagnostics]
    exact hplain
  · obtain ⟨-, -, -, hdiagnostics⟩ := h.addBlock_of_fault hstop hclean
    rw [hdiagnostics]
    exact List.forall_mem_append.2
      ⟨hplain, List.forall_mem_map.2 (a.external_verdict container place)⟩

theorem Plain.opened (hplain : a.Plain) (c : Container) : (a.opened c).Plain :=
  List.forall_mem_append.2 ⟨hplain, List.forall_mem_map.2 c.external_unplaced⟩

end Assembly

end FlashParams
