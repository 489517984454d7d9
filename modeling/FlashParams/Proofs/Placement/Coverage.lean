import FlashParams.Layout.Coverage
import FlashParams.Proofs.Placement.Address

/-!
# Ranges that can be summed

A checksum whose range passes all checks becomes a job. `ChecksumJob.Sound` is what a job knows about
its range: it is the declared one, it lies inside the block, and the checksum's own bytes are outside
it. About *other* checksums a job knows one thing, and it is the one that makes checksums final: a
checksum computed later has no byte in the range. That is a fact about two jobs and their order, so it
is stated as a `Pairwise` over the list of jobs (`jobs_pairwise_apart`).
-/

set_option autoImplicit false

namespace FlashParams

/-- What holds of a job, in a block at `base`. The range is kept with its exact bounds beside the words
that the job holds, since it is in exact numbers that it was found to lie in the block. -/
structure ChecksumJob.Sound (block : Block) (base : UInt32) (job : ChecksumJob) : Prop where
  occupant : job.place.occupant = .checksum job.checksum
  range : job.checksum.range base job.place = .ok (job.first.toNat, job.last.toNat)
  low : base.toNat ≤ job.first.toNat
  forward : job.first.toNat ≤ job.last.toNat
  inside : job.last.toNat < base.toNat + block.length.toNat
  own : job.place.meetsRange job.first.toNat job.last.toNat = false
  access : job.checksum.coverage.access.toNat ∈ accessWidths
  fit : ∃ crc, Crc.ofParams job.checksum.type.bits job.checksum.params = .ok crc

/-- A checksum over everything in front of itself has something in front of itself. Its last byte is the
one before its own address, and a range that runs backwards has been refused. -/
theorem ChecksumJob.Sound.lt_of_beforeSelf {block : Block} {base : UInt32} {job : ChecksumJob}
    (h : job.Sound block base) (hself : job.checksum.coverage.last = .beforeSelf) :
    base.toNat < job.place.address.toNat := by
  have hrange := h.range
  have hlow := h.low
  have hforward := h.forward
  rw [Checksum.range, hself] at hrange
  dsimp only at hrange
  split at hrange
  · cases hrange
  · -- it is not at the start of its block, and in front of it the range would run backwards
    rename_i hne
    have hne' := mt UInt32.toNat_inj.1 hne
    obtain ⟨-, hlast⟩ := Prod.mk.inj (Except.ok.inj hrange)
    omega

/-- Whether a span meets a range is whether it meets the span of the range's addresses. The range names
its last byte and the span the byte behind its last, so the two comparisons are of different kinds. -/
theorem PlacedField.not_meetsRange_iff {p : PlacedField} {first last : Nat} :
    p.meetsRange first last = false ↔ p.stop ≤ first ∨ last < p.address.toNat := by
  rw [meetsRange, Bool.and_eq_false_iff, decide_eq_false_iff_not, decide_eq_false_iff_not]
  omega

theorem Checksum.le_of_range {c : Checksum} {base : UInt32} {place : PlacedField} {first last : Nat}
    (h : c.range base place = .ok (first, last)) : base.toNat ≤ first := by
  simp only [Checksum.range] at h
  split at h
  · cases h
    exact Nat.le_add_right _ _
  · split at h
    · cases h
    · cases h
      exact Nat.le_add_right _ _

/-- All checks a range has to pass, for its exact addresses. The check `later` looks at the fields placed
behind the checksum, which no check of a field does: over a checksum that is computed after it, this one
would never come out right. -/
structure Checksum.Admitted (c : Checksum) (block : Block) (base : UInt32) (place : PlacedField)
    (later : List PlacedField) (first last : Nat) : Prop where
  resolved : c.range base place = .ok (first, last)
  forward : first ≤ last
  inside : last < base.toNat + block.length.toNat
  own : place.meetsRange first last = false
  later : ∀ p ∈ later, p.isChecksum = true → p.meetsRange first last = false
  access : c.coverage.access.toNat ∈ accessWidths
  fit : ∃ crc, Crc.ofParams c.type.bits c.params = .ok crc

/-- **A checksum has a job exactly when its range passes every check**, and can be read in words. The
latter is asked apart, because a checksum of bytes, or one that does not swap, may have a range of any
length. -/
theorem Checksum.job_eq_ok_iff {c : Checksum} {block : Block} {base : UInt32} {place : PlacedField}
    {later : List PlacedField} {job : ChecksumJob} :
    c.job block base place later = .ok job ↔
      ∃ first last, c.Admitted block base place later first last ∧
        ¬ (c.coverage.swap ∧ 8 < c.coverage.access.toNat ∧
          (last - first + 1) % (c.coverage.access.toNat / 8) ≠ 0) ∧
        job = ⟨c, place, lowAddress first, lowAddress last⟩ := by
  constructor
  · intro h
    unfold Checksum.job at h
    split at h
    · cases h
    rename_i first last hrange
    dsimp only at h
    split at h
    · cases h
    rename_i hforward
    split at h
    · cases h
    rename_i hinside
    split at h
    · cases h
    rename_i hown
    split at h
    · cases h
    rename_i hlater
    split at h
    · cases h
    rename_i haccess
    split at h
    · cases h
    rename_i hwords
    split at h
    · cases h
    rename_i crc hfit
    cases h
    refine ⟨first, last, ⟨hrange, by omega, by omega, Bool.eq_false_iff.2 hown, fun p hp hpc => ?_,
      Decidable.not_not.1 haccess, crc, hfit⟩, hwords, rfl⟩
    have hp := List.find?_eq_none.1 hlater p hp
    rw [hpc, Bool.true_and] at hp
    exact Bool.eq_false_iff.2 hp
  · rintro ⟨first, last, h, hwords, rfl⟩
    obtain ⟨crc, hfit⟩ := h.fit
    have hlater : later.find? (fun p => p.isChecksum && p.meetsRange first last) = none := by
      refine List.find?_eq_none.2 fun p hp => ?_
      cases hpc : p.isChecksum with
      | false => exact Bool.false_ne_true
      | true =>
        rw [h.later p hp hpc]
        exact Bool.false_ne_true
    unfold Checksum.job
    rw [h.resolved]
    dsimp only
    rw [if_neg (Nat.not_lt.2 h.forward), if_neg (Nat.not_le.2 h.inside),
      if_neg (Bool.eq_false_iff.1 h.own), hlater]
    dsimp only
    rw [if_neg (not_not_intro h.access), if_neg hwords, hfit]

theorem Checksum.admitted_of_job {c : Checksum} {block : Block} {base : UInt32} {place : PlacedField}
    {later : List PlacedField} {job : ChecksumJob} (h : c.job block base place later = .ok job) :
    ∃ first last, c.Admitted block base place later first last ∧
      job = ⟨c, place, lowAddress first, lowAddress last⟩ := by
  obtain ⟨first, last, hadm, -, hjob⟩ := Checksum.job_eq_ok_iff.1 h
  exact ⟨first, last, hadm, hjob⟩

theorem Checksum.sound_of_job {c : Checksum} {block : Block} {base : UInt32} {place : PlacedField}
    {later : List PlacedField} {job : ChecksumJob}
    (hstop : base.toNat + block.length.toNat ≤ 0x100000000) (hocc : place.occupant = .checksum c)
    (h : c.job block base place later = .ok job) :
    job.Sound block base ∧ job.place = place ∧
      ∀ p ∈ later, p.isChecksum = true → p.meetsRange job.first.toNat job.last.toNat = false := by
  obtain ⟨first, last, hadm, rfl⟩ := Checksum.admitted_of_job h
  have hforward := hadm.forward
  have hinside := hadm.inside
  -- the range ends inside the block, so narrowing its addresses loses nothing
  have hfirst : (lowAddress first).toNat = first := toNat_lowAddress (by omega)
  have hlast : (lowAddress last).toNat = last := toNat_lowAddress (by omega)
  dsimp only
  rw [hfirst, hlast]
  refine ⟨⟨hocc, ?_, ?_, ?_, ?_, ?_, hadm.access, hadm.fit⟩, rfl, hadm.later⟩
  · dsimp only
    rw [hfirst, hlast, hadm.resolved]
  · dsimp only
    rw [hfirst]
    exact Checksum.le_of_range hadm.resolved
  · dsimp only
    rwa [hfirst, hlast]
  · dsimp only
    rwa [hlast]
  · dsimp only
    rw [hfirst, hlast]
    exact hadm.own

section

variable {block : Block} {base : UInt32} (hstop : base.toNat + block.length.toNat ≤ 0x100000000)

/-- Unfolding one placed field: a parameter is passed over, a checksum becomes a job or a fault. The
fault does not end the loop, and every checksum behind it is looked at all the same. -/
theorem checksumJobs_cons (block : Block) (base : UInt32) (place : PlacedField)
    (later : List PlacedField) :
    (place.isChecksum = false ∧
        checksumJobs block base (place :: later) = checksumJobs block base later) ∨
      ∃ c, place.occupant = .checksum c ∧
        ((∃ job, c.job block base place later = .ok job ∧
            checksumJobs block base (place :: later) =
              (job :: (checksumJobs block base later).1, (checksumJobs block base later).2)) ∨
          ∃ fault, checksumJobs block base (place :: later) =
              ((checksumJobs block base later).1, fault :: (checksumJobs block base later).2)) := by
  unfold PlacedField.isChecksum
  rw [checksumJobs]
  cases hocc : place.occupant with
  | parameter p type => exact .inl ⟨rfl, rfl⟩
  | checksum c =>
    refine .inr ⟨c, rfl, ?_⟩
    cases hjob : c.job block base place later with
    | ok job => exact .inl ⟨job, rfl, by dsimp only; rw [hjob]⟩
    | error fault => exact .inr ⟨fault, by dsimp only; rw [hjob]⟩

include hstop in
theorem sound_of_mem_jobs : ∀ {placed : List PlacedField},
    ∀ job ∈ (checksumJobs block base placed).1, job.Sound block base ∧ job.place ∈ placed
  | [] => List.forall_mem_nil _
  | place :: later => by
    intro job h
    have hrest : job ∈ (checksumJobs block base later).1 →
        job.Sound block base ∧ job.place ∈ place :: later := fun hj =>
      ⟨(sound_of_mem_jobs job hj).1, List.mem_cons_of_mem _ (sound_of_mem_jobs job hj).2⟩
    rcases checksumJobs_cons block base place later with
      ⟨-, heq⟩ | ⟨c, hocc, ⟨first, hjob, heq⟩ | ⟨fault, heq⟩⟩
    · rw [heq] at h
      exact hrest h
    · rw [heq] at h
      rcases List.mem_cons.1 h with rfl | h
      · obtain ⟨hsound, hplace, -⟩ := Checksum.sound_of_job hstop hocc hjob
        exact ⟨hsound, hplace ▸ List.mem_cons_self⟩
      · exact hrest h
    · rw [heq] at h
      exact hrest h

include hstop in
/-- **No range has a byte of a checksum that is computed later.** Checksums are computed in the order of
the block, each over what is there by then. So by the time a range is read, every byte in it has its
final value. -/
theorem jobs_pairwise_apart : ∀ (placed : List PlacedField),
    (checksumJobs block base placed).1.Pairwise fun job next =>
      next.place.meetsRange job.first.toNat job.last.toNat = false
  | [] => List.Pairwise.nil
  | place :: later => by
    have ih := jobs_pairwise_apart later
    rcases checksumJobs_cons block base place later with
      ⟨-, heq⟩ | ⟨c, hocc, ⟨job, hjob, heq⟩ | ⟨fault, heq⟩⟩
    · rwa [heq]
    · rw [heq]
      refine List.pairwise_cons.2 ⟨fun next hnext => ?_, ih⟩
      obtain ⟨hsound, hmem⟩ := sound_of_mem_jobs hstop next hnext
      -- a job stands for a placed checksum, which the first job was checked against
      refine (Checksum.sound_of_job hstop hocc hjob).2.2 _ hmem ?_
      rw [PlacedField.isChecksum, hsound.occupant]
    · rwa [heq]

include hstop in
/-- Without range faults every placed checksum has its job, in the same order. A job that went missing
unreported would leave bytes of a block as they were filled. -/
theorem places_of_no_fault : ∀ {placed : List PlacedField},
    (checksumJobs block base placed).2 = [] →
      (checksumJobs block base placed).1.map (·.place) = placed.filter (·.isChecksum)
  | [], _ => rfl
  | place :: later, h => by
    rcases checksumJobs_cons block base place later with
      ⟨hparam, heq⟩ | ⟨c, hocc, ⟨job, hjob, heq⟩ | ⟨fault, heq⟩⟩
    · rw [heq] at h ⊢
      rw [List.filter_cons_of_neg (by rw [hparam]; exact Bool.false_ne_true)]
      exact places_of_no_fault h
    · rw [heq] at h ⊢
      have hsum : place.isChecksum = true := by rw [PlacedField.isChecksum, hocc]
      rw [List.filter_cons_of_pos hsum, List.map_cons, places_of_no_fault h,
        (Checksum.sound_of_job hstop hocc hjob).2.1]
    · rw [heq] at h
      cases h

end

end FlashParams
