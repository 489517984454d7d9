import FlashParams.Proofs.Assembly.Sheet
import Mathlib.Data.List.Forall2

/-!
# A sheet without faults

A sheet that ends without faults has gone through all three stages, and what it holds can be said in
full (`Block.finished`): first the header, then for every parameter the bytes its literal encodes to,
then for every checksum the bytes of its value, all in declaration order.

The value of a checksum was computed over the patches laid *before* it. `Running` records just that,
and `Running.final` is where the checks on ranges pay off: neither the checksum itself nor any later
one touches the range, so the value is also the one over the finished block. Nothing else in the
development has to know that checksums are computed one after another.
-/

set_option autoImplicit false

namespace FlashParams

/-! ## Related lists -/

theorem forall₂_exists_left {α β : Type} {R : α → β → Prop} {as : List α} {bs : List β}
    (h : List.Forall₂ R as bs) : ∀ a ∈ as, ∃ b ∈ bs, R a b := by
  induction h with
  | nil => exact List.forall_mem_nil _
  | cons hab _ ih =>
    intro a ha
    rcases List.mem_cons.1 ha with rfl | ha
    · exact ⟨_, List.mem_cons_self, hab⟩
    · obtain ⟨b, hb, hR⟩ := ih a ha
      exact ⟨b, List.mem_cons_of_mem _ hb, hR⟩

theorem forall₂_exists_right {α β : Type} {R : α → β → Prop} {as : List α} {bs : List β}
    (h : List.Forall₂ R as bs) : ∀ b ∈ bs, ∃ a ∈ as, R a b :=
  forall₂_exists_left h.flip

theorem map_eq_of_forall₂ {α β γ : Type} {R : α → β → Prop} {f : α → γ} {g : β → γ}
    {as : List α} {bs : List β} (h : List.Forall₂ R as bs) (hR : ∀ a b, R a b → f a = g b) :
    as.map f = bs.map g := by
  induction h with
  | nil => rfl
  | cons hab _ ih => rw [List.map_cons, List.map_cons, hR _ _ hab, ih]

/-! ## Values -/

/-- A patch holds the value of a placed parameter, in the parameter's own byte order if it has one, and
otherwise in that of the block. -/
def PlacedField.HasValue (container : Container) (block : Block) (place : PlacedField) (p : Patch) :
    Prop :=
  ∃ q type, place.occupant = .parameter q type ∧
    type.encode (q.byteOrder.getD block.byteOrder) q.value = .ok p.bytes ∧
    p.symbol = place.symbol container block (q.byteOrder.getD block.byteOrder)

section

variable {container : Container} {block : Block} {base : UInt32}

theorem values_of_no_fault {placed : List PlacedField} {s : Sheet}
    (h : (placed.foldl (Sheet.putParameter container block) s).faults = []) :
    s.faults = [] ∧ ∃ values,
      (placed.foldl (Sheet.putParameter container block) s).patches = s.patches ++ values ∧
      List.Forall₂ (PlacedField.HasValue container block)
        (placed.filter (!·.isChecksum)) values := by
  induction placed generalizing s with
  | nil => exact ⟨h, [], (List.append_nil _).symm, .nil⟩
  | cons place rest ih =>
    obtain ⟨hfaults, values, hpatches, hvalues⟩ := ih h
    rw [List.foldl_cons, hpatches]
    cases hocc : place.occupant with
    | checksum c =>
      have hstep : s.putParameter container block place = s := by
        rw [Sheet.putParameter, hocc]
      rw [hstep] at hfaults ⊢
      refine ⟨hfaults, values, rfl, ?_⟩
      rwa [List.filter_cons_of_neg]
      simp [PlacedField.isChecksum, hocc]
    | parameter q type =>
      cases hbytes : type.encode (q.byteOrder.getD block.byteOrder) q.value with
      | error cause =>
        have hstep : s.putParameter container block place =
            s.fail (.valueRange q.name type.name cause) := by
          simp only [Sheet.putParameter, hocc, hbytes]
        rw [hstep] at hfaults
        -- a fault is never taken back, and there was none at the end
        exact absurd hfaults (List.append_ne_nil_of_right_ne_nil _ (List.cons_ne_nil _ _))
      | ok bytes =>
        have hstep : s.putParameter container block place =
            s.put ⟨place.symbol container block (q.byteOrder.getD block.byteOrder), bytes⟩ := by
          simp only [Sheet.putParameter, hocc, hbytes]
        rw [hstep] at hfaults ⊢
        refine ⟨hfaults, _ :: values, List.append_assoc _ _ _, ?_⟩
        rw [List.filter_cons_of_pos (by simp [PlacedField.isChecksum, hocc])]
        exact .cons ⟨q, type, hocc, hbytes, rfl⟩ hvalues

/-! ## Checksums -/

/-- A patch holds the value a checksum has over the bytes of a block. Which bytes these are is a
parameter: when the value is computed the later checksums are still blank, and in the end they are not. -/
def ChecksumJob.HasValue (container : Container) (block : Block) (base : UInt32)
    (bytes : List UInt8) (job : ChecksumJob) (p : Patch) : Prop :=
  ∃ value, job.valueOver (job.covered base bytes) = .ok value ∧
    p = ⟨job.place.symbol container block block.byteOrder,
      job.checksum.type.patternBytes block.byteOrder value⟩

theorem ChecksumJob.Sound.covered_append {job : ChecksumJob} (h : job.Sound block base)
    {front back : List Patch} (hfits : ∀ p ∈ front ++ back, p.Fits base block.length.toNat)
    (hapart : ∀ q ∈ back,
      q.symbol.stop ≤ job.first.toNat ∨ job.last.toNat < q.symbol.address.toNat) :
    job.covered base (block.bytesWith base (front ++ back)) =
      job.covered base (block.bytesWith base front) := by
  obtain ⟨hfront, hback⟩ := List.forall_mem_append.1 hfits
  have hlen : (overlay base block.blank front).length = block.length.toNat :=
    Block.length_bytesWith hfront
  rw [← hlen] at hback
  have hforward := h.forward
  have hwindow := window_overlay_of_apart hback h.low (Nat.le_succ_of_le hforward) hapart
  rw [show job.last.toNat + 1 - job.first.toNat = job.last.toNat - job.first.toNat + 1 by omega,
    ← overlay_append] at hwindow
  exact hwindow

/-- Checksums computed one after another: each over the patches in front of it. It is the order of the
loop, and as an inductive it can be taken apart at any checksum. -/
inductive Running (container : Container) (block : Block) (base : UInt32) :
    List Patch → List ChecksumJob → List Patch → Prop where
  | nil {front : List Patch} : Running container block base front [] []
  | cons {front : List Patch} {job : ChecksumJob} {p : Patch} {jobs : List ChecksumJob}
      {sums : List Patch} :
      job.HasValue container block base (block.bytesWith base front) p →
      Running container block base (front ++ [p]) jobs sums →
      Running container block base front (job :: jobs) (p :: sums)

theorem sums_of_no_fault {jobs : List ChecksumJob} {s : Sheet}
    (h : (jobs.foldl (Sheet.putChecksum container block base) s).faults = []) :
    s.faults = [] ∧ ∃ sums,
      (jobs.foldl (Sheet.putChecksum container block base) s).patches = s.patches ++ sums ∧
      Running container block base s.patches jobs sums := by
  induction jobs generalizing s with
  | nil => exact ⟨h, [], (List.append_nil _).symm, .nil⟩
  | cons job rest ih =>
    obtain ⟨hfaults, sums, hpatches, hsums⟩ := ih h
    rw [List.foldl_cons, hpatches]
    cases hvalue : job.valueOver (job.covered base (block.bytesWith base s.patches)) with
    | error fault =>
      have hstep : s.putChecksum container block base job = s.fail fault := by
        rw [Sheet.putChecksum, hvalue]
      rw [hstep] at hfaults
      exact absurd hfaults (List.append_ne_nil_of_right_ne_nil _ (List.cons_ne_nil _ _))
    | ok value =>
      have hstep : s.putChecksum container block base job =
          s.put ⟨job.place.symbol container block block.byteOrder,
            job.checksum.type.patternBytes block.byteOrder value⟩ := by
        rw [Sheet.putChecksum, hvalue]
      rw [hstep] at hfaults hsums ⊢
      exact ⟨hfaults, _ :: sums, List.append_assoc _ _ _, .cons ⟨value, hvalue, rfl⟩ hsums⟩

namespace Running

theorem spans {front sums : List Patch} {jobs : List ChecksumJob}
    (h : Running container block base front jobs sums) :
    sums.map (·.symbol.span) = jobs.map (·.place.span) := by
  induction h with
  | nil => rfl
  | cons hp _ ih =>
    obtain ⟨value, -, rfl⟩ := hp
    rw [List.map_cons, List.map_cons, ih]
    rfl

/-- The patches laid from a checksum on, its own and those of later checksums, leave its range alone. -/
theorem apart_range {front sums : List Patch} {jobs : List ChecksumJob} {job : ChecksumJob}
    {p : Patch} {bytes : List UInt8} (hp : job.HasValue container block base bytes p)
    (hrest : Running container block base front jobs sums)
    (hown : job.place.meetsRange job.first.toNat job.last.toNat = false)
    (hlater : ∀ next ∈ jobs, next.place.meetsRange job.first.toNat job.last.toNat = false) :
    ∀ q ∈ p :: sums, q.symbol.stop ≤ job.first.toNat ∨ job.last.toNat < q.symbol.address.toNat := by
  intro q hq
  have hspan : ∃ place : PlacedField, q.symbol.span = place.span ∧
      place.meetsRange job.first.toNat job.last.toNat = false := by
    rcases List.mem_cons.1 hq with rfl | hq
    · obtain ⟨value, -, rfl⟩ := hp
      exact ⟨job.place, rfl, hown⟩
    · have hmem : q.symbol.span ∈ jobs.map (·.place.span) := by
        rw [← hrest.spans]
        exact List.mem_map_of_mem hq
      obtain ⟨next, hnext, heq⟩ := List.mem_map.1 hmem
      exact ⟨next.place, heq.symm, hlater next hnext⟩
  obtain ⟨place, heq, hmeets⟩ := hspan
  have hstart : q.symbol.address.toNat = place.address.toNat := congrArg Span.start heq
  have hstop : q.symbol.stop = place.stop := congrArg Span.stop heq
  rw [hstart, hstop]
  exact PlacedField.not_meetsRange_iff.1 hmeets

/-- **Later checksums change nothing.** Every value is also the one over all patches together. This is
where it matters that no range has a byte of a later checksum: the values are right in the finished
image, and not only when they were computed. -/
theorem final {front sums : List Patch} {jobs : List ChecksumJob}
    (h : Running container block base front jobs sums)
    (hfits : ∀ p ∈ front ++ sums, p.Fits base block.length.toNat)
    (hsound : ∀ job ∈ jobs, job.Sound block base)
    (hlater : jobs.Pairwise fun job next =>
      next.place.meetsRange job.first.toNat job.last.toNat = false) :
    List.Forall₂ (ChecksumJob.HasValue container block base
      (block.bytesWith base (front ++ sums))) jobs sums := by
  induction h with
  | nil => exact .nil
  | @cons front job p jobs sums hp hrest ih =>
    obtain ⟨hjob, hjobs⟩ := List.forall_mem_cons.1 hsound
    obtain ⟨hfirst, hothers⟩ := List.pairwise_cons.1 hlater
    have htail := ih (by rwa [List.append_assoc]) hjobs hothers
    rw [List.append_assoc, List.singleton_append] at htail
    have hcovered := hjob.covered_append hfits (apart_range hp hrest hjob.own hfirst)
    obtain ⟨value, hvalue, hpeq⟩ := hp
    exact .cons ⟨value, by rw [hcovered, hvalue], hpeq⟩ htail

end Running

/-! ## The finished block -/

/-- What a sheet without faults is made of. It collects what the stages of the sheet come to, so that
statements about finished blocks do not go through the stages again. -/
structure Block.Finished (block : Block) (container : Container) (base : UInt32)
    (values sums : List Patch) : Prop where
  placement : (block.place base).faults = []
  ranges : (checksumJobs block base (block.place base).placed).2 = []
  patches : (block.sheet container base).patches =
    (block.headerPatch? container base).toList ++ values ++ sums
  values : List.Forall₂ (PlacedField.HasValue container block)
    ((block.place base).placed.filter (!·.isChecksum)) values
  sums : List.Forall₂ (ChecksumJob.HasValue container block base
      (block.bytesWith base (block.sheet container base).patches))
    (checksumJobs block base (block.place base).placed).1 sums

/-- **A sheet without faults is finished.** Every stage of the sheet can add faults and none takes one
back, so each of them went through without any. -/
theorem Block.finished (hstop : base.toNat + block.length.toNat ≤ 0x100000000)
    (h : (block.sheet container base).faults = []) :
    ∃ values sums, block.Finished container base values sums := by
  -- without a fault at the end there was none before the checksums, so they were computed
  obtain ⟨hfaults, hsheet⟩ : ((block.place base).placed.foldl
      (Sheet.putParameter container block)
      ⟨(block.headerPatch? container base).toList, (block.place base).faults
        ++ (checksumJobs block base (block.place base).placed).2⟩).faults = [] ∧
      block.sheet container base = (checksumJobs block base (block.place base).placed).1.foldl
        (Sheet.putChecksum container block base) ((block.place base).placed.foldl
          (Sheet.putParameter container block)
          ⟨(block.headerPatch? container base).toList, (block.place base).faults
            ++ (checksumJobs block base (block.place base).placed).2⟩) := by
    unfold Block.sheet at h ⊢
    dsimp only at h ⊢
    split at h
    · rename_i hempty
      rw [if_pos hempty]
      exact ⟨List.isEmpty_iff.1 hempty, rfl⟩
    · rename_i hempty
      rw [h] at hempty
      exact absurd rfl hempty
  obtain ⟨hstart, values, hvalues, hlaid⟩ := values_of_no_fault hfaults
  obtain ⟨hplacement, hranges⟩ := List.append_eq_nil_iff.1 hstart
  rw [hsheet] at h
  obtain ⟨-, sums, hsums, hrunning⟩ := sums_of_no_fault h
  rw [hvalues] at hsums hrunning
  rw [← hsheet] at hsums
  refine ⟨values, sums, hplacement, hranges, hsums, hlaid, ?_⟩
  have hfits := block.fits_sheet container hstop
  rw [hsums] at hfits ⊢
  exact hrunning.final hfits (fun job hjob => (sound_of_mem_jobs hstop job hjob).1)
    (jobs_pairwise_apart hstop _)

theorem Block.span_headerPatch {p : Patch} (h : p ∈ (block.headerPatch? container base).toList) :
    ∃ t ∈ block.owned base, p.symbol.span = t.span := by
  have h := Option.mem_toList.1 h
  unfold Block.headerPatch? at h
  unfold Block.owned
  cases hheader : block.header with
  | none =>
    rw [hheader] at h
    cases h
  | some header =>
    rw [hheader] at h
    dsimp only at h
    split at h
    · cases h
      exact ⟨_, List.mem_singleton_self _, rfl⟩
    · cases h

namespace Block.Finished

variable {values sums : List Patch}

theorem spans_values (h : block.Finished container base values sums) :
    values.map (·.symbol.span) =
      ((block.place base).placed.filter (!·.isChecksum)).map (·.span) := by
  refine (map_eq_of_forall₂ h.values ?_).symm
  rintro place p ⟨q, type, -, -, hsymbol⟩
  rw [hsymbol]
  rfl

theorem spans_sums (hstop : base.toNat + block.length.toNat ≤ 0x100000000)
    (h : block.Finished container base values sums) :
    sums.map (·.symbol.span) = ((block.place base).placed.filter (·.isChecksum)).map (·.span) := by
  rw [← places_of_no_fault hstop h.ranges, List.map_map]
  refine (map_eq_of_forall₂ h.sums ?_).symm
  rintro job p ⟨value, -, rfl⟩
  rfl

/-- **No two patches of a finished block meet.** Header, parameters and checksums get their spans in
different places of the code, and here they are compared with each other. -/
theorem apart (hstop : base.toNat + block.length.toNat ≤ 0x100000000)
    (h : block.Finished container base values sums) :
    (block.sheet container base).patches.Pairwise fun p q =>
      p.symbol.span.meets q.symbol.span = false := by
  have hsound := block.sound_place base hstop
  have hsymm : ∀ {s t : Span}, s.meets t = false → t.meets s = false := by
    intro s t hst
    rwa [Span.meets_comm]
  have hfields : (values ++ sums).map (·.symbol.span) =
      ((block.place base).placed.filter (!·.isChecksum)
        ++ (block.place base).placed.filter (·.isChecksum)).map (·.span) := by
    rw [List.map_append, List.map_append, h.spans_values, h.spans_sums hstop]
  have hperm : ((block.place base).placed.filter (!·.isChecksum)
      ++ (block.place base).placed.filter (·.isChecksum)).Perm (block.place base).placed :=
    List.perm_append_comm.trans (List.filter_append_perm _ _)
  -- fields among each other
  have hinner : ((values ++ sums).map (·.symbol.span)).Pairwise fun s t => s.meets t = false := by
    rw [hfields]
    exact (hperm.map _).pairwise_iff hsymm |>.2 (List.pairwise_map.2 hsound.apart)
  rw [h.patches, List.append_assoc]
  refine List.pairwise_append.2 ⟨?_, List.pairwise_map.1 hinner, fun p hp q hq => ?_⟩
  · cases block.headerPatch? container base with
    | none => exact List.Pairwise.nil
    | some p => exact List.pairwise_singleton _ _
  · obtain ⟨t, ht, hspan⟩ := Block.span_headerPatch hp
    have hmem : q.symbol.span ∈ (values ++ sums).map (·.symbol.span) := List.mem_map_of_mem hq
    rw [hfields] at hmem
    obtain ⟨place, hplace, heq⟩ := List.mem_map.1 hmem
    rw [hspan, ← heq, Span.meets_comm]
    exact hsound.unowned place (hperm.mem_iff.1 hplace) t ht

end Block.Finished

end

end FlashParams
