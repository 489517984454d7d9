import FlashParams.Proofs.Image.Extend

/-!
# Images without seams

An image built by `extend?` alone never has two segments that touch: bytes that start where a segment
ends continue it, and a segment that comes to reach another swallows it. Such an image is `Canonical`,
and then nothing in it is a matter of history. Its segments are the maximal runs of addresses that have
bytes (`Canonical.mem_iff_isRun`), so its map alone determines it (`Canonical.eq_of_memory_eq`).

Extending keeps the form through both of its branches for one reason: whatever is settled in an image
keeps a gap to what is below it (`Canonical.settle`), and absorbing stops only in front of one
(`Segment.absorb_gapped`).

With that, pieces may come in any order and overlap. The image of them is canonical, and its map is that
of the pieces with the last one first (`Image.ofPieces_spec`). Joining neighbours beforehand makes no
difference, since two neighbours have no address in common.
-/

set_option autoImplicit false

namespace FlashParams

/-! ## Extending keeps gaps -/

/-- A segment that has absorbed what it reaches has a gap behind it. Absorbing goes on as long as the
next segment starts inside or at the end, so it stops only at a gap. -/
theorem Segment.absorb_gapped {s : Segment} {rest : List Segment}
    (h : rest.Pairwise fun s t => s.stop < t.base.toNat) :
    (s.absorb rest).Pairwise fun s t => s.stop < t.base.toNat := by
  induction rest generalizing s with
  | nil => exact List.pairwise_singleton _ _
  | cons next rest ih =>
    obtain ⟨hnext, hrest⟩ := List.pairwise_cons.1 h
    unfold absorb
    split
    · exact ih hrest
    · rename_i hgap
      refine List.pairwise_cons.2 ⟨fun t ht => ?_, h⟩
      rcases List.mem_cons.1 ht with rfl | ht
      · exact Nat.lt_of_not_le hgap
      · have hbehind := hnext t ht
        rw [stop] at hbehind
        omega

namespace Canonical

variable {m n : Image} {s t : Segment} {a : UInt32} {bytes : List UInt8}

theorem wellFormed (hm : Canonical m.segments) : m.WellFormed :=
  ⟨hm.nonempty, hm.gapped.imp Nat.le_of_lt, hm.inside⟩

theorem stop_lt (hm : Canonical m.segments) (hs : s ∈ m.segments) (ht : t ∈ m.segments)
    (h : s.base < t.base) : s.stop < t.base.toNat :=
  Image.rel_of_base_lt hm.gapped hs ht h

theorem settle (hm : Canonical m.segments)
    (hlow : ∀ t ∈ m.segments, t.base < s.base → t.stop < s.base.toNat) :
    (m.settle s).segments.Pairwise fun s t => s.stop < t.base.toNat := by
  have hfollowing : (m.above s.base).Pairwise fun s t => s.stop < t.base.toNat :=
    hm.gapped.filter _
  refine List.pairwise_append.2
    ⟨hm.gapped.filter _, Segment.absorb_gapped hfollowing, fun t ht u hu => ?_⟩
  obtain ⟨ht, hlt⟩ := List.mem_filter.1 ht
  have hbefore := hlow t ht (of_decide_eq_true hlt)
  rcases Segment.base_of_mem_absorb hu with hbase | hu
  · rwa [hbase]
  · have habove : s.base < u.base := of_decide_eq_true (List.mem_filter.1 hu).2
    exact Nat.lt_trans hbefore (UInt32.lt_iff_toNat_lt.1 habove)

theorem gapped_extend (hm : Canonical m.segments) (h : m.extend? a bytes = some n) :
    n.segments.Pairwise fun s t => s.stop < t.base.toNat := by
  have hspace := Image.isSome_extend?.1 (Option.isSome_of_eq_some h)
  have hinside : inAddressSpace a bytes.length = true := decide_eq_true hspace
  unfold Image.extend? at h
  rw [if_pos hinside] at h
  split at h
  · cases h
    exact hm.gapped
  split at h
  · rename_i s hfloor
    obtain ⟨hs, hle, hlast⟩ := Image.floor?_eq_some hfloor
    have hlow := UInt32.le_iff_toNat_le.1 hle
    dsimp only at h
    split at h
    -- the segment found grows, and what is below it was apart from it before
    · cases h
      exact hm.settle fun t ht hbase => hm.stop_lt (t := s) ht hs hbase
    · rename_i hbeyond
      cases h
      refine hm.settle fun t ht hta => ?_
      rcases hlast t ht (UInt32.le_of_lt hta) with rfl | hbase
      · rw [Segment.stop]
        show t.base.toNat + t.bytes.length < a.toNat
        omega
      · exact Nat.lt_of_lt_of_le (hm.stop_lt ht hs hbase) hlow
  · rename_i hfloor
    cases h
    refine hm.settle fun t ht hta => ?_
    exact absurd (Image.floor?_eq_none hfloor t ht) (UInt32.lt_asymm hta)

/-- **Extending an image leaves no seam.** The new segment absorbs those it touches on either side, and
between the remaining ones there was a gap before. -/
theorem extend (hm : Canonical m.segments) (h : m.extend? a bytes = some n) :
    Canonical n.segments := by
  obtain ⟨hn, -⟩ := hm.wellFormed.extend h
  exact ⟨hn.nonempty, hm.gapped_extend h, hn.inside⟩

end Canonical

/-! ## Runs -/

namespace Segment

variable {s t : Segment} {μ : Memory} {x : Nat}

theorem eq_of_memory_eq (hbase : s.base = t.base) (h : s.memory = t.memory) : s = t := by
  have hat : ∀ (u : Segment) (i : Nat), u.bytes[i]? = u.memory (u.base.toNat + i) := by
    intro u i
    rw [memory_of_le (Nat.le_add_right _ _), Nat.add_sub_cancel_left]
  have hbytes : s.bytes = t.bytes := by
    refine List.ext_getElem? fun i => ?_
    rw [hat, hat, h, hbase]
  cases s
  cases t
  cases hbase
  cases hbytes
  rfl

/-- A segment holds a maximal run of addresses that have bytes. It speaks of the map only, which is how
segments come to be determined by it. -/
structure IsRun (μ : Memory) (s : Segment) : Prop where
  nonempty : s.bytes ≠ []
  held : ∀ x b, s.memory x = some b → μ x = some b
  before : ∀ x, x + 1 = s.base.toNat → μ x = none
  after : μ s.stop = none

namespace IsRun

theorem memory_eq (h : s.IsRun μ) (hx : s.base.toNat ≤ x ∧ x < s.stop) : s.memory x = μ x := by
  obtain ⟨b, hb⟩ := Option.ne_none_iff_exists'.1 (memory_ne_none_iff.2 hx)
  rw [hb, h.held x b hb]

theorem ne_none (h : s.IsRun μ) (hx : s.base.toNat ≤ x ∧ x < s.stop) : μ x ≠ none := by
  rw [← h.memory_eq hx]
  exact memory_ne_none_iff.2 hx

section

variable (hs : s.IsRun μ) (ht : t.IsRun μ) (hsx : s.base.toNat ≤ x ∧ x < s.stop)
  (htx : t.base.toNat ≤ x ∧ x < t.stop)
include hs ht hsx htx

/-- The address in front of a run has no byte, so no run goes past it. Two runs that share an address
thus start together, and end together for the same reason. -/
theorem base_le : s.base.toNat ≤ t.base.toNat := by
  by_contra hlt
  have hin : t.base.toNat ≤ s.base.toNat - 1 ∧ s.base.toNat - 1 < t.stop := by omega
  exact ht.ne_none hin (hs.before _ (by omega))

theorem le_stop : t.stop ≤ s.stop := by
  by_contra hlt
  have hin : t.base.toNat ≤ s.stop ∧ s.stop < t.stop := by omega
  exact ht.ne_none hin hs.after

/-- **Runs that share an address are one.** Each goes as far as there are bytes in both directions, so
neither can end where the other goes on. -/
theorem eq_of_within : s = t := by
  have hbase : s.base.toNat = t.base.toNat :=
    Nat.le_antisymm (hs.base_le ht hsx htx) (ht.base_le hs htx hsx)
  have hstop : s.stop = t.stop :=
    Nat.le_antisymm (ht.le_stop hs htx hsx) (hs.le_stop ht hsx htx)
  refine eq_of_memory_eq (UInt32.toNat_inj.1 hbase) (funext fun y => ?_)
  by_cases hy : s.base.toNat ≤ y ∧ y < s.stop
  · rw [hs.memory_eq hy, ht.memory_eq (by omega)]
  · rw [memory_eq_none_iff.2 (by omega), memory_eq_none_iff.2 (by omega)]

end

end IsRun

end Segment

namespace Canonical

variable {m n : Image} {s t : Segment}

/-- A segment that has an address of another, or the one in front of it or right behind it, is that one:
between two others there is a gap. -/
theorem eq_of_reaches (hm : Canonical m.segments) (hs : s ∈ m.segments) (ht : t ∈ m.segments)
    {x : Nat} (hlow : s.base.toNat ≤ x + 1) (hhigh : x ≤ s.stop)
    (hwithin : t.base.toNat ≤ x ∧ x < t.stop) : t = s := by
  rcases Nat.lt_trichotomy s.base.toNat t.base.toNat with h | h | h
  · have hgap := hm.stop_lt hs ht (UInt32.lt_iff_toNat_lt.2 h)
    omega
  · exact (Image.eq_of_base_eq hs ht (UInt32.toNat_inj.1 h)).symm
  · have hgap := hm.stop_lt ht hs (UInt32.lt_iff_toNat_lt.2 h)
    omega

theorem isRun (hm : Canonical m.segments) (hs : s ∈ m.segments) : s.IsRun m.memory := by
  have hstop : s.stop = s.base.toNat + s.bytes.length := rfl
  have hnone : ∀ x, s.base.toNat ≤ x + 1 → x ≤ s.stop → ¬ (s.base.toNat ≤ x ∧ x < s.stop) →
      m.memory x = none := by
    intro x hlow hhigh hout
    refine Memory.ofSegments_eq_none_iff.2 fun t ht => ?_
    by_contra hx
    have hwithin := Segment.memory_ne_none_iff.1 hx
    exact hout (hm.eq_of_reaches hs ht hlow hhigh hwithin ▸ hwithin)
  refine ⟨hm.nonempty s hs, fun x b hb => hm.wellFormed.memory_eq_some_iff.2 ⟨s, hs, hb⟩,
    fun x hx => ?_, ?_⟩
  · exact hnone x (Nat.le_of_eq hx.symm) (by omega) (by omega)
  · exact hnone s.stop (by omega) (Nat.le_refl _) (by omega)

theorem mem_of_isRun (hm : Canonical m.segments) (h : s.IsRun m.memory) : s ∈ m.segments := by
  have hpos := List.length_pos_iff.2 h.nonempty
  have hfirst : s.base.toNat ≤ s.base.toNat ∧ s.base.toNat < s.stop := by
    rw [Segment.stop]
    omega
  obtain ⟨b, hb⟩ := Option.ne_none_iff_exists'.1 (h.ne_none hfirst)
  obtain ⟨t, ht, htb⟩ := hm.wellFormed.memory_eq_some_iff.1 hb
  rw [h.eq_of_within (hm.isRun ht) hfirst (Segment.within_of_memory htb)]
  exact ht

/-- **The segments are the maximal runs.** So they are determined by the map, and a canonical image has
nothing to it but its bytes. -/
theorem mem_iff_isRun (hm : Canonical m.segments) : s ∈ m.segments ↔ s.IsRun m.memory :=
  ⟨hm.isRun, hm.mem_of_isRun⟩

/-- **One map, one image.** Only canonical images have this: with seams allowed, one run could be cut in
many ways. -/
theorem eq_of_memory_eq (hm : Canonical m.segments) (hn : Canonical n.segments)
    (h : m.memory = n.memory) : m = n := by
  have hnodup : ∀ k : Image, k.segments.Nodup := by
    intro k
    refine List.Pairwise.imp (fun {s t} hlt => ?_) k.ascending
    rintro rfl
    exact UInt32.lt_irrefl _ hlt
  have hperm : m.segments.Perm n.segments :=
    (List.perm_ext_iff_of_nodup (hnodup m) (hnodup n)).2 fun s => by
      rw [hm.mem_iff_isRun, hn.mem_iff_isRun, h]
  exact Image.eq_of_perm hperm

end Canonical

/-! ## Pieces in any order -/

namespace Segment

variable {s next : Segment} {pieces : List Segment}

theorem memory_append (h : next.base.toNat = s.stop) :
    (Segment.mk s.base (s.bytes ++ next.bytes)).memory = next.memory.orElse s.memory := by
  have hmerge : s.merge next = ⟨s.base, s.bytes ++ next.bytes⟩ := by
    rw [merge, h, Nat.sub_self, List.drop_zero]
  have hlow : s.base.toNat ≤ next.base.toNat := by
    rw [h, stop]
    exact Nat.le_add_right _ _
  rw [← hmerge, memory_merge hlow (Nat.le_of_eq h)]
  refine Memory.orElse_comm fun x hx => ?_
  rw [memory_eq_none_iff, h]
  exact .inl (memory_ne_none_iff.1 hx).2

theorem ofSegments_reverse_cons :
    Memory.ofSegments (s.cons pieces).reverse = Memory.ofSegments (s :: pieces).reverse := by
  unfold Segment.cons
  cases pieces with
  | nil => rfl
  | cons next rest =>
    dsimp only
    split
    · rename_i htouch
      simp only [List.reverse_cons, List.append_assoc, Memory.ofSegments_append,
        Memory.ofSegments_cons, memory_append htouch, Memory.orElse_assoc]
      rfl
    · rfl

theorem stop_of_mem_cons {t : Segment} {limit : Nat} (hs : s.stop ≤ limit)
    (hpieces : ∀ p ∈ pieces, p.stop ≤ limit) (ht : t ∈ s.cons pieces) : t.stop ≤ limit := by
  unfold Segment.cons at ht
  split at ht
  · rwa [List.mem_singleton.1 ht]
  · obtain ⟨hnext, hrest⟩ := List.forall_mem_cons.1 hpieces
    split at ht
    · rename_i htouch
      rcases List.mem_cons.1 ht with rfl | ht
      · show s.base.toNat + (s.bytes ++ _).length ≤ limit
        rw [List.length_append, ← Nat.add_assoc]
        rw [Segment.stop, htouch, Segment.stop] at hnext
        exact hnext
      · exact hrest t ht
    · rcases List.mem_cons.1 ht with rfl | ht
      · exact hs
      · exact hpieces t ht

end Segment

namespace Image

variable {m : Image} {pieces : List Segment}

theorem ofSegments_reverse_joined (pieces : List Segment) :
    Memory.ofSegments (joined pieces).reverse = Memory.ofSegments pieces.reverse := by
  induction pieces with
  | nil => rfl
  | cons s rest ih =>
    have hcons : joined (s :: rest) = s.cons (joined rest) := rfl
    rw [hcons, Segment.ofSegments_reverse_cons, List.reverse_cons, List.reverse_cons,
      Memory.ofSegments_append, Memory.ofSegments_append, ih]

theorem stop_of_mem_joined (h : ∀ s ∈ pieces, s.stop ≤ 0x100000000) :
    ∀ t ∈ joined pieces, t.stop ≤ 0x100000000 := by
  induction pieces with
  | nil => exact List.forall_mem_nil _
  | cons s rest ih =>
    obtain ⟨hs, hrest⟩ := List.forall_mem_cons.1 h
    intro t ht
    exact Segment.stop_of_mem_cons hs (ih hrest) ht

theorem overlay_spec {s : Segment} (hm : Canonical m.segments) (hstop : s.stop ≤ 0x100000000) :
    Canonical (m.overlay s).segments ∧ (m.overlay s).memory = s.memory.orElse m.memory := by
  obtain ⟨n, hextend⟩ := Option.isSome_iff_exists.1 (isSome_extend?.2 hstop)
  have hoverlay : m.overlay s = n := by
    rw [overlay, hextend]
    rfl
  rw [hoverlay]
  refine ⟨hm.extend hextend, ?_⟩
  have hsegment : s.memory = Memory.empty.put s.base.toNat s.bytes :=
    Segment.memory_mk s.base s.bytes
  rw [(hm.wellFormed.extend hextend).2, hsegment, Memory.put_orElse, Memory.empty_orElse]

theorem foldl_overlay_spec (hm : Canonical m.segments) (h : ∀ s ∈ pieces, s.stop ≤ 0x100000000) :
    Canonical (pieces.foldl overlay m).segments ∧
      (pieces.foldl overlay m).memory = (Memory.ofSegments pieces.reverse).orElse m.memory := by
  induction pieces generalizing m with
  | nil => exact ⟨hm, rfl⟩
  | cons s rest ih =>
    obtain ⟨hs, hrest⟩ := List.forall_mem_cons.1 h
    obtain ⟨hone, hmemory⟩ := overlay_spec hm hs
    obtain ⟨hall, hmemories⟩ := ih hone hrest
    refine ⟨hall, hmemories.trans ?_⟩
    rw [hmemory, List.reverse_cons, Memory.ofSegments_append, Memory.ofSegments_cons,
      Memory.orElse_assoc, Memory.orElse_assoc]
    rfl

/-- **The image of pieces has no seams, and the last piece counts.** The pieces may overlap and come in
any order; they are reversed so that the newest is asked first. -/
theorem ofPieces_spec (h : ∀ s ∈ pieces, s.stop ≤ 0x100000000) :
    Canonical (ofPieces pieces).segments ∧
      (ofPieces pieces).memory = Memory.ofSegments pieces.reverse := by
  obtain ⟨hcanonical, hmemory⟩ := foldl_overlay_spec (m := empty) .nil (stop_of_mem_joined h)
  refine ⟨hcanonical, hmemory.trans ?_⟩
  rw [ofSegments_reverse_joined]
  funext x
  exact Option.or_none

end Image

end FlashParams
