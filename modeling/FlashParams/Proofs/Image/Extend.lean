import FlashParams.Proofs.Image.Memory
import FlashParams.Proofs.Image.Pieces

/-!
# Extending an image

`Image.extend?` puts bytes into the segment in which they start, or behind it, or makes a new one of
them. What it runs into then is swallowed, that may touch the next segment, and so on.
`Segment.absorb` is this loop, and `absorb_spec` is all that is ever needed of it: from a segment in
front of ordered ones it makes ordered segments of the same memory, in which the first counts. For the
memory it is enough that the loop never meets a segment that starts lower, so the bytes come out right
even where segments overlap; only the order of the result rests on theirs.

What is put down is either new bytes alone, or a segment with the bytes spliced in and perhaps grown at
its end. Both are instances of `Memory.put` (`memory_mk`, `memory_put`), over nothing at all or over
the segment, and `Memory.put_orElse` carries it to the whole image.
-/

set_option autoImplicit false

namespace FlashParams

namespace Segment

variable {s next : Segment} {rest : List Segment} {a : UInt32}

theorem memory_mk (a : UInt32) (bytes : List UInt8) :
    (Segment.mk a bytes).memory = Memory.empty.put a.toNat bytes := by
  funext x
  show (if a.toNat ≤ x then bytes[x - a.toNat]? else none) =
    if a.toNat ≤ x ∧ x < a.toNat + bytes.length then bytes[x - a.toNat]? else none
  by_cases hlow : a.toNat ≤ x
  · by_cases hhigh : x < a.toNat + bytes.length
    · rw [if_pos hlow, if_pos ⟨hlow, hhigh⟩]
    · rw [if_pos hlow, if_neg (fun h => hhigh h.2)]
      exact List.getElem?_eq_none (by omega)
  · rw [if_neg hlow, if_neg (fun h => hlow h.1)]

def put (s : Segment) (a : UInt32) (bytes : List UInt8) : Segment :=
  ⟨s.base, splice s.bytes (a.toNat - s.base.toNat) bytes⟩

section

variable (bytes : List UInt8) (hlow : s.base.toNat ≤ a.toNat) (htouch : a.toNat ≤ s.stop)
include hlow htouch

theorem memory_put : (s.put a bytes).memory = s.memory.put a.toNat bytes := by
  rw [stop] at htouch
  funext x
  show (if s.base.toNat ≤ x then (splice s.bytes (a.toNat - s.base.toNat) bytes)[x - s.base.toNat]?
      else none) =
    if a.toNat ≤ x ∧ x < a.toNat + bytes.length then bytes[x - a.toNat]? else s.memory x
  by_cases hx : s.base.toNat ≤ x
  · rw [if_pos hx, getElem?_splice (by omega)]
    by_cases hin : a.toNat ≤ x ∧ x < a.toNat + bytes.length
    · rw [if_pos hin, if_pos (by omega)]
      congr 1
      omega
    · rw [if_neg hin, if_neg (by omega), memory_of_le hx]
  · rw [if_neg hx, if_neg (by omega)]
    exact (if_neg hx).symm

theorem stop_put : (s.put a bytes).stop = max s.stop (a.toNat + bytes.length) := by
  have hstop : (s.put a bytes).stop =
      s.base.toNat + (splice s.bytes (a.toNat - s.base.toNat) bytes).length := rfl
  rw [hstop, stop] at *
  simp only [splice, List.length_append, List.length_take, List.length_drop]
  omega

end

/-! ## Absorbing -/

def merge (s next : Segment) : Segment :=
  ⟨s.base, s.bytes ++ next.bytes.drop (s.stop - next.base.toNat)⟩

theorem memory_merge (hlow : s.base.toNat ≤ next.base.toNat) (htouch : next.base.toNat ≤ s.stop) :
    (s.merge next).memory = s.memory.orElse next.memory := by
  funext x
  unfold Memory.orElse
  by_cases hx : s.base.toNat ≤ x
  · have hmerge : (s.merge next).memory x =
        (s.bytes ++ next.bytes.drop (s.stop - next.base.toNat))[x - s.base.toNat]? :=
      memory_of_le hx
    rw [hmerge, memory_of_le hx]
    by_cases hin : x - s.base.toNat < s.bytes.length
    · rw [List.getElem?_append_left hin, List.getElem?_eq_getElem hin]
      rfl
    · rw [stop] at htouch ⊢
      rw [List.getElem?_append_right (by omega), List.getElem?_drop,
        List.getElem?_eq_none (l := s.bytes) (by omega), Option.none_or, memory_of_le (by omega)]
      congr 1
      omega
  · have hnone : ∀ t : Segment, s.base.toNat ≤ t.base.toNat → t.memory x = none := fun t ht =>
      memory_eq_none_iff.2 (.inl (by omega))
    rw [hnone s (Nat.le_refl _), hnone next hlow, hnone (s.merge next) (Nat.le_refl _)]
    rfl

theorem stop_merge (htouch : next.base.toNat ≤ s.stop) :
    (s.merge next).stop = max s.stop next.stop := by
  have hstop : (s.merge next).stop =
      s.base.toNat + (s.bytes ++ next.bytes.drop (s.stop - next.base.toNat)).length := rfl
  rw [hstop, List.length_append, List.length_drop, stop, stop] at *
  omega

/-- **Absorbing what a segment reaches changes no byte.** Where two of them overlap it is the extended
segment that counts, as it is the newer one. -/
theorem absorb_spec (hrest : Ordered rest) (hne : s.bytes ≠ []) (hstop : s.stop ≤ 0x100000000)
    (habove : ∀ t ∈ rest, s.base < t.base) :
    Ordered (s.absorb rest) ∧ Memory.ofSegments (s.absorb rest) = Memory.ofSegments (s :: rest) := by
  induction rest generalizing s with
  | nil => exact ⟨Ordered.nil.cons hne hstop (List.forall_mem_nil _), rfl⟩
  | cons next rest ih =>
    have hnext := UInt32.lt_iff_toNat_lt.1 (habove next List.mem_cons_self)
    unfold absorb
    split
    · rename_i htouch
      have hend : (s.merge next).stop ≤ 0x100000000 := by
        rw [stop_merge htouch]
        exact Nat.max_le.2 ⟨hstop, hrest.inside next List.mem_cons_self⟩
      obtain ⟨hordered, hmemory⟩ := ih (s := s.merge next) hrest.tail
        (List.append_ne_nil_of_left_ne_nil hne _) hend
        fun t ht => habove t (List.mem_cons_of_mem _ ht)
      refine ⟨hordered, hmemory.trans ?_⟩
      rw [Memory.ofSegments_cons, memory_merge (Nat.le_of_lt hnext) htouch, Memory.orElse_assoc,
        Memory.ofSegments_cons, Memory.ofSegments_cons]
    -- the next segment is out of reach, and so are those behind it
    · rename_i hgap
      refine ⟨hrest.cons hne hstop fun t ht => ?_, rfl⟩
      rcases List.mem_cons.1 ht with rfl | ht
      · omega
      · have hbehind := (List.pairwise_cons.1 hrest.disjoint).1 t ht
        rw [stop] at hbehind
        omega

end Segment

/-! ## Settling -/

namespace Image

variable {m : Image} {s : Segment} {a : UInt32} {bytes : List UInt8}

theorem segments_discard (m : Image) (a : UInt32) :
    (m.discard a).segments = m.below a ++ m.above a := by
  have hascending : Ascending (m.below a ++ m.above a) := by
    refine (m.ascending.filter _).append (m.ascending.filter _) fun t ht u hu => ?_
    have hlow : t.base < a := of_decide_eq_true (List.mem_filter.1 ht).2
    have hhigh : a < u.base := of_decide_eq_true (List.mem_filter.1 hu).2
    exact UInt32.lt_trans hlow hhigh
  have hperm : (m.discard a).segments.Perm (m.below a ++ m.above a) := by
    have hbelow : (m.discard a).segments.filter (·.base < a) = m.below a := by
      rw [discard, List.filter_filter]
      refine List.filter_congr fun t _ => ?_
      rw [← Bool.decide_and, decide_eq_decide, UInt32.lt_iff_toNat_lt, Ne, ← UInt32.toNat_inj]
      omega
    have habove : (m.discard a).segments.filter (fun t => !decide (t.base < a)) = m.above a := by
      rw [discard, List.filter_filter]
      refine List.filter_congr fun t _ => ?_
      rw [← decide_not, ← Bool.decide_and, decide_eq_decide, UInt32.lt_iff_toNat_lt,
        UInt32.lt_iff_toNat_lt, Ne, ← UInt32.toNat_inj]
      omega
    rw [← hbelow, ← habove]
    exact (List.filter_append_perm _ _).symm
  exact hperm.eq_of_pairwise
    (fun t u _ _ htu hut => absurd (UInt32.lt_trans htu hut) (UInt32.lt_irrefl _))
    (m.discard a).ascending hascending

/-- **A segment settled in an image counts before what was there.** What it has absorbed has been taken
out, and what is left does not reach it, so it can be inserted as it is. -/
theorem WellFormed.settle (hm : m.WellFormed) (hne : s.bytes ≠ []) (hstop : s.stop ≤ 0x100000000)
    (hlow : ∀ t ∈ m.segments, t.base < s.base → t.stop ≤ s.base.toNat) :
    (m.settle s).WellFormed ∧
      (m.settle s).memory = s.memory.orElse (m.discard s.base).memory := by
  have habove : ∀ t ∈ m.above s.base, s.base < t.base := fun t ht =>
    of_decide_eq_true (List.mem_filter.1 ht).2
  have hbelow : ∀ t ∈ m.below s.base, t.stop ≤ s.base.toNat := fun t ht =>
    hlow t (List.mem_filter.1 ht).1 (of_decide_eq_true (List.mem_filter.1 ht).2)
  have hfollowing : Ordered (m.above s.base) := hm.ordered.filter _
  obtain ⟨hordered, hmemory⟩ := Segment.absorb_spec hfollowing hne hstop habove
  have hall : Ordered (m.settle s).segments := by
    refine (hm.ordered.filter (·.base < s.base)).append hordered fun t ht u hu => ?_
    refine Nat.le_trans (hbelow t ht) ?_
    rcases Segment.base_of_mem_absorb hu with h | h
    · exact Nat.le_of_eq (congrArg UInt32.toNat h.symm)
    · exact Nat.le_of_lt (UInt32.lt_iff_toNat_lt.1 (habove u h))
  -- what is below ends before the segment, so it does not matter which of them comes first
  have hcomm : (Memory.ofSegments (m.below s.base)).orElse s.memory =
      s.memory.orElse (Memory.ofSegments (m.below s.base)) := by
    refine (Memory.orElse_comm fun x hx => ?_).symm
    refine Memory.ofSegments_eq_none_iff.2 fun t ht => Segment.memory_eq_none_iff.2 (.inr ?_)
    exact Nat.le_trans (hbelow t ht) (Segment.memory_ne_none_iff.1 hx).1
  refine ⟨⟨hall.nonempty, hall.disjoint, hall.inside⟩, ?_⟩
  calc (m.settle s).memory
      = (Memory.ofSegments (m.below s.base)).orElse (Memory.ofSegments (s.absorb (m.above s.base))) :=
        Memory.ofSegments_append _ _
    _ = (Memory.ofSegments (m.below s.base)).orElse
          (s.memory.orElse (Memory.ofSegments (m.above s.base))) := by
        rw [hmemory, Memory.ofSegments_cons]
    _ = s.memory.orElse ((Memory.ofSegments (m.below s.base)).orElse
          (Memory.ofSegments (m.above s.base))) := by
        rw [← Memory.orElse_assoc, hcomm, Memory.orElse_assoc]
    _ = s.memory.orElse (m.discard s.base).memory := by
        rw [← Memory.ofSegments_append, ← segments_discard]
        rfl

/-! ## Extending -/

theorem isSome_extend? : (m.extend? a bytes).isSome ↔ a.toNat + bytes.length ≤ 0x100000000 := by
  unfold extend? inAddressSpace
  by_cases hspace : a.toNat + bytes.length ≤ 0x100000000
  · rw [if_pos (decide_eq_true hspace)]
    refine ⟨fun _ => hspace, fun _ => ?_⟩
    split
    · rfl
    · split
      · dsimp only
        split <;> rfl
      · rfl
  · rw [if_neg (by rwa [decide_eq_true_eq])]
    exact ⟨fun h => absurd h Bool.false_ne_true, fun h => absurd h hspace⟩

theorem WellFormed.extend_segment (hm : m.WellFormed) (hs : s ∈ m.segments) (hne : bytes ≠ [])
    (hspace : a.toNat + bytes.length ≤ 0x100000000) (hlow : s.base.toNat ≤ a.toNat)
    (htouch : a.toNat ≤ s.stop) :
    (m.settle (s.put a bytes)).WellFormed ∧
      (m.settle (s.put a bytes)).memory = m.memory.put a.toNat bytes := by
  have hstop : (s.put a bytes).stop ≤ 0x100000000 := by
    rw [Segment.stop_put bytes hlow htouch]
    exact Nat.max_le.2 ⟨hm.inside s hs, hspace⟩
  have hne' : (s.put a bytes).bytes ≠ [] :=
    List.append_ne_nil_of_left_ne_nil (List.append_ne_nil_of_right_ne_nil _ hne) _
  have hbelow : ∀ t ∈ m.segments, t.base < (s.put a bytes).base →
      t.stop ≤ (s.put a bytes).base.toNat := fun t ht hbase => hm.stop_le (t := s) ht hs hbase
  obtain ⟨hwell, hmemory⟩ := hm.settle hne' hstop hbelow
  refine ⟨hwell, ?_⟩
  rw [hmemory, Segment.memory_put bytes hlow htouch, Memory.put_orElse, hm.memory_eq hs]
  rfl

theorem WellFormed.extend_gap (hm : m.WellFormed) (hne : bytes ≠ [])
    (hspace : a.toNat + bytes.length ≤ 0x100000000)
    (hgap : ∀ t ∈ m.segments, t.base ≤ a → t.stop < a.toNat) :
    (m.settle ⟨a, bytes⟩).WellFormed ∧
      (m.settle ⟨a, bytes⟩).memory = m.memory.put a.toNat bytes := by
  have hbase : ∀ t ∈ m.segments, t.base ≠ a := by
    rintro t ht rfl
    have hstop := hgap t ht UInt32.le_rfl
    rw [Segment.stop] at hstop
    omega
  have hdiscard : m.discard a = m :=
    ext_segments (List.filter_eq_self.2 fun t ht => decide_eq_true (hbase t ht))
  obtain ⟨hwell, hmemory⟩ := hm.settle (s := ⟨a, bytes⟩) hne hspace fun t ht hlow =>
    Nat.le_of_lt (hgap t ht (UInt32.le_of_lt hlow))
  refine ⟨hwell, ?_⟩
  rw [hmemory, Segment.memory_mk, hdiscard, Memory.put_orElse, Memory.empty_orElse]

/-- **An extended image has the new bytes, and the old ones elsewhere.** It does not matter which
segments were merged on the way. -/
theorem WellFormed.extend (hm : m.WellFormed) {m' : Image} (h : m.extend? a bytes = some m') :
    m'.WellFormed ∧ m'.memory = m.memory.put a.toNat bytes := by
  have hspace := isSome_extend?.1 (Option.isSome_of_eq_some h)
  have hinside : inAddressSpace a bytes.length = true := decide_eq_true hspace
  unfold extend? at h
  rw [if_pos hinside] at h
  split at h
  · rename_i hnil
    cases h
    rw [hnil, Memory.put_nil]
    exact ⟨hm, rfl⟩
  rename_i hne
  split at h
  · rename_i s hfloor
    obtain ⟨hs, hle, hlast⟩ := floor?_eq_some hfloor
    have hlow := UInt32.le_iff_toNat_le.1 hle
    dsimp only at h
    split at h
    · rename_i htouch
      cases h
      exact hm.extend_segment hs hne hspace hlow (by rw [Segment.stop]; omega)
    -- the segment found ends in front of the bytes, and the others that start lower end before it
    · rename_i hbeyond
      cases h
      refine hm.extend_gap hne hspace fun t ht hta => ?_
      rcases hlast t ht hta with rfl | hbase
      · rw [Segment.stop]
        omega
      · have hstop := hm.stop_le ht hs hbase
        omega
  · rename_i hfloor
    cases h
    refine hm.extend_gap hne hspace fun t ht hta => ?_
    exact absurd (floor?_eq_none hfloor t ht) (UInt32.not_lt.2 hta)

end Image

end FlashParams
