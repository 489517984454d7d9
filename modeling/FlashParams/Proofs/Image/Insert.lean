import FlashParams.Proofs.Image.Splice

/-!
# Well-formed images, and a segment put where there is room

What the assembler relies on: in a well-formed image an address belongs to at most one segment, and
the look-up finds it by the order of the segments alone (`floor?_of_mem`). From that one fact reading
and writing *inside a member* follow, `read?_of_mem` and `write?_insert`.

The rest is about `Image.insert`. `Free` says that no segment touches a span; a segment put into a
free span leaves the image well-formed, is a member of it, changes no other segment, and can be taken
out again, after which the image is *the same one*, not only one with the same bytes
(`discard_insert`).
-/

set_option autoImplicit false

namespace FlashParams

/-! ## Segments of one image -/

namespace Image

theorem ext_segments {m n : Image} (h : m.segments = n.segments) : m = n := by
  cases m
  cases n
  cases h
  rfl

/-- The order of segments is that of their starts, so images with the same ones are equal. Assembling can
therefore be followed up to the order of segments, and the image is known all the same. -/
theorem eq_of_perm {m n : Image} (h : m.segments.Perm n.segments) : m = n := by
  refine ext_segments (h.eq_of_pairwise (fun t u _ _ htu hut => ?_) m.ascending n.ascending)
  exact absurd (UInt32.lt_trans htu hut) (UInt32.lt_irrefl _)

theorem wellFormed_empty : empty.WellFormed :=
  ⟨List.forall_mem_nil _, .nil, List.forall_mem_nil _⟩

theorem exists_split {m : Image} {t : Segment} (ht : t ∈ m.segments) :
    ∃ front back, m.segments = front ++ t :: back ∧ (∀ s ∈ front, s.base < t.base) ∧
      ∀ s ∈ back, t.base < s.base := by
  obtain ⟨front, back, hsplit⟩ := List.append_of_mem ht
  have hasc := m.ascending
  rw [Ascending, hsplit, List.pairwise_append, List.pairwise_cons] at hasc
  obtain ⟨-, ⟨hback, -⟩, hfront⟩ := hasc
  exact ⟨front, back, hsplit, fun s hs => hfront s hs t List.mem_cons_self, hback⟩

theorem eq_of_base_eq {m : Image} {s t : Segment} (hs : s ∈ m.segments) (ht : t ∈ m.segments)
    (h : s.base = t.base) : s = t := by
  obtain ⟨front, back, hsplit, hfront, hback⟩ := exists_split ht
  rw [hsplit, List.mem_append, List.mem_cons] at hs
  rcases hs with hs | rfl | hs
  · exact absurd (h ▸ hfront s hs) (UInt32.lt_irrefl _)
  · rfl
  · exact absurd (h ▸ hback s hs) (UInt32.lt_irrefl _)

/-- What relates the segments of an image in their order relates two members by their starts. With it,
being apart can be used for two members without saying where they stand in the list. -/
theorem rel_of_base_lt {m : Image} {R : Segment → Segment → Prop} (h : m.segments.Pairwise R)
    {s t : Segment} (hs : s ∈ m.segments) (ht : t ∈ m.segments) (hlt : s.base < t.base) : R s t := by
  obtain ⟨front, back, hsplit, -, hback⟩ := exists_split ht
  rw [hsplit, List.pairwise_append] at h
  rw [hsplit, List.mem_append, List.mem_cons] at hs
  rcases hs with hs | rfl | hs
  · exact h.2.2 s hs t List.mem_cons_self
  · exact absurd hlt (UInt32.lt_irrefl _)
  · exact absurd (UInt32.lt_trans hlt (hback s hs)) (UInt32.lt_irrefl _)

theorem WellFormed.stop_le {m : Image} (hm : m.WellFormed) {s t : Segment} (hs : s ∈ m.segments)
    (ht : t ∈ m.segments) (h : s.base < t.base) : s.stop ≤ t.base.toNat :=
  rel_of_base_lt hm.disjoint hs ht h

/-- In a well-formed image a member that holds an address is the one a look-up finds: segments in front
of it start lower, those behind it start where it ends or later. -/
theorem floor?_of_mem {m : Image} (hm : m.WellFormed) {s : Segment} (hs : s ∈ m.segments)
    {a : UInt32} (hlow : s.base.toNat ≤ a.toNat) (hhigh : a.toNat < s.stop) :
    m.floor? a = some s := by
  obtain ⟨front, back, hsplit, hfront, hback⟩ := exists_split hs
  have hfront : ∀ t ∈ front, (decide (t.base ≤ a)) = true := by
    intro t ht
    have hlower := UInt32.lt_iff_toNat_lt.1 (hfront t ht)
    rw [decide_eq_true_eq, UInt32.le_iff_toNat_le]
    omega
  have hback : back.takeWhile (fun t => decide (t.base ≤ a)) = [] := by
    cases back with
    | nil => rfl
    | cons t rest =>
      have ht : t ∈ m.segments := by
        rw [hsplit]
        exact List.mem_append_right _ (List.mem_cons_of_mem _ List.mem_cons_self)
      have hstop := hm.stop_le hs ht (hback t List.mem_cons_self)
      rw [List.takeWhile_cons_of_neg]
      rw [decide_eq_true_eq, UInt32.le_iff_toNat_le]
      omega
  have hself : (decide (s.base ≤ a)) = true := by
    rw [decide_eq_true_eq, UInt32.le_iff_toNat_le]
    exact hlow
  rw [floor?, hsplit, List.takeWhile_append_of_pos hfront,
    List.takeWhile_cons_of_pos (p := fun t : Segment => decide (t.base ≤ a)) hself, hback,
    List.getLast?_concat]

theorem read?_of_mem {m : Image} (hm : m.WellFormed) {s : Segment} (hs : s ∈ m.segments)
    {first last : UInt32} (hlow : s.base.toNat ≤ first.toNat) (hle : first.toNat ≤ last.toNat)
    (hhigh : last.toNat < s.stop) :
    m.read? first last =
      some ((s.bytes.drop (first.toNat - s.base.toNat)).take (last.toNat - first.toNat + 1)) := by
  have hfloor : m.floor? first = some s := floor?_of_mem hm hs hlow (by omega)
  have hfits : first.toNat - s.base.toNat + (last.toNat - first.toNat + 1) ≤ s.bytes.length := by
    rw [Segment.stop] at hhigh
    omega
  have hforward : ¬ last < first := by
    rw [UInt32.lt_iff_toNat_lt]
    omega
  rw [read?, if_neg hforward, hfloor]
  exact if_pos hfits

theorem byteAt?_of_mem {m : Image} (hm : m.WellFormed) {s : Segment} (hs : s ∈ m.segments)
    {a : UInt32} (hlow : s.base.toNat ≤ a.toNat) (hhigh : a.toNat < s.stop) :
    m.byteAt? a = s.bytes[a.toNat - s.base.toNat]? := by
  have hin : a.toNat - s.base.toNat < s.bytes.length := by
    rw [Segment.stop] at hhigh
    omega
  rw [byteAt?, read?_of_mem hm hs hlow (Nat.le_refl _) hhigh, Nat.sub_self, Nat.zero_add,
    List.drop_eq_getElem_cons hin, List.take_succ_cons, List.take_zero,
    List.getElem?_eq_getElem hin]

/-! ## A free span -/

/-- No segment has a byte in a span. For a span without bytes this is no restriction, so it is the
condition under which a block can be filled whatever its length. -/
def Free (m : Image) (base length : Nat) : Prop :=
  ∀ t ∈ m.segments, t.stop ≤ base ∨ base + length ≤ t.base.toNat

/-- The segments of an image with one more, in any order: none is replaced when none starts there. -/
theorem perm_insert {m : Image} {s : Segment} (h : ∀ t ∈ m.segments, t.base ≠ s.base) :
    (m.insert s).segments.Perm (s :: m.segments) := by
  have hsplit : (m.segments.filter (·.base < s.base) ++ m.segments.filter (s.base < ·.base)).Perm
      m.segments := by
    -- with no segment at the base, above is the same as not below
    have habove : m.segments.filter (s.base < ·.base)
        = m.segments.filter (fun t => !decide (t.base < s.base)) := by
      apply List.filter_congr
      intro t ht
      have hne : t.base.toNat ≠ s.base.toNat := fun e => h t ht (UInt32.toNat_inj.1 e)
      rw [← decide_not, decide_eq_decide, UInt32.lt_iff_toNat_lt, UInt32.lt_iff_toNat_lt]
      omega
    rw [habove]
    exact List.filter_append_perm _ _
  exact List.perm_middle.trans (hsplit.cons s)

theorem Free.base_ne {m : Image} (hm : m.WellFormed) {base : UInt32} {length : Nat}
    (hfree : m.Free base.toNat length) (hpos : 0 < length) :
    ∀ t ∈ m.segments, t.base ≠ base := by
  rintro t ht rfl
  have hne := List.length_pos_iff.2 (hm.nonempty t ht)
  rcases hfree t ht with h | h
  · rw [Segment.stop] at h
    omega
  · omega

/-- **Segments in a free span do not hurt.** Being free is asked of the segments that are there and not
of the map, so it can be had from the spans of blocks. -/
theorem WellFormed.insert {m : Image} (hm : m.WellFormed) {s : Segment} (hpos : s.bytes ≠ [])
    (hstop : s.stop ≤ 0x100000000) (hfree : m.Free s.base.toNat s.bytes.length) :
    (m.insert s).WellFormed := by
  have hbase := hfree.base_ne hm (List.length_pos_iff.2 hpos)
  have hmem : ∀ t ∈ (m.insert s).segments, t = s ∨ t ∈ m.segments := fun t ht =>
    List.mem_cons.1 ((perm_insert hbase).mem_iff.1 ht)
  have hlow : ∀ t ∈ m.below s.base, t.stop ≤ s.base.toNat := by
    intro t ht
    obtain ⟨ht, hlt⟩ := List.mem_filter.1 ht
    rw [decide_eq_true_eq, UInt32.lt_iff_toNat_lt] at hlt
    rcases hfree t ht with h | h
    · exact h
    · omega
  have hhigh : ∀ t ∈ m.above s.base, s.stop ≤ t.base.toNat := by
    intro t ht
    obtain ⟨ht, hlt⟩ := List.mem_filter.1 ht
    rw [decide_eq_true_eq, UInt32.lt_iff_toNat_lt] at hlt
    rcases hfree t ht with h | h
    · rw [Segment.stop] at h
      omega
    · exact h
  -- neighbours of the new segment keep apart because the span is free, the others did so before
  refine ⟨fun t ht => ?_, ?_, fun t ht => ?_⟩
  · rcases hmem t ht with rfl | ht
    · exact hpos
    · exact hm.nonempty t ht
  · refine List.pairwise_append.2 ⟨hm.disjoint.filter _,
      List.pairwise_cons.2 ⟨hhigh, hm.disjoint.filter _⟩, fun t ht u hu => ?_⟩
    rcases List.mem_cons.1 hu with rfl | hu
    · exact hlow t ht
    · have := hlow t ht
      have := hhigh u hu
      rw [Segment.stop] at this
      omega
  · rcases hmem t ht with rfl | ht
    · exact hstop
    · exact hm.inside t ht

theorem mem_insert_self (m : Image) (s : Segment) : s ∈ (m.insert s).segments :=
  List.mem_append_right _ List.mem_cons_self

/-- Writing into the segment put last changes its bytes and nothing else. A block is filled and then
written, so its segment is always one that has been put in and not found. -/
theorem write?_insert {m : Image} {s : Segment} (hm : (m.insert s).WellFormed) {a : UInt32}
    {bytes : List UInt8} (hlow : s.base.toNat ≤ a.toNat) (hhigh : a.toNat < s.stop)
    (hfits : a.toNat + bytes.length ≤ s.stop) :
    (m.insert s).write? a bytes =
      some (m.insert ⟨s.base, Segment.splice s.bytes (a.toNat - s.base.toNat) bytes⟩) := by
  have hfloor := floor?_of_mem hm (mem_insert_self m s) hlow hhigh
  have hlen : a.toNat - s.base.toNat + bytes.length ≤ s.bytes.length := by
    rw [Segment.stop] at hfits
    omega
  have hothers : ∀ (p : Segment → Bool), (∀ t, p t = true → t.base ≠ s.base) →
      (m.segments.filter p).map (fun t => if t.base = s.base then
        ⟨t.base, Segment.splice t.bytes (a.toNat - s.base.toNat) bytes⟩ else t)
        = m.segments.filter p := by
    intro p hp
    conv => rhs; rw [← List.map_id (m.segments.filter p)]
    exact List.map_congr_left fun t ht => if_neg (hp t (List.mem_filter.1 ht).2)
  unfold write?
  rw [hfloor]
  dsimp only
  rw [if_pos hlen]
  congr 1
  apply ext_segments
  show (m.below s.base ++ s :: m.above s.base).map _ = _
  rw [List.map_append, List.map_cons, if_pos rfl, below, above, hothers, hothers]
  · rfl
  · intro t ht e
    rw [decide_eq_true_eq, e] at ht
    exact UInt32.lt_irrefl _ ht
  · intro t ht e
    rw [decide_eq_true_eq, e] at ht
    exact UInt32.lt_irrefl _ ht

/-- Taking a segment out again gives the image it was put into. This is what dropping a block comes to,
and why it needs that no other segment starts at the block's address. -/
theorem discard_insert {m : Image} {s : Segment} (h : ∀ t ∈ m.segments, t.base ≠ s.base) :
    (m.insert s).discard s.base = m := by
  have hkeep : m.segments.filter (fun t => t.base ≠ s.base) = m.segments :=
    List.filter_eq_self.2 fun t ht => decide_eq_true (h t ht)
  have hperm : ((m.insert s).discard s.base).segments.Perm m.segments := by
    have := (perm_insert h).filter (fun t => decide (t.base ≠ s.base))
    rwa [List.filter_cons_of_neg (by simp), hkeep] at this
  exact eq_of_perm hperm

end Image

end FlashParams
