import FlashParams.Image.Pieces
import Mathlib.Data.List.Basic

/-!
# An image put together from ordered pieces

Pieces in ascending order that do not reach into each other are the easy case of `Image.ofPieces`:
nothing is ever overwritten. Two things happen to them. `joined` removes the boundaries between
neighbours, after which any two pieces leave a gap between them (`Canonical`), and the bytes with
their addresses are the same list as before (`canonical_joined`). And putting down a piece that starts
beyond everything there is appends it (`overlay_of_beyond`), so the image consists of the joined pieces
(`segments_ofPieces`).

The gap is what makes the second step simple. A piece that starts where the last segment ends would
be taken for a continuation of it.
-/

set_option autoImplicit false

namespace FlashParams

/-- Non-empty pieces in ascending order, none of which reaches into a later one. It is well-formedness
said of a list, where pieces have not been made an image yet. -/
structure Ordered (pieces : List Segment) : Prop where
  nonempty : ∀ s ∈ pieces, s.bytes ≠ []
  disjoint : pieces.Pairwise fun s t => s.stop ≤ t.base.toNat
  inside : ∀ s ∈ pieces, s.stop ≤ 0x100000000

/-- Ordered pieces no two of which touch. A map has one such list, so with it images can be compared by
what is in them. -/
structure Canonical (pieces : List Segment) : Prop where
  nonempty : ∀ s ∈ pieces, s.bytes ≠ []
  gapped : pieces.Pairwise fun s t => s.stop < t.base.toNat
  inside : ∀ s ∈ pieces, s.stop ≤ 0x100000000

theorem Image.WellFormed.ordered {m : Image} (h : m.WellFormed) : Ordered m.segments :=
  ⟨h.nonempty, h.disjoint, h.inside⟩

variable {s t : Segment} {pieces rest : List Segment}

theorem Ordered.nil : Ordered [] :=
  ⟨List.forall_mem_nil _, .nil, List.forall_mem_nil _⟩

theorem Canonical.nil : Canonical [] :=
  ⟨List.forall_mem_nil _, .nil, List.forall_mem_nil _⟩

theorem Ordered.tail (h : Ordered (s :: rest)) : Ordered rest :=
  ⟨(List.forall_mem_cons.1 h.nonempty).2, (List.pairwise_cons.1 h.disjoint).2,
    (List.forall_mem_cons.1 h.inside).2⟩

theorem Canonical.tail (h : Canonical (s :: rest)) : Canonical rest :=
  ⟨(List.forall_mem_cons.1 h.nonempty).2, (List.pairwise_cons.1 h.gapped).2,
    (List.forall_mem_cons.1 h.inside).2⟩

theorem Ordered.cons (h : Ordered rest) (hne : s.bytes ≠ []) (hstop : s.stop ≤ 0x100000000)
    (hbelow : ∀ t ∈ rest, s.stop ≤ t.base.toNat) : Ordered (s :: rest) :=
  ⟨List.forall_mem_cons.2 ⟨hne, h.nonempty⟩, List.pairwise_cons.2 ⟨hbelow, h.disjoint⟩,
    List.forall_mem_cons.2 ⟨hstop, h.inside⟩⟩

theorem Ordered.filter (h : Ordered pieces) (p : Segment → Bool) : Ordered (pieces.filter p) :=
  ⟨fun s hs => h.nonempty s (List.mem_filter.1 hs).1, h.disjoint.filter p,
    fun s hs => h.inside s (List.mem_filter.1 hs).1⟩

theorem Ordered.append {front back : List Segment} (hfront : Ordered front) (hback : Ordered back)
    (hbelow : ∀ s ∈ front, ∀ t ∈ back, s.stop ≤ t.base.toNat) : Ordered (front ++ back) :=
  ⟨List.forall_mem_append.2 ⟨hfront.nonempty, hback.nonempty⟩,
    List.pairwise_append.2 ⟨hfront.disjoint, hback.disjoint, hbelow⟩,
    List.forall_mem_append.2 ⟨hfront.inside, hback.inside⟩⟩

theorem Canonical.cons (h : Canonical rest) (hne : s.bytes ≠ []) (hstop : s.stop ≤ 0x100000000)
    (hgap : ∀ t ∈ rest, s.stop < t.base.toNat) : Canonical (s :: rest) :=
  ⟨List.forall_mem_cons.2 ⟨hne, h.nonempty⟩, List.pairwise_cons.2 ⟨hgap, h.gapped⟩,
    List.forall_mem_cons.2 ⟨hstop, h.inside⟩⟩

/-! ## Bytes with their addresses -/

namespace Image

def bytesFrom (a : Nat) (bytes : List UInt8) : List (Nat × UInt8) :=
  bytes.zipIdx.map fun (b, i) => (a + i, b)

theorem segmentBytes_eq (s : Segment) : segmentBytes s = bytesFrom s.base.toNat s.bytes :=
  rfl

theorem bytesFrom_append (a : Nat) (xs ys : List UInt8) :
    bytesFrom a (xs ++ ys) = bytesFrom a xs ++ bytesFrom (a + xs.length) ys := by
  unfold bytesFrom
  rw [List.zipIdx_append, List.map_append, Nat.zero_add,
    List.zipIdx_eq_map_add (l := ys) (i := xs.length), List.map_map]
  congr 1
  refine List.map_congr_left fun x _ => ?_
  simp only [Function.comp_apply, Nat.add_assoc]

theorem bytesFrom_take_append_drop (a n : Nat) (data : List UInt8) :
    bytesFrom a (data.take n) ++ bytesFrom (a + n) (data.drop n) = bytesFrom a data := by
  by_cases hall : data.length ≤ n
  · rw [List.take_of_length_le hall, List.drop_eq_nil_of_le hall]
    exact List.append_nil _
  · have hlen : (data.take n).length = n := by
      rw [List.length_take, Nat.min_eq_left (by omega)]
    have happend := bytesFrom_append a (data.take n) (data.drop n)
    rw [hlen, List.take_append_drop] at happend
    exact happend.symm

theorem mem_bytesFrom {a : Nat} {data : List UInt8} {i : Nat} (hi : i < data.length) :
    (a + i, data[i]) ∈ bytesFrom a data := by
  have hitem : (data[i], i) ∈ data.zipIdx :=
    List.mk_mem_zipIdx_iff_getElem?.2 (List.getElem?_eq_getElem hi)
  exact List.mem_map.2 ⟨_, hitem, rfl⟩

theorem snd_bytesFrom (a : Nat) (bytes : List UInt8) :
    (bytesFrom a bytes).map (·.2) = bytes := by
  unfold bytesFrom
  rw [List.map_map]
  exact List.zipIdx_map_fst 0 bytes

theorem content_eq (m : Image) : m.content = m.bytes.map (·.2) := by
  unfold content bytes
  rw [List.map_flatMap]
  refine List.flatMap_congr fun s _ => ?_
  rw [segmentBytes_eq, snd_bytesFrom]

end Image

/-! ## Joining -/

theorem Segment.canonical_cons (h : Canonical rest) (hne : s.bytes ≠ []) (hstop : s.stop ≤ 0x100000000)
    (hbelow : ∀ t ∈ rest, s.stop ≤ t.base.toNat) :
    Canonical (s.cons rest) ∧
      (s.cons rest).flatMap Image.segmentBytes =
        Image.segmentBytes s ++ rest.flatMap Image.segmentBytes := by
  unfold Segment.cons
  cases rest with
  | nil => exact ⟨h.cons hne hstop (List.forall_mem_nil _), rfl⟩
  | cons next more =>
    have hnext := hbelow next List.mem_cons_self
    have hafter := (List.pairwise_cons.1 h.gapped).1
    dsimp only
    split
    · rename_i htouch
      -- the two become one, which ends where the second did
      have hsame : Segment.stop ⟨s.base, s.bytes ++ next.bytes⟩ = next.stop := by
        show s.base.toNat + (s.bytes ++ next.bytes).length = next.stop
        rw [List.length_append, ← Nat.add_assoc, Segment.stop, htouch]
        rfl
      refine ⟨h.tail.cons ?_ ?_ fun t ht => ?_, ?_⟩
      · exact List.append_ne_nil_of_left_ne_nil hne _
      · rw [hsame]
        exact h.inside next List.mem_cons_self
      · rw [hsame]
        exact hafter t ht
      · rw [List.flatMap_cons, List.flatMap_cons, ← List.append_assoc]
        congr 1
        rw [Image.segmentBytes_eq, Image.bytesFrom_append, Image.segmentBytes_eq next, htouch]
        rfl
    · rename_i hapart
      refine ⟨h.cons hne hstop fun t ht => ?_, rfl⟩
      have hgap : s.stop < next.base.toNat := by omega
      rcases List.mem_cons.1 ht with rfl | ht
      · exact hgap
      · have hfar := hafter t ht
        rw [Segment.stop] at hfar
        omega

theorem Image.base_of_mem_joined : ∀ {pieces : List Segment},
    ∀ t ∈ joined pieces, ∃ s ∈ pieces, t.base = s.base
  | [], t, h => absurd h List.not_mem_nil
  | s :: rest, t, h => by
    -- a joined piece starts where one of its parts does, also when it has taken in the next one
    have hrest : t ∈ joined rest → ∃ u ∈ s :: rest, t.base = u.base := by
      intro ht
      obtain ⟨u, hu, he⟩ := base_of_mem_joined t ht
      exact ⟨u, List.mem_cons_of_mem _ hu, he⟩
    have h : t ∈ s.cons (joined rest) := h
    unfold Segment.cons at h
    split at h
    · rw [List.mem_singleton.1 h]
      exact ⟨s, List.mem_cons_self, rfl⟩
    · rename_i next more hjoined
      split at h
      · rcases List.mem_cons.1 h with rfl | h
        · exact ⟨s, List.mem_cons_self, rfl⟩
        · exact hrest (hjoined ▸ List.mem_cons_of_mem _ h)
      · rcases List.mem_cons.1 h with rfl | h
        · exact ⟨t, List.mem_cons_self, rfl⟩
        · exact hrest (hjoined ▸ h)

/-- **Joining leaves gaps and loses nothing.** The pieces have to be ordered and apart; whether
neighbours touch is decided by their ends. -/
theorem Image.canonical_joined (h : Ordered pieces) :
    Canonical (joined pieces) ∧
      (joined pieces).flatMap segmentBytes = pieces.flatMap segmentBytes := by
  induction pieces with
  | nil =>
    exact ⟨.nil, rfl⟩
  | cons s rest ih =>
    obtain ⟨hcanonical, hbytes⟩ := ih h.tail
    have hbelow : ∀ t ∈ joined rest, s.stop ≤ t.base.toNat := by
      intro t ht
      obtain ⟨u, hu, he⟩ := base_of_mem_joined t ht
      rw [he]
      exact (List.pairwise_cons.1 h.disjoint).1 u hu
    rw [List.flatMap_cons, ← hbytes]
    exact Segment.canonical_cons hcanonical (h.nonempty s List.mem_cons_self)
      (h.inside s List.mem_cons_self) hbelow

/-! ## Putting pieces down -/

namespace Image

theorem mem_of_floor? {m : Image} {a : UInt32} (h : m.floor? a = some t) : t ∈ m.segments := by
  exact (List.takeWhile_sublist _).subset (List.mem_of_getLast? h)

/-- A piece beyond everything becomes the last segment. Joined pieces come in ascending order with gaps,
so putting them down one after the other never joins or replaces anything. -/
theorem overlay_of_beyond {m : Image} (hne : s.bytes ≠ []) (hstop : s.stop ≤ 0x100000000)
    (hbeyond : ∀ t ∈ m.segments, t.stop < s.base.toNat) :
    (m.overlay s).segments = m.segments ++ [s] := by
  have hspace : inAddressSpace s.base s.bytes.length = true := decide_eq_true hstop
  have hlower : ∀ t ∈ m.segments, t.base < s.base := by
    intro t ht
    have := hbeyond t ht
    rw [Segment.stop] at this
    rw [UInt32.lt_iff_toNat_lt]
    omega
  have hbelow : m.below s.base = m.segments :=
    List.filter_eq_self.2 fun t ht => decide_eq_true (hlower t ht)
  have habove : m.above s.base = [] :=
    List.filter_eq_nil_iff.2 fun t ht => by
      rw [decide_eq_true_eq]
      exact UInt32.lt_asymm (hlower t ht)
  have hsettle : (m.settle s).segments = m.segments ++ [s] := by
    show m.below s.base ++ s.absorb (m.above s.base) = _
    rw [hbelow, habove]
    rfl
  have hextend : m.extend? s.base s.bytes = some (m.settle s) := by
    unfold extend?
    rw [if_pos hspace, if_neg hne]
    cases hfloor : m.floor? s.base with
    | none => rfl
    | some t =>
      -- the segment found ends in front of the piece, so nothing is continued
      have hend := hbeyond t (mem_of_floor? hfloor)
      rw [Segment.stop] at hend
      exact if_neg (by omega)
  rw [overlay, hextend]
  exact hsettle

theorem foldl_overlay {m : Image} (h : Canonical pieces)
    (hbeyond : ∀ t ∈ m.segments, ∀ s ∈ pieces, t.stop < s.base.toNat) :
    (pieces.foldl overlay m).segments = m.segments ++ pieces := by
  induction pieces generalizing m with
  | nil => exact (List.append_nil _).symm
  | cons s rest ih =>
    have hone : (m.overlay s).segments = m.segments ++ [s] :=
      overlay_of_beyond (h.nonempty s List.mem_cons_self) (h.inside s List.mem_cons_self)
        fun t ht => hbeyond t ht s List.mem_cons_self
    rw [List.foldl_cons, ih h.tail, hone, List.append_assoc, List.singleton_append]
    intro t ht u hu
    rw [hone] at ht
    rcases List.mem_append.1 ht with ht | ht
    · exact hbeyond t ht u (List.mem_cons_of_mem _ hu)
    · rw [List.mem_singleton.1 ht]
      exact (List.pairwise_cons.1 h.gapped).1 u hu

theorem segments_ofPieces (h : Ordered pieces) : (ofPieces pieces).segments = joined pieces :=
  foldl_overlay (canonical_joined h).1 (List.forall_mem_nil _)

theorem bytes_ofPieces (h : Ordered pieces) :
    (ofPieces pieces).bytes = pieces.flatMap segmentBytes := by
  unfold Image.bytes
  rw [segments_ofPieces h]
  exact (canonical_joined h).2

end Image

end FlashParams
