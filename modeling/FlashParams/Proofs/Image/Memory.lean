import FlashParams.Proofs.Image.Insert

/-!
# What an image stores

An image is a way of storing a partial map from addresses to bytes, and `Image.memory` is that map: the
byte an address has in the first segment that holds it. In a well-formed image no other segment can hold
it (`WellFormed.memory_eq_some_iff`), so the map can be taken apart at any member, into that segment's
bytes and those of the image without it (`WellFormed.memory_eq`). Every operation changes or adds one
segment, which is why this is the equation the operations are compared by.

The two ways out of an image are read off the map here. `read?` gives a window of it, provided that one
segment covers the window; `bytes` lists all of it.
-/

set_option autoImplicit false

namespace FlashParams

/-- The byte at each address that has one: what an image means. Segments are forgotten, so two images
with one memory are told apart by nothing a reader of bytes can see. -/
abbrev Memory := Nat → Option UInt8

namespace Memory

def empty : Memory := fun _ => none

def orElse (μ ν : Memory) : Memory := fun x => (μ x).or (ν x)

def put (μ : Memory) (a : Nat) (bytes : List UInt8) : Memory := fun x =>
  if a ≤ x ∧ x < a + bytes.length then bytes[x - a]? else μ x

def window (μ : Memory) (a length : Nat) : List (Option UInt8) :=
  (List.range length).map fun i => μ (a + i)

variable {μ ν ρ : Memory}

@[simp] theorem empty_orElse : empty.orElse μ = μ :=
  rfl

theorem orElse_assoc : (μ.orElse ν).orElse ρ = μ.orElse (ν.orElse ρ) := by
  funext x
  exact Option.or_assoc

theorem orElse_comm (h : ∀ x, μ x ≠ none → ν x = none) : μ.orElse ν = ν.orElse μ := by
  funext x
  unfold orElse
  cases hx : μ x with
  | none => rw [Option.none_or, Option.or_none]
  | some b =>
    rw [h x (by rw [hx]; exact Option.some_ne_none b)]
    rfl

@[simp] theorem put_nil (a : Nat) : μ.put a [] = μ := by
  funext x
  rw [put, List.length_nil, if_neg (by omega)]

theorem put_orElse (a : Nat) (bytes : List UInt8) : (μ.put a bytes).orElse ν = (μ.orElse ν).put a bytes := by
  funext x
  unfold orElse put
  split
  · rename_i hin
    rw [List.getElem?_eq_getElem (by omega)]
    rfl
  · rfl

end Memory

/-! ## One segment -/

namespace Segment

variable {s : Segment} {x : Nat}

def memory (s : Segment) : Memory := fun x =>
  if s.base.toNat ≤ x then s.bytes[x - s.base.toNat]? else none

theorem memory_of_le (h : s.base.toNat ≤ x) : s.memory x = s.bytes[x - s.base.toNat]? :=
  if_pos h

theorem memory_eq_none_iff : s.memory x = none ↔ x < s.base.toNat ∨ s.stop ≤ x := by
  unfold memory stop
  split
  · rw [List.getElem?_eq_none_iff]
    omega
  · simp; omega

theorem memory_ne_none_iff : s.memory x ≠ none ↔ s.base.toNat ≤ x ∧ x < s.stop := by
  rw [Ne, memory_eq_none_iff]
  omega

theorem within_of_memory {b : UInt8} (h : s.memory x = some b) : s.base.toNat ≤ x ∧ x < s.stop :=
  memory_ne_none_iff.1 (by rw [h]; exact Option.some_ne_none b)

end Segment

/-! ## Segments, the first of which counts -/

namespace Memory

def ofSegments (segments : List Segment) : Memory := fun x =>
  segments.findSome? (·.memory x)

variable {s : Segment} {segments rest : List Segment} {x : Nat}

@[simp] theorem ofSegments_cons : ofSegments (s :: rest) = s.memory.orElse (ofSegments rest) := by
  funext x
  unfold ofSegments orElse
  rw [List.findSome?_cons]
  cases s.memory x <;> rfl

@[simp] theorem ofSegments_append (front back : List Segment) :
    ofSegments (front ++ back) = (ofSegments front).orElse (ofSegments back) := by
  funext x
  exact List.findSome?_append

theorem ofSegments_eq_none_iff : ofSegments segments x = none ↔ ∀ s ∈ segments, s.memory x = none :=
  List.findSome?_eq_none_iff

end Memory

namespace Image

def memory (m : Image) : Memory :=
  .ofSegments m.segments

variable {m : Image} {s t : Segment} {a : UInt32} {x : Nat} {b : UInt8}

/-! ## The segments of an image -/

theorem WellFormed.eq_of_within (hm : m.WellFormed) (hs : s ∈ m.segments) (ht : t ∈ m.segments)
    (hsx : s.base.toNat ≤ x ∧ x < s.stop) (htx : t.base.toNat ≤ x ∧ x < t.stop) : s = t := by
  rcases Nat.lt_trichotomy s.base.toNat t.base.toNat with h | h | h
  · have := hm.stop_le hs ht (UInt32.lt_iff_toNat_lt.2 h)
    omega
  · exact eq_of_base_eq hs ht (UInt32.toNat_inj.1 h)
  · have := hm.stop_le ht hs (UInt32.lt_iff_toNat_lt.2 h)
    omega

/-- The segments a look-up passes are those that start low enough, since starts ascend. The look-up stops
at the first that starts higher; this turns it into a question about all of them. -/
theorem takeWhile_eq_filter : ∀ {segments : List Segment}, Ascending segments →
    segments.takeWhile (·.base ≤ a) = segments.filter (·.base ≤ a)
  | [], _ => rfl
  | s :: rest, h => by
    obtain ⟨hs, hrest⟩ := List.pairwise_cons.1 h
    by_cases hlow : s.base ≤ a
    · rw [List.takeWhile_cons_of_pos (by simpa using hlow),
        List.filter_cons_of_pos (by simpa using hlow), takeWhile_eq_filter hrest]
    · have hnone : rest.filter (·.base ≤ a) = [] := by
        refine List.filter_eq_nil_iff.2 fun t ht => ?_
        rw [decide_eq_true_eq]
        exact fun hle => hlow (UInt32.le_of_lt (UInt32.lt_of_lt_of_le (hs t ht) hle))
      rw [List.takeWhile_cons_of_neg (by simpa using hlow),
        List.filter_cons_of_neg (by simpa using hlow), hnone]

/-- The segment a look-up finds starts low enough, and no other does so later. In a well-formed image it
is therefore the only one that can hold the address. -/
theorem floor?_eq_some (h : m.floor? a = some s) : s ∈ m.segments ∧ s.base ≤ a ∧
    ∀ t ∈ m.segments, t.base ≤ a → t = s ∨ t.base < s.base := by
  rw [floor?, takeWhile_eq_filter m.ascending] at h
  obtain ⟨front, hsplit⟩ := List.getLast?_eq_some_iff.1 h
  have hmem := List.mem_of_getLast? h
  obtain ⟨hs, hle⟩ := List.mem_filter.1 hmem
  refine ⟨hs, of_decide_eq_true hle, fun t ht hta => ?_⟩
  have hasc := m.ascending.filter (·.base ≤ a)
  have hmemt : t ∈ m.segments.filter (·.base ≤ a) := List.mem_filter.2 ⟨ht, decide_eq_true hta⟩
  rw [Ascending, hsplit, List.pairwise_append] at hasc
  rw [hsplit] at hmemt
  rcases List.mem_append.1 hmemt with ht | ht
  · exact .inr (hasc.2.2 t ht s (List.mem_singleton_self s))
  · exact .inl (List.mem_singleton.1 ht)

theorem floor?_eq_none (h : m.floor? a = none) : ∀ t ∈ m.segments, a < t.base := by
  rw [floor?, takeWhile_eq_filter m.ascending, List.getLast?_eq_none_iff,
    List.filter_eq_nil_iff] at h
  intro t ht
  exact UInt32.not_le.1 fun hle => h t ht (decide_eq_true hle)

/-! ## The bytes of an image -/

/-- An address has at most one byte, because segments are apart. So the order in which segments are put
over each other is no concern once an image is well-formed. -/
theorem WellFormed.memory_eq_some_iff (hm : m.WellFormed) :
    m.memory x = some b ↔ ∃ s ∈ m.segments, s.memory x = some b := by
  constructor
  · exact List.exists_of_findSome?_eq_some
  · rintro ⟨s, hs, hb⟩
    cases hx : m.memory x with
    | none =>
      rw [Memory.ofSegments_eq_none_iff.1 hx s hs] at hb
      cases hb
    | some c =>
      obtain ⟨t, ht, hc⟩ := List.exists_of_findSome?_eq_some hx
      cases hm.eq_of_within hs ht (Segment.within_of_memory hb) (Segment.within_of_memory hc)
      rw [← hb, ← hc]

theorem WellFormed.lt_of_memory (hm : m.WellFormed) (h : m.memory x = some b) : x < 0x100000000 := by
  obtain ⟨s, hs, hb⟩ := hm.memory_eq_some_iff.1 h
  exact Nat.lt_of_lt_of_le (Segment.within_of_memory hb).2 (hm.inside s hs)

theorem WellFormed.discard (hm : m.WellFormed) (base : UInt32) : (m.discard base).WellFormed :=
  ⟨fun s hs => hm.nonempty s (List.mem_filter.1 hs).1, hm.disjoint.filter _,
    fun s hs => hm.inside s (List.mem_filter.1 hs).1⟩

theorem mem_discard {base : UInt32} :
    s ∈ (m.discard base).segments ↔ s ∈ m.segments ∧ s.base ≠ base := by
  rw [discard, List.mem_filter, decide_eq_true_eq]

/-- **An image is any of its segments, completed by the image without it.** With it a change to one
segment can be followed in the map: the rest of the image is a map of its own. -/
theorem WellFormed.memory_eq (hm : m.WellFormed) (hs : s ∈ m.segments) :
    m.memory = s.memory.orElse (m.discard s.base).memory := by
  funext x
  unfold Memory.orElse
  cases hx : s.memory x with
  | some b => exact hm.memory_eq_some_iff.2 ⟨s, hs, hx⟩
  | none =>
    rw [Option.none_or]
    refine Option.ext fun b => ?_
    rw [hm.memory_eq_some_iff, (hm.discard _).memory_eq_some_iff]
    constructor
    · rintro ⟨t, ht, hb⟩
      refine ⟨t, mem_discard.2 ⟨ht, fun hbase => ?_⟩, hb⟩
      rw [eq_of_base_eq ht hs hbase, hx] at hb
      cases hb
    · rintro ⟨t, ht, hb⟩
      exact ⟨t, (mem_discard.1 ht).1, hb⟩

/-! ## Reading -/

theorem WellFormed.window_eq (hm : m.WellFormed) (hs : s ∈ m.segments) {start length : Nat}
    (hlow : s.base.toNat ≤ start) (hhigh : start + length ≤ s.stop) :
    m.memory.window start length =
      ((s.bytes.drop (start - s.base.toNat)).take length).map some := by
  rw [Segment.stop] at hhigh
  refine List.ext_getElem ?_ fun i hi _ => ?_
  · simp only [Memory.window, List.length_map, List.length_take, List.length_drop,
      List.length_range]
    omega
  · have hlt : i < length := by
      simpa only [Memory.window, List.length_map, List.length_range] using hi
    have hin : start + i - s.base.toNat < s.bytes.length := by omega
    have hat : s.memory (start + i) = some s.bytes[start + i - s.base.toNat] := by
      rw [Segment.memory_of_le (by omega), List.getElem?_eq_getElem hin]
    simp only [Memory.window, List.getElem_map, List.getElem_take, List.getElem_drop,
      List.getElem_range]
    rw [hm.memory_eq_some_iff.2 ⟨s, hs, hat⟩]
    congr 2
    omega

/-- **A read gives the bytes from one address to another, and it does so exactly if one segment has all
of them.** -/
theorem WellFormed.read?_eq_some_iff (hm : m.WellFormed) {first last : UInt32} {data : List UInt8} :
    m.read? first last = some data ↔
      (∃ s ∈ m.segments, s.base.toNat ≤ first.toNat ∧ first.toNat ≤ last.toNat ∧
        last.toNat < s.stop) ∧
      data.map some = m.memory.window first.toNat (last.toNat - first.toNat + 1) := by
  constructor
  · intro h
    unfold read? at h
    split at h
    · cases h
    rename_i hforward
    split at h
    · cases h
    rename_i s hfloor
    dsimp only at h
    split at h
    · rename_i hfits
      cases h
      obtain ⟨hs, hlow, -⟩ := floor?_eq_some hfloor
      rw [UInt32.le_iff_toNat_le] at hlow
      rw [UInt32.lt_iff_toNat_lt] at hforward
      have hhigh : last.toNat < s.stop := by
        rw [Segment.stop]
        omega
      exact ⟨⟨s, hs, hlow, Nat.not_lt.1 hforward, hhigh⟩,
        (hm.window_eq hs hlow (by omega)).symm⟩
    · cases h
  · rintro ⟨⟨s, hs, hlow, hforward, hhigh⟩, hdata⟩
    rw [read?_of_mem hm hs hlow hforward hhigh]
    rw [hm.window_eq hs hlow (by omega)] at hdata
    exact congrArg some ((List.map_inj_right fun _ _ => Option.some.inj).1 hdata).symm

theorem WellFormed.byteAt?_eq (hm : m.WellFormed) (a : UInt32) : m.byteAt? a = m.memory a.toNat := by
  cases hread : m.read? a a with
  | none =>
    have hnone : m.memory a.toNat = none := by
      refine Memory.ofSegments_eq_none_iff.2 fun s hs => Decidable.byContradiction fun hne => ?_
      obtain ⟨hlow, hhigh⟩ := Segment.memory_ne_none_iff.1 hne
      rw [read?_of_mem hm hs hlow (Nat.le_refl _) hhigh] at hread
      cases hread
    rw [byteAt?, hread, hnone]
  | some data =>
    obtain ⟨⟨s, hs, hlow, -, hhigh⟩, -⟩ := hm.read?_eq_some_iff.1 hread
    obtain ⟨b, hb⟩ := Option.ne_none_iff_exists'.1 (Segment.memory_ne_none_iff.2 ⟨hlow, hhigh⟩)
    rw [byteAt?_of_mem hm hs hlow hhigh, ← Segment.memory_of_le hlow, hb,
      hm.memory_eq_some_iff.2 ⟨s, hs, hb⟩]

/-- Reads of two images that differ do so because of one address. A checksum that has changed has
therefore seen a changed byte, and it is known which one. -/
theorem WellFormed.exists_ne_of_read? {m' : Image} (hm : m.WellFormed) (hm' : m'.WellFormed)
    {first last : UInt32} {data data' : List UInt8} (h : m.read? first last = some data)
    (h' : m'.read? first last = some data') (hne : data' ≠ data) :
    ∃ a : UInt32, first.toNat ≤ a.toNat ∧ a.toNat ≤ last.toNat ∧ m'.byteAt? a ≠ m.byteAt? a := by
  obtain ⟨⟨s, -, -, hforward, -⟩, hdata⟩ := hm.read?_eq_some_iff.1 h
  have hdata' := (hm'.read?_eq_some_iff.1 h').2
  refine Classical.byContradiction fun hnone => hne ?_
  refine (List.map_inj_right fun _ _ => Option.some.inj).1 ?_
  rw [hdata, hdata']
  refine List.map_congr_left fun i hi => ?_
  have hi := List.mem_range.1 hi
  have hlast := last.toNat_lt
  have haddress : (UInt32.ofNat (first.toNat + i)).toNat = first.toNat + i :=
    UInt32.toNat_ofNat_of_lt' (by rw [UInt32.size]; omega)
  refine Decidable.byContradiction fun hdiffers =>
    hnone ⟨UInt32.ofNat (first.toNat + i), by omega, by omega, ?_⟩
  rwa [hm.byteAt?_eq, hm'.byteAt?_eq, haddress]

/-! ## Listing -/

theorem mem_segmentBytes : (x, b) ∈ segmentBytes s ↔ s.memory x = some b := by
  unfold segmentBytes Segment.memory
  rw [List.mem_map]
  constructor
  · rintro ⟨⟨c, i⟩, hi, he⟩
    cases he
    rw [if_pos (Nat.le_add_right _ _), Nat.add_sub_cancel_left]
    exact List.mk_mem_zipIdx_iff_getElem?.1 hi
  · intro h
    split at h
    · rename_i hlow
      refine ⟨(b, x - s.base.toNat), List.mk_mem_zipIdx_iff_getElem?.2 h, ?_⟩
      show (s.base.toNat + (x - s.base.toNat), b) = (x, b)
      rw [Nat.add_sub_cancel' hlow]
    · cases h

theorem mem_bytes_iff : (x, b) ∈ m.bytes ↔ ∃ s ∈ m.segments, s.memory x = some b := by
  rw [bytes, List.mem_flatMap]
  exact exists_congr fun s => and_congr_right fun _ => mem_segmentBytes

theorem exists_mem_bytes_iff :
    (∃ b, (x, b) ∈ m.bytes) ↔ ∃ s ∈ m.segments, s.base.toNat ≤ x ∧ x < s.stop := by
  constructor
  · rintro ⟨b, hb⟩
    obtain ⟨s, hs, hb⟩ := mem_bytes_iff.1 hb
    exact ⟨s, hs, Segment.within_of_memory hb⟩
  · rintro ⟨s, hs, hwithin⟩
    obtain ⟨b, hb⟩ := Option.ne_none_iff_exists'.1 (Segment.memory_ne_none_iff.2 hwithin)
    exact ⟨b, mem_bytes_iff.2 ⟨s, hs, hb⟩⟩

theorem WellFormed.mem_bytes (hm : m.WellFormed) : (x, b) ∈ m.bytes ↔ m.memory x = some b := by
  rw [mem_bytes_iff, hm.memory_eq_some_iff]

theorem WellFormed.bytes_ascending (hm : m.WellFormed) :
    m.bytes.Pairwise fun p q => p.1 < q.1 := by
  unfold bytes
  rw [List.pairwise_flatMap]
  refine ⟨fun s _ => ?_, hm.disjoint.imp fun hst p hp q hq => ?_⟩
  · unfold segmentBytes
    rw [List.pairwise_map]
    have hpositions : (s.bytes.zipIdx.map Prod.snd).Pairwise (· < ·) := by
      rw [List.zipIdx_map_snd]
      exact List.pairwise_lt_range'
    exact (List.pairwise_map.1 hpositions).imp fun h => Nat.add_lt_add_left h _
  · have hlow := Segment.within_of_memory (mem_segmentBytes.1 hp)
    have hhigh := Segment.within_of_memory (mem_segmentBytes.1 hq)
    omega

end Image

end FlashParams
