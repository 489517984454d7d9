import FlashParams.Proofs.Image.Extend

/-!
# Operations on an image, and what they mean

To a caller an image is a map from addresses to bytes, and all there is to know of segments is where
they start and end: a write or a read succeeds inside one segment, and a segment is discarded by its
start.
`Operation.Accepted` and `Operation.effect` say in these terms when an operation is carried out and what
it does to the map, and `Operation.Refined` is the whole of it for one image. It holds of every
operation on a well-formed image (`WellFormed.refined`), with one provision. `fill?` starts a segment
wherever it is told to, over others or in place of one, and leaves it to its caller that there is
nothing yet (`Operation.Admitted`).

Runs follow by induction, since every operation leaves a well-formed image: `WellFormed.refines` is
about any sequence of operations each of which was admitted when its turn came.
-/

set_option autoImplicit false

namespace FlashParams

namespace Segment

def bounds (s : Segment) : UInt32 × Nat :=
  (s.base, s.stop)

def Covers (s : Segment) (start length : Nat) : Prop :=
  s.base.toNat ≤ start ∧ start + length ≤ s.stop

instance (s : Segment) (start length : Nat) : Decidable (s.Covers start length) :=
  inferInstanceAs (Decidable (_ ∧ _))

end Segment

namespace Image

variable {m m' : Image} {s t : Segment} {a base : UInt32} {bytes : List UInt8}

/-! ## Writing -/

/-- Whether an image is well-formed is a matter of where its segments start and end. A write moves no
boundary, so this is all it takes to keep an image well-formed. -/
theorem wellFormed_iff_bounds : m.WellFormed ↔
    (∀ p ∈ m.segments.map Segment.bounds, p.1.toNat < p.2 ∧ p.2 ≤ 0x100000000) ∧
      (m.segments.map Segment.bounds).Pairwise fun p q => p.2 ≤ q.1.toNat := by
  have hne : ∀ s : Segment, s.bytes ≠ [] ↔ s.base.toNat < s.stop := by
    intro s
    rw [Segment.stop, ← List.length_pos_iff]
    omega
  rw [List.forall_mem_map, List.pairwise_map]
  constructor
  · intro h
    exact ⟨fun s hs => ⟨(hne s).1 (h.nonempty s hs), h.inside s hs⟩, h.disjoint⟩
  · rintro ⟨hall, hdisjoint⟩
    exact ⟨fun s hs => (hne s).2 (hall s hs).1, hdisjoint, fun s hs => (hall s hs).2⟩

theorem write?_eq_some (h : m.write? a bytes = some m') :
    ∃ s ∈ m.segments, s.Covers a.toNat bytes.length ∧
      m'.segments = m.segments.map fun t => if t.base = s.base then t.put a bytes else t := by
  unfold write? at h
  split at h
  · cases h
  rename_i s hfloor
  obtain ⟨hs, hle, -⟩ := floor?_eq_some hfloor
  have hlow := UInt32.le_iff_toNat_le.1 hle
  dsimp only at h
  split at h
  · rename_i hfits
    cases h
    refine ⟨s, hs, ⟨hlow, by rw [Segment.stop]; omega⟩, List.map_congr_left fun t _ => ?_⟩
    split
    · rename_i hbase
      rw [Segment.put, hbase]
    · rfl
  · cases h

theorem WellFormed.isSome_write? (hm : m.WellFormed) :
    (m.write? a bytes).isSome ↔ ∃ s ∈ m.segments, s.Covers a.toNat bytes.length := by
  constructor
  · intro h
    obtain ⟨m', hwrite⟩ := Option.isSome_iff_exists.1 h
    obtain ⟨s, hs, hcovers, -⟩ := write?_eq_some hwrite
    exact ⟨s, hs, hcovers⟩
  · rintro ⟨s, hs, hlow, hhigh⟩
    have hle : s.base ≤ a := UInt32.le_iff_toNat_le.2 hlow
    unfold write?
    split
    · rename_i hfloor
      exact absurd (floor?_eq_none hfloor s hs) (UInt32.not_lt.2 hle)
    rename_i t hfloor
    obtain ⟨ht, hta, hlast⟩ := floor?_eq_some hfloor
    rw [UInt32.le_iff_toNat_le] at hta
    dsimp only
    rw [if_pos]
    · rfl
    -- another segment is found only if the span is empty and that segment starts where this one ends
    rcases hlast s hs hle with rfl | hbase
    · rw [Segment.stop] at hhigh
      omega
    · have hstop := hm.stop_le hs ht hbase
      omega

section

variable (hs : s ∈ m.segments)
  (hwritten : m'.segments = m.segments.map fun t => if t.base = s.base then t.put a bytes else t)
include hwritten

include hs in
theorem bounds_written (hcovers : s.Covers a.toNat bytes.length) :
    m'.segments.map Segment.bounds = m.segments.map Segment.bounds := by
  have hput : (s.put a bytes).stop = s.stop := by
    rw [Segment.stop_put bytes hcovers.1 (Nat.le_of_add_right_le hcovers.2)]
    exact Nat.max_eq_left hcovers.2
  rw [hwritten, List.map_map]
  refine List.map_congr_left fun t ht => ?_
  rw [Function.comp_apply]
  split
  · rename_i hbase
    rw [eq_of_base_eq ht hs hbase]
    exact Prod.ext rfl hput
  · rfl

/-- Without the segment written into, the two images are one. With `WellFormed.memory_eq` a write is then
a matter of one segment. -/
theorem discard_written : m'.discard s.base = m.discard s.base := by
  have hbase : ∀ t : Segment, (if t.base = s.base then t.put a bytes else t).base = t.base := by
    intro t
    split <;> rfl
  apply ext_segments
  show m'.segments.filter _ = m.segments.filter _
  rw [hwritten, List.filter_map]
  simp only [Function.comp_def, hbase]
  conv => rhs; rw [← List.map_id (m.segments.filter _)]
  exact List.map_congr_left fun t ht => if_neg (of_decide_eq_true (List.mem_filter.1 ht).2)

end

/-- **A write puts bytes into one segment and moves no boundary.** It is refused when the bytes do not
lie within one, even if two that touch hold all of them. -/
theorem WellFormed.write (hm : m.WellFormed) (h : m.write? a bytes = some m') :
    m'.WellFormed ∧ m'.memory = m.memory.put a.toNat bytes ∧
      m'.segments.map Segment.bounds = m.segments.map Segment.bounds := by
  obtain ⟨s, hs, hcovers, hwritten⟩ := write?_eq_some h
  have hbounds := bounds_written hs hwritten hcovers
  have hm' : m'.WellFormed := by
    rw [wellFormed_iff_bounds, hbounds]
    exact wellFormed_iff_bounds.1 hm
  have hmem : s.put a bytes ∈ m'.segments := by
    rw [hwritten]
    exact List.mem_map.2 ⟨s, hs, if_pos rfl⟩
  have hdiscard : m'.discard (s.put a bytes).base = m.discard s.base := discard_written hwritten
  refine ⟨hm', ?_, hbounds⟩
  rw [hm'.memory_eq hmem, hdiscard,
    Segment.memory_put bytes hcovers.1 (Nat.le_of_add_right_le hcovers.2), Memory.put_orElse,
    hm.memory_eq hs]

/-! ## Filling -/

theorem isSome_fill? {length : Nat} {byte : UInt8} :
    (m.fill? base length byte).isSome ↔ base.toNat + length ≤ 0x100000000 := by
  unfold fill? inAddressSpace
  by_cases hspace : base.toNat + length ≤ 0x100000000
  · rw [if_pos (decide_eq_true hspace)]
    refine ⟨fun _ => hspace, fun _ => ?_⟩
    split <;> rfl
  · rw [if_neg (by rwa [decide_eq_true_eq])]
    exact ⟨fun h => absurd h Bool.false_ne_true, fun h => absurd h hspace⟩

theorem WellFormed.free (hm : m.WellFormed) {start length : Nat} (hpos : 0 < length)
    (h : ∀ x, start ≤ x → x < start + length → m.memory x = none) : m.Free start length := by
  intro t ht
  have hlength := List.length_pos_iff.2 (hm.nonempty t ht)
  by_contra hmeets
  -- the later of the two starts would be an address of both
  have hnone := Memory.ofSegments_eq_none_iff.1
    (h (max start t.base.toNat) (Nat.le_max_left _ _) (by omega)) t ht
  rw [Segment.memory_eq_none_iff, Segment.stop] at hnone
  rw [Segment.stop] at hmeets
  omega

/-- **Filling a span without bytes adds it and nothing else.** It becomes a segment of its own, also
where it touches one. -/
theorem WellFormed.fill (hm : m.WellFormed) {length : Nat} {byte : UInt8}
    (hfree : ∀ x, base.toNat ≤ x → x < base.toNat + length → m.memory x = none)
    (h : m.fill? base length byte = some m') :
    m'.WellFormed ∧ m'.memory = m.memory.put base.toNat (List.replicate length byte) ∧
      if length = 0 then m' = m
      else m'.segments.Perm (⟨base, List.replicate length byte⟩ :: m.segments) := by
  have hspace := isSome_fill?.1 (Option.isSome_of_eq_some h)
  have hinside : inAddressSpace base length = true := decide_eq_true hspace
  unfold fill? at h
  rw [if_pos hinside] at h
  split at h
  · rename_i hzero
    cases h
    rw [hzero, if_pos rfl, List.replicate_zero, Memory.put_nil]
    exact ⟨hm, rfl, rfl⟩
  · rename_i hlength
    cases h
    have hne : List.replicate length byte ≠ [] := by
      rwa [Ne, List.replicate_eq_nil_iff]
    have hroom : m.Free base.toNat (List.replicate length byte).length := by
      rw [List.length_replicate]
      exact hm.free (Nat.pos_of_ne_zero hlength) hfree
    have hstop : Segment.stop ⟨base, List.replicate length byte⟩ ≤ 0x100000000 := by
      rwa [Segment.stop, List.length_replicate]
    have hbase := hroom.base_ne hm (List.length_pos_iff.2 hne)
    have hm' := hm.insert (s := ⟨base, List.replicate length byte⟩) hne hstop hroom
    rw [if_neg hlength]
    refine ⟨hm', ?_, perm_insert hbase⟩
    rw [hm'.memory_eq (mem_insert_self m _), discard_insert hbase, Segment.memory_mk,
      Memory.put_orElse, Memory.empty_orElse]

/-! ## Discarding -/

theorem WellFormed.memory_discard (hm : m.WellFormed) (base : UInt32) (x : Nat) :
    (m.discard base).memory x =
      if ∃ s ∈ m.segments, s.base = base ∧ s.Covers x 1 then none else m.memory x := by
  split
  · rename_i h
    obtain ⟨s, hs, rfl, hlow, hhigh⟩ := h
    refine Memory.ofSegments_eq_none_iff.2 fun t ht => ?_
    obtain ⟨ht, hbase⟩ := mem_discard.1 ht
    by_contra hx
    have heq := hm.eq_of_within ht hs (Segment.memory_ne_none_iff.1 hx) ⟨hlow, hhigh⟩
    exact hbase (by rw [heq])
  · rename_i h
    refine Option.ext fun b => ?_
    rw [hm.memory_eq_some_iff, (hm.discard base).memory_eq_some_iff]
    constructor
    · rintro ⟨s, hs, hb⟩
      exact ⟨s, (mem_discard.1 hs).1, hb⟩
    · rintro ⟨s, hs, hb⟩
      exact ⟨s, mem_discard.2 ⟨hs, fun hbase => h ⟨s, hs, hbase, Segment.within_of_memory hb⟩⟩, hb⟩

/-! ## One operation -/

/-- What a caller can do to an image. Operations are values here, so that a run of them can be spoken of
and the laws be proved by induction over it. -/
inductive Operation where
  | extend (a : UInt32) (bytes : List UInt8)
  | write (a : UInt32) (bytes : List UInt8)
  | fill (base : UInt32) (length : Nat) (byte : UInt8)
  | discard (base : UInt32)

namespace Operation

def perform? (m : Image) : Operation → Option Image
  | extend a bytes => m.extend? a bytes
  | write a bytes => m.write? a bytes
  | fill base length byte => m.fill? base length byte
  | discard base => some (m.discard base)

def perform (m : Image) (op : Operation) : Image :=
  (op.perform? m).getD m

/-- What an operation asks of its caller. Only filling asks for anything: it starts a new segment without
looking at what is there, so its span has to be free. -/
def Admitted (m : Image) : Operation → Prop
  | fill base length _ => base.toNat + length ≤ 0x100000000 →
    ∀ x, base.toNat ≤ x → x < base.toNat + length → m.memory x = none
  | _ => True

def Accepted (m : Image) : Operation → Prop
  | extend a bytes => a.toNat + bytes.length ≤ 0x100000000
  | write a bytes => ∃ s ∈ m.segments, s.Covers a.toNat bytes.length
  | fill base length _ => base.toNat + length ≤ 0x100000000
  | discard _ => True

instance (m : Image) : (op : Operation) → Decidable (op.Accepted m)
  | extend _ _ => inferInstanceAs (Decidable (_ ≤ _))
  | write _ _ => inferInstanceAs (Decidable (∃ s ∈ m.segments, _))
  | fill _ _ _ => inferInstanceAs (Decidable (_ ≤ _))
  | discard _ => inferInstanceAs (Decidable True)

/-- What an operation does to the bytes when it is carried out. This is its meaning, in terms of the map
alone; whether the segments follow is what is to be shown. -/
def effect (m : Image) : Operation → Memory → Memory
  | extend a bytes, μ => μ.put a.toNat bytes
  | write a bytes, μ => μ.put a.toNat bytes
  | fill base length byte, μ => μ.put base.toNat (List.replicate length byte)
  | discard base, μ => fun x =>
    if ∃ s ∈ m.segments, s.base = base ∧ s.Covers x 1 then none else μ x

def Reshapes (m m' : Image) : Operation → Prop
  | extend _ _ => True
  | write _ _ => m'.segments.map Segment.bounds = m.segments.map Segment.bounds
  | fill base length byte =>
    if length = 0 then m' = m
    else m'.segments.Perm (⟨base, List.replicate length byte⟩ :: m.segments)
  | discard base => ∀ s, s ∈ m'.segments ↔ s ∈ m.segments ∧ s.base ≠ base

/-- An operation on an image does what it means: it is carried out exactly when it should be, and then
bytes and segments are as they should be. -/
structure Refined (m : Image) (op : Operation) : Prop where
  accepted : (op.perform? m).isSome ↔ op.Accepted m
  refused : ¬ op.Accepted m → op.perform m = m
  wellFormed : (op.perform m).WellFormed
  memory : op.Accepted m → (op.perform m).memory = op.effect m m.memory
  segments : op.Accepted m → op.Reshapes m (op.perform m)

end Operation

open Operation

theorem WellFormed.refined_of_some (hm : m.WellFormed) {op : Operation}
    (hsome : (op.perform? m).isSome ↔ op.Accepted m)
    (h : ∀ m', op.perform? m = some m' →
      m'.WellFormed ∧ m'.memory = op.effect m m.memory ∧ op.Reshapes m m') : op.Refined m := by
  cases hperform : op.perform? m with
  | none =>
    have hsame : op.perform m = m := by
      rw [Operation.perform, hperform]
      rfl
    have hno : ¬ op.Accepted m := by
      rw [← hsome, hperform]
      exact Bool.false_ne_true
    have hm' : (op.perform m).WellFormed := by
      rw [hsame]
      exact hm
    exact ⟨hsome, fun _ => hsame, hm', fun hyes => absurd hyes hno, fun hyes => absurd hyes hno⟩
  | some m' =>
    obtain ⟨hm', hmemory, hsegments⟩ := h m' hperform
    have hnext : op.perform m = m' := by
      rw [Operation.perform, hperform]
      rfl
    have hyes : op.Accepted m := hsome.1 (Option.isSome_of_eq_some hperform)
    rw [← hnext] at hm' hmemory hsegments
    exact ⟨hsome, fun hno => absurd hyes hno, hm', fun _ => hmemory, fun _ => hsegments⟩

/-- **Every operation on a well-formed image does what it means.** One case for each operation, taken
from its own lemma, so an operation that is added needs one more and no other is touched. -/
theorem WellFormed.refined (hm : m.WellFormed) {op : Operation} (h : op.Admitted m) :
    op.Refined m := by
  cases op with
  | extend a bytes =>
    refine hm.refined_of_some isSome_extend? fun m' hextend => ?_
    obtain ⟨hm', hmemory⟩ := hm.extend hextend
    exact ⟨hm', hmemory, trivial⟩
  | write a bytes => exact hm.refined_of_some hm.isSome_write? fun m' hwrite => hm.write hwrite
  | fill base length byte =>
    refine hm.refined_of_some isSome_fill? fun m' hfill => ?_
    exact hm.fill (h (isSome_fill?.1 (Option.isSome_of_eq_some hfill))) hfill
  | discard base =>
    refine hm.refined_of_some ⟨fun _ => trivial, fun _ => rfl⟩ fun m' hdiscard => ?_
    cases hdiscard
    exact ⟨hm.discard base, funext (hm.memory_discard base), fun s => mem_discard⟩

/-! ## Runs -/

def Admits (m : Image) : List Operation → Prop
  | [] => True
  | op :: rest => op.Admitted m ∧ (op.perform m).Admits rest

def performAll (m : Image) (ops : List Operation) : Image :=
  ops.foldl Operation.perform m

def remember (m : Image) (μ : Memory) : List Operation → Memory
  | [] => μ
  | op :: rest => (op.perform m).remember (if op.Accepted m then op.effect m μ else μ) rest

/-- An image is a map from addresses to bytes, for reading, for listing and for every operation. The one
trace of segments is that a read stays within one of them. -/
structure Refines (m : Image) : Prop where
  wellFormed : m.WellFormed
  inside : ∀ x b, m.memory x = some b → x < 0x100000000
  operation : ∀ op : Operation, op.Admitted m → op.Refined m
  read : ∀ (first last : UInt32) (data : List UInt8), m.read? first last = some data ↔
    (∃ s ∈ m.segments, s.base.toNat ≤ first.toNat ∧ first.toNat ≤ last.toNat ∧
      last.toNat < s.stop) ∧
    data.map some = m.memory.window first.toNat (last.toNat - first.toNat + 1)
  listed : ∀ x b, (x, b) ∈ m.bytes ↔ m.memory x = some b
  ascending : m.bytes.Pairwise fun p q => p.1 < q.1

/-- **A well-formed image stays a map from addresses to bytes along every run of operations**, and the
map is the one that results from what the operations mean. -/
theorem WellFormed.refines (hm : m.WellFormed) {ops : List Operation} (h : m.Admits ops) :
    (m.performAll ops).Refines ∧ (m.performAll ops).memory = m.remember m.memory ops := by
  induction ops generalizing m with
  | nil =>
    exact ⟨⟨hm, fun _ _ => hm.lt_of_memory, fun _ => hm.refined, fun _ _ _ => hm.read?_eq_some_iff,
      fun _ _ => hm.mem_bytes, hm.bytes_ascending⟩, rfl⟩
  | cons op rest ih =>
    obtain ⟨hadmitted, hrest⟩ := h
    have hrefined := hm.refined hadmitted
    obtain ⟨hlast, hmemory⟩ := ih hrefined.wellFormed hrest
    refine ⟨hlast, hmemory.trans ?_⟩
    rw [remember]
    split
    · rename_i hyes
      rw [hrefined.memory hyes]
    · rename_i hno
      rw [hrefined.refused hno]

end Image

namespace Specimen

def shards : Image :=
  ⟨[⟨0xFFFFFFF0, [1, 2]⟩, ⟨0xFFFFFFF2, [3]⟩, ⟨0xFFFFFFF6, [4, 5, 6]⟩], by unfold Ascending; decide⟩

/-- Bytes from the first segment over the gap into the third, bytes that would wrap around, the last two
addresses, and all of it gone but these. -/
def repairs : List Image.Operation :=
  [.extend 0xFFFFFFF1 [7, 7, 7, 7, 7, 7], .extend 0xFFFFFFFF [8, 8], .fill 0xFFFFFFFE 2 9,
    .discard 0xFFFFFFF0]

theorem shards_refines : shards.WellFormed ∧ shards.Admits repairs ∧
    (shards.performAll repairs).Refines ∧
    (shards.performAll repairs).memory = shards.remember shards.memory repairs ∧
    (shards.performAll repairs).bytes = [(0xFFFFFFFE, 9), (0xFFFFFFFF, 9)] := by
  have hm : shards.WellFormed := ⟨by decide, by decide, by decide⟩
  have h : shards.Admits repairs := by
    refine ⟨trivial, trivial, fun _ x hlow hhigh => ?_, trivial, trivial⟩
    have hbase : (0xFFFFFFFE : UInt32).toNat = 0xFFFFFFFE := rfl
    rw [hbase] at hlow hhigh
    obtain rfl | rfl : x = 0xFFFFFFFE ∨ x = 0xFFFFFFFF := by omega
    · decide +kernel
    · decide +kernel
  obtain ⟨hrefines, hmemory⟩ := hm.refines h
  exact ⟨hm, h, hrefines, hmemory, by decide +kernel⟩

end Specimen

end FlashParams
