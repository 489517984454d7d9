/-!
# Memory images

A sparse image of a 32-bit address space: contiguous segments of bytes, kept in ascending order of
their start addresses, no two of which are equal. The order is part of the type, so a lookup may
stop at the last segment that starts at or below an address.

What the type does *not* promise is that segments are disjoint, non-empty and inside the address
space. `fill` and `extend` refuse spans that leave the space, `extend` joins what it touches, and
the assembler fills only spans it has found free; `Image.WellFormed` states the promise for the
theorems that need it.

There are two ways to put bytes down. `write` changes bytes inside one segment and never moves a
boundary; it is how values go into a block. `extend` may start a segment, grow one, or bridge
several; it is how an image is rebuilt from records, and there the later bytes win.
-/

set_option autoImplicit false

namespace FlashParams

/-- Contiguous bytes at an address. Nothing here keeps it inside the address space; that is part of what
makes an image well-formed, and every operation that makes a segment checks it. -/
structure Segment where
  base : UInt32
  bytes : List UInt8
  deriving DecidableEq, Repr

/-- The address after the last byte of a segment. A natural number, because the last segment of the
address space ends where no 32-bit address is. -/
def Segment.stop (s : Segment) : Nat :=
  s.base.toNat + s.bytes.length

/-- Whether `length` bytes at `base` stay inside the 32-bit address space. -/
def inAddressSpace (base : UInt32) (length : Nat) : Bool :=
  base.toNat + length ≤ 0x100000000

def Ascending (segments : List Segment) : Prop :=
  segments.Pairwise fun s t => s.base < t.base

/-- Segments in ascending order of their start addresses. That no two start together is all an image
promises by its type; whether they stay apart is up to those who put them in. -/
structure Image where
  segments : List Segment
  ascending : Ascending segments

namespace Segment

/-- Bytes put over others from a position on. What stands outside the new bytes is kept, so a splice that
ends inside the old bytes changes their content and not their number. -/
def splice (old : List UInt8) (start : Nat) (new : List UInt8) : List UInt8 :=
  old.take start ++ new ++ old.drop (start + new.length)

/-- Joins a segment with the following ones that start inside it or where it ends. Its own bytes count
where they overlap, since it is the one that has just been written. -/
def absorb (s : Segment) : List Segment → List Segment
  | [] => [s]
  | next :: rest =>
    if next.base.toNat ≤ s.stop then
      absorb ⟨s.base, s.bytes ++ next.bytes.drop (s.stop - next.base.toNat)⟩ rest
    else s :: next :: rest

theorem base_of_mem_absorb {s t : Segment} {rest : List Segment} (h : t ∈ s.absorb rest) :
    t.base = s.base ∨ t ∈ rest := by
  induction rest generalizing s with
  | nil => simp_all [absorb]
  | cons next rest ih =>
    unfold absorb at h
    split at h
    · rcases ih h with h | h
      · exact .inl h
      · exact .inr (List.mem_cons_of_mem _ h)
    · rcases List.mem_cons.1 h with rfl | h
      · exact .inl rfl
      · exact .inr h

end Segment

/-! ## Keeping the order -/

namespace Ascending

theorem filter {segments : List Segment} (h : Ascending segments) (p : Segment → Bool) :
    Ascending (segments.filter p) :=
  List.Pairwise.filter p h

theorem absorb {s : Segment} {rest : List Segment} (h : Ascending (s :: rest)) :
    Ascending (s.absorb rest) := by
  induction rest generalizing s with
  | nil => simp [Segment.absorb, Ascending]
  | cons next rest ih =>
    obtain ⟨hs, hrest⟩ := List.pairwise_cons.1 h
    unfold Segment.absorb
    split
    · refine ih (List.pairwise_cons.2 ⟨fun t ht => ?_, (List.pairwise_cons.1 hrest).2⟩)
      exact hs t (List.mem_cons_of_mem _ ht)
    · exact h

/-- Segments in order below others are in order with them. This is how every operation shows that its
result is an image again: cut at an address, change the part above, put together. -/
theorem append {low high : List Segment} (hl : Ascending low) (hh : Ascending high)
    (h : ∀ s ∈ low, ∀ t ∈ high, s.base < t.base) : Ascending (low ++ high) :=
  List.pairwise_append.2 ⟨hl, hh, h⟩

theorem map_base {segments : List Segment} (h : Ascending segments) {f : Segment → Segment}
    (hf : ∀ s, (f s).base = s.base) : Ascending (segments.map f) :=
  List.pairwise_map.2 (h.imp fun hst => by simpa only [hf] using hst)

end Ascending

namespace Image

def empty : Image :=
  ⟨[], List.Pairwise.nil⟩

instance : Inhabited Image := ⟨empty⟩

def below (m : Image) (a : UInt32) : List Segment :=
  m.segments.filter (·.base < a)

def above (m : Image) (a : UInt32) : List Segment :=
  m.segments.filter (a < ·.base)

/-- Puts a segment at its address, in place of one that starts there, and joins it with those it reaches.
What lies below is left alone: a segment below that reaches it has been looked up before. -/
def settle (m : Image) (s : Segment) : Image :=
  ⟨m.below s.base ++ s.absorb (m.above s.base), by
    have habove : Ascending (s :: m.above s.base) := by
      refine List.pairwise_cons.2 ⟨fun t ht => ?_, m.ascending.filter _⟩
      simpa [above] using (List.mem_filter.1 ht).2
    refine Ascending.append (m.ascending.filter _) habove.absorb fun u hu t ht => ?_
    have hu' : u.base < s.base := by simpa [below] using (List.mem_filter.1 hu).2
    rcases Segment.base_of_mem_absorb ht with h | h
    · rwa [h]
    · have : s.base < t.base := by simpa [above] using (List.mem_filter.1 h).2
      exact UInt32.lt_trans hu' this⟩

/-- The last segment that starts at or below an address: the only one that can hold the byte at the
address, as long as segments stay apart. -/
def floor? (m : Image) (a : UInt32) : Option Segment :=
  (m.segments.takeWhile (·.base ≤ a)).getLast?

/-- Puts a segment at its address, in place of one that starts there, and leaves the others alone. The
caller keeps segments disjoint. -/
def insert (m : Image) (s : Segment) : Image :=
  ⟨m.below s.base ++ s :: m.above s.base, by
    refine Ascending.append (m.ascending.filter _)
      (List.pairwise_cons.2 ⟨fun t ht => ?_, m.ascending.filter _⟩) fun u hu t ht => ?_
    · simpa [above] using (List.mem_filter.1 ht).2
    · have hu' : u.base < s.base := by simpa [below] using (List.mem_filter.1 hu).2
      rcases List.mem_cons.1 ht with rfl | h
      · exact hu'
      · have : s.base < t.base := by simpa [above] using (List.mem_filter.1 h).2
        exact UInt32.lt_trans hu' this⟩

/-- Starts a new segment of equal bytes. Nothing when the span leaves the address space. A span without
bytes changes nothing, so a block without bytes has no segment that could be discarded later. -/
def fill? (m : Image) (base : UInt32) (length : Nat) (byte : UInt8) : Option Image :=
  if inAddressSpace base length then
    if length = 0 then some m
    else some (m.insert ⟨base, List.replicate length byte⟩)
  else none

/-- Replaces bytes inside one segment. Nothing when no single segment covers the span, even if neighbours
would together: a block writes into the segment that has been filled for it. -/
def write? (m : Image) (a : UInt32) (bytes : List UInt8) : Option Image :=
  match m.floor? a with
  | none => none
  | some s =>
    let start := a.toNat - s.base.toNat
    if start + bytes.length ≤ s.bytes.length then
      some ⟨m.segments.map fun t =>
          if t.base = s.base then ⟨t.base, Segment.splice t.bytes start bytes⟩ else t,
        m.ascending.map_base fun t => by split <;> rfl⟩
    else none

/-- Puts bytes at an address, growing or joining segments as needed; they replace what was there.
Nothing when the span leaves the address space. -/
def extend? (m : Image) (a : UInt32) (bytes : List UInt8) : Option Image :=
  if inAddressSpace a bytes.length then
    if bytes = [] then some m
    else
      match m.floor? a with
      | some s =>
        let start := a.toNat - s.base.toNat
        -- a piece that starts where the segment ends continues it
        if start ≤ s.bytes.length then
          some (m.settle ⟨s.base, Segment.splice s.bytes start bytes⟩)
        else some (m.settle ⟨a, bytes⟩)
      | none => some (m.settle ⟨a, bytes⟩)
  else none

/-- The bytes from `first` to `last`, both included, when one segment holds all of them. Bytes of two
segments that touch are not read together, and neither is a range that runs backwards. -/
def read? (m : Image) (first last : UInt32) : Option (List UInt8) :=
  if last < first then none
  else
    match m.floor? first with
    | none => none
    | some s =>
      let start := first.toNat - s.base.toNat
      let length := last.toNat - first.toNat + 1
      if start + length ≤ s.bytes.length then some ((s.bytes.drop start).take length) else none

def byteAt? (m : Image) (a : UInt32) : Option UInt8 :=
  match m.read? a a with
  | some (b :: _) => some b
  | _ => none

/-- The image without the segment that starts at an address. It goes by the address alone, so it takes a
block back only if no other segment starts where the block does. -/
def discard (m : Image) (base : UInt32) : Image :=
  ⟨m.segments.filter (·.base ≠ base), m.ascending.filter _⟩

def segmentBytes (s : Segment) : List (Nat × UInt8) :=
  s.bytes.zipIdx.map fun (b, i) => (s.base.toNat + i, b)

/-- Every address with its byte, segment by segment. -/
def bytes (m : Image) : List (Nat × UInt8) :=
  m.segments.flatMap segmentBytes

def content (m : Image) : List UInt8 :=
  m.segments.flatMap (·.bytes)

def size (m : Image) : Nat :=
  m.content.length

def isEmpty (m : Image) : Bool :=
  m.segments.isEmpty

/-- The segments are non-empty, disjoint (touching is allowed) and inside the address space. All
operations keep this, and with it an image is a finite map from addresses to bytes. -/
structure WellFormed (m : Image) : Prop where
  nonempty : ∀ s ∈ m.segments, s.bytes ≠ []
  disjoint : m.segments.Pairwise fun s t => s.stop ≤ t.base.toNat
  inside : ∀ s ∈ m.segments, s.stop ≤ 0x100000000

end Image

end FlashParams
