import FlashParams.Layout.Symbol
import FlashParams.Proofs.Image.Splice
import FlashParams.Proofs.Placement.Address

/-!
# Patches: what is laid over the fill bytes of a block

A block starts as its fill byte, `length` times over, and everything after that is a *patch*: the
bytes of one symbol, laid over whatever is there. `overlay` lays patches one after another. It is the
whole memory model of a block under construction, and it does not mention the image.

Which patch wins does not matter as long as patches keep apart, and then the result can be read off:
under a patch there are its bytes (`window_overlay_of_mem`), beside all of them the byte from before
(`getElem?_overlay_of_outside`), and a stretch none of them touches is as it was
(`window_overlay_of_apart`). The last one is what a checksum's range lives on, since it has to stay
unchanged while later patches are laid.
-/

set_option autoImplicit false

namespace FlashParams

def Symbol.span (s : Symbol) : Span :=
  ⟨s.address.toNat, s.stop⟩

/-- A symbol with the bytes that are stored for it. The image only ever sees the bytes and the table only
the symbol; keeping them as one says which bytes belong to which name. -/
structure Patch where
  symbol : Symbol
  bytes : List UInt8

structure Patch.Fits (base : UInt32) (length : Nat) (p : Patch) : Prop where
  sized : p.bytes.length = p.symbol.size.toNat
  low : base.toNat ≤ p.symbol.address.toNat
  starts : p.symbol.address.toNat < base.toNat + length
  ends : p.symbol.stop ≤ base.toNat + length

def Patch.over (base : UInt32) (bytes : List UInt8) (p : Patch) : List UInt8 :=
  Segment.splice bytes (p.symbol.address.toNat - base.toNat) p.bytes

/-- The bytes of a block at `base` with patches laid over them, the first one first. Where patches meet
the later one would win, but in a block without faults none do. -/
def overlay (base : UInt32) (bytes : List UInt8) (patches : List Patch) : List UInt8 :=
  patches.foldl (Patch.over base) bytes

variable {base : UInt32} {bytes : List UInt8} {p : Patch} {patches : List Patch}

theorem Patch.Fits.room (h : p.Fits base bytes.length) :
    p.symbol.address.toNat - base.toNat + p.bytes.length ≤ bytes.length := by
  have hlow := h.low
  have hends := h.ends
  rw [Symbol.stop, ← h.sized] at hends
  omega

theorem Patch.Fits.length_over (h : p.Fits base bytes.length) :
    (p.over base bytes).length = bytes.length :=
  Segment.length_splice h.room

theorem Patch.fits_over {q : Patch} (h : ∀ p ∈ q :: patches, p.Fits base bytes.length) :
    ∀ p ∈ patches, p.Fits base (q.over base bytes).length := by
  rw [(h q List.mem_cons_self).length_over]
  exact fun p hp => h p (List.mem_cons_of_mem _ hp)

theorem overlay_append (base : UInt32) (bytes : List UInt8) (front back : List Patch) :
    overlay base bytes (front ++ back) = overlay base (overlay base bytes front) back :=
  List.foldl_append

theorem length_overlay (h : ∀ p ∈ patches, p.Fits base bytes.length) :
    (overlay base bytes patches).length = bytes.length := by
  induction patches generalizing bytes with
  | nil => rfl
  | cons q rest ih =>
    have hq := (h q List.mem_cons_self).length_over
    rw [← hq]
    exact ih (Patch.fits_over h)

/-- A stretch from `low` up to `high` that no patch touches is as it was. Stretches rather than single
bytes, since what a checksum covers is compared as a whole. -/
theorem window_overlay_of_apart (h : ∀ p ∈ patches, p.Fits base bytes.length) {low high : Nat}
    (hlow : base.toNat ≤ low) (hle : low ≤ high)
    (hapart : ∀ p ∈ patches, p.symbol.stop ≤ low ∨ high ≤ p.symbol.address.toNat) :
    ((overlay base bytes patches).drop (low - base.toNat)).take (high - low)
      = (bytes.drop (low - base.toNat)).take (high - low) := by
  induction patches generalizing bytes with
  | nil => rfl
  | cons q rest ih =>
    have hq := h q List.mem_cons_self
    have hrest := Patch.fits_over h
    have hbeside : low - base.toNat + (high - low) ≤ q.symbol.address.toNat - base.toNat ∨
        q.symbol.address.toNat - base.toNat + q.bytes.length ≤ low - base.toNat := by
      have hqlow := hq.low
      rw [hq.sized]
      rcases hapart q List.mem_cons_self with hq | hq
      · rw [Symbol.stop] at hq
        omega
      · omega
    -- the stretch survives the later patches by induction, and this one because it is beside it
    calc ((overlay base (q.over base bytes) rest).drop (low - base.toNat)).take (high - low)
        = ((q.over base bytes).drop (low - base.toNat)).take (high - low) :=
          ih hrest fun p hp => hapart p (List.mem_cons_of_mem _ hp)
      _ = (bytes.drop (low - base.toNat)).take (high - low) :=
          Segment.window_splice_of_apart hq.room hbeside

/-- Under a patch there are its bytes, when no other patch meets it. Patches laid before do not matter
and those laid after leave the stretch alone, so the induction is on the list from its front. -/
theorem window_overlay_of_mem (h : ∀ p ∈ patches, p.Fits base bytes.length)
    (hapart : patches.Pairwise fun p q => p.symbol.span.meets q.symbol.span = false)
    (hp : p ∈ patches) :
    ((overlay base bytes patches).drop (p.symbol.address.toNat - base.toNat)).take p.bytes.length
      = p.bytes := by
  induction patches generalizing bytes with
  | nil => exact absurd hp List.not_mem_nil
  | cons q rest ih =>
    have hq := h q List.mem_cons_self
    have hrest := Patch.fits_over h
    obtain ⟨hfirst, hothers⟩ := List.pairwise_cons.1 hapart
    rcases List.mem_cons.1 hp with rfl | hp
    · have hlen : p.symbol.stop - p.symbol.address.toNat = p.bytes.length := by
        rw [Symbol.stop, hq.sized, Nat.add_sub_cancel_left]
      -- the patch laid first is the one asked for, and the later ones stay beside it
      have hkeep := window_overlay_of_apart hrest hq.low (Nat.le_add_right _ _)
        fun r hr => Span.apart_of_not_meets (hfirst r hr)
      rw [← Symbol.stop, hlen] at hkeep
      show ((overlay base (p.over base bytes) rest).drop _).take _ = _
      rw [hkeep]
      exact Segment.window_splice_self hq.room
    · exact ih hrest hothers hp

theorem getElem?_overlay_of_outside (h : ∀ p ∈ patches, p.Fits base bytes.length) {i : Nat}
    (hout : ∀ p ∈ patches,
      ¬ (p.symbol.address.toNat ≤ base.toNat + i ∧ base.toNat + i < p.symbol.stop)) :
    (overlay base bytes patches)[i]? = bytes[i]? := by
  induction patches generalizing bytes with
  | nil => rfl
  | cons q rest ih =>
    have hq := h q List.mem_cons_self
    have hrest := Patch.fits_over h
    have houtq : ¬ (q.symbol.address.toNat - base.toNat ≤ i ∧
        i < q.symbol.address.toNat - base.toNat + q.bytes.length) := by
      have hqlow := hq.low
      have hqout := hout q List.mem_cons_self
      rw [Symbol.stop] at hqout
      rw [hq.sized]
      omega
    calc (overlay base (q.over base bytes) rest)[i]?
        = (q.over base bytes)[i]? := ih hrest fun p hp => hout p (List.mem_cons_of_mem _ hp)
      _ = bytes[i]? := by
        rw [Patch.over, Segment.getElem?_splice (Nat.le_of_add_right_le hq.room), if_neg houtq]

end FlashParams
