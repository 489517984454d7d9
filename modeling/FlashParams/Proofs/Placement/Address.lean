import FlashParams.Layout.Placement
import Mathlib.Algebra.Group.Nat.Defs
import Mathlib.Order.Bounds.Basic

/-!
# Arithmetic of placement

The small facts both levels of placement share: rounding up gives the least aligned address that is not
lower, an address that fits 32 bits survives being narrowed, and two spans that do not meet lie one
behind the other.

`Span.meets` is a `Bool` on bounds, and it is symmetric without being a test for common addresses: an
empty span meets one that has it strictly inside. For everything proved from it only the other
direction counts. Spans that do *not* meet have no address in common, empty or not
(`Span.apart_of_not_meets`).
-/

set_option autoImplicit false

namespace FlashParams

/-! ## Narrowed addresses -/

theorem toNat_lowAddress {a : Nat} (h : a < 0x100000000) : (lowAddress a).toNat = a :=
  UInt32.toNat_ofNat_of_lt' h

/-! ## Alignment -/

theorem isAlignment_pos {align : UInt32} (h : isAlignment align = true) : 0 < align.toNat := by
  obtain ⟨k, -, hk⟩ := List.any_eq_true.1 h
  rw [beq_iff_eq] at hk
  rw [← hk]
  exact Nat.two_pow_pos k

theorem le_alignUp {address align : Nat} (h : 0 < align) : address ≤ alignUp address align := by
  have hdiv := Nat.div_add_mod (address + align - 1) align
  have hmod := Nat.mod_lt (address + align - 1) h
  rw [alignUp, Nat.mul_comm]
  omega

/-- Alignments are the powers of two up to the largest one. The code tests the bits of a word; that an
alignment is positive and divides the largest one is read off here. -/
theorem isAlignment_iff {align : UInt32} :
    isAlignment align = true ↔ ∃ k ≤ maxAlignLog, align.toNat = 2 ^ k := by
  simp only [isAlignment, List.any_eq_true, List.mem_range, Nat.lt_succ_iff, beq_iff_eq]
  exact exists_congr fun k => and_congr_right fun _ => eq_comm

theorem dvd_alignUp (address align : Nat) : align ∣ alignUp address align :=
  Nat.dvd_mul_left align _

/-- **Rounding up gives the least aligned address that is not lower.** In exact numbers it always exists;
whether it is an address at all is checked after the rounding. -/
theorem isLeast_alignUp {address align : Nat} (h : 0 < align) :
    IsLeast {a | align ∣ a ∧ address ≤ a} (alignUp address align) := by
  refine ⟨⟨dvd_alignUp address align, le_alignUp h⟩, ?_⟩
  rintro a ⟨⟨k, rfl⟩, ha⟩
  -- what was rounded up is below the next multiple after `a`
  have hbelow : address + align - 1 < (k + 1) * align := by
    rw [Nat.add_mul, Nat.one_mul, Nat.mul_comm k]
    omega
  have hquotient : (address + align - 1) / align ≤ k :=
    Nat.lt_succ_iff.1 ((Nat.div_lt_iff_lt_mul h).2 hbelow)
  rw [alignUp, Nat.mul_comm align k]
  exact Nat.mul_le_mul_right align hquotient

/-- Where an offset leads, in exact numbers: a fixed one counts from the parent and has to hit an
aligned address, an open one takes the least aligned address at or after the cursor. -/
def Offset.Leads (offset : Offset) (base cursor align address : Nat) : Prop :=
  match offset with
  | .fixed distance => address = base + distance.toNat ∧ align ∣ address
  | .next => IsLeast {a | align ∣ a ∧ cursor ≤ a} address

/-- **An offset is resolved to where it leads**, and not at all when it leads nowhere. The one way to
lead nowhere is a fixed distance to an address that is not aligned; an open offset has a least address in
every case. -/
theorem Offset.leads_iff {offset : Offset} {base cursor align address : Nat} (h : 0 < align) :
    offset.Leads base cursor align address ↔
      offset.resolve base cursor align = .ok address := by
  cases offset with
  | fixed distance =>
    simp only [Offset.Leads, Offset.resolve]
    split
    · rename_i hmisaligned
      constructor
      · rintro ⟨rfl, haligned⟩
        exact absurd (Nat.mod_eq_zero_of_dvd haligned) hmisaligned
      · intro hresolved
        cases hresolved
    · rename_i haligned
      rw [Except.ok.injEq]
      refine ⟨fun hleads => hleads.1.symm, ?_⟩
      rintro rfl
      exact ⟨rfl, Nat.dvd_of_mod_eq_zero (Decidable.not_not.1 haligned)⟩
  | next =>
    simp only [Offset.Leads, Offset.resolve, Except.ok.injEq]
    exact ⟨fun hleads => (isLeast_alignUp h).unique hleads, fun hresolved =>
      hresolved ▸ isLeast_alignUp h⟩

theorem Offset.dvd_of_resolve {offset : Offset} {base cursor align address : Nat}
    (h : offset.resolve base cursor align = .ok address) : align ∣ address := by
  cases offset with
  | fixed distance =>
    simp only [Offset.resolve] at h
    split at h
    · cases h
    · rename_i haligned
      cases h
      exact Nat.dvd_of_mod_eq_zero (Decidable.not_not.1 haligned)
  | next =>
    cases h
    exact dvd_alignUp cursor align

/-- What is placed behind a cursor that is not below the parent is not below the parent. An open offset
is where this could fail, as it takes no notice of the parent. -/
theorem Offset.le_of_resolve {offset : Offset} {base cursor align address : Nat} (ha : 0 < align)
    (hc : base ≤ cursor) (h : offset.resolve base cursor align = .ok address) : base ≤ address := by
  cases offset with
  | fixed distance =>
    simp only [Offset.resolve] at h
    split at h
    · cases h
    · cases h
      exact Nat.le_add_right _ _
  | next =>
    cases h
    exact Nat.le_trans hc (le_alignUp ha)

/-! ## Spans -/

theorem Span.meets_comm (s t : Span) : s.meets t = t.meets s :=
  Bool.and_comm _ _

theorem Span.not_meets_iff {s t : Span} :
    s.meets t = false ↔ t.stop ≤ s.start ∨ s.stop ≤ t.start := by
  rw [Span.meets, Bool.and_eq_false_iff, decide_eq_false_iff_not, decide_eq_false_iff_not, Nat.not_lt,
    Nat.not_lt]

theorem Span.apart_of_not_meets {s t : Span} (h : s.meets t = false) :
    t.stop ≤ s.start ∨ s.stop ≤ t.start :=
  Span.not_meets_iff.1 h

end FlashParams
