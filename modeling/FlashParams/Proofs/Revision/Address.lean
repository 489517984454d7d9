import FlashParams.Proofs.Placement.Address

/-!
# Addresses that are moved

Everything in a layout is moved by one distance `δ`, an integer because it may go down as well as up. An
address and where it is moved to are natural numbers, so the distance is never applied: what relates them
is the equation `(a' : Int) = a + δ`, which says at the same time that nothing was lost at zero or at the
end of the address space.

Placement computes with differences and comparisons, which do not notice, and with alignments, which do
unless the distance is a multiple of each. All alignments divide the largest one, so one condition on `δ`
is enough for all of them (`dvd_of_isAlignment`), and an offset then resolves to the moved address
(`Offset.Revises.resolve`). It does so too when it has been replaced by the distance it resolved to, and
that an open offset and the distance it stands for cannot be told apart is why the two are treated as one
relation, `Offset.Revises`.
-/

set_option autoImplicit false

namespace FlashParams

variable {δ : Int}

/-- A multiple of the largest alignment is one of every alignment. It is the only property of the
distance 16384 that is used. -/
theorem dvd_of_isAlignment (hδ : 16384 ∣ δ) {align : UInt32} (h : isAlignment align = true) :
    (align.toNat : Int) ∣ δ := by
  obtain ⟨k, hk, halign⟩ := isAlignment_iff.1 h
  have hdvd : align.toNat ∣ 16384 := by
    rw [halign]
    exact Nat.pow_dvd_pow 2 hk
  exact Int.dvd_trans (Int.natCast_dvd_natCast.2 hdvd) hδ

theorem dvd_moved {align a a' : Nat} (hδ : (align : Int) ∣ δ) (ha : (a' : Int) = a + δ)
    (h : align ∣ a) : align ∣ a' := by
  rw [← Int.natCast_dvd_natCast, ha]
  exact Int.dvd_add (Int.natCast_dvd_natCast.2 h) hδ

/-- **Rounding up moves along.** Paddings stay as they were, so what follows a rounded address is moved
by the same distance. -/
theorem alignUp_moved {align a a' : Nat} (hpos : 0 < align) (hδ : (align : Int) ∣ δ)
    (ha : (a' : Int) = a + δ) : (alignUp a' align : Int) = alignUp a align + δ := by
  obtain ⟨k, rfl⟩ := hδ
  have hsum : ((a' + align - 1 : Nat) : Int) = ((a + align - 1 : Nat) : Int) + align * k := by
    omega
  have hquotient : ((a' + align - 1 : Nat) : Int) / align =
      ((a + align - 1 : Nat) : Int) / align + k := by
    rw [hsum, Int.add_mul_ediv_left _ _ (by omega)]
  unfold alignUp
  rw [Int.natCast_mul, Int.natCast_mul, Int.natCast_ediv, Int.natCast_ediv, hquotient, Int.add_mul,
    Int.mul_comm k]

/-! ## Offsets -/

/-- An offset is kept, or replaced by the distance from `base` to the address it resolved to. The second
is how an open offset is pinned, and it keeps its address for that reason. -/
def Offset.Revises (base address : UInt32) (o o' : Offset) : Prop :=
  o' = o ∨ ∃ distance : UInt32, o' = .fixed distance ∧
    base.toNat + distance.toNat = address.toNat

/-- **A revised offset resolves to the moved address.** A fixed offset is a distance from a parent that
moves along; an open one is rounded up from a cursor that does. -/
theorem Offset.Revises.resolve {base base' address : UInt32} {o o' : Offset}
    (h : o.Revises base address o') {cursor cursor' align : Nat} (hpos : 0 < align)
    (hδ : (align : Int) ∣ δ) (hbase : (base'.toNat : Int) = base.toNat + δ)
    (hcursor : (cursor' : Int) = cursor + δ)
    (hresolved : o.resolve base.toNat cursor align = .ok address.toNat) :
    ∃ start, o'.resolve base'.toNat cursor' align = .ok start ∧
      (start : Int) = address.toNat + δ := by
  -- a fixed distance that leads to the address leads to the moved one from the moved base
  have hfixed : ∀ distance : UInt32, base.toNat + distance.toNat = address.toNat →
      align ∣ address.toNat → ∃ start,
        (Offset.fixed distance).resolve base'.toNat cursor' align = .ok start ∧
          (start : Int) = address.toNat + δ := by
    intro distance hdistance haligned
    have hstart : ((base'.toNat + distance.toNat : Nat) : Int) = address.toNat + δ := by omega
    refine ⟨base'.toNat + distance.toNat, ?_, hstart⟩
    exact if_neg (not_not_intro (Nat.mod_eq_zero_of_dvd (dvd_moved hδ hstart haligned)))
  have haligned := Offset.dvd_of_resolve hresolved
  rcases h with rfl | ⟨distance, rfl, hdistance⟩
  · cases o' with
    | fixed distance =>
      refine hfixed distance ?_ haligned
      simp only [Offset.resolve] at hresolved
      split at hresolved
      · cases hresolved
      · exact Except.ok.inj hresolved
    | next =>
      refine ⟨alignUp cursor' align, rfl, ?_⟩
      rw [alignUp_moved hpos hδ hcursor, Except.ok.inj hresolved]
  · exact hfixed distance hdistance haligned

/-! ## Spans -/

structure Span.Moved (δ : Int) (s s' : Span) : Prop where
  start : (s'.start : Int) = s.start + δ
  stop : (s'.stop : Int) = s.stop + δ

theorem Span.Moved.meets {s s' t t' : Span} (hs : s.Moved δ s') (ht : t.Moved δ t') :
    s'.meets t' = s.meets t := by
  have hs₁ := hs.start
  have hs₂ := hs.stop
  have ht₁ := ht.start
  have ht₂ := ht.stop
  have hfirst : decide (s'.start < t'.stop) = decide (s.start < t.stop) :=
    decide_eq_decide.2 (by omega)
  have hsecond : decide (t'.start < s'.stop) = decide (t.start < s.stop) :=
    decide_eq_decide.2 (by omega)
  rw [Span.meets, Span.meets, hfirst, hsecond]

end FlashParams
