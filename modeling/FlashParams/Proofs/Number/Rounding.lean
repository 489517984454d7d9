import FlashParams.Number.Decimal
import Mathlib.Tactic.Linarith
import Mathlib.Tactic.Ring

/-!
# Rounding to a binary format

The reals that are rounded to a finite pattern are those of its interval (`Format.round_eq_iff`): between
the midpoints to its neighbours, which belong to the even patterns. That the intervals are what they are
is shown from the values alone. Every pattern is a shift and a significand (`exists_parts`), its value
the shifted significand (`steps_mul_add`), and from one pattern to the next it is one unit of the shift
(`steps_succ`). So both edges of an interval are sums of two neighbouring values, and no quotient is in
two intervals (`contains_unique`). And rounding, which chooses a shift and the nearest significand
(`exists_significand`), ends in an interval that has the quotient (`exists_contains`), also where the
significand carries.

What is the value of a pattern comes back as that pattern, and every value of the 32-bit format is one of
the 64-bit format, so widening is exact (`Single.widen_exact`).
-/

set_option autoImplicit false

namespace FlashParams.Binary

/-! ## Quotients -/

/-- A whole number nearest to `num / den`, and an even one if there are two. Only inequalities between
products, so that no fraction appears anywhere in the proofs about rounding. -/
structure IsNearest (num den q : Nat) : Prop where
  low : 2 * (q * den) ≤ 2 * num + den
  high : 2 * num ≤ 2 * (q * den) + den
  even_low : 2 * (q * den) = 2 * num + den → q % 2 = 0
  even_high : 2 * num = 2 * (q * den) + den → q % 2 = 0

theorem isNearest_roundDiv {den : Nat} (hden : 0 < den) (num : Nat) :
    IsNearest num den (roundDiv num den) := by
  have hnum : num = num / den * den + num % den := (Nat.div_add_mod' num den).symm
  have hrest := Nat.mod_lt num hden
  have hsucc : (num / den + 1) * den = num / den * den + den := Nat.succ_mul _ _
  unfold roundDiv
  dsimp only
  split
  · constructor <;> omega
  split
  · constructor <;> omega
  · rcases Nat.mod_two_eq_zero_or_one (num / den) with heven | hodd
    · rw [heven, Nat.add_zero]
      constructor <;> omega
    · rw [hodd]
      constructor <;> omega

theorem IsNearest.unique {num den q q' : Nat} (hden : 0 < den) (h : IsNearest num den q)
    (h' : IsNearest num den q') : q = q' := by
  -- two nearest numbers would be neighbours, at the same distance, and both even
  have hle : ∀ {q q' : Nat}, IsNearest num den q → IsNearest num den q' → ¬ q < q' := by
    intro q q' h h' hlt
    have hstep : (q + 1) * den ≤ q' * den := Nat.mul_le_mul_right den hlt
    have hsucc : (q + 1) * den = q * den + den := Nat.succ_mul _ _
    have hlow := h'.low
    have hhigh := h.high
    have hq : q' * den = (q + 1) * den := by omega
    have hnext : q' = q + 1 := Nat.eq_of_mul_eq_mul_right hden hq
    have heven := h.even_high (by omega)
    have heven' := h'.even_low (by omega)
    omega
  exact Nat.le_antisymm (Nat.not_lt.1 (hle h' h)) (Nat.not_lt.1 (hle h h'))

theorem roundDiv_congr {num den num' den' : Nat} (hden : 0 < den) (hden' : 0 < den')
    (h : num * den' = num' * den) : roundDiv num den = roundDiv num' den' := by
  obtain ⟨hlow, hhigh, heven, heven'⟩ := isNearest_roundDiv hden' num'
  refine (isNearest_roundDiv hden num).unique hden ?_
  generalize roundDiv num' den' = q at hlow hhigh heven heven'
  -- the four conditions, with both denominators multiplied in
  have hq : 2 * (q * den) * den' = 2 * (q * den') * den := by ring
  have hnum : 2 * num * den' = 2 * num' * den := by rw [Nat.mul_assoc, h, Nat.mul_assoc]
  have hone : den * den' = den' * den := Nat.mul_comm _ _
  refine ⟨Nat.le_of_mul_le_mul_right ?_ hden', Nat.le_of_mul_le_mul_right ?_ hden',
    fun htie => heven (Nat.eq_of_mul_eq_mul_right hden ?_),
    fun htie => heven' (Nat.eq_of_mul_eq_mul_right hden ?_)⟩
  · rw [Nat.add_mul, hq, hnum, hone, ← Nat.add_mul]
    exact Nat.mul_le_mul_right den hlow
  · rw [Nat.add_mul, hq, hnum, hone, ← Nat.add_mul]
    exact Nat.mul_le_mul_right den hhigh
  · rw [← hq, htie, Nat.add_mul, Nat.add_mul, hnum, hone]
  · rw [← hnum, htie, Nat.add_mul, Nat.add_mul, hq, hone]

theorem roundDiv_mul {den : Nat} (hden : 0 < den) (q : Nat) : roundDiv (q * den) den = q := by
  refine (isNearest_roundDiv hden _).unique hden ?_
  constructor <;> omega

/-! ## Values of patterns -/

namespace Format

variable (f : Format)

def lead : Nat := 2 ^ f.fractionBits

theorem lead_pos : 0 < f.lead :=
  Nat.two_pow_pos _

variable {f} {s k : Nat}

theorem shift_mul_add (hs : f.lead ≤ s ∨ k = 0) (hlt : s < 2 * f.lead) :
    f.shift (k * f.lead + s) = k := by
  have hdiv : f.shift (k * f.lead + s) = (k * f.lead + s) / f.lead - 1 := rfl
  rw [hdiv, Nat.add_comm, Nat.add_mul_div_right _ _ f.lead_pos]
  rcases Nat.lt_or_ge s f.lead with hlow | hhigh
  · obtain rfl := hs.resolve_left (Nat.not_le.2 hlow)
    rw [Nat.div_eq_of_lt hlow]
  · rw [Nat.div_eq_of_lt_le (by omega : 1 * f.lead ≤ s) (by omega)]
    omega

theorem significand_mul_add (hs : f.lead ≤ s ∨ k = 0) (hlt : s < 2 * f.lead) :
    f.significand (k * f.lead + s) = s := by
  have hsig : f.significand (k * f.lead + s) =
      k * f.lead + s - f.shift (k * f.lead + s) * f.lead := rfl
  rw [hsig, shift_mul_add hs hlt, Nat.add_sub_cancel_left]

/-- A pattern is a shift and a significand. Away from the bottom of the range the significand has its
leading bit; there it may have any value, at a shift of zero. -/
theorem exists_parts (f : Format) (M : Nat) :
    ∃ k s, M = k * f.lead + s ∧ (f.lead ≤ s ∨ k = 0) ∧ s < 2 * f.lead := by
  have hM := (Nat.div_add_mod' M f.lead).symm
  have hmod := Nat.mod_lt M f.lead_pos
  cases hq : M / f.lead with
  | zero =>
    rw [hq, Nat.zero_mul] at hM
    exact ⟨0, M, by simp, .inr rfl, by omega⟩
  | succ k =>
    rw [hq, Nat.succ_mul] at hM
    exact ⟨k, f.lead + M % f.lead, by omega, .inl (Nat.le_add_right _ _), by omega⟩

/-- The value of a pattern, also where the significand has carried into the exponent. The bound includes
the next power, and for it both ways to read the pattern give the same value. -/
theorem steps_mul_add (hs : f.lead ≤ s ∨ k = 0) (hle : s ≤ 2 * f.lead) :
    f.steps (k * f.lead + s) = s * 2 ^ k := by
  have hsteps : ∀ M, f.steps M = f.significand M * 2 ^ f.shift M := fun _ => rfl
  rcases Nat.lt_or_eq_of_le hle with hlt | rfl
  · rw [hsteps, shift_mul_add hs hlt, significand_mul_add hs hlt]
  · have hcarry : k * f.lead + 2 * f.lead = (k + 1) * f.lead + f.lead := by ring
    have hlead := f.lead_pos
    rw [hcarry, hsteps, shift_mul_add (.inl (Nat.le_refl _)) (by omega),
      significand_mul_add (.inl (Nat.le_refl _)) (by omega), Nat.pow_succ]
    ring

@[simp] theorem steps_zero (f : Format) : f.steps 0 = 0 := by
  have hsteps : f.steps (0 * f.lead + 0) = 0 * 2 ^ 0 := steps_mul_add (.inr rfl) (Nat.zero_le _)
  rwa [Nat.zero_mul, Nat.zero_mul] at hsteps

/-- From a pattern to the next it is one unit of its last digit. Values therefore ascend with patterns,
and midpoints between neighbours are half such a unit away. -/
theorem steps_succ (f : Format) (M : Nat) : f.steps (M + 1) = f.steps M + 2 ^ f.shift M := by
  obtain ⟨k, s, rfl, hs, hlt⟩ := f.exists_parts M
  rw [shift_mul_add hs hlt, steps_mul_add hs (Nat.le_of_lt hlt), Nat.add_assoc,
    steps_mul_add (hs.imp_left (fun h => Nat.le_succ_of_le h)) hlt, Nat.succ_mul]

theorem strictMono_steps (f : Format) : StrictMono f.steps :=
  strictMono_nat_of_lt_succ fun M => by
    rw [f.steps_succ]
    exact Nat.lt_add_of_pos_right (Nat.two_pow_pos _)

end Format

/-! ## Intervals -/

def Interval.Contains (i : Interval) (num den : Nat) : Prop :=
  if i.closed then i.low * den ≤ num * i.denominator ∧ num * i.denominator ≤ i.high * den
  else i.low * den < num * i.denominator ∧ num * i.denominator < i.high * den

instance (i : Interval) (num den : Nat) : Decidable (i.Contains num den) :=
  inferInstanceAs (Decidable (if i.closed then _ else _))

namespace Format

variable {f : Format} {s k M N num den : Nat}

theorem lead_even (hbits : 0 < f.fractionBits) : f.lead % 2 = 0 := by
  rw [lead, ← Nat.succ_pred_eq_of_pos hbits, Nat.pow_succ]
  exact Nat.mul_mod_left _ _

theorem mul_add_mod_two (hbits : 0 < f.fractionBits) : (k * f.lead + s) % 2 = s % 2 := by
  rw [Nat.add_mod, Nat.mul_mod, lead_even hbits, Nat.mul_zero, Nat.zero_mod, Nat.zero_add, Nat.mod_mod]

/-- Twice the point halfway between a pattern and the next. Twice, so that it is a whole number of steps. -/
def edge (f : Format) (M : Nat) : Nat :=
  f.steps M + f.steps (M + 1)

theorem interval_high (f : Format) (M : Nat) : (f.interval M).high = f.edge M := by
  have hhigh : (f.interval M).high = 2 * f.steps M + 2 ^ f.shift M := rfl
  rw [hhigh, edge, steps_succ]
  omega

theorem interval_low_zero (f : Format) : (f.interval 0).low = 0 := by
  have hlow : (f.interval 0).low ≤ 2 * f.steps 0 := Nat.sub_le _ _
  rwa [steps_zero, Nat.mul_zero, Nat.le_zero] at hlow

/-- Below a pattern the gap is that of the pattern before, at a power of two half as wide as the one
above. With this the intervals of neighbours share their edges. -/
theorem interval_low_succ (f : Format) (M : Nat) : (f.interval (M + 1)).low = f.edge M := by
  have hlow : (f.interval (M + 1)).low = 2 * f.steps (M + 1) -
      if f.significand (M + 1) = f.lead ∧ 0 < f.shift (M + 1) then 2 ^ f.shift (M + 1) / 2
      else 2 ^ f.shift (M + 1) := rfl
  have hlead := f.lead_pos
  have hgap : (if f.significand (M + 1) = f.lead ∧ 0 < f.shift (M + 1) then 2 ^ f.shift (M + 1) / 2
      else 2 ^ f.shift (M + 1)) = 2 ^ f.shift M := by
    obtain ⟨k, s, hM, hs, hlt⟩ := f.exists_parts (M + 1)
    rw [hM, significand_mul_add hs hlt, shift_mul_add hs hlt]
    split
    -- at a power of two the pattern before has the greatest significand of the shift before
    · rename_i hpower
      obtain ⟨rfl, hk⟩ := hpower
      obtain ⟨j, rfl⟩ := Nat.exists_eq_succ_of_ne_zero hk.ne'
      rw [Nat.succ_mul] at hM
      obtain rfl : M = j * f.lead + (2 * f.lead - 1) := by omega
      rw [shift_mul_add (.inl (by omega)) (by omega), Nat.pow_succ,
        Nat.mul_div_cancel _ (by decide)]
    · rename_i hpower
      have hpos : 0 < s := by
        rcases hs with hs | rfl
        · omega
        · omega
      have hprev : f.lead ≤ s - 1 ∨ k = 0 := by
        omega
      obtain rfl : M = k * f.lead + (s - 1) := by omega
      rw [shift_mul_add hprev (by omega)]
  rw [hlow, hgap, edge, steps_succ]
  omega

theorem interval_closed (hbits : 0 < f.fractionBits) (M : Nat) :
    (f.interval M).closed = decide (M % 2 = 0) := by
  have hclosed : (f.interval M).closed = decide (f.significand M % 2 = 0) := rfl
  obtain ⟨k, s, rfl, hs, hlt⟩ := f.exists_parts M
  rw [hclosed, significand_mul_add hs hlt, mul_add_mod_two hbits]

theorem edge_mul_lt (h : M < N) (hden : 0 < den) : f.edge M * den < f.edge N * den :=
  Nat.mul_lt_mul_of_pos_right
    (Nat.add_lt_add (f.strictMono_steps h) (f.strictMono_steps (Nat.succ_lt_succ h))) hden

/-- **No quotient is in two intervals.** Neighbours share an edge, which belongs to the even one. -/
theorem contains_unique (hbits : 0 < f.fractionBits) (hden : 0 < den)
    (hM : (f.interval M).Contains num den) (hN : (f.interval N).Contains num den) : M = N := by
  have hnot : ∀ {M N}, (f.interval M).Contains num den → (f.interval N).Contains num den →
      ¬ M < N := by
    intro M N hM hN hlt
    obtain ⟨N, rfl⟩ := Nat.exists_eq_succ_of_ne_zero (Nat.ne_zero_of_lt hlt)
    unfold Interval.Contains at hM hN
    rw [interval_closed hbits, interval_high] at hM
    rw [interval_closed hbits, Nat.succ_eq_add_one, interval_low_succ] at hN
    have hdenominator : (f.interval (N + 1)).denominator = (f.interval M).denominator := rfl
    rw [hdenominator] at hN
    generalize num * (f.interval M).denominator = v at hM hN
    rcases Nat.lt_or_eq_of_le (Nat.le_of_lt_succ hlt) with hlt | rfl
    · have hedge := edge_mul_lt (f := f) hlt hden
      split at hM <;> split at hN <;> omega
    · rcases Nat.mod_two_eq_zero_or_one M with heven | hodd
      · rw [decide_eq_true heven, if_pos rfl] at hM
        rw [decide_eq_false (by omega), if_neg Bool.false_ne_true] at hN
        omega
      · rw [decide_eq_false (by omega), if_neg Bool.false_ne_true] at hM
        rw [decide_eq_true (by omega), if_pos rfl] at hN
        omega
  exact Nat.le_antisymm (Nat.not_lt.1 (hnot hN hM)) (Nat.not_lt.1 (hnot hM hN))

/-- The significand that rounding chooses for its shift: of as many bits as the format has, one more if
it carries, fewer only at the bottom of the range. It is the one place where the shift that `round`
computes is looked into. -/
theorem exists_significand (hden : 0 < den) (num : Nat) :
    ∃ k s, f.round num den = min (k * f.lead + s) f.infinity ∧
      IsNearest (num * f.unit) (den * 2 ^ k) s ∧ s ≤ 2 * f.lead ∧
      (k = 0 ∨ f.lead * (den * 2 ^ k) ≤ num * f.unit ∧ f.lead ≤ s) := by
  have hround : ∀ k, k = (num * f.unit / den).log2 - f.fractionBits → f.round num den =
      min (k * f.lead + roundDiv (num * f.unit) (den * 2 ^ k)) f.infinity := by
    rintro k rfl
    rfl
  obtain ⟨k, hk⟩ : ∃ k, k = (num * f.unit / den).log2 - f.fractionBits := ⟨_, rfl⟩
  have hcell : 0 < den * 2 ^ k := Nat.mul_pos hden (Nat.two_pow_pos k)
  have hnear := isNearest_roundDiv hcell (num * f.unit)
  refine ⟨k, _, hround k hk, hnear, ?_, ?_⟩
  · have hpow : 2 * f.lead * 2 ^ k = 2 ^ (f.fractionBits + k + 1) := by
      rw [lead, Nat.pow_succ, Nat.pow_add]
      ring
    have hwhole : num * f.unit / den < 2 * f.lead * 2 ^ k := by
      rw [hpow]
      exact Nat.lt_of_lt_of_le Nat.lt_log2_self (Nat.pow_le_pow_right (by decide) (by omega))
    have hbelow : num * f.unit < 2 * f.lead * (den * 2 ^ k) := by
      have hmul := (Nat.div_lt_iff_lt_mul hden).1 hwhole
      rwa [Nat.mul_assoc, Nat.mul_comm (2 ^ k)] at hmul
    refine Nat.le_of_lt_succ (Nat.lt_of_mul_lt_mul_right (a := den * 2 ^ k) ?_)
    have hlow := hnear.low
    have hsucc : (2 * f.lead).succ * (den * 2 ^ k) = 2 * f.lead * (den * 2 ^ k) + den * 2 ^ k :=
      Nat.succ_mul _ _
    omega
  · rcases Nat.eq_zero_or_pos k with hzero | hpos
    · exact .inl hzero
    · have hpow : f.lead * 2 ^ k = 2 ^ (f.fractionBits + k) := (Nat.pow_add _ _ _).symm
      have hwhole : f.lead * 2 ^ k ≤ num * f.unit / den := by
        have hne : num * f.unit / den ≠ 0 := by
          intro hzero
          rw [hzero] at hk
          exact absurd hk (by simp; omega)
        rw [hpow, show f.fractionBits + k = (num * f.unit / den).log2 by omega]
        exact Nat.log2_self_le hne
      have habove : f.lead * (den * 2 ^ k) ≤ num * f.unit := by
        have hmul := (Nat.le_div_iff_mul_le hden).1 hwhole
        rwa [Nat.mul_assoc, Nat.mul_comm (2 ^ k)] at hmul
      refine .inr ⟨habove, Nat.le_of_lt_succ (Nat.lt_of_mul_lt_mul_right (a := den * 2 ^ k) ?_)⟩
      have hhigh := hnear.high
      have hsucc : ∀ q, Nat.succ q * (den * 2 ^ k) = q * (den * 2 ^ k) + den * 2 ^ k :=
        fun q => Nat.succ_mul _ _
      rw [hsucc]
      omega

theorem le_interval_high (hs : f.lead ≤ s ∨ k = 0) (hle : s ≤ 2 * f.lead) (den : Nat) :
    2 * (s * (den * 2 ^ k)) + den * 2 ^ k ≤ (f.interval (k * f.lead + s)).high * den := by
  have hnext : (s + 1) * 2 ^ k ≤ f.steps (k * f.lead + s + 1) := by
    rcases Nat.lt_or_eq_of_le hle with hlt | rfl
    · rw [Nat.add_assoc, steps_mul_add (hs.imp_left fun h => Nat.le_succ_of_le h) hlt]
    · have hcarry : k * f.lead + 2 * f.lead + 1 = (k + 1) * f.lead + (f.lead + 1) := by ring
      have hlead := f.lead_pos
      rw [hcarry, steps_mul_add (.inl (Nat.le_succ _)) (by omega), Nat.pow_succ]
      nlinarith [Nat.two_pow_pos k]
  calc 2 * (s * (den * 2 ^ k)) + den * 2 ^ k = (s * 2 ^ k + (s + 1) * 2 ^ k) * den := by ring
    _ ≤ (f.interval (k * f.lead + s)).high * den := by
      rw [interval_high, edge, steps_mul_add hs hle]
      exact Nat.mul_le_mul_right den (Nat.add_le_add_left hnext _)

theorem interval_low_le (hs : f.lead ≤ s ∨ k = 0) (hle : s ≤ 2 * f.lead) (hpos : 0 < s) (den : Nat) :
    (f.interval (k * f.lead + s)).low * den + den * 2 ^ k ≤ 2 * (s * (den * 2 ^ k)) ∨
      s = f.lead ∧ 0 < k ∧ (f.interval (k * f.lead + s)).low < 2 * (s * 2 ^ k) := by
  obtain ⟨r, rfl⟩ := Nat.exists_eq_succ_of_ne_zero hpos.ne'
  have hlow : (f.interval (k * f.lead + r.succ)).low =
      f.steps (k * f.lead + r) + f.steps (k * f.lead + r.succ) := interval_low_succ f _
  by_cases hr : f.lead ≤ r ∨ k = 0
  · refine .inl (Nat.le_of_eq ?_)
    rw [hlow, steps_mul_add hr (by omega), steps_mul_add hs hle, Nat.succ_eq_add_one]
    ring
  · refine .inr ⟨by omega, by omega, ?_⟩
    have hlt : f.steps (k * f.lead + r) < f.steps (k * f.lead + r.succ) :=
      f.strictMono_steps (Nat.lt_succ_self _)
    rw [steps_mul_add hs hle] at hlow hlt
    omega

/-- **What is rounded lies in the interval of its pattern**, unless that is past the largest. -/
theorem exists_contains (hbits : 0 < f.fractionBits) (hden : 0 < den) (num : Nat) :
    ∃ M, f.round num den = min M f.infinity ∧ (f.interval M).Contains num den := by
  obtain ⟨k, s, hround, ⟨hnearLow, hnearHigh, hevenLow, hevenHigh⟩, hle, hlead⟩ :=
    exists_significand (f := f) hden num
  refine ⟨k * f.lead + s, hround, ?_⟩
  have hs : f.lead ≤ s ∨ k = 0 := hlead.symm.imp_left And.right
  have hvalue : num * (f.interval (k * f.lead + s)).denominator = 2 * (num * f.unit) :=
    Nat.mul_left_comm _ _ _
  have hhigh := le_interval_high hs hle den
  have hlow : (f.interval (k * f.lead + s)).low * den + den * 2 ^ k ≤ 2 * (s * (den * 2 ^ k)) ∨
      (f.interval (k * f.lead + s)).low * den < 2 * (num * f.unit) ∨
      s % 2 = 0 ∧ (f.interval (k * f.lead + s)).low * den = 0 := by
    rcases Nat.eq_zero_or_pos s with rfl | hpos
    · obtain rfl := hs.resolve_left (Nat.not_le.2 f.lead_pos)
      refine .inr (.inr ⟨rfl, ?_⟩)
      rw [Nat.zero_mul, Nat.zero_add, interval_low_zero, Nat.zero_mul]
    rcases interval_low_le hs hle hpos den with hfar | ⟨rfl, hk, hnear⟩
    · exact .inl hfar
    · refine .inr (.inl ?_)
      calc (f.interval (k * f.lead + f.lead)).low * den < 2 * (f.lead * 2 ^ k) * den :=
            Nat.mul_lt_mul_of_pos_right hnear hden
        _ = 2 * (f.lead * (den * 2 ^ k)) := by ring
        _ ≤ 2 * (num * f.unit) := Nat.mul_le_mul_left 2 (hlead.resolve_left hk.ne').1
  unfold Interval.Contains
  rw [interval_closed hbits, mul_add_mod_two hbits, hvalue]
  split
  · omega
  · rename_i hodd
    have hodd : s % 2 ≠ 0 := fun h => hodd (decide_eq_true h)
    omega

/-- **Rounding gives a finite pattern exactly for the quotients of its interval.** This is the form in
which rounding is used from here on; how it is computed does not come up again. -/
theorem round_eq_iff (hbits : 0 < f.fractionBits) (hden : 0 < den) (hfinite : M < f.infinity) :
    f.round num den = M ↔ (f.interval M).Contains num den := by
  obtain ⟨N, hround, hcontains⟩ := exists_contains hbits hden num
  rw [hround]
  constructor
  · intro hM
    obtain rfl : N = M := by omega
    exact hcontains
  · intro hM
    obtain rfl := contains_unique hbits hden hM hcontains
    exact Nat.min_eq_left (Nat.le_of_lt hfinite)

/-- The value of a pattern lies inside its own interval, as the edges are away from it by half a gap.
Rounding a value of the format is thus a case of the law for intervals. -/
theorem contains_steps (hbits : 0 < f.fractionBits) (hden : 0 < den)
    (hexact : num * f.unit = f.steps M * den) : (f.interval M).Contains num den := by
  have hvalue : num * (f.interval M).denominator = 2 * f.steps M * den := by
    have hunit : (f.interval M).denominator = 2 * f.unit := rfl
    rw [hunit, Nat.mul_left_comm, hexact, Nat.mul_assoc]
  have hhigh : 2 * f.steps M < (f.interval M).high := by
    rw [interval_high, edge, steps_succ]
    have hgap := Nat.two_pow_pos (f.shift M)
    omega
  have hlow : (f.interval M).low ≤ 2 * f.steps M := Nat.sub_le _ _
  unfold Interval.Contains
  rw [hvalue, interval_closed hbits]
  split
  · exact ⟨Nat.mul_le_mul_right den hlow, Nat.mul_le_mul_right den (Nat.le_of_lt hhigh)⟩
  · rename_i hodd
    have hstrict : (f.interval M).low < 2 * f.steps M := by
      obtain ⟨N, rfl⟩ : ∃ N, M = N + 1 :=
        Nat.exists_eq_succ_of_ne_zero fun hzero => hodd (decide_eq_true (by rw [hzero]))
      rw [interval_low_succ, edge]
      have hbefore := f.strictMono_steps (Nat.lt_add_one N)
      omega
    exact ⟨Nat.mul_lt_mul_of_pos_right hstrict hden, Nat.mul_lt_mul_of_pos_right hhigh hden⟩

/-- **The value of a finite pattern is rounded to the pattern.** It lies in the interval of its pattern, and
there is no other interval that it could lie in. -/
theorem round_exact (hbits : 0 < f.fractionBits) (hden : 0 < den) (hfinite : M < f.infinity)
    (hexact : num * f.unit = f.steps M * den) : f.round num den = M :=
  (round_eq_iff hbits hden hfinite).2 (contains_steps hbits hden hexact)

/-! ## Values a format has -/

theorem exists_steps (f : Format) {s : Nat} (hle : s ≤ 2 * f.lead) (k : Nat) :
    ∃ M, f.steps M = s * 2 ^ k := by
  induction k generalizing s with
  | zero => exact ⟨_, steps_mul_add (.inr rfl) hle⟩
  | succ k ih =>
    by_cases hs : f.lead ≤ s
    · exact ⟨_, steps_mul_add (.inl hs) hle⟩
    · obtain ⟨M, hM⟩ := ih (s := 2 * s) (by omega)
      exact ⟨M, by rw [hM, Nat.pow_succ]; ring⟩

theorem steps_infinity (hexponent : 2 ≤ f.exponentBits) :
    f.steps f.infinity = f.lead * 2 ^ (2 ^ f.exponentBits - 2) := by
  have hinfinity : f.infinity = (2 ^ f.exponentBits - 2) * f.lead + f.lead := by
    have hpow : 2 ^ 2 ≤ 2 ^ f.exponentBits := Nat.pow_le_pow_right (by decide) hexponent
    rw [← Nat.succ_mul, Nat.succ_eq_add_one]
    exact congrArg (· * f.lead) (show 2 ^ f.exponentBits - 1 = _ by omega)
  rw [hinfinity, steps_mul_add (.inl (Nat.le_refl _)) (Nat.le_mul_of_pos_left _ (by decide))]

/-! ## Signs -/

def negative (f : Format) (pattern : Nat) : Bool :=
  f.signBit ≤ pattern

def magnitude (f : Format) (pattern : Nat) : Nat :=
  pattern % f.signBit

theorem signed_eq_iff {pattern : Nat} (hlt : pattern < 2 * f.signBit) {negative : Bool} {M : Nat}
    (hM : M < f.signBit) :
    f.signed negative M = pattern ↔ f.negative pattern = negative ∧ f.magnitude pattern = M := by
  unfold Format.signed Format.negative Format.magnitude
  by_cases hsign : f.signBit ≤ pattern
  · rw [decide_eq_true hsign, Nat.mod_eq_sub_mod hsign, Nat.mod_eq_of_lt (by omega)]
    cases negative <;> simp <;> omega
  · rw [decide_eq_false hsign, Nat.mod_eq_of_lt (by omega)]
    cases negative <;> simp <;> omega

end Format

/-! ## Widening -/

theorem Double.parts_ofParts {negative : Bool} {M : Nat} (hM : M < double.signBit) :
    (ofParts negative M).negative = negative ∧ (ofParts negative M).magnitude = M := by
  have hlt : double.signed negative M < 2 * double.signBit := by
    unfold Format.signed
    split <;> omega
  have hbits : (ofParts negative M).bits.toNat = double.signed negative M :=
    UInt64.toNat_ofNat_of_lt' hlt
  have hparts := (Format.signed_eq_iff hlt hM).1 rfl
  rwa [← hbits] at hparts

/-- A value of the 32-bit format is one of the 64-bit format: it has fewer bits, and its shift is not out
of reach. -/
theorem exists_double {m : Nat} (hfinite : m < single.infinity) :
    ∃ M < double.infinity, double.steps M * single.unit = single.steps m * double.unit := by
  obtain ⟨k, s, rfl, hs, hlt⟩ := single.exists_parts m
  have hlead : 2 * single.lead ≤ 2 * double.lead := by decide
  have hk : k < 255 := by
    refine Nat.lt_of_mul_lt_mul_right (a := single.lead) (Nat.lt_of_le_of_lt ?_ hfinite)
    exact Nat.le_add_right _ _
  -- so many bits the smallest steps of the two formats are apart
  obtain ⟨bits, hbits, hunit⟩ : ∃ bits, bits = 925 ∧ double.unit = 2 ^ bits * single.unit :=
    ⟨925, rfl, by decide +kernel⟩
  obtain ⟨M, hM⟩ := double.exists_steps (s := s) (by omega) (k + bits)
  refine ⟨M, ?_, ?_⟩
  · rw [← double.strictMono_steps.lt_iff_lt, hM, Format.steps_infinity (by decide)]
    calc s * 2 ^ (k + bits) < 2 ^ 53 * 2 ^ 1180 :=
          Nat.mul_lt_mul_of_lt_of_le (Nat.lt_of_lt_of_le hlt (by decide))
            (Nat.pow_le_pow_right (by decide) (by omega)) (Nat.two_pow_pos _)
      _ ≤ double.lead * 2 ^ (2 ^ double.exponentBits - 2) := by decide +kernel
  · rw [hM, hunit, Format.steps_mul_add hs (Nat.le_of_lt hlt), Nat.pow_add, ← Nat.mul_assoc s,
      Nat.mul_assoc (s * 2 ^ k)]

/-- **Widening keeps the value**, and the sign of zero. -/
theorem Single.widen_exact {x : Single} (hfinite : x.magnitude < single.infinity) :
    x.widen.negative = x.negative ∧ x.widen.magnitude < double.infinity ∧
      x.widen.steps * single.unit = single.steps x.magnitude * double.unit := by
  obtain ⟨M, hM, hexact⟩ := exists_double hfinite
  have hround : double.round (single.steps x.magnitude) single.unit = M :=
    Format.round_exact (by decide) (by decide +kernel) hM hexact.symm
  have hwiden : x.widen = Double.ofParts x.negative M := by
    have hnan : x.isNaN = false := decide_eq_false (by omega)
    have hinfinite : x.isInfinite = false := decide_eq_false (by omega)
    rw [Single.widen, hnan, hinfinite, hround]
    rfl
  have hbelow : double.infinity < double.signBit := by decide +kernel
  obtain ⟨hnegative, hmagnitude⟩ := @Double.parts_ofParts x.negative M (Nat.lt_trans hM hbelow)
  rw [hwiden]
  refine ⟨hnegative, ?_, ?_⟩
  · rw [hmagnitude]
    exact hM
  · rw [Double.steps, hmagnitude, hexact]

end FlashParams.Binary
