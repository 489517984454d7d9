import FlashParams.Proofs.Number.Numeral
import FlashParams.Proofs.Number.Rounding
import FlashParams.Proofs.Text.Split

/-!
# Fixed places read back

A text with a fixed number of places is read as a decimal number (`Decimal.read?_fixed`): that of so many
places which is nearest to the value. How much of the value is left in it is a question about the
interval of the pattern, since the decimal is rounded to the pattern exactly if it lies there. It does if
the next pattern is more than a unit of the last place away (`round_nearest_of_wide`), and wherever the
decimal *is* the value (`round_nearest_of_exact`). Below half such a unit the decimal is zero
(`round_nearest_of_small`).
-/

set_option autoImplicit false

namespace FlashParams

namespace Binary

/-! ## Decimal numbers -/

/-- A decimal number: a sign, and a number of units of its last place. The sign is kept apart because a
value can be printed as zero with a minus sign in front of it. -/
structure Decimal where
  negative : Bool
  number : Nat
  places : Nat
  deriving DecidableEq, Repr

namespace Decimal

def readUnsigned? (negative : Bool) (s : List Char) : Option Decimal :=
  match Text.splitOnce '.' s with
  | some (whole, fraction) =>
    (Numeral.read? 10 (whole ++ fraction)).map fun number => ⟨negative, number, fraction.length⟩
  | none => (Numeral.read? 10 s).map fun number => ⟨negative, number, 0⟩

def read? (text : String) : Option Decimal :=
  match text.toList with
  | '-' :: rest => readUnsigned? true rest
  | rest => readUnsigned? false rest

def pattern (d : Decimal) (f : Format) : Nat :=
  f.signed d.negative (f.round d.number (10 ^ d.places))

theorem read?_withSign {x : Double} {s : List Char} (h : s.head? ≠ some '-') :
    read? (x.withSign s) = readUnsigned? x.negative s := by
  rw [read?, Double.withSign, String.toList_ofList]
  cases x.negative with
  | true => rfl
  | false =>
    rw [if_neg Bool.false_ne_true]
    split
    · exact absurd rfl h
    · rfl

end Decimal

def Format.nearest (f : Format) (places M : Nat) : Nat :=
  roundDiv (f.steps M * 10 ^ places) f.unit

theorem Format.unit_pos (f : Format) : 0 < f.unit :=
  Nat.two_pow_pos _

theorem Format.isNearest (f : Format) (places M : Nat) :
    IsNearest (f.steps M * 10 ^ places) f.unit (f.nearest places M) :=
  isNearest_roundDiv f.unit_pos _

theorem Double.fixed_eq {x : Double} (hfinite : x.magnitude < double.infinity) (places : Nat) :
    x.fixed places = x.withSign (Numeral.write 10 (double.nearest places x.magnitude / 10 ^ places) ++
      '.' :: Numeral.padStart places '0'
        (Numeral.write 10 (double.nearest places x.magnitude % 10 ^ places))) := by
  have hnan : x.isNaN = false := decide_eq_false (by omega)
  have hisFinite : x.isFinite = true := decide_eq_true hfinite
  rw [Double.fixed, hnan, hisFinite]
  rfl

/-- **A fixed number of places is read as the nearest decimal of so many places**, with the sign of the value,
also if that is zero. -/
theorem Decimal.read?_fixed {x : Double} (hfinite : x.magnitude < double.infinity) {places : Nat}
    (hplaces : 0 < places) :
    read? (x.fixed places) = some ⟨x.negative, double.nearest places x.magnitude, places⟩ := by
  rw [x.fixed_eq hfinite]
  generalize double.nearest places x.magnitude = m
  have hlen : (Numeral.padStart places '0' (Numeral.write 10 (m % 10 ^ places))).length = places := by
    obtain ⟨n, rfl⟩ := Nat.exists_eq_succ_of_ne_zero hplaces.ne'
    refine Numeral.length_padStart '0' ?_
    rw [Numeral.write, List.length_map]
    exact Numeral.length_digits_le (by decide) (Nat.mod_lt _ (Nat.pow_pos (by decide)))
  have hwhole := Numeral.write_ne_nil 10 (m / 10 ^ places)
  rw [read?_withSign, readUnsigned?, Text.splitOnce_eq_some_iff.2
    ⟨rfl, Numeral.not_mem_write Numeral.digitChar_ne_point 10 _⟩]
  · dsimp only
    rw [Numeral.read?_of_ne_nil (List.append_ne_nil_of_left_ne_nil hwhole _), Numeral.readFrom?_append,
      Numeral.readFrom?_write, Option.bind_some, Numeral.readFrom?_eq_map,
      Numeral.readFrom?_padStart (by decide), Numeral.readFrom?_write, hlen, Option.map_some, Option.map_some, Nat.div_add_mod']
  · obtain ⟨c, rest, hc⟩ := List.exists_cons_of_ne_nil hwhole
    have hminus := Numeral.not_mem_write Numeral.digitChar_ne_minus 10 (m / 10 ^ places)
    rw [hc] at hminus ⊢
    intro hhead
    exact hminus (Option.some.inj hhead ▸ List.mem_cons_self)

example : Decimal.read? "-2.09999990" = some ⟨true, 209999990, 8⟩ := by
  decide +kernel

/-- Two values have the same text if they have the same sign and the same nearest decimal. What a text
loses of a value is exactly what rounding to its places loses. -/
theorem Double.fixed_eq_fixed_iff {x y : Double} (hx : x.magnitude < double.infinity)
    (hy : y.magnitude < double.infinity) {places : Nat} (hplaces : 0 < places) :
    x.fixed places = y.fixed places ↔ x.negative = y.negative ∧
      double.nearest places x.magnitude = double.nearest places y.magnitude := by
  constructor
  · intro htext
    have hread := Decimal.read?_fixed hx hplaces
    rw [htext, Decimal.read?_fixed hy hplaces] at hread
    injection hread with hsame
    injection hsame with hnegative hnumber
    exact ⟨hnegative.symm, hnumber.symm⟩
  · rintro ⟨hnegative, hnumber⟩
    rw [fixed_eq hx, fixed_eq hy, hnumber, withSign, withSign, hnegative]

/-! ## What is left of a value -/

namespace Format

variable {f : Format} {M places : Nat}

/-- A decimal that is the value is rounded to its pattern: nothing was lost in printing it, and rounding
a value of the format gives it back. -/
theorem round_nearest_of_exact (hbits : 0 < f.fractionBits) (hfinite : M < f.infinity)
    (hexact : f.unit ∣ f.steps M * 10 ^ places) :
    f.round (f.nearest places M) (10 ^ places) = M := by
  refine round_exact hbits (Nat.pow_pos (by decide)) hfinite ?_
  obtain ⟨q, hq⟩ := hexact
  rw [nearest, hq, Nat.mul_comm f.unit q, roundDiv_mul f.unit_pos]

/-- Powers of two have a decimal of so many places as soon as one of them is as wide as a unit of the
last. For them the argument by widths fails, because the gap below is only half as wide, and this makes
up for it. -/
theorem unit_dvd_of_power (hplaces : 5 ^ places ≤ f.lead) {k : Nat}
    (hwide : f.unit < 10 ^ places * 2 ^ k) : f.unit ∣ f.lead * 2 ^ k * 10 ^ places := by
  obtain ⟨E, hE⟩ : ∃ E, f.unit = 2 ^ E := ⟨_, rfl⟩
  have hten : 10 ^ places = 2 ^ places * 5 ^ places := Nat.mul_pow 2 5 places
  have hbound : 2 ^ E < 2 ^ (f.fractionBits + k + places) := by
    calc 2 ^ E < 10 ^ places * 2 ^ k := hE ▸ hwide
      _ = 5 ^ places * 2 ^ (k + places) := by rw [hten, Nat.pow_add]; ring
      _ ≤ f.lead * 2 ^ (k + places) := Nat.mul_le_mul_right _ hplaces
      _ = 2 ^ (f.fractionBits + k + places) := by rw [lead, ← Nat.pow_add, Nat.add_assoc]
  have hle : E ≤ f.fractionBits + k + places :=
    Nat.le_of_lt ((Nat.pow_lt_pow_iff_right (by decide)).1 hbound)
  have hpower : f.lead * 2 ^ k * 10 ^ places = 2 ^ (f.fractionBits + k + places) * 5 ^ places := by
    rw [lead, hten, Nat.pow_add, Nat.pow_add]
    ring
  rw [hE, hpower]
  exact Nat.dvd_mul_right_of_dvd (Nat.pow_dvd_pow 2 hle) _

/-- **A decimal is rounded to the pattern it was written for** if a unit of the last place is less than the
pattern is away from the next. -/
theorem round_nearest_of_wide (hbits : 0 < f.fractionBits) (hfinite : M < f.infinity)
    (hplaces : 5 ^ places ≤ f.lead) (hwide : f.unit < 10 ^ places * 2 ^ f.shift M) :
    f.round (f.nearest places M) (10 ^ places) = M := by
  obtain ⟨k, s, rfl, hs, hlt⟩ := f.exists_parts M
  rw [shift_mul_add hs hlt] at hwide
  have hsteps : f.steps (k * f.lead + s) = s * 2 ^ k := steps_mul_add hs (Nat.le_of_lt hlt)
  rcases Nat.eq_zero_or_pos s with rfl | hpos
  · refine round_nearest_of_exact hbits hfinite ?_
    rw [hsteps, Nat.zero_mul, Nat.zero_mul]
    exact Nat.dvd_zero _
  rcases interval_low_le hs (Nat.le_of_lt hlt) hpos (10 ^ places) with hlow | ⟨rfl, -, -⟩
  · refine (round_eq_iff hbits (Nat.pow_pos (by decide)) hfinite).2 ?_
    have hhigh := le_interval_high hs (Nat.le_of_lt hlt) (10 ^ places)
    obtain ⟨hnearLow, hnearHigh, -, -⟩ := f.isNearest places (k * f.lead + s)
    have hcell : s * 2 ^ k * 10 ^ places = s * (10 ^ places * 2 ^ k) := by ring
    rw [hsteps, hcell] at hnearLow hnearHigh
    have hvalue : f.nearest places (k * f.lead + s) * (f.interval (k * f.lead + s)).denominator =
        2 * (f.nearest places (k * f.lead + s) * f.unit) := Nat.mul_left_comm _ _ _
    unfold Interval.Contains
    rw [hvalue]
    split <;> omega
  -- below a power of two the gap is only half as wide, but its decimal is exact
  · refine round_nearest_of_exact hbits hfinite ?_
    rw [hsteps]
    exact unit_dvd_of_power hplaces hwide

/-- **The decimal of a value below half a unit of the last place is zero**, and is rounded to zero. -/
theorem round_nearest_of_small (hbits : 0 < f.fractionBits) (hfinite : M < f.infinity)
    (hsmall : 2 * (f.steps M * 10 ^ places) < f.unit) :
    f.nearest places M = 0 ∧ f.round (f.nearest places M) (10 ^ places) = 0 := by
  have hmod : f.steps M * 10 ^ places % f.unit = f.steps M * 10 ^ places := Nat.mod_eq_of_lt (by omega)
  have hdiv : f.steps M * 10 ^ places / f.unit = 0 := Nat.div_eq_of_lt (by omega)
  have hzero : f.nearest places M = 0 := by
    simp only [nearest, roundDiv, hmod, hdiv, if_pos hsmall]
  have hpositive : 0 < f.infinity := Nat.lt_of_le_of_lt (Nat.zero_le M) hfinite
  refine ⟨hzero, round_exact hbits (Nat.pow_pos (by decide)) hpositive ?_⟩
  rw [hzero, steps_zero, Nat.zero_mul, Nat.zero_mul]

end Format

end Binary

end FlashParams
