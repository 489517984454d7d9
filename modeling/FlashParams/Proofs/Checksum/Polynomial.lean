import Mathlib.Algebra.CharP.Two
import Mathlib.Algebra.Field.ZMod
import Mathlib.Algebra.Polynomial.Div

/-!
# Bits as polynomials over the field of two elements

A check treats bits as coefficients. Two readings are needed. A *word* has the coefficient of `X ^ i`
at position `i` (`polynomialOf`), and exclusive or is addition, a shift is multiplication by a power of
`X`, up to the bits that leave the word. A *stream* comes with the highest coefficient first
(`polynomialOfBits`), because that is the order in which a message arrives; putting a stream behind
another one multiplies the first by a power of `X` and adds.

Everything here is decided coefficient by coefficient (`coeff_polynomialOf`,
`coeff_polynomialOfBits`). In particular a word is determined by its polynomial, whose degree is below
the width of the word: that is why a word can stand for a remainder.
-/

set_option autoImplicit false

namespace FlashParams

open Polynomial

def coefficient (b : Bool) : ZMod 2 :=
  if b then 1 else 0

theorem coefficient_injective : Function.Injective coefficient := by
  decide

@[simp] theorem coefficient_false : coefficient false = 0 :=
  rfl

@[simp] theorem coefficient_true : coefficient true = 1 :=
  rfl

theorem coefficient_xor (a b : Bool) : coefficient (a ^^ b) = coefficient a + coefficient b := by
  cases a <;> cases b <;> decide

/-! ## Words -/

/-- The polynomial of a word: bit `i` is the coefficient of `X ^ i`. Everything about registers is proved
of these, where an exclusive or is an addition and a shift multiplies. -/
noncomputable def polynomialOf {w : Nat} (v : BitVec w) : (ZMod 2)[X] :=
  ∑ i ∈ Finset.range w, monomial i (coefficient (v.getLsbD i))

section

variable {w : Nat}

theorem coeff_polynomialOf (v : BitVec w) (i : Nat) :
    (polynomialOf v).coeff i = coefficient (v.getLsbD i) := by
  unfold polynomialOf
  rw [finsetSum_coeff]
  simp only [coeff_monomial, Finset.sum_ite_eq', Finset.mem_range]
  by_cases hi : i < w
  · rw [if_pos hi]
  · rw [if_neg hi, BitVec.getLsbD_of_ge v i (by omega), coefficient_false]

theorem degree_polynomialOf_lt (v : BitVec w) : (polynomialOf v).degree < w := by
  rw [degree_lt_iff_coeff_zero]
  intro i hi
  rw [coeff_polynomialOf, BitVec.getLsbD_of_ge v i hi, coefficient_false]

theorem polynomialOf_xor (u v : BitVec w) :
    polynomialOf (u ^^^ v) = polynomialOf u + polynomialOf v := by
  ext i
  rw [coeff_add, coeff_polynomialOf, coeff_polynomialOf, coeff_polynomialOf, BitVec.getLsbD_xor,
    coefficient_xor]

/-- A word of another width has the same polynomial when no bit is cut off. Declared parameters have 64
bits and the register has those of the check, so both come to be compared through this. -/
theorem polynomialOf_eq_of_getLsbD {u : Nat} {x : BitVec u} {v : BitVec w}
    (h : ∀ i, x.getLsbD i = v.getLsbD i) : polynomialOf x = polynomialOf v := by
  ext i
  rw [coeff_polynomialOf, coeff_polynomialOf, h]

theorem X_mul_polynomialOf (v : BitVec w) (hw : 0 < w) :
    X * polynomialOf v = polynomialOf (v <<< 1) + C (coefficient v.msb) * X ^ w := by
  ext i
  rw [coeff_add, coeff_C_mul_X_pow, coeff_polynomialOf, BitVec.getLsbD_shiftLeft,
    BitVec.msb_eq_getLsbD_last]
  cases i with
  | zero =>
    rw [mul_coeff_zero, coeff_X_zero, zero_mul, if_neg (by omega)]
    simp
  | succ i =>
    rw [coeff_X_mul, coeff_polynomialOf]
    -- inside the word, at the bit that leaves it, above it
    rcases Nat.lt_trichotomy (i + 1) w with hi | hi | hi
    · rw [if_neg (by omega), add_zero]
      simp [hi]
    · subst hi
      simp
    · rw [if_neg (by omega), add_zero, BitVec.getLsbD_of_ge v i (by omega)]
      simp [Nat.not_lt.2 (Nat.le_of_lt hi)]

theorem polynomialOf_shiftLeft {u : Nat} (x : BitVec u) (hu : u ≤ w) :
    polynomialOf (x.setWidth w <<< (w - u)) = polynomialOf x * X ^ (w - u) := by
  ext i
  rw [coeff_mul_X_pow', coeff_polynomialOf, coeff_polynomialOf, BitVec.getLsbD_shiftLeft,
    BitVec.getLsbD_setWidth]
  by_cases hlow : w - u ≤ i
  · rw [if_pos hlow]
    by_cases hi : i < w
    · simp [hi, Nat.not_lt.2 hlow, Nat.lt_of_le_of_lt (Nat.sub_le i (w - u)) hi]
    · rw [BitVec.getLsbD_of_ge x (i - (w - u)) (by omega)]
      simp
  · rw [if_neg hlow]
    simp [Nat.lt_of_not_le hlow]

end

/-! ## Streams -/

/-- The polynomial of a stream of bits, the highest coefficient first. That is the order in which bits
are fed, so a message that goes on moves what has been fed up by as many places. -/
noncomputable def polynomialOfBits : List Bool → (ZMod 2)[X]
  | [] => 0
  | b :: rest => C (coefficient b) * X ^ rest.length + polynomialOfBits rest

theorem polynomialOfBits_append (front back : List Bool) :
    polynomialOfBits (front ++ back)
      = polynomialOfBits front * X ^ back.length + polynomialOfBits back := by
  induction front with
  | nil => rw [List.nil_append, polynomialOfBits, zero_mul, zero_add]
  | cons b rest ih =>
    rw [List.cons_append, polynomialOfBits, polynomialOfBits, ih, List.length_append]
    ring

theorem coeff_polynomialOfBits (bits : List Bool) (i : Nat) :
    (polynomialOfBits bits).coeff i = coefficient (bits.reverse[i]?.getD false) := by
  induction bits with
  | nil => rw [polynomialOfBits, coeff_zero, List.reverse_nil, List.getElem?_nil]; rfl
  | cons b rest ih =>
    rw [polynomialOfBits, coeff_add, coeff_C_mul_X_pow, ih, List.reverse_cons]
    rcases Nat.lt_trichotomy i rest.length with hi | hi | hi
    · rw [if_neg (by omega), zero_add, List.getElem?_append_left (by rwa [List.length_reverse])]
    · subst hi
      rw [if_pos rfl, ← List.length_reverse, List.getElem?_concat_length,
        List.getElem?_eq_none (Nat.le_refl _)]
      simp
    · rw [if_neg (by omega), zero_add, List.getElem?_eq_none (by rw [List.length_reverse]; omega),
        List.getElem?_eq_none (by rw [List.length_append, List.length_reverse]; exact hi)]

theorem degree_polynomialOfBits_lt (bits : List Bool) :
    (polynomialOfBits bits).degree < bits.length := by
  rw [degree_lt_iff_coeff_zero]
  intro i hi
  rw [coeff_polynomialOfBits, List.getElem?_eq_none (by rwa [List.length_reverse])]
  rfl

theorem eq_of_polynomialOfBits_eq {xs ys : List Bool} (hlen : xs.length = ys.length)
    (h : polynomialOfBits xs = polynomialOfBits ys) : xs = ys := by
  have hreverse : xs.reverse.length = ys.reverse.length := by
    rw [List.length_reverse, List.length_reverse, hlen]
  refine List.reverse_injective (List.ext_getElem hreverse fun i hx hy => ?_)
  have hcoeff := congrArg (fun p => p.coeff i) h
  simp only [coeff_polynomialOfBits, List.getElem?_eq_getElem hx, List.getElem?_eq_getElem hy,
    Option.getD_some] at hcoeff
  exact coefficient_injective hcoeff

end FlashParams
