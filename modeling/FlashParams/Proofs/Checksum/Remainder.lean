import FlashParams.Checksum.Crc
import FlashParams.Proofs.Checksum.Polynomial
import Mathlib.RingTheory.AdjoinRoot

/-!
# A check is a remainder

The engine never divides. It keeps a register, shifts it, and now and then adds the generator's lower
part. What it computes all the same is the remainder of a division of polynomials: the message,
moved up by the width of the check, with the seed in front of it, divided by the generator.

The proof follows the engine. In the ring of residues modulo the generator (`Crc.residue`) a shift step
is a multiplication by the indeterminate, *whether or not* the generator was added, since there the
generator is zero (`residue_shiftStep`). Eight steps and the added byte give `residue_absorb`, and the
fold over the message is an induction on its last byte (`residue_register`). Back from residues to
remainders is one step: the register is a word as wide as the generator's degree, so its polynomial is
already reduced, and two polynomials of one residue have one remainder.

That the register cannot hold the bit that leaves it, and that for the widest check no machine word
could either, is where the leading term of the generator comes in: it is exactly the bit lost.
-/

set_option autoImplicit false

namespace FlashParams

open Polynomial

/-! ## Messages -/

def byteBits (lowFirst : Bool) (byte : UInt8) : List Bool :=
  let bits := (List.range 8).map byte.toBitVec.getLsbD
  if lowFirst then bits else bits.reverse

def messageBits (lowFirst : Bool) (message : List UInt8) : List Bool :=
  message.flatMap (byteBits lowFirst)

@[simp] theorem length_byteBits (lowFirst : Bool) (byte : UInt8) :
    (byteBits lowFirst byte).length = 8 := by
  cases lowFirst <;> rfl

theorem messageBits_concat (lowFirst : Bool) (message : List UInt8) (byte : UInt8) :
    messageBits lowFirst (message ++ [byte])
      = messageBits lowFirst message ++ byteBits lowFirst byte := by
  rw [messageBits, List.flatMap_append, List.flatMap_singleton]
  rfl

/-- The generator that declared parameters stand for: the leading term, which is not written down, and
the polynomial that is. -/
noncomputable def CrcParams.generator (params : CrcParams) (width : Nat) : (ZMod 2)[X] :=
  X ^ width + polynomialOf params.polynomial.toBitVec

namespace Crc

/-! ## Parameters that make a check -/

/-- What is known of a check that was made from parameters: its width is one of a memory access, and no
bit of polynomial or seed was cut off. The main results ask for parameters and use only this. -/
structure Made (w : Nat) (params : CrcParams) (c : Crc) : Prop where
  width : c.width = w
  wide : w ∈ accessWidths
  polynomial : ∀ i, c.polynomial.getLsbD i = params.polynomial.toBitVec.getLsbD i
  init : ∀ i, c.init.getLsbD i = params.init.toBitVec.getLsbD i
  reflectIn : c.reflectIn = params.reflectIn
  reflectOut : c.reflectOut = params.reflectOut
  finalXor : c.finalXor = params.finalXor

theorem getLsbD_ofNat_of_fits {width : Nat} {value : UInt64} (h : value.toNat < Nat.pow 2 width)
    (i : Nat) : (BitVec.ofNat width value.toNat).getLsbD i = value.toBitVec.getLsbD i := by
  rw [BitVec.getLsbD_ofNat, BitVec.getLsbD, UInt64.toNat_toBitVec]
  by_cases hi : i < width
  · rw [decide_eq_true hi, Bool.true_and]
  · have hsmall : value.toNat < 2 ^ i :=
      Nat.lt_of_lt_of_le h (Nat.pow_le_pow_right (by omega) (by omega))
    rw [Nat.testBit_lt_two_pow hsmall, Bool.and_false]

theorem made_of_ofParams {width : Nat} {params : CrcParams} {c : Crc}
    (h : Crc.ofParams width params = .ok c) : c.Made width params := by
  unfold Crc.ofParams at h
  split at h
  · cases h
  rename_i hwide
  split at h
  · cases h
  rename_i hpolynomial
  split at h
  · cases h
  rename_i hinit
  cases h
  exact ⟨rfl, not_not.1 hwide, getLsbD_ofNat_of_fits (Nat.lt_of_not_le hpolynomial),
    getLsbD_ofNat_of_fits (Nat.lt_of_not_le hinit), rfl, rfl, rfl⟩

theorem Made.eight_le {width : Nat} {params : CrcParams} {c : Crc} (h : c.Made width params) :
    8 ≤ c.width := by
  have hall : ∀ w ∈ accessWidths, 8 ≤ w := by decide
  rw [h.width]
  exact hall width h.wide

/-! ## Residues -/

variable (c : Crc)

noncomputable def generator : (ZMod 2)[X] :=
  X ^ c.width + polynomialOf c.polynomial

theorem generator_monic : c.generator.Monic :=
  monic_X_pow_add (degree_polynomialOf_lt _)

theorem degree_generator : c.generator.degree = c.width := by
  unfold generator
  rw [degree_add_eq_left_of_degree_lt, degree_X_pow]
  rw [degree_X_pow]
  exact degree_polynomialOf_lt _

noncomputable def residue : (ZMod 2)[X] →+* AdjoinRoot c.generator :=
  AdjoinRoot.mk c.generator

/-- Modulo the generator its leading term is its lower part. It is the one fact about the generator that
a shift step needs: the bit that leaves the register comes back as the polynomial. -/
theorem residue_X_pow_width :
    c.residue X ^ c.width = c.residue (polynomialOf c.polynomial) := by
  rw [← map_pow]
  refine AdjoinRoot.mk_eq_mk.2 ?_
  -- of characteristic two, so the difference is the sum
  rw [CharTwo.sub_eq_add]
  exact dvd_refl c.generator

/-- **A shift step multiplies by the indeterminate.** The bit shifted out is the leading coefficient, and
the generator is subtracted for it, which is invisible in the residues. -/
theorem residue_shiftStep (hw : 0 < c.width) (r : BitVec c.width) :
    c.residue (polynomialOf (c.shiftStep r)) = c.residue X * c.residue (polynomialOf r) := by
  have hshift := congrArg c.residue (X_mul_polynomialOf r hw)
  rw [map_mul, map_add, map_mul, map_pow, residue_X_pow_width] at hshift
  unfold shiftStep
  cases hmsb : r.msb with
  | false =>
    rw [hmsb, coefficient_false, map_zero, map_zero, zero_mul, add_zero] at hshift
    rw [if_neg Bool.false_ne_true, hshift]
  | true =>
    rw [hmsb, coefficient_true, map_one, map_one, one_mul] at hshift
    rw [if_pos rfl, polynomialOf_xor, map_add, hshift]

theorem residue_shiftSteps (hw : 0 < c.width) (n : Nat) (r : BitVec c.width) :
    c.residue (polynomialOf (Nat.repeat c.shiftStep n r))
      = c.residue X ^ n * c.residue (polynomialOf r) := by
  induction n with
  | zero => rw [pow_zero, one_mul]; rfl
  | succ n ih =>
    rw [Nat.repeat, c.residue_shiftStep hw, ih, pow_succ]
    ring

theorem polynomialOfBits_byteBits (byte : UInt8) :
    polynomialOfBits (byteBits c.reflectIn byte) = polynomialOf (c.feedBits byte) := by
  ext i
  rw [coeff_polynomialOfBits, coeff_polynomialOf]
  congr 1
  unfold byteBits feedBits
  cases c.reflectIn with
  | false =>
    simp only [Bool.false_eq_true, if_false, List.reverse_reverse, List.getElem?_map]
    by_cases hi : i < 8
    · rw [List.getElem?_range hi]
      rfl
    · rw [List.getElem?_eq_none (by rw [List.length_range]; omega),
        BitVec.getLsbD_of_ge _ i (by omega)]
      rfl
  | true =>
    simp only [if_true, BitVec.getLsbD_reverse, BitVec.getMsbD_eq_getLsbD]
    by_cases hi : i < 8
    · rw [List.getElem?_reverse (by rw [List.length_map, List.length_range]; exact hi),
        List.length_map, List.length_range, List.getElem?_map, List.getElem?_range (by omega)]
      simp [hi]
    · rw [List.getElem?_eq_none (by simp; omega)]
      simp [hi]

/-- **A byte moves the register up by eight places and is added in front of the width.** From here on the
register is a remainder and the bits of a byte need not be looked at one by one. -/
theorem residue_absorb (hw : 8 ≤ c.width) (r : BitVec c.width) (byte : UInt8) :
    c.residue (polynomialOf (c.absorb r byte))
      = c.residue (polynomialOf r * X ^ 8
          + polynomialOfBits (byteBits c.reflectIn byte) * X ^ c.width) := by
  have hpower : (X : (ZMod 2)[X]) ^ c.width = X ^ (c.width - 8) * X ^ 8 := by
    rw [← pow_add, Nat.sub_add_cancel hw]
  rw [absorb, residue_shiftSteps c (by omega), polynomialOf_xor, polynomialOf_shiftLeft _ hw,
    polynomialOfBits_byteBits, hpower, ← map_pow, ← map_mul]
  exact congrArg c.residue (by ring)

theorem residue_register (hw : 8 ≤ c.width) (message : List UInt8) :
    c.residue (polynomialOf (c.register message))
      = c.residue (polynomialOf c.init * X ^ (8 * message.length)
          + polynomialOfBits (messageBits c.reflectIn message) * X ^ c.width) := by
  -- the register has seen a prefix of the message, so the induction takes bytes off its end
  induction message using List.reverseRecOn with
  | nil =>
    rw [List.length_nil, Nat.mul_zero, pow_zero, mul_one, messageBits, List.flatMap_nil,
      polynomialOfBits, zero_mul, add_zero]
    rfl
  | append_singleton message byte ih =>
    have hstep : c.register (message ++ [byte]) = c.absorb (c.register message) byte :=
      List.foldl_concat ..
    rw [hstep, residue_absorb c hw, map_add, map_mul, ih, messageBits_concat,
      polynomialOfBits_append, length_byteBits, List.length_append, List.length_singleton,
      Nat.mul_add, pow_add, ← map_mul, ← map_add]
    exact congrArg c.residue (by ring)

theorem polynomialOf_register (hw : 8 ≤ c.width) (message : List UInt8) :
    polynomialOf (c.register message)
      = (polynomialOf c.init * X ^ (8 * message.length)
          + polynomialOfBits (messageBits c.reflectIn message) * X ^ c.width) %ₘ c.generator := by
  have hreduced : polynomialOf (c.register message) %ₘ c.generator
      = polynomialOf (c.register message) := by
    rw [modByMonic_eq_self_iff c.generator_monic, degree_generator]
    exact degree_polynomialOf_lt _
  rw [← hreduced]
  exact modByMonic_eq_of_dvd_sub c.generator_monic
    (AdjoinRoot.mk_eq_mk.1 (c.residue_register hw message))

theorem getLsbD_finish (r : BitVec c.width) {i : Nat} (hi : i < c.width) :
    (c.finish r).getLsbD i
      = (r.getLsbD (if c.reflectOut then c.width - 1 - i else i) ^^ c.finalXor) := by
  have hreverse : r.reverse.getLsbD i = r.getLsbD (c.width - 1 - i) := by
    rw [BitVec.getLsbD_reverse, BitVec.getMsbD_eq_getLsbD, decide_eq_true hi, Bool.true_and]
  unfold finish
  cases c.reflectOut <;> cases c.finalXor <;> simp only [Bool.false_eq_true, if_false, if_true,
    BitVec.getLsbD_not, decide_eq_true hi, Bool.true_and, Bool.xor_false, Bool.xor_true, hreverse]

end Crc

/-- **The engine computes a division of polynomials.** For parameters that make a check, the register
after a message is the remainder of the seed and the message, moved up by the width, by the generator,
which is monic of the width's degree. The checksum is that word, with its bits in reverse and
complemented as the parameters say. -/
theorem Crc.checksum_is_remainder {width : Nat} {params : CrcParams} {c : Crc}
    (h : Crc.ofParams width params = .ok c) (message : List UInt8) :
    c.width = width ∧
      (params.generator width).Monic ∧ (params.generator width).degree = width ∧
      polynomialOf (c.register message)
        = (polynomialOf params.init.toBitVec * X ^ (8 * message.length)
            + polynomialOfBits (messageBits params.reflectIn message) * X ^ width)
          %ₘ params.generator width ∧
      ∀ i < width, (c.checksum message).getLsbD i
        = ((c.register message).getLsbD (if params.reflectOut then width - 1 - i else i)
            ^^ params.finalXor) := by
  have hmade := Crc.made_of_ofParams h
  have hgenerator : params.generator width = c.generator := by
    rw [CrcParams.generator, Crc.generator, polynomialOf_eq_of_getLsbD hmade.polynomial,
      hmade.width]
  have hinit : polynomialOf params.init.toBitVec = polynomialOf c.init :=
    (polynomialOf_eq_of_getLsbD hmade.init).symm
  rw [hgenerator, hinit, ← hmade.reflectIn, ← hmade.reflectOut, ← hmade.finalXor, ← hmade.width]
  exact ⟨rfl, c.generator_monic, c.degree_generator, c.polynomialOf_register hmade.eight_le message,
    fun i hi => c.getLsbD_finish _ hi⟩

namespace Specimen

def wideParams : CrcParams :=
  { polynomial := 0x42F0E1EBA9EA3693
    init := 0xFFFFFFFFFFFFFFFF }

def wideCheck : Crc :=
  { width := 64
    polynomial := 0x42F0E1EBA9EA3693
    init := 0xFFFFFFFFFFFFFFFF
    reflectIn := true
    reflectOut := true
    finalXor := true }

def digits : List UInt8 :=
  [0x31, 0x32, 0x33, 0x34, 0x35, 0x36, 0x37, 0x38, 0x39]

theorem wideCheck_is_remainder :
    Crc.ofParams 64 wideParams = .ok wideCheck ∧
      (wideCheck.checksum digits).toNat = 0x995DC9BBDF1939FA ∧
      polynomialOf (wideCheck.register digits)
        = (polynomialOf wideParams.init.toBitVec * X ^ (8 * digits.length)
            + polynomialOfBits (messageBits wideParams.reflectIn digits) * X ^ 64) %ₘ wideParams.generator 64 ∧
      ∀ i < 64, (wideCheck.checksum digits).getLsbD i
        = ((wideCheck.register digits).getLsbD (64 - 1 - i) ^^ true) := by
  have hmade : Crc.ofParams 64 wideParams = .ok wideCheck := rfl
  obtain ⟨-, -, -, hremainder, hbits⟩ := Crc.checksum_is_remainder hmade digits
  exact ⟨hmade, by decide +kernel, hremainder, hbits⟩

end Specimen

end FlashParams
