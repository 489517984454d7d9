import FlashParams.Proofs.Checksum.Remainder

/-!
# The same check, least significant bit first

Checks whose bytes are fed in reverse and whose register is reversed at the end are usually described
the other way round: the register is kept mirrored from the start, each byte goes into its low end as it
is, and a step shifts to the *right* and looks at the bit that falls out there. `LowFirst.checksum` is
that description, made from the declared parameters alone.

The two engines run in step. One register is the mirror image of the other before and after every bit
(`Crc.reverse_shiftStep`), every byte (`Crc.reverse_absorb`) and every message (`Crc.reverse_register`),
and in the end the one engine reverses its register where the other has nothing to do. For the byte it
matters that it is as wide as the two ends of the register at which it is added: in the mirror, the
upper eight places are the lower eight.
-/

set_option autoImplicit false

namespace FlashParams

/-! ## The engine that shifts to the right -/

namespace LowFirst

variable {width : Nat}

def shiftStep (polynomial register : BitVec width) : BitVec width :=
  if register.getLsbD 0 then (register >>> 1) ^^^ polynomial else register >>> 1

def absorb (polynomial register : BitVec width) (byte : UInt8) : BitVec width :=
  Nat.repeat (shiftStep polynomial) 8 (register ^^^ byte.toBitVec.setWidth width)

/-- The check of a message as tables are usually made for it. Generator and seed are mirrored once,
before the first byte, and no byte is ever turned around. -/
def checksum (width : Nat) (params : CrcParams) (message : List UInt8) : BitVec width :=
  let polynomial := (params.polynomial.toBitVec.setWidth width).reverse
  let seed := (params.init.toBitVec.setWidth width).reverse
  let register := message.foldl (absorb polynomial) seed
  if params.finalXor then ~~~register else register

end LowFirst

/-! ## Mirror images -/

section

variable {w : Nat}

theorem getLsbD_reverse_of_lt (v : BitVec w) {i : Nat} (hi : i < w) :
    v.reverse.getLsbD i = v.getLsbD (w - 1 - i) := by
  rw [BitVec.getLsbD_reverse, BitVec.getMsbD_eq_getLsbD, decide_eq_true hi, Bool.true_and]

theorem reverse_xor (u v : BitVec w) : (u ^^^ v).reverse = u.reverse ^^^ v.reverse := by
  apply BitVec.eq_of_getLsbD_eq
  intro i hi
  rw [BitVec.getLsbD_xor, getLsbD_reverse_of_lt _ hi, getLsbD_reverse_of_lt _ hi,
    getLsbD_reverse_of_lt _ hi, BitVec.getLsbD_xor]

theorem reverse_shiftLeft (v : BitVec w) (n : Nat) : (v <<< n).reverse = v.reverse >>> n := by
  apply BitVec.eq_of_getLsbD_eq
  intro i hi
  rw [getLsbD_reverse_of_lt _ hi, BitVec.getLsbD_shiftLeft, BitVec.getLsbD_ushiftRight]
  by_cases hin : n + i < w
  · rw [getLsbD_reverse_of_lt _ hin, decide_eq_true (by omega), decide_eq_false (by omega)]
    simp only [Bool.not_false, Bool.true_and]
    congr 1
    omega
  · rw [decide_eq_true (p := w - 1 - i < n) (by omega), BitVec.getLsbD_of_ge _ (n + i) (by omega)]
    simp

/-- A byte at the upper end, its bits reversed, is in the mirror the byte itself at the lower end. This
is why an engine that reflects its input can leave the bytes as they are. -/
theorem reverse_upperByte (v : BitVec 8) (hw : 8 ≤ w) :
    (v.reverse.setWidth w <<< (w - 8)).reverse = v.setWidth w := by
  apply BitVec.eq_of_getLsbD_eq
  intro i hi
  rw [reverse_shiftLeft, BitVec.getLsbD_ushiftRight, BitVec.getLsbD_setWidth]
  by_cases hin : i < 8
  · rw [getLsbD_reverse_of_lt _ (by omega), BitVec.getLsbD_setWidth,
      getLsbD_reverse_of_lt _ (by omega), decide_eq_true hi, decide_eq_true (by omega)]
    simp only [Bool.true_and]
    congr 1
    omega
  · rw [BitVec.getLsbD_of_ge _ (w - 8 + i) (by omega), BitVec.getLsbD_of_ge v i (by omega),
      Bool.and_false]

end

/-! ## Two engines in step -/

namespace Crc

theorem eq_setWidth_of_getLsbD {w : Nat} {v : BitVec w} {value : UInt64}
    (h : ∀ i, v.getLsbD i = value.toBitVec.getLsbD i) : v = value.toBitVec.setWidth w := by
  apply BitVec.eq_of_getLsbD_eq
  intro i hi
  rw [BitVec.getLsbD_setWidth, decide_eq_true hi, Bool.true_and, h]

variable (c : Crc)

/-- **The mirror image of a step is a step of the other engine.** The bit that leaves one register at the
top leaves the other at the bottom. -/
theorem reverse_shiftStep (r : BitVec c.width) :
    (c.shiftStep r).reverse = LowFirst.shiftStep c.polynomial.reverse r.reverse := by
  have hbit : r.msb = r.reverse.getLsbD 0 := by
    rw [BitVec.getLsbD_reverse, BitVec.msb_eq_getMsbD_zero]
  unfold shiftStep LowFirst.shiftStep
  rw [hbit]
  split
  · rw [reverse_xor, reverse_shiftLeft]
  · rw [reverse_shiftLeft]

theorem reverse_shiftSteps (n : Nat) (r : BitVec c.width) :
    (Nat.repeat c.shiftStep n r).reverse =
      Nat.repeat (LowFirst.shiftStep c.polynomial.reverse) n r.reverse := by
  induction n with
  | zero => rfl
  | succ n ih => rw [Nat.repeat, reverse_shiftStep, ih, Nat.repeat]

theorem reverse_absorb (hin : c.reflectIn = true) (hw : 8 ≤ c.width) (r : BitVec c.width)
    (byte : UInt8) :
    (c.absorb r byte).reverse = LowFirst.absorb c.polynomial.reverse r.reverse byte := by
  have hfeed : c.feedBits byte = byte.toBitVec.reverse := if_pos hin
  unfold absorb LowFirst.absorb
  rw [reverse_shiftSteps, reverse_xor, hfeed, reverse_upperByte _ hw]

theorem reverse_register (hin : c.reflectIn = true) (hw : 8 ≤ c.width) (message : List UInt8) :
    (c.register message).reverse =
      message.foldl (LowFirst.absorb c.polynomial.reverse) c.init.reverse := by
  unfold register
  -- from any register on, since the seed of the rest is what the first byte leaves
  generalize c.init = r
  induction message generalizing r with
  | nil => rfl
  | cons byte rest ih => rw [List.foldl_cons, List.foldl_cons, ih, c.reverse_absorb hin hw]

end Crc

/-- **Fed and finished in reverse, the engine is the one that shifts to the right.** Nothing is assumed
of the polynomial or of the initial value, which the other engine takes in reverse as well. -/
theorem Crc.checksum_eq_lowFirst {width : Nat} {params : CrcParams} {c : Crc}
    (h : Crc.ofParams width params = .ok c) (hin : params.reflectIn = true)
    (hout : params.reflectOut = true) (message : List UInt8) :
    c.width = width ∧
      (c.checksum message).toNat = (LowFirst.checksum width params message).toNat := by
  have hmade := Crc.made_of_ofParams h
  have hregister := c.reverse_register (hmade.reflectIn.trans hin) hmade.eight_le message
  obtain ⟨hwidth, -, hpolynomial, hinit, -, hreflectOut, hxor⟩ := hmade
  refine ⟨hwidth, ?_⟩
  subst hwidth
  rw [Crc.eq_setWidth_of_getLsbD hpolynomial, Crc.eq_setWidth_of_getLsbD hinit] at hregister
  have hfinish : c.checksum message =
      if params.finalXor then ~~~(c.register message).reverse else (c.register message).reverse := by
    unfold Crc.checksum Crc.finish
    rw [hreflectOut.trans hout, hxor]
    rfl
  rw [hfinish, hregister]
  rfl

namespace Specimen

theorem defaultCheck_eq_lowFirst :
    Crc.ofParams 32 {} = .ok Crc.crc32 ∧ Crc.crc32.width = 32 ∧
      (Crc.crc32.checksum digits).toNat = (LowFirst.checksum 32 {} digits).toNat ∧
      (LowFirst.checksum 32 {} digits).toNat = 0xCBF43926 := by
  have hmade : Crc.ofParams 32 {} = .ok Crc.crc32 := rfl
  obtain ⟨hwidth, hsame⟩ := Crc.checksum_eq_lowFirst hmade rfl rfl digits
  exact ⟨hmade, hwidth, hsame, by decide +kernel⟩

end Specimen

end FlashParams
