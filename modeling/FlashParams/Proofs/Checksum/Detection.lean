import FlashParams.Checksum.WordSwap
import FlashParams.Proofs.Checksum.Remainder

/-!
# What a check detects

Two messages that differ only inside a window as wide as the check never have the same checksum,
provided that the lowest bit of the generator's polynomial is set. The messages are divided by the same
generator, so what decides is the remainder of their difference, and that is the difference inside the
window moved up by some power of the indeterminate. With its lowest bit set the generator has no factor
in common with the indeterminate, which is a unit modulo the generator (`Crc.isUnit_residue_X`) and can
be cancelled. What is left is of lower degree than the generator, and two such polynomials have one
residue only if they are equal (`Crc.eq_of_residue_eq`).

Seed, switches and whatever stands outside the window drop out in the subtraction. Reading in swapped
words moves bytes but changes none, so a single byte changed in a range is a single byte changed in what
the check is fed (`exists_accessOrder_split`).
-/

set_option autoImplicit false

namespace FlashParams

open Polynomial

/-! ## The bits of a message -/

theorem byteBits_injective (lowFirst : Bool) : Function.Injective (byteBits lowFirst) := by
  intro a b h
  have hbits : (List.range 8).map a.toBitVec.getLsbD = (List.range 8).map b.toBitVec.getLsbD := by
    cases lowFirst with
    | false => exact List.reverse_injective h
    | true => exact h
  apply UInt8.eq_of_toBitVec_eq
  apply BitVec.eq_of_getLsbD_eq
  intro i hi
  exact List.map_inj_left.1 hbits i (List.mem_range.2 hi)

theorem length_messageBits (lowFirst : Bool) (message : List UInt8) :
    (messageBits lowFirst message).length = 8 * message.length := by
  induction message with
  | nil => rfl
  | cons byte rest ih =>
    have hcons : messageBits lowFirst (byte :: rest) =
        byteBits lowFirst byte ++ messageBits lowFirst rest := List.flatMap_cons
    rw [hcons, List.length_append, length_byteBits, ih, List.length_cons]
    omega

theorem messageBits_append (lowFirst : Bool) (front back : List UInt8) :
    messageBits lowFirst (front ++ back) = messageBits lowFirst front ++ messageBits lowFirst back :=
  List.flatMap_append

/-- Every byte has eight bits, so a message can be read off its bits. Detection is proved for the
polynomials of two messages; this takes the result back to the messages. -/
theorem messageBits_injective (lowFirst : Bool) : Function.Injective (messageBits lowFirst) := by
  intro xs
  induction xs with
  | nil =>
    intro ys h
    have hlen := congrArg List.length h
    rw [length_messageBits, length_messageBits, List.length_nil] at hlen
    exact (List.length_eq_zero_iff.1 (by omega)).symm
  | cons x xs ih =>
    intro ys h
    cases ys with
    | nil =>
      have hlen := congrArg List.length h
      rw [length_messageBits, length_messageBits, List.length_cons, List.length_nil] at hlen
      omega
    | cons y ys =>
      have hsplit : byteBits lowFirst x ++ messageBits lowFirst xs =
          byteBits lowFirst y ++ messageBits lowFirst ys := h
      obtain ⟨hfirst, hrest⟩ := List.append_inj hsplit (by rw [length_byteBits, length_byteBits])
      rw [byteBits_injective lowFirst hfirst, ih hrest]

/-! ## Cancelling -/

namespace Crc

variable (c : Crc)

/-- A generator with a constant term has no factor in common with the indeterminate. So the bytes behind
a window, which multiply it by a power of the indeterminate, can be divided off again. -/
theorem isUnit_residue_X (hw : 0 < c.width) (hodd : c.polynomial.getLsbD 0 = true) :
    IsUnit (c.residue X) := by
  have hconstant : c.generator.coeff 0 = 1 := by
    rw [generator, coeff_add, coeff_X_pow, if_neg (by omega), zero_add, coeff_polynomialOf, hodd,
      coefficient_true]
  have hzero : c.residue c.generator = 0 := AdjoinRoot.mk_self
  -- modulo the generator its constant term is a multiple of the indeterminate
  have hsplit := congrArg c.residue (divX_mul_X_add c.generator)
  rw [hconstant, hzero, map_add, map_mul, map_one, map_one] at hsplit
  refine IsUnit.of_mul_eq_one (-c.residue c.generator.divX) ?_
  rw [mul_neg, mul_comm]
  exact neg_eq_of_add_eq_zero_right hsplit

/-- Below the degree of the generator a polynomial is its own remainder. A window no wider than the check
has such a polynomial, which is where the bound on windows comes from. -/
theorem eq_of_residue_eq {p q : (ZMod 2)[X]} (hp : p.degree < c.width) (hq : q.degree < c.width)
    (h : c.residue p = c.residue q) : p = q := by
  by_contra hne
  have hdegree : (p - q).degree < c.generator.degree := by
    rw [c.degree_generator]
    exact lt_of_le_of_lt (degree_sub_le p q) (max_lt hp hq)
  exact c.generator_monic.not_dvd_of_degree_lt (sub_ne_zero.2 hne) hdegree (AdjoinRoot.mk_eq_mk.1 h)

/-- **Messages that agree around a window and leave one register agree inside it.** The bytes in front
give both the same register, those behind multiply by a unit, and the window itself is too short to
differ by a multiple of the generator. -/
theorem eq_of_register_eq (hw : 8 ≤ c.width) (hodd : c.polynomial.getLsbD 0 = true)
    {front xs ys back : List UInt8} (hlen : xs.length = ys.length)
    (hshort : 8 * xs.length ≤ c.width)
    (h : c.register (front ++ xs ++ back) = c.register (front ++ ys ++ back)) : xs = ys := by
  have hdifference := sub_eq_zero.2 (congrArg (fun r => c.residue (polynomialOf r)) h)
  have htotal : (front ++ ys ++ back).length = (front ++ xs ++ back).length := by
    simp only [List.length_append, hlen]
  have hbits : (messageBits c.reflectIn ys).length = (messageBits c.reflectIn xs).length := by
    rw [length_messageBits, length_messageBits, hlen]
  -- all that is not inside the window cancels
  have hwindow : c.residue ((polynomialOfBits (messageBits c.reflectIn xs)
      - polynomialOfBits (messageBits c.reflectIn ys))
        * X ^ ((messageBits c.reflectIn back).length + c.width)) = 0 := by
    rw [← hdifference]
    simp only [c.residue_register hw]
    rw [← map_sub, htotal]
    congr 1
    simp only [messageBits_append, polynomialOfBits_append, hbits]
    ring
  rw [map_mul, map_pow, ((c.isUnit_residue_X (by omega) hodd).pow _).mul_left_eq_zero, map_sub,
    sub_eq_zero] at hwindow
  have hdegree : ∀ zs : List UInt8, zs.length = xs.length →
      (polynomialOfBits (messageBits c.reflectIn zs)).degree < c.width := by
    intro zs hzs
    refine lt_of_lt_of_le (degree_polynomialOfBits_lt _) ?_
    rw [length_messageBits, hzs]
    exact_mod_cast hshort
  have hsame := c.eq_of_residue_eq (hdegree xs rfl) (hdegree ys hlen.symm) hwindow
  exact messageBits_injective c.reflectIn (eq_of_polynomialOfBits_eq hbits.symm hsame)

theorem finish_injective : Function.Injective c.finish := by
  intro r s h
  have hreflect : (if c.reflectOut then r.reverse else r)
      = if c.reflectOut then s.reverse else s := by
    unfold finish at h
    dsimp only at h
    split at h
    · exact BitVec.not_inj.1 h
    · exact h
  split at hreflect
  · rw [← BitVec.reverse_reverse_eq (x := r), hreflect, BitVec.reverse_reverse_eq]
  · exact hreflect

theorem checksum_ne_of_ne (hw : 8 ≤ c.width) (hodd : c.polynomial.getLsbD 0 = true)
    {front xs ys back : List UInt8} (hlen : xs.length = ys.length)
    (hshort : 8 * xs.length ≤ c.width) (hne : xs ≠ ys) :
    c.checksum (front ++ xs ++ back) ≠ c.checksum (front ++ ys ++ back) := by
  intro h
  exact hne (c.eq_of_register_eq hw hodd hlen hshort (c.finish_injective h))

end Crc

/-! ## Windows -/

/-- Two messages of one length that differ, but only within some `size` consecutive bytes. The window is
a condition on positions, so it does not matter how it is cut out. -/
structure DifferWithin (size : Nat) (xs ys : List UInt8) : Prop where
  length : xs.length = ys.length
  differ : xs ≠ ys
  window : ∃ start, ∀ i, i < start ∨ start + size ≤ i → xs[i]? = ys[i]?

theorem DifferWithin.split {size : Nat} {xs ys : List UInt8} (h : DifferWithin size xs ys) :
    ∃ front inner inner' back, xs = front ++ inner ++ back ∧ ys = front ++ inner' ++ back ∧
      inner.length = inner'.length ∧ inner.length ≤ size ∧ inner ≠ inner' := by
  obtain ⟨start, hout⟩ := h.window
  have hfront : ys.take start = xs.take start := by
    refine List.ext_getElem? fun i => ?_
    rw [List.getElem?_take, List.getElem?_take]
    split
    · rename_i hi
      exact (hout i (.inl hi)).symm
    · rfl
  have hback : (ys.drop start).drop size = (xs.drop start).drop size := by
    refine List.ext_getElem? fun i => ?_
    rw [List.drop_drop, List.drop_drop, List.getElem?_drop, List.getElem?_drop]
    exact (hout _ (.inr (Nat.le_add_right _ _))).symm
  have hcut : ∀ zs : List UInt8,
      zs = zs.take start ++ (zs.drop start).take size ++ (zs.drop start).drop size := by
    intro zs
    rw [List.append_assoc, List.take_append_drop, List.take_append_drop]
  have hys := hcut ys
  rw [hfront, hback] at hys
  refine ⟨_, _, _, _, hcut xs, hys, ?_, ?_, fun hinner => h.differ ?_⟩
  · simp only [List.length_take, List.length_drop, h.length]
  · rw [List.length_take]
    exact Nat.min_le_left _ _
  · rw [hys, ← hinner]
    exact hcut xs

/-! ## Swapped words -/

/-- Swapping words moves each byte to one place, whatever its value. So a range with one byte changed is
still one with one byte changed after it has been read in words. -/
theorem exists_swapWords_split (size : Nat) (front back : List UInt8) :
    ∃ front' back', ∀ byte,
      swapWords size (front ++ byte :: back) = front' ++ byte :: back' := by
  by_cases hzero : size = 0
  · refine ⟨front, back, fun byte => ?_⟩
    rw [swapWords, if_pos (.inl hzero)]
  have hopen : ∀ byte, ¬ (size = 0 ∨ front ++ byte :: back = []) := by
    intro byte h
    rcases h with h | h
    · exact hzero h
    · exact List.cons_ne_nil _ _ (List.append_eq_nil_iff.1 h).2
  by_cases hin : front.length < size
  · -- the byte is in the first word
    obtain ⟨k, hk⟩ := Nat.exists_eq_add_of_lt hin
    refine ⟨(back.take k).reverse, front.reverse ++ swapWords size (back.drop k), fun byte => ?_⟩
    have htake : (front ++ byte :: back).take size = front ++ byte :: back.take k := by
      rw [List.take_append, List.take_of_length_le (by omega),
        show size - front.length = k + 1 by omega, List.take_succ_cons]
    have hdrop : (front ++ byte :: back).drop size = back.drop k := by
      rw [List.drop_append, List.drop_eq_nil_of_le (by omega), List.nil_append,
        show size - front.length = k + 1 by omega, List.drop_succ_cons]
    rw [swapWords, if_neg (hopen byte), htake, hdrop]
    simp only [List.reverse_append, List.reverse_cons, List.append_assoc, List.cons_append,
      List.nil_append]
  · -- it is in a later one, and the first word is the same for every byte
    have hle : size ≤ front.length := Nat.le_of_not_lt hin
    obtain ⟨front', back', hrest⟩ := exists_swapWords_split size (front.drop size) back
    refine ⟨(front.take size).reverse ++ front', back', fun byte => ?_⟩
    rw [swapWords, if_neg (hopen byte), List.take_append_of_le_length hle,
      List.drop_append_of_le_length hle, hrest, List.append_assoc]
termination_by front.length
decreasing_by
  rw [List.length_drop]
  omega

theorem exists_accessOrder_split (access : Nat) (swap : Bool) (front back : List UInt8) :
    ∃ front' back', ∀ byte,
      accessOrder access swap (front ++ byte :: back) = front' ++ byte :: back' := by
  unfold accessOrder
  split
  · exact exists_swapWords_split (access / 8) front back
  · exact ⟨front, back, fun _ => rfl⟩

/-- **Local corruption is always detected.** Of parameters that make a check, let the lowest bit of the
polynomial be set. Then messages of one length that differ only within the width of the check have
different checksums; in particular, so have two ranges that differ in one byte, in whatever words they
are read. -/
theorem Crc.detects_corruption {width : Nat} {params : CrcParams} {c : Crc}
    (h : Crc.ofParams width params = .ok c) (hodd : params.polynomial.toNat % 2 = 1) :
    (∀ xs ys : List UInt8, DifferWithin (width / 8) xs ys → c.checksum xs ≠ c.checksum ys) ∧
      ∀ (access : Nat) (swap : Bool) (data : List UInt8) (i : Nat) (hi : i < data.length)
        (byte : UInt8), byte ≠ data[i] →
        c.checksum (accessOrder access swap (data.set i byte)) ≠
          c.checksum (accessOrder access swap data) := by
  have hmade := Crc.made_of_ofParams h
  have hw := hmade.eight_le
  have hlow : c.polynomial.getLsbD 0 = true := by
    rw [hmade.polynomial, BitVec.getLsbD, UInt64.toNat_toBitVec, Nat.testBit_zero, hodd]
    rfl
  constructor
  · intro xs ys hdiffer
    obtain ⟨front, inner, inner', back, rfl, rfl, hlen, hsize, hne⟩ := hdiffer.split
    have hwidth := hmade.width
    exact c.checksum_ne_of_ne hw hlow hlen (by omega) hne
  · intro access swap data i hi byte hne
    obtain ⟨front, back, hsplit⟩ :=
      exists_accessOrder_split access swap (data.take i) (data.drop (i + 1))
    have hdata : data = data.take i ++ data[i] :: data.drop (i + 1) := by
      rw [← List.drop_eq_getElem_cons hi, List.take_append_drop]
    have hset : data.set i byte = data.take i ++ byte :: data.drop (i + 1) := by
      rw [List.set_eq_take_append_cons_drop, if_pos hi]
    have hfed := hsplit data[i]
    rw [← hdata, List.append_cons] at hfed
    rw [hset, hsplit byte, hfed, List.append_cons]
    have hone : ([byte] : List UInt8) ≠ [data[i]] := fun hsame => hne (List.singleton_inj.1 hsame)
    exact c.checksum_ne_of_ne hw hlow rfl (by rw [List.length_singleton]; omega) hone

namespace Specimen

def blottedDigits : List UInt8 :=
  [0x31, 0x32, 0x33, 0, 0, 0, 0, 0x38, 0x39]

theorem digits_differWithin : DifferWithin (32 / 8) digits blottedDigits := by
  have hinside : ∀ i < 9, i < 3 ∨ 3 + 32 / 8 ≤ i → digits[i]? = blottedDigits[i]? := by
    decide
  refine ⟨rfl, by decide, 3, fun i hi => ?_⟩
  by_cases hlt : i < 9
  · exact hinside i hlt hi
  · rw [List.getElem?_eq_none (Nat.le_of_not_lt hlt), List.getElem?_eq_none (Nat.le_of_not_lt hlt)]

theorem crc32_detects_corruption :
    Crc.ofParams 32 {} = .ok Crc.crc32 ∧ ({} : CrcParams).polynomial.toNat % 2 = 1 ∧
      DifferWithin (32 / 8) digits blottedDigits ∧
      Crc.crc32.checksum digits ≠ Crc.crc32.checksum blottedDigits ∧
      accessOrder 32 true digits = [0x34, 0x33, 0x32, 0x31, 0x38, 0x37, 0x36, 0x35, 0x39] ∧
      Crc.crc32.checksum (accessOrder 32 true (digits.set 8 0)) ≠
        Crc.crc32.checksum (accessOrder 32 true digits) := by
  have hmade : Crc.ofParams 32 {} = .ok Crc.crc32 := rfl
  have hodd : ({} : CrcParams).polynomial.toNat % 2 = 1 := by decide
  obtain ⟨hwindow, hbyte⟩ := Crc.detects_corruption hmade hodd
  have hrange := hbyte 32 true digits 8 (by decide) 0 (by decide)
  exact ⟨hmade, hodd, digits_differWithin, hwindow _ _ digits_differWithin, by decide +kernel,
    hrange⟩

end Specimen

end FlashParams
