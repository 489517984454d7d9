import FlashParams.Hex.Record
import FlashParams.Proofs.Number.Numeral
import FlashParams.Proofs.Text.Blank
import FlashParams.Proofs.Text.Split

/-!
# Reading a record undoes writing it

From the digit to the line. A byte is written as exactly two digits, whatever its value
(`writeByte_eq`); two digits read back as that byte; so bytes come back from their digits, and a record
from its line, as long as the number of its data bytes fits the one byte there is for it
(`Record.read_write`). The check byte is the same function of the same bytes on both sides, so nothing
about sums is needed.

A line consists of a colon and digits only. Readers cut and trim before they parse, and neither does
anything to such a line.
-/

set_option autoImplicit false

namespace FlashParams

/-! ## Digits -/

namespace Numeral

theorem digitChar_ne_plus {d : Nat} (h : d < 16) : digitChar d ≠ '+' := by
  have hall : ∀ d < 16, digitChar d ≠ '+' := by decide
  exact hall d h

theorem isBlank_digitChar {d : Nat} (h : d < 16) : Text.isBlank (digitChar d) = false := by
  have hall : ∀ d < 16, Text.isBlank (digitChar d) = false := by decide
  exact hall d h

end Numeral

namespace Hex

/-! ## Bytes -/

/-- A byte has two digits, also when the first of them is zero. With this, what is written of a byte is
two characters everywhere and padding is not looked at again. -/
theorem writeByte_eq (b : UInt8) :
    writeByte b = [Numeral.digitChar (b.toNat / 16), Numeral.digitChar (b.toNat % 16)] := by
  have hb : b.toNat < 256 := b.toNat_lt
  unfold writeByte Numeral.write
  by_cases hsmall : b.toNat < 16
  · rw [Numeral.digits_of_lt hsmall, Nat.div_eq_of_lt hsmall, Nat.mod_eq_of_lt hsmall]
    rfl
  · rw [Numeral.digits_of_lt_mul (by decide) (by omega) hb]
    rfl

theorem readByte?_digits {h l : Nat} (hh : h < 16) (hl : l < 16) :
    readByte? (Numeral.digitChar h) (Numeral.digitChar l) = some (UInt8.ofNat (16 * h + l)) := by
  unfold readByte?
  rw [if_neg (Numeral.digitChar_ne_plus hh), Numeral.digitOf?_digitChar hh,
    Numeral.digitOf?_digitChar hl]

theorem readBytes?_writeBytes (bytes : List UInt8) :
    readBytes? (writeBytes bytes) = some bytes := by
  induction bytes with
  | nil => rfl
  | cons b rest ih =>
    have hb : b.toNat < 256 := b.toNat_lt
    have hbyte : UInt8.ofNat (16 * (b.toNat / 16) + b.toNat % 16) = b := by
      rw [Nat.div_add_mod, UInt8.ofNat_toNat]
    have hcons : writeBytes (b :: rest) = Numeral.digitChar (b.toNat / 16) ::
        Numeral.digitChar (b.toNat % 16) :: writeBytes rest := by
      rw [writeBytes, List.flatMap_cons, writeByte_eq]
      rfl
    rw [hcons, readBytes?, readByte?_digits (by omega) (Nat.mod_lt _ (by decide)), ih, hbyte]

theorem isBlank_of_mem_writeBytes {bytes : List UInt8} :
    ∀ c ∈ writeBytes bytes, Text.isBlank c = false := by
  intro c hc
  obtain ⟨b, -, hc⟩ := List.mem_flatMap.1 hc
  have hb : b.toNat < 256 := b.toNat_lt
  rw [writeByte_eq] at hc
  rcases List.mem_cons.1 hc with rfl | hc
  · exact Numeral.isBlank_digitChar (by omega)
  · rw [List.mem_singleton.1 hc]
    exact Numeral.isBlank_digitChar (Nat.mod_lt _ (by decide))

/-! ## Records -/

theorem wordOf_wordBytes (w : UInt16) :
    wordOf (UInt8.ofNat (w.toNat / 256)) (UInt8.ofNat (w.toNat % 256)) = w := by
  have hw : w.toNat < 65536 := w.toNat_lt
  have hhigh : (UInt8.ofNat (w.toNat / 256)).toNat = w.toNat / 256 :=
    UInt8.toNat_ofNat_of_lt' (by simp only [UInt8.size]; omega)
  have hlow : (UInt8.ofNat (w.toNat % 256)).toNat = w.toNat % 256 :=
    UInt8.toNat_ofNat_of_lt' (by simp only [UInt8.size]; omega)
  rw [wordOf, hhigh, hlow, Nat.div_add_mod', UInt16.ofNat_toNat]

namespace Record

variable {r : Record}

/-- **Reading undoes writing**, for a record of any kind with no more data than one byte can count. -/
theorem read_write (line : Nat) (h : r.data.length < 256) : Record.read line r.write = .ok r := by
  have hcount : (UInt8.ofNat r.data.length).toNat = r.data.length :=
    UInt8.toNat_ofNat_of_lt' h
  have hbytes : r.body ++ [checkByteOf r.body] =
      UInt8.ofNat r.data.length :: UInt8.ofNat (r.address.toNat / 256) ::
        UInt8.ofNat (r.address.toNat % 256) :: r.kind :: (r.data ++ [checkByteOf r.body]) := rfl
  have hcheck : checkByteOf r.body = checkByteOf (UInt8.ofNat r.data.length ::
      UInt8.ofNat (r.address.toNat / 256) :: UInt8.ofNat (r.address.toNat % 256) :: r.kind ::
        r.data) := rfl
  -- digits first: what is left is a statement about bytes
  simp only [Record.write, Record.read, readBytes?_writeBytes]
  rw [hbytes]
  simp only [ofBytes, List.getLast?_concat, List.dropLast_concat]
  rw [hcount, if_neg (not_not_intro rfl), ← hcheck, if_neg (not_not_intro rfl), wordOf_wordBytes]

theorem write_ne_nil : r.write ≠ [] :=
  List.cons_ne_nil _ _

theorem isBlank_of_mem_write : ∀ c ∈ r.write, Text.isBlank c = false := by
  intro c hc
  rcases List.mem_cons.1 hc with rfl | hc
  · decide
  · exact isBlank_of_mem_writeBytes c hc

theorem trim_write : Text.trim r.write = r.write :=
  Text.trim_of_not_blank isBlank_of_mem_write

theorem newline_not_mem_write : ∀ c ∈ r.write, (c == '\n') = false := by
  intro c hc
  have hblank := isBlank_of_mem_write c hc
  refine beq_eq_false_iff_ne.2 fun e => ?_
  rw [e] at hblank
  exact absurd hblank (by decide)

end Record

end Hex

end FlashParams
