import FlashParams.Proofs.Hex.Damage

/-!
# The grammar of a record

`Record.Spelled` says which lines are records without saying how a line is read: a colon, pairs of
hexadecimal digits, a first byte that counts the data, bytes that add up to zero. The digits alone decide
what the record is.

The reader follows this grammar with one exception. A plus sign in front of a digit is let through as if
it were a zero, so what it accepts is spelled only once these signs are replaced
(`Record.read_eq_ok_iff`). `Record.read_exact_iff` says that nothing else differs: a line is treated as
the grammar has it exactly when it does not become a record by that replacement.
-/

set_option autoImplicit false

namespace FlashParams

namespace Hex

/-! ## Lines that are records -/

inductive Pairs : List Char → List UInt8 → Prop where
  | nil : Pairs [] []
  | cons {high low : Char} {h l : Nat} {digits : List Char} {bytes : List UInt8} :
      Numeral.digitOf? 16 high = some h → Numeral.digitOf? 16 low = some l → Pairs digits bytes →
      Pairs (high :: low :: digits) (UInt8.ofNat (16 * h + l) :: bytes)

/-- A line in which a record is written: count, address with the high byte first, type, data and check
byte. The count is that of the data, and all bytes add up to zero modulo 256. -/
inductive Record.Spelled : List Char → Record → Prop where
  | line {digits : List Char} {count high low kind check : UInt8} {data : List UInt8} :
      Pairs digits (count :: high :: low :: kind :: (data ++ [check])) →
      count.toNat = data.length →
      (count :: high :: low :: kind :: (data ++ [check])).sum = 0 →
      Record.Spelled (':' :: digits) ⟨wordOf high low, kind, data⟩

def zeroForPlus : List Char → List Char
  | high :: low :: rest => (if high = '+' then '0' else high) :: low :: zeroForPlus rest
  | rest => rest

/-- A line that is spelled once the plus signs in front in their pairs are zeros. This is the reader's
language said without the reader: the grammar, and one substitution. -/
def Record.SpelledWithPlus (s : List Char) (r : Record) : Prop :=
  ∃ digits, s = ':' :: digits ∧ Record.Spelled (':' :: zeroForPlus digits) r

/-! ## Digits -/

namespace Pairs

variable {digits : List Char} {bytes : List UInt8}

theorem length_eq (h : Pairs digits bytes) : digits.length = 2 * bytes.length := by
  induction h with
  | nil => rfl
  | cons _ _ _ ih =>
    rw [List.length_cons, List.length_cons, List.length_cons, ih]
    omega

theorem isHexDigit (h : Pairs digits bytes) : ∀ c ∈ digits, Numeral.IsHexDigit c := by
  induction h with
  | nil => exact List.forall_mem_nil _
  | cons hhigh hlow _ ih =>
    exact List.forall_mem_cons.2 ⟨Numeral.isHexDigit_of_digitOf? hhigh,
      List.forall_mem_cons.2 ⟨Numeral.isHexDigit_of_digitOf? hlow, ih⟩⟩

end Pairs

/-- **What a spelled line looks like**: a colon and an even number of hexadecimal digits, ten at least.
In particular no plus sign is in it, which is what tells the two languages apart. -/
theorem Record.Spelled.digits {s : List Char} {r : Record} (h : Record.Spelled s r) :
    ∃ digits, s = ':' :: digits ∧ digits.length = 2 * (r.data.length + 5) ∧
      ∀ c ∈ digits, Numeral.IsHexDigit c := by
  cases h with
  | @line digits count high low kind check data hpairs _ _ =>
    refine ⟨digits, rfl, ?_, hpairs.isHexDigit⟩
    rw [hpairs.length_eq]
    simp only [List.length_cons, List.length_append, List.length_nil]

theorem Record.Spelled.plus_not_mem {s : List Char} {r : Record} (h : Record.Spelled s r) :
    '+' ∉ s := by
  obtain ⟨digits, rfl, -, hdigits⟩ := h.digits
  intro hmem
  rcases List.mem_cons.1 hmem with hcolon | hmem
  · exact absurd hcolon (by decide)
  · exact absurd (hdigits _ hmem) (by decide)

theorem zeroForPlus_of_not_mem : ∀ {digits : List Char}, '+' ∉ digits → zeroForPlus digits = digits
  | [], _ => rfl
  | [_], _ => rfl
  | high :: low :: rest, h => by
    have hhigh : high ≠ '+' := fun e => h (e ▸ List.mem_cons_self)
    have hrest : '+' ∉ rest := fun hmem => h (List.mem_cons_of_mem _ (List.mem_cons_of_mem _ hmem))
    rw [zeroForPlus, if_neg hhigh, zeroForPlus_of_not_mem hrest]

/-! ## What the reader takes -/

theorem readByte?_eq_some_iff {high low : Char} {b : UInt8} :
    readByte? high low = some b ↔
      ∃ h l, Numeral.digitOf? 16 (if high = '+' then '0' else high) = some h ∧
        Numeral.digitOf? 16 low = some l ∧ b = UInt8.ofNat (16 * h + l) := by
  have hzero : Numeral.digitOf? 16 '0' = some 0 := by decide
  have hupper : (if high = '+' then some 0 else Numeral.digitOf? 16 high) =
      Numeral.digitOf? 16 (if high = '+' then '0' else high) := by
    split
    · exact hzero.symm
    · rfl
  unfold readByte?
  dsimp only
  rw [hupper]
  cases hhigh : Numeral.digitOf? 16 (if high = '+' then '0' else high) with
  | none => exact ⟨nofun, nofun⟩
  | some h =>
    cases hlow : Numeral.digitOf? 16 low with
    | none => exact ⟨nofun, nofun⟩
    | some l =>
      constructor
      · intro hb
        cases hb
        exact ⟨h, l, rfl, rfl, rfl⟩
      · rintro ⟨_, _, hh, hl, rfl⟩
        cases hh
        cases hl
        rfl

theorem readBytes?_eq_some_iff :
    ∀ {digits : List Char} {bytes : List UInt8},
      readBytes? digits = some bytes ↔ Pairs (zeroForPlus digits) bytes
  | [], bytes => by
    constructor
    · intro h
      cases h
      exact .nil
    · intro h
      cases h
      rfl
  | [_], bytes => by
    constructor
    · intro h
      cases h
    · intro h
      cases h
  | high :: low :: rest, bytes => by
    constructor
    · intro h
      rw [readBytes?] at h
      split at h
      · rename_i b others hbyte hothers
        cases h
        obtain ⟨h, l, hhigh, hlow, rfl⟩ := readByte?_eq_some_iff.1 hbyte
        exact .cons hhigh hlow (readBytes?_eq_some_iff.1 hothers)
      · cases h
    · intro h
      cases h with
      | cons hhigh hlow hrest =>
        rw [readBytes?, readByte?_eq_some_iff.2 ⟨_, _, hhigh, hlow, rfl⟩,
          readBytes?_eq_some_iff.2 hrest]

namespace Record

variable {line : Nat} {s : List Char} {r : Record}

theorem ofBytes_eq_ok_iff {bytes : List UInt8} :
    ofBytes line bytes = .ok r ↔
      ∃ count high low kind data check, bytes = count :: high :: low :: kind :: (data ++ [check]) ∧
        count.toNat = data.length ∧ bytes.sum = 0 ∧ r = ⟨wordOf high low, kind, data⟩ := by
  constructor
  · intro h
    have hsum := sum_of_ofBytes h
    unfold ofBytes at h
    split at h
    · rename_i count high low kind rest
      dsimp only at h
      split at h
      · cases h
      · rename_i found hlast
        obtain ⟨data, rfl⟩ := List.getLast?_eq_some_iff.1 hlast
        split at h
        · cases h
        · rename_i hcount
          split at h
          · cases h
          · cases h
            rw [List.dropLast_concat, Decidable.not_not] at hcount
            rw [List.dropLast_concat]
            exact ⟨count, high, low, kind, data, found, rfl, hcount, hsum, rfl⟩
    · cases h
  · rintro ⟨count, high, low, kind, data, check, rfl, hcount, hsum, rfl⟩
    -- the sum is zero, so the last byte is the one that completes it
    have hcheck : check = checkByteOf (count :: high :: low :: kind :: data) := by
      have hsplit : count :: high :: low :: kind :: (data ++ [check]) =
          (count :: high :: low :: kind :: data) ++ [check] := rfl
      rw [hsplit, List.sum_append, List.sum_singleton] at hsum
      rw [checkByteOf_eq]
      exact eq_neg_of_add_eq_zero_right hsum
    simp only [ofBytes, List.getLast?_concat, List.dropLast_concat]
    rw [if_neg (not_not_intro hcount), if_neg (not_not_intro hcheck)]

/-- **A line is accepted exactly if it is spelled once its plus signs are zeros.** The reader of a byte
takes a sign for the first of its two digits, and that is the only way in which it departs from the
grammar. -/
theorem read_eq_ok_iff : Record.read line s = .ok r ↔ SpelledWithPlus s r := by
  constructor
  · intro h
    obtain ⟨digits, bytes, rfl, hbytes, hitem⟩ := exists_bytes_of_read h
    obtain ⟨count, high, low, kind, data, check, rfl, hcount, hsum, rfl⟩ :=
      ofBytes_eq_ok_iff.1 hitem
    exact ⟨digits, rfl, .line (readBytes?_eq_some_iff.1 hbytes) hcount hsum⟩
  · rintro ⟨digits, rfl, h⟩
    cases h with
    | line hpairs hcount hsum =>
      rw [Record.read, readBytes?_eq_some_iff.2 hpairs]
      exact ofBytes_eq_ok_iff.2 ⟨_, _, _, _, _, _, rfl, hcount, hsum, rfl⟩

theorem Spelled.withPlus (h : Spelled s r) : SpelledWithPlus s r := by
  obtain ⟨digits, rfl, -, -⟩ := h.digits
  have hplus : '+' ∉ digits := fun hmem => h.plus_not_mem (List.mem_cons_of_mem _ hmem)
  exact ⟨digits, rfl, (zeroForPlus_of_not_mem hplus).symm ▸ h⟩

theorem SpelledWithPlus.spelled (h : SpelledWithPlus s r) (hplus : '+' ∉ s) : Spelled s r := by
  obtain ⟨digits, rfl, hdigits⟩ := h
  rwa [zeroForPlus_of_not_mem fun hmem => hplus (List.mem_cons_of_mem _ hmem)] at hdigits

theorem plus_not_mem_write : '+' ∉ r.write := by
  intro hmem
  rcases List.mem_cons.1 hmem with hcolon | hmem
  · exact absurd hcolon (by decide)
  obtain ⟨b, -, hb⟩ := List.mem_flatMap.1 hmem
  have hlt : b.toNat < 256 := b.toNat_lt
  rw [writeByte_eq] at hb
  rcases List.mem_cons.1 hb with hhigh | hb
  · exact Numeral.digitChar_ne_plus (by omega) hhigh.symm
  · exact Numeral.digitChar_ne_plus (by omega) (List.mem_singleton.1 hb).symm

/-- What is written is spelled, so the reader's leniency towards plus signs is never needed for its own
files. -/
theorem spelled_write (h : r.data.length < 256) : Spelled r.write r :=
  (read_eq_ok_iff.1 (read_write 0 h)).spelled plus_not_mem_write

/-- **The reader accepts the lines of the grammar and those that a plus sign for a zero keeps from it.** The
record is that of the digits in both cases. A line is treated as the grammar has it exactly when it is not
of the second kind. -/
theorem read_exact_iff (line : Nat) (s : List Char) :
    (∀ r, Record.read line s = .ok r ↔ SpelledWithPlus s r) ∧
      ((∀ r, Record.read line s = .ok r ↔ Spelled s r) ↔
        ¬ ∃ r, '+' ∈ s ∧ SpelledWithPlus s r) := by
  refine ⟨fun r => read_eq_ok_iff, ?_⟩
  constructor
  · rintro h ⟨r, hplus, hr⟩
    exact ((h r).1 (read_eq_ok_iff.2 hr)).plus_not_mem hplus
  · intro h r
    rw [read_eq_ok_iff]
    refine ⟨fun hr => hr.spelled fun hplus => h ⟨r, hplus, hr⟩, Spelled.withPlus⟩

end Record

end Hex

namespace Specimen

def signedEnd : List Char :=
  ":000000+1FF".toList

/-- The kind of the record is written as a plus sign and one digit, where two digits should be. It is read
as one, the sum comes out, and so a line that no writer would produce ends the file. -/
theorem signedEnd_read_not_spelled :
    Hex.Record.read 1 signedEnd = .ok Hex.endRecord ∧
      ¬ ∃ r, Hex.Record.Spelled signedEnd r := by
  refine ⟨by decide, ?_⟩
  rintro ⟨r, hr⟩
  exact hr.plus_not_mem (by decide)

end Specimen

end FlashParams
