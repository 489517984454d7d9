import FlashParams.Number.Numeral
import FlashParams.Text.Blank
import Mathlib.Algebra.Group.Nat.Defs

/-!
# Numerals read back

Writing divides and reading multiplies, so the two meet digit by digit from the end: what reads the
front of a numeral as `n / base` reads all of it as `n` (`readFrom?_append`). The statement is about
any way of writing the digits that reading takes for them, since numerals are written with letters in
both cases.
-/

set_option autoImplicit false

namespace FlashParams.Numeral

theorem digits_of_lt {base n : Nat} (h : n < base) : digits base n = [n] := by
  rw [digits, if_pos (.inr h)]

theorem digits_of_ge {base n : Nat} (hbase : 2 ≤ base) (h : base ≤ n) :
    digits base n = digits base (n / base) ++ [n % base] := by
  rw [digits, if_neg (by omega)]

theorem digits_of_lt_mul {base n : Nat} (hbase : 2 ≤ base) (hlow : base ≤ n)
    (hhigh : n < base * base) : digits base n = [n / base, n % base] := by
  rw [digits_of_ge hbase hlow, digits_of_lt (Nat.div_lt_of_lt_mul hhigh)]
  rfl

theorem digits_ne_nil (base n : Nat) : digits base n ≠ [] := by
  rw [digits]
  split
  · exact List.cons_ne_nil _ _
  · exact List.append_ne_nil_of_right_ne_nil _ (List.cons_ne_nil _ _)

def IsHexDigit (c : Char) : Prop :=
  ('0' ≤ c ∧ c ≤ '9') ∨ ('a' ≤ c ∧ c ≤ 'f') ∨ ('A' ≤ c ∧ c ≤ 'F')

instance (c : Char) : Decidable (IsHexDigit c) :=
  inferInstanceAs (Decidable (_ ∨ _))

theorem isHexDigit_of_digitOf? {base d : Nat} {c : Char} (h : digitOf? base c = some d) :
    IsHexDigit c := by
  unfold digitOf? digitValue? at h
  split at h
  · rename_i hvalue
    split at hvalue
    · rename_i hrange
      exact .inl hrange
    split at hvalue
    · rename_i hrange
      exact .inr (.inl hrange)
    split at hvalue
    · rename_i hrange
      exact .inr (.inr hrange)
    · cases hvalue
  · cases h

theorem isBlank_of_digitOf? {base d : Nat} {c : Char} (h : digitOf? base c = some d) :
    Text.isBlank c = false := by
  have hcode : (48 ≤ c.toNat ∧ c.toNat ≤ 57) ∨ (97 ≤ c.toNat ∧ c.toNat ≤ 102) ∨
      (65 ≤ c.toNat ∧ c.toNat ≤ 70) := isHexDigit_of_digitOf? h
  exact Text.isBlank_of_visible (by omega) (by omega)

theorem digitOf?_digitChar {d : Nat} (h : d < 16) : digitOf? 16 (digitChar d) = some d := by
  have hall : ∀ d < 16, digitOf? 16 (digitChar d) = some d := by decide
  exact hall d h

theorem digitOf?_toLower {d : Nat} (h : d < 16) :
    digitOf? 16 (digitChar d).toLower = some d := by
  have hall : ∀ d < 16, digitOf? 16 (digitChar d).toLower = some d := by decide
  exact hall d h

theorem readFrom?_append (base : Nat) : ∀ (s t : List Char) (acc : Nat),
    readFrom? base acc (s ++ t) = (readFrom? base acc s).bind (readFrom? base · t)
  | [], _, _ => rfl
  | c :: s, t, acc => by
    rw [List.cons_append, readFrom?, readFrom?]
    cases digitOf? base c with
    | none => rfl
    | some d => exact readFrom?_append base s t _

theorem readFrom?_singleton {base : Nat} {c : Char} {d : Nat} (h : digitOf? base c = some d)
    (acc : Nat) : readFrom? base acc [c] = some (acc * base + d) := by
  rw [readFrom?, h]
  rfl

/-- **Reading undoes writing**, however the digits are written: in either case, and with zeros in front. -/
theorem read?_digits {base : Nat} (hbase : 2 ≤ base) {char : Nat → Char}
    (hchar : ∀ d < base, digitOf? base (char d) = some d) (n : Nat) :
    read? base ((digits base n).map char) = some n := by
  have hfrom : readFrom? base 0 ((digits base n).map char) = some n := by
    induction n using Nat.strongRecOn with
    | ind n ih =>
      by_cases h : n < base
      · rw [digits_of_lt h, List.map_singleton, readFrom?_singleton (hchar n h), Nat.zero_mul,
          Nat.zero_add]
      · have hlast := hchar (n % base) (Nat.mod_lt n (by omega))
        have hfront := ih (n / base) (Nat.div_lt_self (by omega) hbase)
        rw [digits_of_ge hbase (Nat.not_lt.1 h), List.map_append, List.map_singleton,
          readFrom?_append, hfront, Option.bind_some, readFrom?_singleton hlast,
          Nat.mul_comm, Nat.div_add_mod]
  obtain ⟨d, rest, hdigits⟩ := List.exists_cons_of_ne_nil (digits_ne_nil base n)
  rw [hdigits] at hfrom ⊢
  exact hfrom

theorem read?_write (n : Nat) : read? 10 (write 10 n) = some n :=
  read?_digits (by decide) (by decide) n

theorem read?_of_ne_nil {base : Nat} {s : List Char} (h : s ≠ []) : read? base s = readFrom? base 0 s := by
  obtain ⟨c, rest, rfl⟩ := List.exists_cons_of_ne_nil h
  rfl

theorem write_ne_nil (base n : Nat) : write base n ≠ [] :=
  mt List.map_eq_nil_iff.1 (digits_ne_nil base n)

theorem readFrom?_write (n : Nat) : readFrom? 10 0 (write 10 n) = some n := by
  rw [← read?_of_ne_nil (write_ne_nil 10 n), read?_write]

/-- What stands in front counts as often as there are digits behind it. The accumulator of the reader is
taken out of it here, and later proofs are about numerals only. -/
theorem readFrom?_eq_map (base : Nat) : ∀ (s : List Char) (acc : Nat),
    readFrom? base acc s = (readFrom? base 0 s).map (acc * base ^ s.length + ·)
  | [], acc => by simp [readFrom?]
  | c :: s, acc => by
    rw [readFrom?, readFrom?]
    cases digitOf? base c with
    | none => rfl
    | some d =>
      dsimp only
      rw [readFrom?_eq_map base s (acc * base + d), readFrom?_eq_map base s (0 * base + d),
        Option.map_map]
      congr 1
      funext n
      rw [Function.comp_apply, List.length_cons, Nat.pow_succ, Nat.zero_mul, Nat.zero_add, Nat.add_mul,
        Nat.add_assoc, Nat.mul_assoc, Nat.mul_comm base]

theorem readFrom?_padStart {base : Nat} (hbase : 0 < base) (width : Nat) (s : List Char) :
    readFrom? base 0 (padStart width '0' s) = readFrom? base 0 s := by
  have hzero : digitOf? base '0' = some 0 := if_pos hbase
  have hzeros : ∀ n, readFrom? base 0 (List.replicate n '0') = some 0 := by
    intro n
    induction n with
    | zero => rfl
    | succ n ih => rwa [List.replicate_succ, readFrom?, hzero, Nat.zero_mul]
  rw [padStart, readFrom?_append, hzeros]
  rfl

theorem length_digits_le {base width n : Nat} (hbase : 2 ≤ base) (hn : n < base ^ (width + 1)) :
    (digits base n).length ≤ width + 1 := by
  induction width generalizing n with
  | zero =>
    rw [digits_of_lt (by simpa using hn)]
    exact Nat.le_refl 1
  | succ width ih =>
    rcases Nat.lt_or_ge n base with hlt | hge
    · rw [digits_of_lt hlt]
      exact Nat.le_add_left 1 _
    · rw [digits_of_ge hbase hge, List.length_append, List.length_singleton]
      exact Nat.succ_le_succ (ih (Nat.div_lt_of_lt_mul (by rwa [Nat.pow_succ, Nat.mul_comm] at hn)))

theorem length_padStart {width : Nat} {s : List Char} (fill : Char) (h : s.length ≤ width) :
    (padStart width fill s).length = width := by
  rw [padStart, List.length_append, List.length_replicate, Nat.sub_add_cancel h]

theorem not_mem_write {c : Char} (h : ∀ d, digitChar d ≠ c) (base n : Nat) : c ∉ write base n := by
  rintro hc
  obtain ⟨d, -, hd⟩ := List.mem_map.1 hc
  exact h d hd

theorem digitChar_ne_point (d : Nat) : digitChar d ≠ '.' := by
  unfold digitChar
  split <;> decide

theorem digitChar_ne_minus (d : Nat) : digitChar d ≠ '-' := by
  unfold digitChar
  split <;> decide

end FlashParams.Numeral
