import Mathlib.Data.Nat.Digits.Defs
import FlashParams.Number.Integer
import FlashParams.Proofs.Number.Numeral

/-!
# How integers are spelled

An integer in writing is a sign that may be left out, a mark `0x` or none, and digits; its magnitude fits
a signed word of 128 bits (`Integer.Spelled`). White space around it and underscores in it do not count
(`Integer.bare`).

What is read as an integer is more than that, because the digits are read as a signed word and the sign
and the mark in front of them have been taken off before. So a second sign may stand directly in front of
the digits (`Integer.SignedTwice`). `Integer.parse?_exact_iff` says that this is all: every other text is
read as it is spelled or not at all. It also says where a value leaves the word. Only the bound itself
can, as the negative of the least word, and that takes two minus signs.

Each of the three readers takes one thing off the front, the sign, the mark, or the sign of the word, and
looks at nothing behind it. What it takes is a matter of the front alone as long as the rest does not
start with such a thing again (`Unsigned`, `Unmarked`).
-/

set_option autoImplicit false

namespace FlashParams

/-! ## Numerals -/

namespace Numeral

/-- Digits of a base, the first of them counting most, and the number they are the digits of. There is at
least one. The value is that of Mathlib's `Nat.ofDigits`, so what a numeral means does not come from the
reader. -/
def Spells (base : Nat) (s : List Char) (n : Nat) : Prop :=
  s ≠ [] ∧ ∃ ds, List.Forall₂ (fun c d => digitOf? base c = some d) s ds ∧
    n = Nat.ofDigits base ds.reverse

variable {base n : Nat} {s : List Char}

theorem readFrom?_eq_some_iff {acc : Nat} :
    readFrom? base acc s = some n ↔
      ∃ ds, List.Forall₂ (fun c d => digitOf? base c = some d) s ds ∧
        n = Nat.ofDigits base ds.reverse + base ^ ds.length * acc := by
  induction s generalizing acc with
  | nil =>
    constructor
    · intro h
      cases h
      exact ⟨[], .nil, by simp⟩
    · rintro ⟨ds, hds, rfl⟩
      cases hds
      simp [readFrom?]
  | cons c rest ih =>
    constructor
    · intro h
      rw [readFrom?] at h
      split at h
      · rename_i d hd
        obtain ⟨ds, hds, rfl⟩ := ih.1 h
        refine ⟨d :: ds, .cons hd hds, ?_⟩
        rw [Nat.ofDigits_reverse_cons, List.length_cons, pow_succ]
        ring
      · cases h
    · rintro ⟨ds, hds, rfl⟩
      cases hds with
      | @cons _ d _ ds hd hds =>
        rw [readFrom?, hd]
        refine ih.2 ⟨ds, hds, ?_⟩
        rw [Nat.ofDigits_reverse_cons, List.length_cons, pow_succ]
        ring

/-- A number is read exactly from its digits. Everything the readers accept is described through this,
and no proof about them goes back to their accumulator. -/
theorem read?_eq_some_iff : read? base s = some n ↔ Spells base s n := by
  cases s with
  | nil =>
    constructor
    · intro h
      cases h
    · rintro ⟨hne, -⟩
      exact absurd rfl hne
  | cons c rest =>
    rw [read?, readFrom?_eq_some_iff]
    simp [Spells]

theorem spells_digits (hbase : 2 ≤ base) {char : Nat → Char}
    (hchar : ∀ d < base, digitOf? base (char d) = some d) (n : Nat) :
    Spells base ((digits base n).map char) n :=
  read?_eq_some_iff.1 (read?_digits hbase hchar n)

theorem spells_hex (n : Nat) : Spells 16 (write 16 n) n :=
  spells_digits (by decide) (fun _ hd => digitOf?_digitChar hd) n

theorem spells_decimal (n : Nat) : Spells 10 (write 10 n) n :=
  spells_digits (by decide) (by decide) n

theorem Spells.exists_digit (h : Spells base s n) : ∀ c ∈ s, ∃ d, digitOf? base c = some d := by
  obtain ⟨-, ds, hds, -⟩ := h
  induction hds with
  | nil => exact List.forall_mem_nil _
  | cons hd _ ih => exact List.forall_mem_cons.2 ⟨⟨_, hd⟩, ih⟩

theorem Spells.isHexDigit (h : Spells base s n) : ∀ c ∈ s, IsHexDigit c := by
  intro c hc
  obtain ⟨d, hd⟩ := h.exists_digit c hc
  exact isHexDigit_of_digitOf? hd

end Numeral

namespace Integer

/-! ## Spellings -/

/-- What is left of a text when the white space around it and the underscores are gone. Both are taken
off before anything else, so underscores may stand anywhere, even in front of the sign. -/
def bare (t : String) : List Char :=
  (Text.trim t.toList).filter (· ≠ '_')

inductive Sign : List Char → Int → Prop where
  | none : Sign [] 1
  | plus : Sign ['+'] 1
  | minus : Sign ['-'] (-1)

inductive Mark : List Char → Nat → Prop where
  | decimal : Mark [] 10
  | lower : Mark ['0', 'x'] 16
  | upper : Mark ['0', 'X'] 16

def InWord (v : Int) : Prop :=
  -(wordBound : Int) ≤ v ∧ v < wordBound

/-- A sign that may be left out, a mark, and digits whose number is below the bound of the word. The
bound is the same for both signs, so the least word is not spelled, although a word can hold it. -/
inductive Spelled : List Char → Int → Prop where
  | intro {sign mark digits : List Char} {factor : Int} {base n : Nat} :
      Sign sign factor → Mark mark base → Numeral.Spells base digits n → n < wordBound →
      Spelled (sign ++ mark ++ digits) (factor * n)

/-- A sign directly in front of the digits and a sign or a mark in front of that. No documentation allows
it; it comes of reading the digits with a reader for signed words. -/
inductive SignedTwice : List Char → Int → Prop where
  | intro {outer mark inner digits : List Char} {f g : Int} {base n : Nat} :
      Sign outer f → Mark mark base → outer ++ mark ≠ [] → Sign inner g → inner ≠ [] →
      Numeral.Spells base digits n → InWord (g * n) →
      SignedTwice (outer ++ mark ++ inner ++ digits) (f * (g * n))

def Unsigned (s : List Char) : Prop :=
  ∀ rest, s ≠ '+' :: rest ∧ s ≠ '-' :: rest

def Unmarked (s : List Char) : Prop :=
  ∀ rest, s ≠ '0' :: 'x' :: rest ∧ s ≠ '0' :: 'X' :: rest

theorem wordBound_pos : 0 < wordBound :=
  Nat.two_pow_pos 127

/-! ## What comes first -/

theorem exists_sign (s : List Char) :
    ∃ sign f rest, Sign sign f ∧ s = sign ++ rest ∧ (sign = [] → Unsigned rest) := by
  by_cases hplus : ∃ rest, s = '+' :: rest
  · obtain ⟨rest, rfl⟩ := hplus
    exact ⟨['+'], 1, rest, .plus, rfl, nofun⟩
  by_cases hminus : ∃ rest, s = '-' :: rest
  · obtain ⟨rest, rfl⟩ := hminus
    exact ⟨['-'], -1, rest, .minus, rfl, nofun⟩
  have hunsigned : Unsigned s :=
    fun rest => ⟨fun h => hplus ⟨rest, h⟩, fun h => hminus ⟨rest, h⟩⟩
  exact ⟨[], 1, s, .none, rfl, fun _ => hunsigned⟩

theorem exists_mark (s : List Char) :
    ∃ mark base rest, Mark mark base ∧ s = mark ++ rest ∧ (mark = [] → Unmarked rest) := by
  by_cases hlower : ∃ rest, s = '0' :: 'x' :: rest
  · obtain ⟨rest, rfl⟩ := hlower
    exact ⟨['0', 'x'], 16, rest, .lower, rfl, nofun⟩
  by_cases hupper : ∃ rest, s = '0' :: 'X' :: rest
  · obtain ⟨rest, rfl⟩ := hupper
    exact ⟨['0', 'X'], 16, rest, .upper, rfl, nofun⟩
  have hunmarked : Unmarked s :=
    fun rest => ⟨fun h => hlower ⟨rest, h⟩, fun h => hupper ⟨rest, h⟩⟩
  exact ⟨[], 10, s, .decimal, rfl, fun _ => hunmarked⟩

section

variable {sign mark digits rest : List Char} {f v : Int} {base n : Nat}

theorem unsigned_of_spells (h : Numeral.Spells base digits n) : Unsigned digits := by
  intro rest
  constructor
  · rintro rfl
    exact absurd (h.isHexDigit '+' List.mem_cons_self) (by decide)
  · rintro rfl
    exact absurd (h.isHexDigit '-' List.mem_cons_self) (by decide)

theorem Mark.unsigned (hmark : Mark mark base) (h : mark = [] → Unsigned rest) :
    Unsigned (mark ++ rest) := by
  cases hmark with
  | decimal => exact h rfl
  | lower => intro rest; simp
  | upper => intro rest; simp

theorem Mark.unmarked (hmark : Mark mark base) (hsign : Sign sign f)
    (h : Numeral.Spells base digits n) (hnone : mark = []) : Unmarked (sign ++ digits) := by
  cases hmark with
  | lower => cases hnone
  | upper => cases hnone
  | decimal =>
    cases hsign with
    | plus => intro rest; simp
    | minus => intro rest; simp
    | none =>
      have hdigit := h.exists_digit
      intro rest
      constructor
      · rintro rfl
        obtain ⟨d, hd⟩ := hdigit 'x' (List.mem_cons_of_mem _ List.mem_cons_self)
        exact nomatch hd
      · rintro rfl
        obtain ⟨d, hd⟩ := hdigit 'X' (List.mem_cons_of_mem _ List.mem_cons_self)
        exact nomatch hd

/-! ## The three readers -/

theorem signed?_append (hsign : Sign sign f) (h : sign = [] → Unsigned rest) :
    signed? (sign ++ rest) = (magnitude? rest).map (f * ·) := by
  cases hsign with
  | none =>
    rw [List.nil_append, signed?]
    · simp
    · exact fun tail => (h rfl tail).2
    · exact fun tail => (h rfl tail).1
  | plus => simp [signed?]
  | minus => simp [signed?]

theorem magnitude?_append (hmark : Mark mark base) (h : mark = [] → Unmarked rest) :
    magnitude? (mark ++ rest) = word? base rest := by
  cases hmark with
  | decimal =>
    rw [List.nil_append, magnitude?]
    · exact fun tail => (h rfl tail).1
    · exact fun tail => (h rfl tail).2
  | lower => rfl
  | upper => rfl

theorem read?_within_iff {p : Nat → Prop} [DecidablePred p] {g : Nat → Int} :
    (match Numeral.read? base digits with
      | some n => if p n then some (g n) else none
      | none => none) = some v ↔ ∃ n, Numeral.Spells base digits n ∧ p n ∧ v = g n := by
  constructor
  · intro h
    split at h
    · rename_i n hn
      split at h
      · rename_i hp
        cases h
        exact ⟨n, Numeral.read?_eq_some_iff.1 hn, hp, rfl⟩
      · cases h
    · cases h
  · rintro ⟨n, hn, hp, rfl⟩
    rw [Numeral.read?_eq_some_iff.2 hn]
    exact if_pos hp

theorem word?_append (hsign : Sign sign f) (h : sign = [] → Unsigned digits) :
    word? base (sign ++ digits) = some v ↔
      ∃ n : Nat, Numeral.Spells base digits n ∧ InWord (f * n) ∧ v = f * n := by
  have hpos := wordBound_pos
  have hplus : ∀ n : Nat, InWord (1 * n) ↔ n < wordBound := by
    intro n
    unfold InWord
    omega
  have hminus : ∀ n : Nat, InWord (-1 * n) ↔ n ≤ wordBound := by
    intro n
    unfold InWord
    omega
  cases hsign with
  | none =>
    rw [List.nil_append, word?]
    · refine read?_within_iff.trans (exists_congr fun n => ?_)
      rw [hplus, Int.one_mul]
    · exact fun tail => (h rfl tail).2
    · exact fun tail => (h rfl tail).1
  | plus =>
    rw [List.singleton_append, word?]
    refine read?_within_iff.trans (exists_congr fun n => ?_)
    rw [hplus, Int.one_mul]
  | minus =>
    rw [List.singleton_append, word?]
    refine read?_within_iff.trans (exists_congr fun n => ?_)
    rw [hminus, Int.neg_one_mul]

end

/-! ## What is read -/

/-- What is read is spelled or signed twice. A lone sign is the outer one, so with a second sign there is
something in front of it. -/
theorem signed?_eq_some_iff {s : List Char} {v : Int} :
    signed? s = some v ↔ Spelled s v ∨ SignedTwice s v := by
  constructor
  · intro h
    obtain ⟨outer, f, rest, houter, rfl, hrest⟩ := exists_sign s
    rw [signed?_append houter hrest, Option.map_eq_some_iff] at h
    obtain ⟨m, hm, rfl⟩ := h
    obtain ⟨mark, base, rest, hmark, rfl, hmarked⟩ := exists_mark rest
    rw [magnitude?_append hmark hmarked] at hm
    obtain ⟨inner, g, digits, hinner, rfl, hdigits⟩ := exists_sign rest
    obtain ⟨n, hn, hword, rfl⟩ := (word?_append hinner hdigits).1 hm
    by_cases hnone : inner = []
    · left
      subst hnone
      cases hinner
      rw [Int.one_mul] at hword ⊢
      have hbound : n < wordBound := Int.ofNat_lt.1 hword.2
      simpa using Spelled.intro houter hmark hn hbound
    · right
      have hfront : outer ++ mark ≠ [] := by
        intro hempty
        obtain ⟨rfl, rfl⟩ := List.append_eq_nil_iff.1 hempty
        have hunsigned := hrest rfl
        cases hinner with
        | none => exact hnone rfl
        | plus => exact (hunsigned digits).1 rfl
        | minus => exact (hunsigned digits).2 rfl
      simpa using SignedTwice.intro houter hmark hfront hinner hnone hn hword
  · rintro (h | h)
    · cases h with
      | @intro sign mark digits f base n hsign hmark hdigits hn =>
        have hunsigned := unsigned_of_spells hdigits
        have hword : word? base digits = some (n : Int) := by
          refine (word?_append .none fun _ => hunsigned).2 ⟨n, hdigits, ?_, ?_⟩
          · unfold InWord
            omega
          · omega
        have hunmarked : mark = [] → Unmarked digits := hmark.unmarked .none hdigits
        rw [List.append_assoc, signed?_append hsign fun _ => hmark.unsigned fun _ => hunsigned,
          magnitude?_append hmark hunmarked, hword]
        rfl
    · cases h with
      | @intro outer mark inner digits f g base n houter hmark hne hinner hsecond hdigits hword =>
        have hrest : outer = [] → Unsigned (mark ++ (inner ++ digits)) := by
          rintro rfl
          exact hmark.unsigned fun hnone => absurd hnone hne
        have hread := (word?_append hinner fun hnone => absurd hnone hsecond).2
          ⟨n, hdigits, hword, rfl⟩
        rw [List.append_assoc, List.append_assoc, signed?_append houter hrest,
          magnitude?_append hmark (hmark.unmarked hinner hdigits), hread]
        rfl

/-! ## Which of the two it is -/

/-- A sign stands behind the first character. It tells the two kinds apart without an argument about how
a text could be taken to pieces in another way. -/
def SignInside (s : List Char) : Prop :=
  '+' ∈ s.tail ∨ '-' ∈ s.tail

theorem Spelled.not_signInside {s : List Char} {v : Int} (h : Spelled s v) : ¬ SignInside s := by
  cases h with
  | @intro sign mark digits f base n hsign hmark hdigits hn =>
    have htail : ∀ c ∈ (sign ++ mark ++ digits).tail, c ∈ mark ++ digits := by
      intro c hc
      rw [List.append_assoc] at hc
      cases hsign with
      | none => exact List.mem_of_mem_tail hc
      | plus => exact hc
      | minus => exact hc
    have hclean : ∀ c ∈ mark ++ digits, c ≠ '+' ∧ c ≠ '-' := by
      refine List.forall_mem_append.2 ⟨?_, fun c hc => ?_⟩
      · cases hmark with
        | decimal => exact List.forall_mem_nil _
        | lower => simp
        | upper => simp
      · have hhex := hdigits.isHexDigit c hc
        constructor
        · rintro rfl
          exact absurd hhex (by decide)
        · rintro rfl
          exact absurd hhex (by decide)
    rintro (hplus | hminus)
    · exact (hclean _ (htail _ hplus)).1 rfl
    · exact (hclean _ (htail _ hminus)).2 rfl

theorem SignedTwice.signInside {s : List Char} {v : Int} (h : SignedTwice s v) : SignInside s := by
  cases h with
  | @intro outer mark inner digits f g base n _ _ hne hinner hsecond _ _ =>
    obtain ⟨c, front, hfront⟩ := List.exists_cons_of_ne_nil hne
    rw [hfront]
    cases hinner with
    | none => exact absurd rfl hsecond
    | plus => left; simp
    | minus => right; simp

theorem Spelled.inWord {s : List Char} {v : Int} (h : Spelled s v) : InWord v := by
  cases h with
  | intro hsign _ _ hn =>
    unfold InWord
    cases hsign with
    | none => omega
    | plus => omega
    | minus => omega

/-- Two minus signs in front of the bound, with a mark between them or none: the least word is negated,
and its negative is none. -/
def NegatesLeast (s : List Char) : Prop :=
  ∃ mark base digits, Mark mark base ∧ Numeral.Spells base digits wordBound ∧
    s = '-' :: (mark ++ '-' :: digits)

theorem SignedTwice.negatesLeast {s : List Char} {v : Int} (h : SignedTwice s v)
    (hv : ¬ InWord v) : NegatesLeast s := by
  cases h with
  | @intro outer mark inner digits f g base n houter hmark _ hinner _ hdigits hword =>
    unfold InWord at hv hword
    cases houter with
    | none => omega
    | plus => omega
    | minus =>
      cases hinner with
      | none => omega
      | plus => omega
      | minus =>
        obtain rfl : n = wordBound := by omega
        exact ⟨mark, base, digits, hmark, hdigits, by simp⟩

theorem NegatesLeast.signedTwice {s : List Char} (h : NegatesLeast s) :
    SignedTwice s wordBound := by
  obtain ⟨mark, base, digits, hmark, hdigits, rfl⟩ := h
  have hpos := wordBound_pos
  have hword : InWord (-1 * (wordBound : Int)) := by
    unfold InWord
    omega
  simpa using SignedTwice.intro .minus hmark (by simp) .minus (by simp) hdigits hword

/-! ## The reader that breaks off -/

theorem read_eq_number_iff {t : String} {v : Int} :
    read t = .number v ↔ parse? t = some v ∧ v < wordBound := by
  unfold read
  cases parse? t with
  | none => simp
  | some w =>
    by_cases hw : w < wordBound
    · simp only [if_pos hw, Reading.number.injEq, Option.some.injEq]
      exact ⟨fun h => ⟨h, h ▸ hw⟩, And.left⟩
    · simp only [if_neg hw, Option.some.injEq, reduceCtorEq, false_iff]
      rintro ⟨rfl, hv⟩
      exact hw hv

theorem read_of_spelled {t : String} {v : Int} (h : Spelled (bare t) v) : read t = .number v :=
  read_eq_number_iff.2 ⟨signed?_eq_some_iff.2 (.inl h), h.inWord.2⟩

/-- The reader breaks off on the texts that negate the least word and on no others: what is spelled is
below the bound, and of two signs only two minus signs come up to it. -/
theorem read_eq_leavesWord_iff {t : String} :
    read t = .leavesWord ↔ NegatesLeast (bare t) := by
  have hreach : read t = .leavesWord ↔ ∃ v, parse? t = some v ∧ (wordBound : Int) ≤ v := by
    unfold read
    cases parse? t with
    | none => simp
    | some v =>
      by_cases hv : v < wordBound
      · simp [hv]
      · simpa [hv] using Int.not_lt.1 hv
  rw [hreach]
  constructor
  · rintro ⟨v, hv, hlarge⟩
    have hout : ¬ InWord v := fun hword => Int.not_lt.2 hlarge hword.2
    rcases signed?_eq_some_iff.1 hv with hspelled | htwice
    · exact absurd hspelled.inWord hout
    · exact htwice.negatesLeast hout
  · intro h
    exact ⟨wordBound, signed?_eq_some_iff.2 (.inr h.signedTwice), Int.le_refl _⟩

/-- **What is read as an integer.** A text is read as it is spelled or, when it has a second sign, as signed
twice; it is treated as spelling has it exactly when it is not of the second kind. The value is one of the
word unless the least word is negated. -/
theorem parse?_exact_iff (t : String) :
    (∀ v, parse? t = some v ↔ Spelled (bare t) v ∨ SignedTwice (bare t) v) ∧
      ((∀ v, parse? t = some v ↔ Spelled (bare t) v) ↔ ¬ ∃ v, SignedTwice (bare t) v) ∧
      ((∃ v, parse? t = some v ∧ ¬ InWord v) ↔ NegatesLeast (bare t)) := by
  have hread : ∀ v, parse? t = some v ↔ Spelled (bare t) v ∨ SignedTwice (bare t) v :=
    fun v => signed?_eq_some_iff
  refine ⟨hread, ⟨?_, ?_⟩, ?_, ?_⟩
  · rintro h ⟨v, htwice⟩
    have hspelled := (h v).1 ((hread v).2 (.inr htwice))
    exact hspelled.not_signInside htwice.signInside
  · intro h v
    rw [hread]
    exact or_iff_left fun htwice => h ⟨v, htwice⟩
  · rintro ⟨v, hv, hout⟩
    rcases (hread v).1 hv with hspelled | htwice
    · exact absurd hspelled.inWord hout
    · exact htwice.negatesLeast hout
  · intro h
    refine ⟨wordBound, (hread _).2 (.inr h.signedTwice), fun hword => ?_⟩
    exact absurd hword.2 (Int.lt_irrefl _)

end Integer

namespace Specimen

/-- The first sign is taken off, and the second is read with the digits: two of them make the number
positive again. -/
theorem minusMinusOne_read_not_spelled :
    Integer.parse? "--1" = some 1 ∧ ¬ ∃ v, Integer.Spelled (Integer.bare "--1") v := by
  refine ⟨by decide, ?_⟩
  rintro ⟨v, hv⟩
  exact hv.not_signInside (.inr (by decide))

end Specimen

end FlashParams
