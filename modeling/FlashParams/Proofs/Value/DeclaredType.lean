import FlashParams.Proofs.Number.Spelling
import FlashParams.Proofs.Text.Blank
import FlashParams.Proofs.Text.Split
import FlashParams.Value.DeclaredType
import Mathlib.Data.List.Basic

/-!
# How types are written

A type has one printed form and many written ones. White space may stand around the whole, around the
base in front of the bracket and around the length, the letters of the base may be in either case, and
the length may have a plus sign and leading zeros. `DeclaredType.Spelled` says so once for all types,
by what they have in common: a base and a length that may be missing.

The reader takes such a text apart from the outside. Each of its steps has a lemma that says exactly
what it takes (`withBase_eq_ok_iff`, `readLength?_eq_some_iff`), and together they say that a text is
read as a type if and only if it is written in a form of it (`ofText_eq_ok_iff`). Nothing in the base
can be mistaken for the bracket or for white space, since all that a letter can be folded from is a
letter (`clean_of_foldCase`).

The printed form is one of the written forms, so what has been read can be printed and read again.
-/

set_option autoImplicit false

namespace FlashParams

namespace DeclaredType

/-! ## Base and length -/

def base : DeclaredType → String
  | scalar element | array element _ => element.name
  | text _ => "utf8"

def length? : DeclaredType → Option Nat
  | scalar _ => none
  | array _ count => some count
  | text size => size

def Declarable (t : DeclaredType) : Prop :=
  ∀ n ∈ t.length?, 1 ≤ n ∧ n ≤ greatestLength

theorem toList_name (t : DeclaredType) :
    t.name.toList = t.base.toList ++
      match t.length? with
      | some n => '[' :: (Numeral.write 10 n ++ [']'])
      | none => [] := by
  cases t with
  | scalar element => exact (List.append_nil _).symm
  | array element count => simp [name, base, length?, Numeral.decimal]
  | text size =>
    cases size with
    | none => rfl
    | some size => simp [name, base, length?, Numeral.decimal]

/-! ## Written forms -/

inductive SpelledLength : List Char → Nat → Prop where
  | intro {s sign digits : List Char} {n : Nat} :
      Text.Padded s (sign ++ digits) → sign = [] ∨ sign = ['+'] → Numeral.Spells 10 digits n →
      n ≤ greatestLength → SpelledLength s n

/-- A type in writing. White space may stand around the whole, around the word and around the length, and
the case of letters does not count; the relation says it without the order in which the reader takes it
off. -/
inductive Spelled (t : DeclaredType) : List Char → Prop where
  | plain {s word : List Char} : t.length? = none → Text.Padded s word →
      Text.foldCase word = t.base.toList → Spelled t s
  | sized {s front word length : List Char} {n : Nat} : t.length? = some n →
      Text.Padded s (front ++ '[' :: (length ++ [']'])) → Text.Padded front word →
      Text.foldCase word = t.base.toList → SpelledLength length n → 1 ≤ n → Spelled t s

/-! ## The characters of a base -/

theorem base_mem (t : DeclaredType) : t.base ∈ "utf8" :: Scalar.all.map (·.name) := by
  cases t with
  | scalar element => exact List.mem_cons_of_mem _ (List.mem_map_of_mem element.mem_all)
  | array element count => exact List.mem_cons_of_mem _ (List.mem_map_of_mem element.mem_all)
  | text size => exact List.mem_cons_self

theorem clean_base (t : DeclaredType) :
    t.base.toList ≠ [] ∧ Text.foldCase t.base.toList = t.base.toList ∧
      ∀ c ∈ t.base.toList, Text.isBlank c = false ∧ c ≠ '[' := by
  have hall : ∀ base ∈ "utf8" :: Scalar.all.map (·.name),
      base.toList ≠ [] ∧ Text.foldCase base.toList = base.toList ∧
        base.toList.all (fun c => !Text.isBlank c && c != '[') = true := by decide
  obtain ⟨hne, hfold, hclean⟩ := hall t.base t.base_mem
  refine ⟨hne, hfold, fun c hc => ?_⟩
  simpa using List.all_eq_true.1 hclean c hc

/-- A base in any case has no white space and no bracket: folding leaves these as they are, so they would
be in the base. So the first bracket of a text is the one of the length. -/
theorem clean_of_foldCase {t : DeclaredType} {word : List Char}
    (h : Text.foldCase word = t.base.toList) :
    word ≠ [] ∧ (∀ c ∈ word, Text.isBlank c = false) ∧ '[' ∉ word := by
  obtain ⟨hne, -, hclean⟩ := t.clean_base
  have hfolded : ∀ c ∈ word, Text.isBlank c.toLower = false ∧ c.toLower ≠ '[' := fun c hc =>
    hclean _ (h ▸ List.mem_map_of_mem hc)
  refine ⟨?_, fun c hc => ?_, fun hmem => (hfolded _ hmem).2 rfl⟩
  · rintro rfl
    exact hne h.symm
  · by_contra hblank
    rw [Bool.not_eq_false] at hblank
    have hnot := (hfolded c hc).1
    rw [Text.toLower_of_isBlank hblank, hblank] at hnot
    cases hnot

/-! ## The steps of the reader -/

theorem readLength?_eq_some_iff {s : List Char} {n : Nat} :
    readLength? s = some n ↔ SpelledLength s n := by
  constructor
  · intro h
    unfold readLength? at h
    dsimp only at h
    split at h
    · rename_i m hread
      split at h
      · rename_i hle
        cases h
        have hpadded := Text.padded_trim s
        split at hread
        · rename_i rest htrim
          rw [htrim] at hpadded
          exact .intro hpadded (.inr rfl) (Numeral.read?_eq_some_iff.1 hread) hle
        · have hplain : Text.Padded s ([] ++ Text.trim s) := hpadded
          exact .intro hplain (.inl rfl) (Numeral.read?_eq_some_iff.1 hread) hle
      · cases h
    · cases h
  · rintro ⟨hpadded, hsign, hdigits, hle⟩
    have hread := Numeral.read?_eq_some_iff.2 hdigits
    have hclean : ∀ c ∈ _, Text.isBlank c = false := fun c hc => by
      obtain ⟨d, hd⟩ := hdigits.exists_digit c hc
      exact Numeral.isBlank_of_digitOf? hd
    rcases hsign with rfl | rfl
    · have htrim := hpadded.trim_eq_of_clean hclean
      -- no digit is a plus sign, so the digits are not taken for signed ones
      have hunsigned := fun rest => (Integer.unsigned_of_spells hdigits rest).1
      simp only [readLength?, htrim, List.nil_append, hread, if_pos hle]
    · have htrim := hpadded.trim_eq_of_clean (List.forall_mem_cons.2 ⟨by decide, hclean⟩)
      simp only [readLength?, htrim, List.singleton_append, hread, if_pos hle]

theorem ofText?_eq_some_iff {s : List Char} {e : Scalar} :
    Scalar.ofText? s = some e ↔ Text.foldCase (Text.trim s) = e.name.toList := by
  constructor
  · intro h
    unfold Scalar.ofText? at h
    have hname := List.find?_some h
    rw [of_decide_eq_true hname, String.toList_ofList]
  · intro h
    have hfind : ∀ e ∈ Scalar.all, Scalar.all.find? (fun t => t.name = e.name) = some e := by decide
    unfold Scalar.ofText?
    dsimp only
    rw [h, String.ofList_toList]
    exact hfind e e.mem_all

theorem withBase_eq_ok_iff {s : List Char} {length : Option Nat} {t : DeclaredType} :
    withBase s length = .ok t ↔
      Text.foldCase (Text.trim s) = t.base.toList ∧ t.length? = length := by
  unfold withBase readScalar
  constructor
  · intro h
    split at h
    · rename_i htext
      cases h
      exact ⟨htext, rfl⟩
    · split at h
      · cases h
      · rename_i e hscalar
        split at hscalar
        · rename_i e hfound
          cases hscalar
          split at h
          all_goals
            cases h
            exact ⟨ofText?_eq_some_iff.1 hfound, rfl⟩
        · cases hscalar
  · rintro ⟨hbase, rfl⟩
    have hother : ∀ e ∈ Scalar.all, e.name.toList ≠ "utf8".toList := by decide
    cases t with
    | text size => exact if_pos hbase
    | scalar e =>
      rw [if_neg (hbase ▸ hother e e.mem_all), ofText?_eq_some_iff.2 hbase]
      rfl
    | array e count =>
      rw [if_neg (hbase ▸ hother e e.mem_all), ofText?_eq_some_iff.2 hbase]
      rfl

/-! ## What is read -/

theorem Spelled.of_ofText {source : String} {t : DeclaredType} (h : ofText source = .ok t) :
    Spelled t source.toList := by
  have houter := Text.padded_trim source.toList
  unfold ofText at h
  dsimp only at h
  split at h
  · obtain ⟨hbase, hlength⟩ := withBase_eq_ok_iff.1 h
    exact .plain hlength (houter.trans (Text.padded_trim _)) hbase
  · rename_i front rest hsplit
    obtain ⟨hcut, -⟩ := Text.splitOnce_eq_some_iff.1 hsplit
    split at h
    · cases h
    · rename_i hlast
      have hclosed := List.dropLast_append_getLast? ']' (not_not.1 hlast)
      split at h
      · cases h
      · cases h
      · rename_i n hzero hread
        obtain ⟨hbase, hlength⟩ := withBase_eq_ok_iff.1 h
        rw [hcut, ← hclosed] at houter
        exact .sized hlength houter (Text.padded_trim _) hbase (readLength?_eq_some_iff.1 hread)
          (Nat.pos_of_ne_zero hzero)

/-- What is left of a text with a bracket when the white space around it is gone: the word comes first,
and what stood between the word and the bracket stays. -/
theorem trim_bracketed {s front word length : List Char}
    (h : Text.Padded s (front ++ '[' :: (length ++ [']']))) (hfront : Text.Padded front word)
    (hne : word ≠ []) (hblank : ∀ c ∈ word, Text.isBlank c = false) :
    ∃ gap, (∀ c ∈ gap, Text.isBlank c = true) ∧
      Text.trim s = word ++ gap ++ '[' :: (length ++ [']']) := by
  obtain ⟨before, gap, hbefore, hgap, rfl⟩ := hfront
  have hassoc : before ++ word ++ gap ++ '[' :: (length ++ [']']) =
      before ++ (word ++ gap ++ '[' :: (length ++ [']'])) := by
    simp only [List.append_assoc]
  have hend : word ++ gap ++ '[' :: (length ++ [']']) = word ++ gap ++ '[' :: length ++ [']'] := by
    simp only [List.append_assoc, List.cons_append]
  rw [hassoc] at h
  refine ⟨gap, hgap, (h.trans (Text.padded_of_front hbefore _)).trim_eq ?_ ?_⟩
  · obtain ⟨c, rest, rfl⟩ := List.exists_cons_of_ne_nil hne
    rintro d ⟨⟩
    exact hblank c List.mem_cons_self
  · rw [hend, List.getLast?_concat]
    rintro c ⟨⟩
    decide

theorem Spelled.ofText {source : String} {t : DeclaredType} (h : Spelled t source.toList) :
    ofText source = .ok t := by
  unfold DeclaredType.ofText
  dsimp only
  cases h with
  | @plain word hlength hpadded hbase =>
    obtain ⟨hne, hblank, hbracket⟩ := clean_of_foldCase hbase
    rw [hpadded.trim_eq_of_clean hblank, Text.splitOnce_eq_none_iff.2 hbracket]
    refine withBase_eq_ok_iff.2 ⟨?_, hlength⟩
    rwa [Text.trim_of_not_blank hblank]
  | @sized front word length n hlength hpadded hfront hbase hcount hpos =>
    obtain ⟨hne, hblank, hbracket⟩ := clean_of_foldCase hbase
    obtain ⟨gap, hgap, htrim⟩ := trim_bracketed hpadded hfront hne hblank
    have hfree : '[' ∉ word ++ gap := fun hmem =>
      (List.mem_append.1 hmem).elim hbracket fun hmem => nomatch hgap _ hmem
    have hword : Text.trim (word ++ gap) = word :=
      (Text.padded_of_back hgap word).trim_eq_of_clean hblank
    rw [htrim, Text.splitOnce_eq_some_iff.2 ⟨rfl, hfree⟩]
    dsimp only
    rw [List.getLast?_concat, if_neg (not_not.2 rfl), List.dropLast_concat,
      readLength?_eq_some_iff.2 hcount]
    obtain ⟨n, rfl⟩ := Nat.exists_eq_add_of_le' hpos
    refine withBase_eq_ok_iff.2 ⟨?_, hlength⟩
    rwa [hword]

/-- **A text is read as a type exactly if it is one in writing.** White space, the case of letters and the
digits of a length leave some freedom; `Spelled` and `SpelledLength` say how much. -/
theorem ofText_eq_ok_iff {source : String} {t : DeclaredType} :
    ofText source = .ok t ↔ Spelled t source.toList :=
  ⟨Spelled.of_ofText, Spelled.ofText⟩

/-! ## What is printed -/

theorem Spelled.declarable {t : DeclaredType} {s : List Char} (h : Spelled t s) : t.Declarable := by
  intro n hn
  cases h with
  | plain hlength => cases hlength.symm.trans hn
  | sized hlength _ _ _ hcount hpos =>
    cases hlength.symm.trans hn
    obtain ⟨-, -, -, hle⟩ := hcount
    exact ⟨hpos, hle⟩

theorem spelled_name {t : DeclaredType} (h : t.Declarable) : Spelled t t.name.toList := by
  obtain ⟨-, hfold, -⟩ := t.clean_base
  rw [toList_name]
  cases hlength : t.length? with
  | none =>
    rw [List.append_nil]
    exact .plain hlength (.refl _) hfold
  | some n =>
    obtain ⟨hpos, hle⟩ := h n hlength
    have hplain : Text.Padded (Numeral.write 10 n) ([] ++ Numeral.write 10 n) := .refl _
    have hcount := SpelledLength.intro hplain (.inl rfl) (Numeral.spells_decimal n) hle
    exact .sized hlength (.refl _) (.refl _) hfold hcount hpos

/-- **Types print and read back.** What is printed of a type is read as the type just when its length can
be declared. The length of a type that was read can be, however the type was written, so its printed form
stands for it as well. -/
theorem name_reads_back :
    (∀ t : DeclaredType, ofText t.name = .ok t ↔ t.Declarable) ∧
      (∀ source t, ofText source = .ok t ↔ Spelled t source.toList) ∧
      ∀ source t, ofText source = .ok t → t.Declarable ∧ ofText t.name = .ok t := by
  have hname : ∀ t : DeclaredType, ofText t.name = .ok t ↔ t.Declarable := fun t =>
    ⟨fun h => (Spelled.of_ofText h).declarable, fun h => (spelled_name h).ofText⟩
  refine ⟨hname, fun source t => ofText_eq_ok_iff, fun source t h => ?_⟩
  have hdeclarable := (Spelled.of_ofText h).declarable
  exact ⟨hdeclarable, (hname t).2 hdeclarable⟩

end DeclaredType

namespace Specimen

/-- Capitals, white space in three places, a plus sign and a leading zero: the type is read, and printed
plainly it is read again. -/
theorem sprawling_reads_back :
    DeclaredType.ofText "\tUInt16 [ +08\t] " = .ok (.array .u16 8) ∧
      (DeclaredType.array .u16 8).name = "uint16[8]" ∧
      DeclaredType.ofText (DeclaredType.array .u16 8).name = .ok (.array .u16 8) := by
  have hread : DeclaredType.ofText "\tUInt16 [ +08\t] " = .ok (.array .u16 8) := by decide +kernel
  exact ⟨hread, by decide +kernel, (DeclaredType.name_reads_back.2.2 _ _ hread).2⟩

end Specimen

end FlashParams
