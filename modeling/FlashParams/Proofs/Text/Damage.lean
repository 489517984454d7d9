import Mathlib.Data.List.Basic
import FlashParams.Proofs.Text.Blank
import FlashParams.Proofs.Text.Split

/-!
# One item replaced

`Damage old new s t` says that `t` is `s` with one `old`, somewhere, replaced by `new`. What an item is
stays open: a character of a text, a line of a file, a byte of a record. Damage to one of them is damage
to one of the next, and what it is handed on by is `Damage.append` and, for lines, `Damage.of_closed`: a
character that is no separator belongs to one line, and no other line is touched.

White space is the awkward replacement, since it does not have to stay. In a text without any, a blank
character either survives trimming or stood at one end, and then the trimmed text is shorter by one
(`Damage.trim_of_blank`).
-/

set_option autoImplicit false

namespace FlashParams.Text

/-- One item of a list is replaced. As a relation by constructors it is met by every recursion over the
list; a split at the place would have to be moved along. -/
inductive Damage {α : Type} (old new : α) : List α → List α → Prop where
  | here {rest : List α} : Damage old new (old :: rest) (new :: rest)
  | there {x : α} {s t : List α} : Damage old new s t → Damage old new (x :: s) (x :: t)

namespace Damage

variable {α : Type} {old new : α} {s t : List α}

theorem of_append (front back : List α) :
    Damage old new (front ++ old :: back) (front ++ new :: back) := by
  induction front with
  | nil => exact .here
  | cons x front ih => exact .there ih

theorem exists_append (h : Damage old new s t) :
    ∃ front back, s = front ++ old :: back ∧ t = front ++ new :: back := by
  induction h with
  | @here rest => exact ⟨[], rest, rfl, rfl⟩
  | @there x s t _ ih =>
    obtain ⟨front, back, rfl, rfl⟩ := ih
    exact ⟨x :: front, back, rfl, rfl⟩

theorem length_eq (h : Damage old new s t) : t.length = s.length := by
  obtain ⟨front, back, rfl, rfl⟩ := h.exists_append
  rw [List.length_append, List.length_append, List.length_cons, List.length_cons]

theorem eq_of_eq (h : Damage old new s t) (hsame : old = new) : s = t := by
  obtain ⟨front, back, rfl, rfl⟩ := h.exists_append
  rw [hsame]

theorem forall_mem {P : α → Prop} (h : Damage old new s t) (hs : ∀ x ∈ s, P x) (hnew : P new) :
    ∀ x ∈ t, P x := by
  obtain ⟨front, back, rfl, rfl⟩ := h.exists_append
  obtain ⟨hfront, hback⟩ := List.forall_mem_append.1 hs
  exact List.forall_mem_append.2
    ⟨hfront, List.forall_mem_cons.2 ⟨hnew, (List.forall_mem_cons.1 hback).2⟩⟩

theorem append {front back : List α} (h : Damage old new (front ++ back) t) :
    (∃ front', Damage old new front front' ∧ t = front' ++ back) ∨
      ∃ back', Damage old new back back' ∧ t = front ++ back' := by
  induction front generalizing t with
  | nil => exact .inr ⟨t, h, rfl⟩
  | cons x front ih =>
    cases h with
    | here => exact .inl ⟨new :: front, .here, rfl⟩
    | there h =>
      rcases ih h with ⟨front', hfront, rfl⟩ | ⟨back', hback, rfl⟩
      · exact .inl ⟨x :: front', .there hfront, rfl⟩
      · exact .inr ⟨back', hback, rfl⟩

/-- **Damage beside the separators is damage to one line.** A damage that puts a separator in, or takes
one away, changes the lines themselves and is not covered by it. -/
theorem of_closed {lines : List (List α)} {sep : α} (hold : old ≠ sep)
    (h : Damage old new (lines.flatMap (· ++ [sep])) t) :
    ∃ line line' lines', Damage old new line line' ∧ Damage line line' lines lines' ∧
      t = lines'.flatMap (· ++ [sep]) := by
  induction lines generalizing t with
  | nil => cases h
  | cons first rest ih =>
    rw [List.flatMap_cons, List.append_assoc] at h
    rcases h.append with ⟨first', hfirst, rfl⟩ | ⟨t', ht, rfl⟩
    · refine ⟨first, first', first' :: rest, hfirst, .here, ?_⟩
      rw [List.flatMap_cons, List.append_assoc]
    · cases ht with
      | here => exact absurd rfl hold
      | there ht =>
        obtain ⟨line, line', lines', hline, hlines, rfl⟩ := ih ht
        refine ⟨line, line', first :: lines', hline, .there hlines, ?_⟩
        rw [List.flatMap_cons, List.append_assoc]
        rfl

end Damage

/-! ## Blank replacements -/

/-- A blank character in a text without any other either stays when the text is trimmed, or it stood at
an end and was all that went. So trimming cannot hide damage to a record: it would leave an odd number of
digits. -/
theorem Damage.trim_of_blank {old new : Char} {s t : List Char} (h : Damage old new s t)
    (hs : ∀ x ∈ s, isBlank x = false) (hnew : isBlank new = true) :
    new ∈ trim t ∨ (trim t).length + 1 = s.length := by
  obtain ⟨front, back, rfl, rfl⟩ := h.exists_append
  obtain ⟨hfront, hback⟩ := List.forall_mem_append.1 hs
  replace hback := (List.forall_mem_cons.1 hback).2
  cases front with
  | nil =>
    -- at the start
    right
    have hpadded := padded_of_front (List.forall_mem_singleton.2 hnew) back
    rw [List.nil_append, ← List.singleton_append, hpadded.trim_eq_of_clean hback]
    rfl
  | cons x front =>
    rcases List.eq_nil_or_concat' back with rfl | ⟨back, y, rfl⟩
    · -- at the end
      right
      have hpadded := padded_of_back (List.forall_mem_singleton.2 hnew) (x :: front)
      rw [hpadded.trim_eq_of_clean hfront, List.length_append]
      rfl
    · -- in between, where the characters at the ends keep it from being trimmed
      left
      have hx : isBlank x = false := hfront x List.mem_cons_self
      have hy : isBlank y = false := hback y (List.mem_append_right _ List.mem_cons_self)
      have hend : x :: front ++ new :: (back ++ [y]) = x :: front ++ new :: back ++ [y] := by
        simp only [List.append_assoc, List.cons_append]
      rw [(Padded.refl _).trim_eq]
      · exact List.mem_append_right _ List.mem_cons_self
      · rintro c ⟨⟩
        exact hx
      · rw [hend, List.getLast?_concat]
        rintro c ⟨⟩
        exact hy

end FlashParams.Text
