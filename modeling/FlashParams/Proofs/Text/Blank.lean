import FlashParams.Text.Blank
import Mathlib.Data.List.TakeWhile

/-!
# White space around a text

Most of what is read is read without the white space around it. `Padded s core` says that there is
nothing else in `s` than `core` and such white space. There always is a core, what trimming leaves
(`padded_trim`), and when a core neither starts nor ends with white space it is the one
(`Padded.trim_eq`). Characters that have white space between them are never looked at, so all a reader
needs to know of its text is how it starts and how it ends.
-/

set_option autoImplicit false

namespace FlashParams.Text

/-- A text with white space around it, or with none. Readers trim what they are given, so this is how the
texts they accept are described. -/
def Padded (s core : List Char) : Prop :=
  ∃ front back, (∀ c ∈ front, isBlank c = true) ∧ (∀ c ∈ back, isBlank c = true) ∧
    s = front ++ core ++ back

variable {s core : List Char}

theorem Padded.refl (s : List Char) : Padded s s :=
  ⟨[], [], List.forall_mem_nil _, List.forall_mem_nil _, (List.append_nil s).symm⟩

theorem Padded.trans {inner : List Char} (h : Padded s core) (hcore : Padded core inner) :
    Padded s inner := by
  obtain ⟨front, back, hfront, hback, rfl⟩ := h
  obtain ⟨front', back', hfront', hback', rfl⟩ := hcore
  exact ⟨front ++ front', back' ++ back, List.forall_mem_append.2 ⟨hfront, hfront'⟩,
    List.forall_mem_append.2 ⟨hback', hback⟩, by simp only [List.append_assoc]⟩

theorem padded_of_front {front : List Char} (hfront : ∀ c ∈ front, isBlank c = true)
    (core : List Char) : Padded (front ++ core) core :=
  ⟨front, [], hfront, List.forall_mem_nil _, (List.append_nil _).symm⟩

theorem padded_of_back {back : List Char} (hback : ∀ c ∈ back, isBlank c = true)
    (core : List Char) : Padded (core ++ back) core :=
  ⟨[], back, List.forall_mem_nil _, hback, rfl⟩

theorem padded_trim (s : List Char) : Padded s (trim s) := by
  have hblank : ∀ t : List Char, ∀ c ∈ t.takeWhile isBlank, isBlank c = true := fun t =>
    List.all_eq_true.1 List.all_takeWhile
  refine ⟨s.takeWhile isBlank, ((trimStart s).reverse.takeWhile isBlank).reverse, hblank s,
    fun c hc => hblank _ c (List.mem_reverse.1 hc), ?_⟩
  rw [trim, trimEnd, List.append_assoc, ← List.reverse_append, List.takeWhile_append_dropWhile,
    List.reverse_reverse, trimStart, List.takeWhile_append_dropWhile]

theorem dropWhile_blank {front : List Char} (hfront : ∀ c ∈ front, isBlank c = true)
    (hs : ∀ c ∈ s.head?, isBlank c = false) : (front ++ s).dropWhile isBlank = s := by
  rw [List.dropWhile_append_of_pos hfront]
  cases s with
  | nil => rfl
  | cons c rest =>
    rw [List.dropWhile_cons, hs c rfl]
    rfl

/-- Trimming takes all white space there is at the ends. Whoever knows that a text neither begins nor
ends with any can read it off a padded one. -/
theorem Padded.trim_eq (h : Padded s core) (hhead : ∀ c ∈ core.head?, isBlank c = false)
    (hlast : ∀ c ∈ core.getLast?, isBlank c = false) : trim s = core := by
  obtain ⟨front, back, hfront, hback, rfl⟩ := h
  rw [trim, trimStart, List.append_assoc]
  cases core with
  | nil =>
    -- all of it is white space, and goes from the front
    have hall : ∀ c ∈ front ++ back, isBlank c = true := List.forall_mem_append.2 ⟨hfront, hback⟩
    rw [List.nil_append, List.dropWhile_eq_nil_iff.2 hall]
    rfl
  | cons c rest =>
    have hend : ∀ d ∈ (c :: rest).reverse.head?, isBlank d = false := by
      rwa [List.head?_reverse]
    have hbehind : ∀ d ∈ back.reverse, isBlank d = true := fun d hd =>
      hback d (List.mem_reverse.1 hd)
    rw [dropWhile_blank hfront (show ∀ d ∈ ((c :: rest) ++ back).head?, _ from hhead), trimEnd,
      List.reverse_append, dropWhile_blank hbehind hend, List.reverse_reverse]

theorem Padded.trim_eq_of_clean (h : Padded s core) (hclean : ∀ c ∈ core, isBlank c = false) :
    trim s = core :=
  h.trim_eq (fun c hc => hclean c (List.mem_of_head? hc))
    fun c hc => hclean c (List.mem_of_getLast? hc)

theorem trim_of_not_blank (h : ∀ c ∈ s, isBlank c = false) : trim s = s :=
  (Padded.refl s).trim_eq_of_clean h

theorem toLower_of_isBlank {c : Char} (h : isBlank c = true) : c.toLower = c := by
  refine dif_neg fun ⟨hlow, hhigh⟩ => ?_
  have hlow : 65 ≤ c.toNat := hlow
  have hhigh : c.toNat ≤ 90 := hhigh
  rw [isBlank_of_visible (by omega) (by omega)] at h
  cases h

end FlashParams.Text
