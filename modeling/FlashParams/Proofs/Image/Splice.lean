import FlashParams.Image.Basic

/-!
# Replacing bytes inside a list

`Segment.splice` is the only way bytes change inside a segment, so what a later write does to an
earlier one is decided by three facts about it: the length stays, the new bytes are found where they
were put, and a window beside them is what it was. All three follow from one description of the
result byte by byte, `getElem?_splice`.

Those facts ask that the new bytes fit. The description does not: it is enough that the new bytes
start where the old ones end, and the result grows. `Image.write?` refuses that, `Image.extend?` is
for it.
-/

set_option autoImplicit false

namespace FlashParams.Segment

variable {old new : List UInt8} {start : Nat}

theorem length_splice (h : start + new.length ≤ old.length) :
    (splice old start new).length = old.length := by
  simp only [splice, List.length_append, List.length_take, List.length_drop]
  omega

/-- The result byte by byte. Places in front of the new bytes and behind them are told by their position
alone, so the other laws need no lists. -/
theorem getElem?_splice (h : start ≤ old.length) (i : Nat) :
    (splice old start new)[i]? =
      if start ≤ i ∧ i < start + new.length then new[i - start]? else old[i]? := by
  have hstart : (old.take start).length = start := List.length_take_of_le h
  rw [splice, List.append_assoc]
  -- in front of the new bytes, among them, behind them
  by_cases hlow : i < start
  · rw [if_neg (by omega), List.getElem?_append_left (by omega), List.getElem?_take, if_pos hlow]
  · rw [List.getElem?_append_right (by omega), hstart]
    by_cases hhigh : i < start + new.length
    · rw [if_pos ⟨by omega, hhigh⟩, List.getElem?_append_left (by omega)]
    · rw [if_neg (by omega), List.getElem?_append_right (by omega), List.getElem?_drop]
      congr 1
      omega

theorem window_splice_self (h : start + new.length ≤ old.length) :
    ((splice old start new).drop start).take new.length = new := by
  have hstart : start ≤ old.length := Nat.le_trans (Nat.le_add_right _ _) h
  apply List.ext_getElem?
  intro i
  rw [List.getElem?_take]
  by_cases hi : i < new.length
  · rw [if_pos hi, List.getElem?_drop, getElem?_splice hstart, if_pos ⟨by omega, by omega⟩]
    congr 1
    omega
  · rw [if_neg hi, List.getElem?_eq_none (by omega)]

/-- A window beside the new bytes is what it was. Symbols of a block are such windows to each other, so
writing one leaves the values of the others. -/
theorem window_splice_of_apart (h : start + new.length ≤ old.length) {i n : Nat}
    (hapart : i + n ≤ start ∨ start + new.length ≤ i) :
    ((splice old start new).drop i).take n = (old.drop i).take n := by
  have hstart : start ≤ old.length := Nat.le_trans (Nat.le_add_right _ _) h
  apply List.ext_getElem?
  intro j
  rw [List.getElem?_take, List.getElem?_take]
  by_cases hj : j < n
  · rw [if_pos hj, if_pos hj, List.getElem?_drop, List.getElem?_drop, getElem?_splice hstart,
      if_neg (by omega)]
  · rw [if_neg hj, if_neg hj]

end FlashParams.Segment
