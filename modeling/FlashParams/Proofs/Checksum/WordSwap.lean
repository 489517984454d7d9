import FlashParams.Checksum.WordSwap

/-!
# Words of a range, and their reversal

A range that is read in swapped words is cut into words from its start, the last of which may be short.
`wordAt` names the word at a position without saying how the cutting is done, and everything here rests
on one law about it: swapping reverses each word and leaves it where it is (`wordAt_swapWords`). A byte
is found in its word (`getElem?_eq_wordAt`), so a list of bytes is known from its words. Hence swapping
twice gives the range back, also with a short word at the end, and in a range of whole words each byte
goes to the mirrored place of its word.
-/

set_option autoImplicit false

namespace FlashParams

/-! ## Words -/

def wordAt (size : Nat) (bytes : List UInt8) (j : Nat) : List UInt8 :=
  (bytes.drop (size * j)).take size

def mirrored (size i : Nat) : Nat :=
  size * (i / size) + (size - 1 - i % size)

variable {size : Nat} {bytes other : List UInt8} {i j : Nat}

theorem wordAt_succ : wordAt size bytes (j + 1) = wordAt size (bytes.drop size) j := by
  rw [wordAt, wordAt, List.drop_drop, Nat.mul_succ, Nat.add_comm]

theorem getElem?_wordAt (h : i < size) : (wordAt size bytes j)[i]? = bytes[size * j + i]? := by
  rw [wordAt, List.getElem?_take_of_lt h, List.getElem?_drop]

/-- Every byte is found in its word. So whatever is known of the words of a range is known of its bytes,
and the laws below are all proved for words. -/
theorem getElem?_eq_wordAt (hsize : 0 < size) (bytes : List UInt8) (i : Nat) :
    bytes[i]? = (wordAt size bytes (i / size))[i % size]? := by
  rw [getElem?_wordAt (Nat.mod_lt i hsize), Nat.div_add_mod]

theorem ext_wordAt (hsize : 0 < size) (h : ∀ j, wordAt size bytes j = wordAt size other j) :
    bytes = other := by
  apply List.ext_getElem?
  intro i
  rw [getElem?_eq_wordAt hsize bytes, getElem?_eq_wordAt hsize other, h]

/-! ## Swapping -/

theorem swapWords_nil (size : Nat) : swapWords size [] = [] := by
  rw [swapWords, if_pos (.inr rfl)]

theorem swapWords_of_ne_nil (hsize : 0 < size) (h : bytes ≠ []) :
    swapWords size bytes = (bytes.take size).reverse ++ swapWords size (bytes.drop size) := by
  rw [swapWords, if_neg]
  rintro (hzero | hnil)
  · exact absurd hsize (hzero ▸ Nat.lt_irrefl 0)
  · exact h hnil

@[simp] theorem length_swapWords (size : Nat) (bytes : List UInt8) :
    (swapWords size bytes).length = bytes.length := by
  fun_induction swapWords size bytes with
  | case1 bytes hdone => rfl
  | case2 bytes hopen ih =>
    rw [List.length_append, List.length_reverse, ih, ← List.length_append, List.take_append_drop]

theorem swapWords_split (hsize : 0 < size) (bytes : List UInt8) :
    (swapWords size bytes).take size = (bytes.take size).reverse ∧
      (swapWords size bytes).drop size = swapWords size (bytes.drop size) := by
  by_cases hnil : bytes = []
  · subst hnil
    simp [swapWords_nil]
  rw [swapWords_of_ne_nil hsize hnil]
  by_cases hfull : size ≤ bytes.length
  · have hlen : (bytes.take size).reverse.length = size := by
      rw [List.length_reverse, List.length_take_of_le hfull]
    exact ⟨List.take_left' hlen, List.drop_left' hlen⟩
  · -- the first word is the whole range, and nothing comes behind it
    have hshort : bytes.length ≤ size := Nat.le_of_not_le hfull
    have hlen : (bytes.take size).reverse.length ≤ size := by
      rw [List.length_reverse]
      exact List.length_take_le _ _
    rw [List.drop_eq_nil_of_le hshort, swapWords_nil, List.append_nil]
    exact ⟨List.take_of_length_le hlen, List.drop_eq_nil_of_le hlen⟩

/-- **Swapping reverses each word and leaves it where it is**, the short one at the end included. All
else about the access order is read off this law of one word. -/
theorem wordAt_swapWords (hsize : 0 < size) (bytes : List UInt8) (j : Nat) :
    wordAt size (swapWords size bytes) j = (wordAt size bytes j).reverse := by
  induction j generalizing bytes with
  | zero => exact (swapWords_split hsize bytes).1
  | succ j ih => rw [wordAt_succ, (swapWords_split hsize bytes).2, ih, wordAt_succ]

theorem swapWords_swapWords (hsize : 0 < size) (bytes : List UInt8) :
    swapWords size (swapWords size bytes) = bytes := by
  apply ext_wordAt hsize
  intro j
  rw [wordAt_swapWords hsize, wordAt_swapWords hsize, List.reverse_reverse]

/-- In a range of whole words each byte comes from the mirrored place of its word. A short word at the
end is reversed within its own length, so there the formula would be another one. -/
theorem getElem?_swapWords (hsize : 0 < size) (hwhole : size ∣ bytes.length) (hi : i < bytes.length) :
    (swapWords size bytes)[i]? = bytes[mirrored size i]? := by
  obtain ⟨count, hcount⟩ := hwhole
  have hlength : (wordAt size bytes (i / size)).length = size := by
    have hword : i / size < count := Nat.div_lt_of_lt_mul (hcount ▸ hi)
    have hend : size * (i / size + 1) ≤ size * count := Nat.mul_le_mul_left size hword
    rw [Nat.mul_succ] at hend
    rw [wordAt, List.length_take_of_le]
    rw [List.length_drop]
    omega
  have hplace : i % size < size := Nat.mod_lt i hsize
  rw [getElem?_eq_wordAt hsize, wordAt_swapWords hsize, List.getElem?_reverse (by rwa [hlength]), hlength,
    getElem?_wordAt (by omega)]
  rfl

theorem swapWords_one (bytes : List UInt8) : swapWords 1 bytes = bytes := by
  induction bytes with
  | nil => exact swapWords_nil 1
  | cons b rest ih =>
    rw [swapWords_of_ne_nil Nat.one_pos (List.cons_ne_nil b rest), List.drop_one, List.tail_cons, ih]
    rfl

/-! ## Reading a range -/

theorem accessOrder_unswapped (access : Nat) (bytes : List UInt8) :
    accessOrder access false bytes = bytes :=
  if_neg fun h => Bool.false_ne_true h.1

theorem accessOrder_swapped {access : Nat} (h : 8 ≤ access) (bytes : List UInt8) :
    accessOrder access true bytes = swapWords (access / 8) bytes := by
  rcases Nat.lt_or_eq_of_le h with hwide | rfl
  · exact if_pos ⟨rfl, hwide⟩
  · rw [swapWords_one]
    exact if_neg fun hwide => Nat.lt_irrefl 8 hwide.2

/-- **Reading a range only reorders the bytes inside its words, and undoes itself.** In a range of whole
words a swapped byte comes from the mirrored place of its word; without the switch no width has an effect. -/
theorem accessOrder_reorders {access : Nat} (h : 8 ≤ access) (bytes : List UInt8) :
    (∀ swap, accessOrder access swap (accessOrder access swap bytes) = bytes) ∧
      (∀ swap, (accessOrder access swap bytes).length = bytes.length) ∧
      (∀ swap j, (wordAt (access / 8) (accessOrder access swap bytes) j).Perm
        (wordAt (access / 8) bytes j)) ∧
      (access / 8 ∣ bytes.length → ∀ i < bytes.length,
        (accessOrder access true bytes)[i]? = bytes[mirrored (access / 8) i]?) ∧
      ∀ width, accessOrder width false bytes = bytes := by
  have hsize : 0 < access / 8 := Nat.div_pos h (by decide)
  refine ⟨fun swap => ?_, fun swap => ?_, fun swap j => ?_, fun hwhole i hi => ?_,
    fun width => accessOrder_unswapped width bytes⟩
  · cases swap with
    | false => rw [accessOrder_unswapped, accessOrder_unswapped]
    | true => rw [accessOrder_swapped h, accessOrder_swapped h, swapWords_swapWords hsize]
  · cases swap with
    | false => rw [accessOrder_unswapped]
    | true => rw [accessOrder_swapped h, length_swapWords]
  · cases swap with
    | false => rw [accessOrder_unswapped]
    | true =>
      rw [accessOrder_swapped h, wordAt_swapWords hsize]
      exact List.reverse_perm _
  · rw [accessOrder_swapped h, getElem?_swapWords hsize hwhole hi]

namespace Specimen

theorem pairs_accessOrder_reorders :
    8 ≤ 16 ∧ 16 / 8 ∣ ([0x12, 0x34, 0x56, 0x78] : List UInt8).length ∧
      accessOrder 16 true (accessOrder 16 true [0x12, 0x34, 0x56, 0x78]) = [0x12, 0x34, 0x56, 0x78] ∧
      (accessOrder 16 true [0x12, 0x34, 0x56, 0x78])[2]? =
        ([0x12, 0x34, 0x56, 0x78] : List UInt8)[mirrored (16 / 8) 2]? ∧
      mirrored (16 / 8) 2 = 3 := by
  have hwide : 8 ≤ 16 := by decide
  have hwhole : 16 / 8 ∣ ([0x12, 0x34, 0x56, 0x78] : List UInt8).length := by decide
  obtain ⟨hundone, -, -, hplace, -⟩ := accessOrder_reorders hwide [0x12, 0x34, 0x56, 0x78]
  exact ⟨hwide, hwhole, hundone true, hplace hwhole 2 (by decide), rfl⟩

end Specimen

end FlashParams
