import FlashParams.Text.Blank

/-!
# Lines that were joined

Readers cut what writers join. `splitWhere` is a fold from the right that knows one separator at a
time; what is wanted of it is the other direction: items that are no separators all go to the front
of the piece behind them (`foldr_consPiece`), so lines that are each closed by a separator come back
as they were, with an empty piece after the last one (`splitWhere_closed`).
-/

set_option autoImplicit false

namespace FlashParams.Text

variable {α : Type} {p : α → Bool}

theorem foldr_consPiece {xs : List α} (h : ∀ x ∈ xs, p x = false) (piece : List α)
    (rest : List (List α)) :
    xs.foldr (consPiece p) (piece :: rest) = (xs ++ piece) :: rest := by
  induction xs with
  | nil => rfl
  | cons x xs ih =>
    rw [List.foldr_cons, ih fun y hy => h y (List.mem_cons_of_mem _ hy), consPiece,
      h x List.mem_cons_self]
    rfl

theorem splitWhere_cons_of_pos {x : α} (hx : p x = true) (s : List α) :
    splitWhere p (x :: s) = [] :: splitWhere p s := by
  show consPiece p x (splitWhere p s) = _
  unfold consPiece
  rw [if_pos hx]

theorem splitWhere_append_cons {xs : List α} (h : ∀ x ∈ xs, p x = false) {sep : α}
    (hsep : p sep = true) (s : List α) :
    splitWhere p (xs ++ sep :: s) = xs :: splitWhere p s := by
  have hfold : splitWhere p (xs ++ sep :: s) =
      xs.foldr (consPiece p) (splitWhere p (sep :: s)) := List.foldr_append
  rw [hfold, splitWhere_cons_of_pos hsep, foldr_consPiece h, List.append_nil]

theorem splitWhere_of_forall {xs : List α} (h : ∀ x ∈ xs, p x = false) : splitWhere p xs = [xs] := by
  have hfold := foldr_consPiece h [] []
  rwa [List.append_nil] at hfold

/-- What follows the last separator belongs to the last piece, and so does whatever is put behind it that
has no separator. This is how a path stays the same up to its last piece when it gets an extension. -/
theorem splitWhere_append (s : List α) : ∃ front last, splitWhere p s = front ++ [last] ∧
    (∀ x ∈ last, p x = false) ∧
    ∀ t : List α, (∀ x ∈ t, p x = false) → splitWhere p (s ++ t) = front ++ [last ++ t] := by
  induction s with
  | nil =>
    refine ⟨[], [], rfl, List.forall_mem_nil _, fun t ht => ?_⟩
    exact (foldr_consPiece ht [] []).trans (by rw [List.append_nil]; rfl)
  | cons x s ih =>
    obtain ⟨front, last, hsplit, hlast, happend⟩ := ih
    by_cases hx : p x = true
    · refine ⟨[] :: front, last, ?_, hlast, fun t ht => ?_⟩
      · rw [splitWhere_cons_of_pos hx, hsplit]
        rfl
      · rw [List.cons_append, splitWhere_cons_of_pos hx, happend t ht]
        rfl
    · have hstep : ∀ s : List α, splitWhere p (x :: s) = consPiece p x (splitWhere p s) := fun _ => rfl
      have hcons : ∀ piece rest, consPiece p x (piece :: rest) = (x :: piece) :: rest :=
        fun piece rest => if_neg hx
      cases front with
      | nil =>
        refine ⟨[], x :: last, ?_, List.forall_mem_cons.2 ⟨Bool.eq_false_iff.2 hx, hlast⟩,
          fun t ht => ?_⟩
        · rw [hstep, hsplit]
          exact hcons last []
        · rw [List.cons_append, hstep, happend t ht]
          exact hcons (last ++ t) []
      | cons piece front =>
        refine ⟨(x :: piece) :: front, last, ?_, hlast, fun t ht => ?_⟩
        · rw [hstep, hsplit]
          exact hcons piece (front ++ [last])
        · rw [List.cons_append, hstep, happend t ht]
          exact hcons piece (front ++ [last ++ t])

/-- **Lines closed by a separator are the pieces**, and an empty one follows them. It is the form in
which files are written, and the last piece is the one to be passed over when they are read. -/
theorem splitWhere_closed {lines : List (List α)} (h : ∀ l ∈ lines, ∀ x ∈ l, p x = false) {sep : α}
    (hsep : p sep = true) :
    splitWhere p (lines.flatMap (· ++ [sep])) = lines ++ [[]] := by
  induction lines with
  | nil => rfl
  | cons l rest ih =>
    rw [List.flatMap_cons, List.append_assoc, List.singleton_append,
      splitWhere_append_cons (h l List.mem_cons_self) hsep,
      ih fun k hk => h k (List.mem_cons_of_mem _ hk)]
    rfl

/-- Every piece stands in the text, the first one at its start. The second half is for the induction
only: an item without a separator joins the first piece. -/
theorem infix_of_mem_splitWhere {s piece : List α} (h : piece ∈ splitWhere p s) : piece <:+: s := by
  have hpieces : ∀ s : List α, (∀ first ∈ (splitWhere p s).head?, first <+: s) ∧
      ∀ piece ∈ splitWhere p s, piece <:+: s := by
    intro s
    induction s with
    | nil => exact ⟨by simp [splitWhere], by simp [splitWhere]⟩
    | cons x rest ih =>
      obtain ⟨hfirst, hall⟩ := ih
      have hlater : ∀ piece ∈ splitWhere p rest, piece <:+: x :: rest := fun piece hmem =>
        (hall piece hmem).trans (List.suffix_cons x rest).isInfix
      show (∀ first ∈ (consPiece p x (splitWhere p rest)).head?, first <+: x :: rest) ∧
        ∀ piece ∈ consPiece p x (splitWhere p rest), piece <:+: x :: rest
      unfold consPiece
      split
      · exact ⟨by simp, List.forall_mem_cons.2 ⟨List.nil_infix, hlater⟩⟩
      · split
        · rename_i hnone
          exact absurd hnone (splitWhere_ne_nil p rest)
        · rename_i first others hsplit
          rw [hsplit] at hfirst hlater
          have hgrown : x :: first <+: x :: rest := List.cons_prefix_cons.2 ⟨rfl, hfirst first rfl⟩
          refine ⟨by simpa using hgrown, List.forall_mem_cons.2 ⟨hgrown.isInfix, fun piece hmem => ?_⟩⟩
          exact hlater piece (List.mem_cons_of_mem _ hmem)
  exact (hpieces s).2 piece h

theorem infix_of_mem_lines {s line : List Char} (h : line ∈ lines s) : line <:+: s := by
  have hclosed : ∀ piece ∈ ((splitWhere (· == '\n') s).dropLast).map dropCarriageReturn, piece <:+: s := by
    intro piece hpiece
    obtain ⟨whole, hwhole, rfl⟩ := List.mem_map.1 hpiece
    have hinfix := infix_of_mem_splitWhere (List.dropLast_subset _ hwhole)
    unfold dropCarriageReturn
    split
    · exact (List.dropLast_prefix whole).isInfix.trans hinfix
    · exact hinfix
  unfold lines at h
  dsimp only at h
  split at h
  · exact hclosed line h
  · exact hclosed line h
  · rename_i last _ hlast
    rcases List.mem_append.1 h with h | h
    · exact hclosed line h
    · rw [List.mem_singleton.1 h]
      exact infix_of_mem_splitWhere (List.mem_of_getLast? hlast)

theorem splitOnce_eq_some_iff {sep : Char} {s front back : List Char} :
    splitOnce sep s = some (front, back) ↔ s = front ++ sep :: back ∧ sep ∉ front := by
  induction s generalizing front with
  | nil => simp [splitOnce]
  | cons c rest ih =>
    by_cases hc : c = sep
    · subst hc
      rw [splitOnce, if_pos rfl]
      constructor
      · intro h
        cases h
        exact ⟨rfl, List.not_mem_nil⟩
      · rintro ⟨hsplit, hfront⟩
        cases front with
        | nil =>
          cases hsplit
          rfl
        | cons d front =>
          cases hsplit
          exact absurd List.mem_cons_self hfront
    · rw [splitOnce, if_neg hc, Option.map_eq_some_iff]
      constructor
      · rintro ⟨⟨before, after⟩, hrest, hpair⟩
        cases hpair
        obtain ⟨rfl, hbefore⟩ := ih.1 hrest
        refine ⟨rfl, fun hmem => ?_⟩
        rcases List.mem_cons.1 hmem with rfl | hmem
        · exact hc rfl
        · exact hbefore hmem
      · rintro ⟨hsplit, hfront⟩
        cases front with
        | nil =>
          cases hsplit
          exact absurd rfl hc
        | cons d front =>
          cases hsplit
          have hbefore : sep ∉ front := fun hmem => hfront (List.mem_cons_of_mem _ hmem)
          exact ⟨(front, back), ih.2 ⟨rfl, hbefore⟩, rfl⟩

theorem splitOnce_eq_none_iff {sep : Char} {s : List Char} :
    splitOnce sep s = none ↔ sep ∉ s := by
  induction s with
  | nil => simp [splitOnce]
  | cons c rest ih =>
    by_cases hc : c = sep
    · simp [splitOnce, hc]
    · simp [splitOnce, hc, ih, Ne.symm hc]

end FlashParams.Text
