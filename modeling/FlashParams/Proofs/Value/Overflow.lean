import FlashParams.Proofs.Number.Spelling
import FlashParams.Proofs.Value.Scalar

/-!
# Values that break off

A literal without bytes is reported with one exception. Text for an integer type goes through the reader
of integers, and that one breaks off on the texts that negate the least word
(`Integer.read_eq_leavesWord_iff`). `StoredType.BreaksOn` says in terms of the literal which values those
are: the text alone, or the text among the items of an array when every item in front of it has bytes.
Anything wrong further to the left is reported first, and so is a wrong number of items.

It is not enough to know that encoding fails on such a literal. What follows for the whole run depends on
*which* fault it is, so the lemmas here are about one fault and pass over all the others.
-/

set_option autoImplicit false

namespace FlashParams

/-- An integer type is given a text that negates the least word. Only texts can do this: an integer of a
manifest is in a word already, and floating-point types read numerals in another way. -/
inductive Scalar.BreaksOn (t : Scalar) : Literal → Prop where
  | text {s : String} :
      t.isFloat = false → Integer.NegatesLeast (Integer.bare s) → BreaksOn t (.str s)

/-- Encoding a literal comes to a text that breaks it off. In an array the items in front must have been
encoded, since a fault among them ends the encoding before that text is read. -/
inductive StoredType.BreaksOn (order : ByteOrder) : StoredType → Literal → Prop where
  | scalar {t : Scalar} {value : Literal} :
      t.BreaksOn value → BreaksOn order (.scalar t) value
  | item {t : Scalar} {front back : List Literal} {item : Literal} :
      (∀ x ∈ front, ∃ bytes, t.encode order x = .ok bytes) → t.BreaksOn item →
        BreaksOn order (.array t (front ++ item :: back).length) (.array (front ++ item :: back))

namespace Scalar

variable {t : Scalar} {order : ByteOrder} {value : Literal} {items : List Literal}

theorem breaksOn_iff : t.BreaksOn value ↔
    t.isFloat = false ∧ ∃ s, value = .str s ∧ Integer.NegatesLeast (Integer.bare s) := by
  constructor
  · rintro ⟨hint, hleast⟩
    exact ⟨hint, _, rfl, hleast⟩
  · rintro ⟨hint, s, rfl, hleast⟩
    exact .text hint hleast

theorem integerFor_eq_leavesWord_iff :
    value.integerFor t = .error .leavesWord ↔
      ∃ s, value = .str s ∧ Integer.NegatesLeast (Integer.bare s) := by
  cases value with
  | int v => simp [Literal.integerFor]
  | array items => simp [Literal.integerFor]
  | float x =>
    simp only [Literal.integerFor, reduceCtorEq, false_and, exists_false, iff_false]
    split
    · split <;> simp
    · simp
  | str s =>
    simp only [Literal.str.injEq, exists_eq_left', ← Integer.read_eq_leavesWord_iff]
    unfold Literal.integerFor
    cases hread : Integer.read s <;> simp [hread]

theorem double_ne_leavesWord (value : Literal) : value.double ≠ .error .leavesWord := by
  cases value with
  | str s =>
    unfold Literal.double
    cases hread : Binary.Double.read? (Text.trim s.toList) <;> simp [hread]
  | int _ | float _ | array _ => simp [Literal.double]

theorem pattern_float_ne_leavesWord (hfloat : t.isFloat = true) :
    t.pattern value ≠ .error .leavesWord := by
  have hdouble := double_ne_leavesWord value
  cases t with
  | f32 =>
    cases hx : value.double with
    | error fault =>
      rw [hx] at hdouble
      simpa [pattern, hx, bind, Except.bind] using hdouble
    | ok x =>
      simp only [pattern, hx, bind, Except.bind]
      split <;> simp
  | f64 =>
    cases hx : value.double with
    | error fault =>
      rw [hx] at hdouble
      simpa [pattern, hx, bind, Except.bind] using hdouble
    | ok x => simp [pattern, hx, bind, Except.bind]
  | _ => cases hfloat

theorem pattern_eq_leavesWord_iff :
    t.pattern value = .error .leavesWord ↔ t.BreaksOn value := by
  rw [breaksOn_iff, ← integerFor_eq_leavesWord_iff (t := t)]
  cases hfloat : t.isFloat with
  | true => simp [pattern_float_ne_leavesWord hfloat]
  | false =>
    rw [pattern_integer hfloat]
    cases value.integerFor t with
    | error fault => simp [Except.bind]
    | ok v =>
      simp only [Except.bind]
      split <;> simp

theorem encode_eq_leavesWord_iff :
    t.encode order value = .error .leavesWord ↔ t.BreaksOn value := by
  cases value with
  | array items => exact iff_of_false nofun nofun
  | int _ | float _ | str _ =>
    rw [← pattern_eq_leavesWord_iff]
    unfold encode
    cases hpattern : t.pattern _ <;> simp [hpattern, Except.map]

theorem encodeAll_eq_leavesWord_iff :
    t.encodeAll order items = .error .leavesWord ↔ ∃ front item back, items = front ++ item :: back ∧
      (∀ x ∈ front, ∃ bytes, t.encode order x = .ok bytes) ∧ t.BreaksOn item := by
  induction items with
  | nil =>
    refine iff_of_false nofun ?_
    rintro ⟨front, item, back, hsplit, -⟩
    exact absurd hsplit.symm (List.append_ne_nil_of_right_ne_nil _ (List.cons_ne_nil _ _))
  | cons first rest ih =>
    have hcons : t.encodeAll order (first :: rest) = .error .leavesWord ↔ t.BreaksOn first ∨
        (∃ bytes, t.encode order first = .ok bytes) ∧ t.encodeAll order rest = .error .leavesWord := by
      have hfirst : t.BreaksOn first ↔ t.encode order first = .error .leavesWord :=
        encode_eq_leavesWord_iff.symm
      rw [hfirst, encodeAll]
      cases t.encode order first with
      | error fault => simp [bind, Except.bind]
      | ok bytes => cases t.encodeAll order rest <;> simp [bind, Except.bind]
    rw [hcons, ih]
    constructor
    · rintro (hfirst | ⟨hfirst, front, item, back, rfl, hfront, hitem⟩)
      · exact ⟨[], first, rest, rfl, List.forall_mem_nil _, hfirst⟩
      · exact ⟨first :: front, item, back, rfl, List.forall_mem_cons.2 ⟨hfirst, hfront⟩, hitem⟩
    · rintro ⟨front, item, back, hsplit, hfront, hitem⟩
      cases front with
      | nil =>
        cases hsplit
        exact .inl hitem
      | cons _ front =>
        cases hsplit
        obtain ⟨hfirst, hfront⟩ := List.forall_mem_cons.1 hfront
        exact .inr ⟨hfirst, front, item, back, rfl, hfront, hitem⟩

end Scalar

/-- **A value breaks its encoding off exactly when it is or holds a text that does.** -/
theorem StoredType.encode_eq_leavesWord_iff {type : StoredType} {order : ByteOrder} {value : Literal} :
    type.encode order value = .error .leavesWord ↔ type.BreaksOn order value := by
  cases type with
  | scalar t =>
    rw [StoredType.encode, Scalar.encode_eq_leavesWord_iff]
    constructor
    · exact .scalar
    · intro h
      cases h with
      | scalar h => exact h
  | text n =>
    refine iff_of_false ?_ ?_
    · intro h
      cases value with
      | str s =>
        simp only [StoredType.encode] at h
        split at h <;> cases h
      | int _ | float _ | array _ => cases h
    · intro h
      cases h
  | array t n =>
    cases value with
    | array items =>
      have hcount : (StoredType.array t n).encode order (.array items) = .error .leavesWord ↔
          items.length = n ∧ t.encodeAll order items = .error .leavesWord := by
        simp only [StoredType.encode]
        split
        · rename_i hne
          simp [hne]
        · rename_i heq
          simp [not_not.1 heq]
      rw [hcount, Scalar.encodeAll_eq_leavesWord_iff]
      constructor
      · rintro ⟨rfl, front, item, back, rfl, hfront, hitem⟩
        exact .item hfront hitem
      · intro h
        cases h with
        | item hfront hitem => exact ⟨rfl, _, _, _, rfl, hfront, hitem⟩
    | int _ | float _ | str _ =>
      refine iff_of_false ?_ ?_ <;> intro h <;> cases h

end FlashParams
