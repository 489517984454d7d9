import FlashParams.Value.Codec

/-!
# Encoded values have the size of their type

Placement reserves `StoredType.size` bytes and the encoder delivers a list of its own; that the two
agree is what keeps a value inside the place found for it. The proof follows the three shapes of a
stored type. Only the array needs an induction, over its items.
-/

set_option autoImplicit false

namespace FlashParams

theorem Scalar.length_of_encode {type : Scalar} {order : ByteOrder} {literal : Literal}
    {bytes : List UInt8} (h : type.encode order literal = .ok bytes) :
    bytes.length = type.size := by
  unfold Scalar.encode at h
  split at h
  · cases h
  · cases hp : type.pattern literal with
    | error cause =>
      rw [hp] at h
      cases h
    | ok n =>
      rw [hp] at h
      cases h
      exact ByteOrder.length_bytes order type.size n

/-- What several items are encoded to is what the first and the others are, one after the other. Every
induction over the items of an array goes through this. -/
theorem Scalar.encodeAll_cons_eq_ok {type : Scalar} {order : ByteOrder} {item : Literal}
    {rest : List Literal} {bytes : List UInt8} :
    type.encodeAll order (item :: rest) = .ok bytes ↔ ∃ front back,
      type.encode order item = .ok front ∧ type.encodeAll order rest = .ok back ∧
        bytes = front ++ back := by
  have hcons : type.encodeAll order (item :: rest) = (type.encode order item).bind fun front =>
      (type.encodeAll order rest).bind fun back => .ok (front ++ back) := rfl
  rw [hcons]
  cases type.encode order item with
  | error cause => simp [Except.bind]
  | ok front =>
    cases type.encodeAll order rest with
    | error cause => simp [Except.bind]
    | ok back => simp [Except.bind, eq_comm]

theorem Scalar.length_of_encodeAll {type : Scalar} {order : ByteOrder} {items : List Literal}
    {bytes : List UInt8} (h : type.encodeAll order items = .ok bytes) :
    bytes.length = type.size * items.length := by
  induction items generalizing bytes with
  | nil =>
    cases h
    rfl
  | cons item rest ih =>
    obtain ⟨front, back, hfront, hback, rfl⟩ := Scalar.encodeAll_cons_eq_ok.1 h
    rw [List.length_append, List.length_cons, length_of_encode hfront, ih hback, Nat.mul_succ,
      Nat.add_comm]

/-! ## Arrays and texts -/

theorem StoredType.encode_array_eq_ok {t : Scalar} {n : Nat} {order : ByteOrder} {literal : Literal}
    {bytes : List UInt8} : (StoredType.array t n).encode order literal = .ok bytes ↔
    ∃ items, literal = .array items ∧ items.length = n ∧ t.encodeAll order items = .ok bytes := by
  cases literal with
  | array items =>
    simp only [StoredType.encode, Literal.array.injEq, exists_eq_left']
    by_cases hcount : items.length = n <;> simp [hcount]
  | int _ | float _ | str _ => simp [StoredType.encode]

theorem StoredType.encode_text_eq_ok {n : Nat} {order : ByteOrder} {literal : Literal}
    {bytes : List UInt8} : (StoredType.text n).encode order literal = .ok bytes ↔
    ∃ s, literal = .str s ∧ (Text.utf8Bytes s).length ≤ n ∧
      bytes = Text.utf8Bytes s ++ List.replicate (n - (Text.utf8Bytes s).length) 0 := by
  cases literal with
  | str s =>
    simp only [StoredType.encode, Literal.str.injEq, exists_eq_left', ← Nat.not_lt]
    split
    · simp [*]
    · simp [*, eq_comm]
  | int _ | float _ | array _ => simp [StoredType.encode]

/-- **The encoder delivers as many bytes as placement reserves.** A value therefore never leaves the span
of its field, whatever its literal is. -/
theorem StoredType.length_of_encode {type : StoredType} {order : ByteOrder} {literal : Literal}
    {bytes : List UInt8} (h : type.encode order literal = .ok bytes) :
    bytes.length = type.size := by
  -- only a text is filled up; the other two are as long as what they hold
  cases type with
  | scalar t => exact Scalar.length_of_encode h
  | array t n =>
    obtain ⟨items, -, rfl, hall⟩ := encode_array_eq_ok.1 h
    exact Scalar.length_of_encodeAll hall
  | text n =>
    obtain ⟨s, -, hfits, rfl⟩ := encode_text_eq_ok.1 h
    rw [List.length_append, List.length_replicate, Nat.add_sub_cancel' hfits]
    rfl

end FlashParams
