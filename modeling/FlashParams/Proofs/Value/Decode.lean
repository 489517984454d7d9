import FlashParams.Proofs.Text.Utf8
import FlashParams.Proofs.Value.Length
import Mathlib.Data.List.DropRight

/-!
# Encoded values decode

Bytes that a literal was encoded to have a literal of the same stored type again. For numbers and
arrays of numbers there is nothing to it but the count of bytes, since every pattern is a value. A
text is stored with zero bytes behind it, and decoding drops *all* zero bytes at the end, those of the
text included. That leaves UTF-8 because the zero byte is part of no other character: the bytes that
remain are those of the text without the null characters at its end (`dropPadding_encode`).
-/

set_option autoImplicit false

namespace FlashParams

/-! ## Padding -/

theorem dropPadding_zeros (bytes : List UInt8) (n : Nat) :
    dropPadding (bytes ++ List.replicate n 0) = dropPadding bytes := by
  induction n with
  | zero => rw [List.replicate_zero, List.append_nil]
  | succ n ih =>
    rw [List.replicate_succ', ← List.append_assoc]
    exact (List.rdropWhile_concat_pos (fun b : UInt8 => b == 0) _ 0 rfl).trans ih

theorem dropPadding_of_last (front : List UInt8) {last : List UInt8} (hne : last ≠ [])
    (hzero : (0 : UInt8) ∉ last) : dropPadding (front ++ last) = front ++ last := by
  refine List.rdropWhile_eq_self_iff.2 fun h hlast => hzero ?_
  rw [List.getLast_append_of_ne_nil h hne] at hlast
  exact eq_of_beq hlast ▸ List.getLast_mem hne

theorem utf8EncodeChar_ne_nil (c : Char) : String.utf8EncodeChar c ≠ [] := by
  rw [← List.length_pos_iff, String.length_utf8EncodeChar]
  exact c.utf8Size_pos

/-- **Dropping the zero bytes of a text drops the null characters at its end**, and nothing else. -/
theorem dropPadding_encode (s : List Char) :
    dropPadding (Text.encode s) = Text.encode (s.rdropWhile (· == '\x00')) := by
  induction s using List.reverseRecOn with
  | nil =>
    rw [Text.encode_nil, List.rdropWhile_nil, Text.encode_nil]
    rfl
  | append_singleton s c ih =>
    have hlast : Text.encode (s ++ [c]) = Text.encode s ++ String.utf8EncodeChar c := by
      rw [Text.encode_append, Text.encode_cons, Text.encode_nil, List.append_nil]
    by_cases hc : c = '\x00'
    · subst hc
      rw [List.rdropWhile_concat_pos _ _ _ rfl, ← ih, hlast]
      exact dropPadding_zeros (Text.encode s) 1
    · rw [List.rdropWhile_concat_neg _ _ _ (by simpa using hc), hlast]
      refine dropPadding_of_last _ (utf8EncodeChar_ne_nil c) ?_
      exact Text.ascii_not_mem (by decide) fun e => hc (Char.ext (UInt32.toNat_inj.1 e))

/-! ## Stored types -/

theorem Scalar.decode_ne_str (type : Scalar) (order : ByteOrder) (bytes : List UInt8) (s : String) :
    type.decode order bytes ≠ .str s := by
  unfold Scalar.decode
  dsimp only
  split
  · exact Literal.noConfusion
  · exact Literal.noConfusion
  · split <;> exact Literal.noConfusion

namespace StoredType

variable {t : Scalar} {n : Nat} {order : ByteOrder} {literal value : Literal} {bytes : List UInt8}

/-- Bytes of a scalar type always decode. Every pattern of a number type is a number, so only the count
of the bytes can be wrong. -/
theorem decode_scalar_eq_ok : (StoredType.scalar t).decode order bytes = .ok value ↔
    bytes.length = t.size ∧ value = t.decode order bytes := by
  by_cases hlen : bytes.length = t.size <;> simp [decode, size, hlen, eq_comm]

theorem decode_array_eq_ok : (StoredType.array t n).decode order bytes = .ok value ↔
    bytes.length = t.size * n ∧ value = .array (t.decodeAll order n bytes) := by
  by_cases hlen : bytes.length = t.size * n <;> simp [decode, size, hlen, eq_comm]

/-- Bytes of a text type decode when they are those of a string without its padding. The padding is taken
off before the bytes are looked at, so zeros at the end never make a text unreadable. -/
theorem decode_text_eq_ok : (StoredType.text n).decode order bytes = .ok value ↔
    bytes.length = n ∧ ∃ s, value = .str s ∧ dropPadding bytes = Text.utf8Bytes s := by
  by_cases hlen : bytes.length = n
  · cases hread : Text.ofUtf8? (dropPadding bytes) with
    | some s =>
      have hbytes := Text.utf8Bytes_of_ofUtf8? hread
      simp only [decode, size, hlen, hread, ne_eq, not_true_eq_false, if_false, Except.ok.injEq,
        true_and]
      constructor
      · rintro rfl
        exact ⟨s, rfl, hbytes.symm⟩
      · rintro ⟨s', rfl, hbytes'⟩
        rw [hbytes', Text.ofUtf8?_utf8Bytes] at hread
        exact congrArg Literal.str (Option.some.inj hread).symm
    | none =>
      simp only [decode, size, hlen, hread, ne_eq, not_true_eq_false, if_false, reduceCtorEq,
        false_iff, true_and, not_exists, not_and]
      intro s _ hbytes
      rw [hbytes, Text.ofUtf8?_utf8Bytes] at hread
      cases hread
  · simp [decode, size, hlen]

/-- **What was encoded decodes**, in any byte order. The writers decode in the order of the symbol, and
this is why they never fail on what a declaration put into the image. -/
theorem decode_of_encode {type : StoredType} (h : type.encode order literal = .ok bytes)
    (order' : ByteOrder) : ∃ value, type.decode order' bytes = .ok value := by
  have hlen := StoredType.length_of_encode h
  cases type with
  | scalar t => exact ⟨_, decode_scalar_eq_ok.2 ⟨hlen, rfl⟩⟩
  | array t n => exact ⟨_, decode_array_eq_ok.2 ⟨hlen, rfl⟩⟩
  | text n =>
    obtain ⟨s, -, -, rfl⟩ := encode_text_eq_ok.1 h
    refine ⟨.str (String.ofList (s.toList.rdropWhile (· == '\x00'))), ?_⟩
    refine decode_text_eq_ok.2 ⟨hlen, _, rfl, ?_⟩
    rw [dropPadding_zeros, Text.utf8Bytes_eq_encode, dropPadding_encode, Text.encode]

theorem dropPadding_of_decode {type : StoredType} {s : String}
    (h : type.decode order bytes = .ok (.str s)) : dropPadding bytes = Text.utf8Bytes s := by
  cases type with
  | scalar t => exact absurd (decode_scalar_eq_ok.1 h).2.symm (t.decode_ne_str order bytes s)
  | array t n => cases (decode_array_eq_ok.1 h).2
  | text n =>
    obtain ⟨-, s', hs, hbytes⟩ := decode_text_eq_ok.1 h
    cases hs
    exact hbytes

end StoredType

end FlashParams
