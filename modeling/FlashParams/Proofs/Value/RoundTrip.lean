import FlashParams.Proofs.Value.Decode
import FlashParams.Proofs.Value.Scalar

/-!
# Encoding and decoding undo each other

The bytes of a value have more than one literal: an integer may be written as text or as a whole double,
and a text may be written with the null characters that fill it up anyway. Decoding picks one of them,
the one that the type *spells* its values with (`StoredType.Spells`). So decoding what was encoded gives
the literal that was there if it was spelled so, and always a literal with the same bytes.

The other way there is no choice. Every byte string of the right size is the encoding of what it decodes
to (`encode_of_decode`), the ones included that no literal was ever encoded to: each pattern is the value
of one integer or one double, and a text is followed by as many zero bytes as were dropped behind it.
Only a text may have no value at all, when it is not UTF-8 up to its last byte that is not zero.

Both ways follow the shape of the stored type. An array is an induction over its elements, and the single
element is in the theory of scalars.
-/

set_option autoImplicit false

namespace FlashParams

/-! ## Elements -/

namespace Scalar

variable {type : Scalar} {order : ByteOrder} {items : List Literal} {bytes : List UInt8} {n : Nat}

theorem exists_encodeAll_iff : (∃ bytes, type.encodeAll order items = .ok bytes) ↔
    ∀ item ∈ items, ∃ bytes, type.encode order item = .ok bytes := by
  induction items with
  | nil => simp [encodeAll]
  | cons item rest ih =>
    rw [List.forall_mem_cons, ← ih]
    constructor
    · rintro ⟨bytes, h⟩
      obtain ⟨front, back, hfront, hback, -⟩ := encodeAll_cons_eq_ok.1 h
      exact ⟨⟨front, hfront⟩, back, hback⟩
    · rintro ⟨⟨front, hfront⟩, back, hback⟩
      exact ⟨_, encodeAll_cons_eq_ok.2 ⟨front, back, hfront, hback, rfl⟩⟩

@[simp] theorem length_decodeAll : (type.decodeAll order n bytes).length = n := by
  induction n generalizing bytes with
  | zero => rfl
  | succ n ih => simp [decodeAll, ih]

theorem spells_decodeAll (hexact : type ≠ f32) :
    ∀ item ∈ type.decodeAll order n bytes, type.Spells item := by
  induction n generalizing bytes with
  | zero => simp [decodeAll]
  | succ n ih =>
    rw [decodeAll, List.forall_mem_cons]
    exact ⟨spells_decode hexact order _, ih⟩

theorem encodeAll_decodeAll (hexact : type ≠ f32) (hlen : bytes.length = type.size * n) :
    type.encodeAll order (type.decodeAll order n bytes) = .ok bytes := by
  induction n generalizing bytes with
  | zero =>
    obtain rfl : bytes = [] := List.eq_nil_of_length_eq_zero hlen
    rfl
  | succ n ih =>
    have hfront : (bytes.take type.size).length = type.size := by
      simp [hlen, Nat.mul_succ]
    have hback : (bytes.drop type.size).length = type.size * n := by
      simp [hlen, Nat.mul_succ]
    exact encodeAll_cons_eq_ok.2 ⟨_, _, encode_decode hexact order hfront, ih hback,
      (List.take_append_drop _ _).symm⟩

/-- Elements that are encoded are decoded to themselves if each of them is. The condition is on the items
and not on the type, so that it serves single-precision items as well. -/
theorem decodeAll_encodeAll
    (hitems : ∀ item ∈ items, ∀ bytes, type.encode order item = .ok bytes →
      type.decode order bytes = item)
    (h : type.encodeAll order items = .ok bytes) :
    type.decodeAll order items.length bytes = items := by
  induction items generalizing bytes with
  | nil => rfl
  | cons item rest ih =>
    obtain ⟨front, back, hfront, hback, rfl⟩ := encodeAll_cons_eq_ok.1 h
    obtain ⟨hitem, hrest⟩ := List.forall_mem_cons.1 hitems
    have hlen := length_of_encode hfront
    rw [List.length_cons, decodeAll, List.take_left' hlen, List.drop_left' hlen, hitem front hfront,
      ih hrest hback]

end Scalar

/-! ## Texts -/

/-- Bytes are what is left of them without their padding, and as many zero bytes as were dropped. So a
text type loses nothing by dropping it, as the number of bytes is known. -/
theorem dropPadding_append_zeros (bytes : List UInt8) :
    dropPadding bytes ++ List.replicate (bytes.length - (dropPadding bytes).length) 0 = bytes := by
  have hsplit : dropPadding bytes ++ bytes.rtakeWhile (· == 0) = bytes :=
    List.rdropWhile_append_rtakeWhile
  have hzeros : bytes.rtakeWhile (· == 0) =
      List.replicate (bytes.length - (dropPadding bytes).length) 0 := by
    refine List.eq_replicate_iff.2 ⟨?_, fun b hb => by simpa using List.mem_rtakeWhile_imp hb⟩
    have hlen := congrArg List.length hsplit
    rw [List.length_append] at hlen
    omega
  rw [← hzeros, hsplit]

theorem length_dropPadding_le (bytes : List UInt8) : (dropPadding bytes).length ≤ bytes.length := by
  have hlen := congrArg List.length (dropPadding_append_zeros bytes)
  rw [List.length_append] at hlen
  omega

/-- A text loses nothing with its padding unless it ends in a null character. This is the one way in
which a literal and what it decodes to can differ for text. -/
theorem dropPadding_utf8Bytes_iff {s : String} :
    dropPadding (Text.utf8Bytes s) = Text.utf8Bytes s ↔ s.toList.getLast? ≠ some '\x00' := by
  have hchars : dropPadding (Text.utf8Bytes s) = Text.utf8Bytes s ↔
      s.toList.rdropWhile (· == '\x00') = s.toList := by
    rw [Text.utf8Bytes_eq_encode, dropPadding_encode]
    constructor
    · intro h
      have hread := congrArg Text.ofUtf8? h
      rw [Text.encode, Text.encode, Text.ofUtf8?_utf8Bytes, Text.ofUtf8?_utf8Bytes] at hread
      exact String.ofList_injective (Option.some.inj hread)
    · intro h
      rw [h]
  rw [hchars, List.rdropWhile_eq_self_iff]
  cases hlast : s.toList.getLast? with
  | none => simp [List.getLast?_eq_none_iff.1 hlast]
  | some c =>
    obtain ⟨front, hfront⟩ := List.getLast?_eq_some_iff.1 hlast
    simp [hfront]

/-! ## Stored types -/

def Literal.numbers : Literal → List Literal
  | array items => items
  | literal => [literal]

namespace StoredType

def Accepts (type : StoredType) (order : ByteOrder) (literal : Literal) : Prop :=
  ∃ bytes, type.encode order literal = .ok bytes

/-- How a stored type spells its values: numbers as their scalar type does, a text without null
characters at its end. Other literals may encode to the same bytes; of these each value has one. -/
inductive Spells : StoredType → Literal → Prop
  | scalar {t : Scalar} {literal : Literal} (h : t.Spells literal) : Spells (.scalar t) literal
  | array {t : Scalar} {n : Nat} {items : List Literal} (h : ∀ item ∈ items, t.Spells item) :
    Spells (.array t n) (.array items)
  | text {n : Nat} {s : String} (h : s.toList.getLast? ≠ some '\x00') : Spells (.text n) (.str s)

/-- Whether bytes can be read as a stored type: numbers always, a text when its bytes up to the last one
that is not zero are those of some characters in UTF-8. -/
def Readable : StoredType → List UInt8 → Prop
  | text _, bytes => ∃ s : List Char, bytes.rdropWhile (· == 0) = s.flatMap String.utf8EncodeChar
  | scalar _, _ | array _ _, _ => True

variable {type : StoredType} {order : ByteOrder} {literal value : Literal} {bytes : List UInt8}

/-! ### What is accepted -/

theorem accepts_int_iff {t : Scalar} (hint : t.isFloat = false) {v : Int} :
    (scalar t).Accepts order (.int v) ↔ t.Holds v := by
  have hencode : ∀ bytes, (scalar t).encode order (.int v) = .ok bytes ↔ t.Holds v ∧
      bytes = order.bytes t.size (v % 2 ^ t.bits).toNat := by
    intro bytes
    rw [StoredType.encode, Scalar.encode_integer_iff hint]
    simp [Literal.integerFor]
  simp [Accepts, hencode]

theorem accepts_array_iff {t : Scalar} {n : Nat} : (array t n).Accepts order literal ↔
    ∃ items, literal = .array items ∧ items.length = n ∧
      ∀ item ∈ items, (scalar t).Accepts order item := by
  constructor
  · rintro ⟨bytes, h⟩
    obtain ⟨items, rfl, hcount, hall⟩ := encode_array_eq_ok.1 h
    exact ⟨items, rfl, hcount, Scalar.exists_encodeAll_iff.1 ⟨bytes, hall⟩⟩
  · rintro ⟨items, rfl, hcount, hall⟩
    obtain ⟨bytes, h⟩ := Scalar.exists_encodeAll_iff.2 hall
    exact ⟨bytes, encode_array_eq_ok.2 ⟨items, rfl, hcount, h⟩⟩

theorem accepts_text_iff {n : Nat} : (text n).Accepts order literal ↔
    ∃ s, literal = .str s ∧ s.utf8ByteSize ≤ n := by
  constructor
  · rintro ⟨bytes, h⟩
    obtain ⟨s, rfl, hfits, -⟩ := encode_text_eq_ok.1 h
    exact ⟨s, rfl, hfits⟩
  · rintro ⟨s, rfl, hfits⟩
    exact ⟨_, encode_text_eq_ok.2 ⟨s, rfl, hfits, rfl⟩⟩

/-! ### There and back -/

/-- **What is decoded is encoded to the bytes it comes from.** Texts are the exception in form only:
their padding is dropped when they are decoded and comes back when they are encoded. -/
theorem encode_of_decode (hexact : type.element? ≠ some .f32)
    (h : type.decode order bytes = .ok value) : type.encode order value = .ok bytes := by
  cases type with
  | scalar t =>
    obtain ⟨hlen, rfl⟩ := decode_scalar_eq_ok.1 h
    exact Scalar.encode_decode (fun ht => hexact (congrArg some ht)) order hlen
  | array t n =>
    obtain ⟨hlen, rfl⟩ := decode_array_eq_ok.1 h
    exact encode_array_eq_ok.2 ⟨_, rfl, Scalar.length_decodeAll,
      Scalar.encodeAll_decodeAll (fun ht => hexact (congrArg some ht)) hlen⟩
  | text n =>
    obtain ⟨rfl, s, rfl, hbytes⟩ := decode_text_eq_ok.1 h
    refine encode_text_eq_ok.2 ⟨s, rfl, ?_, ?_⟩
    · rw [← hbytes]
      exact length_dropPadding_le bytes
    · rw [← hbytes]
      exact (dropPadding_append_zeros bytes).symm

/-- **What is decoded is spelled as the type spells it.** Of the many literals that are encoded to some
bytes, decoding gives the one in this spelling. -/
theorem spells_of_decode (hexact : type.element? ≠ some .f32)
    (h : type.decode order bytes = .ok value) : type.Spells value := by
  cases type with
  | scalar t =>
    obtain ⟨-, rfl⟩ := decode_scalar_eq_ok.1 h
    exact .scalar (Scalar.spells_decode (fun ht => hexact (congrArg some ht)) order bytes)
  | array t n =>
    obtain ⟨-, rfl⟩ := decode_array_eq_ok.1 h
    exact .array (Scalar.spells_decodeAll fun ht => hexact (congrArg some ht))
  | text n =>
    obtain ⟨-, s, rfl, hbytes⟩ := decode_text_eq_ok.1 h
    -- nothing is left to drop
    refine .text (dropPadding_utf8Bytes_iff.1 ?_)
    rw [← hbytes]
    exact List.rdropWhile_idempotent _ _

/-- **What is encoded is decoded to itself** if it is spelled as the type spells it. A literal in another
spelling, such as a text for an integer, comes back as the number it stands for. -/
theorem decode_of_spells (hspells : type.Spells literal)
    (h : type.encode order literal = .ok bytes) : type.decode order bytes = .ok literal := by
  have hlen := StoredType.length_of_encode h
  cases hspells with
  | scalar hitem => exact decode_scalar_eq_ok.2 ⟨hlen, (Scalar.decode_encode hitem h).symm⟩
  | array hitems =>
    obtain ⟨items, hliteral, rfl, hall⟩ := encode_array_eq_ok.1 h
    cases hliteral
    have hsame := Scalar.decodeAll_encodeAll
      (fun item hitem _ hencode => Scalar.decode_encode (hitems item hitem) hencode) hall
    exact decode_array_eq_ok.2 ⟨hlen, congrArg Literal.array hsame.symm⟩
  | text hlast =>
    obtain ⟨s, hliteral, -, rfl⟩ := encode_text_eq_ok.1 h
    cases hliteral
    refine decode_text_eq_ok.2 ⟨hlen, _, rfl, ?_⟩
    rw [dropPadding_zeros]
    exact dropPadding_utf8Bytes_iff.2 hlast

theorem exists_decode_iff (hlen : bytes.length = type.size) :
    (∃ value, type.decode order bytes = .ok value) ↔ type.Readable bytes := by
  cases type with
  | scalar t => exact iff_of_true ⟨_, decode_scalar_eq_ok.2 ⟨hlen, rfl⟩⟩ trivial
  | array t n => exact iff_of_true ⟨_, decode_array_eq_ok.2 ⟨hlen, rfl⟩⟩ trivial
  | text n =>
    constructor
    · rintro ⟨value, h⟩
      obtain ⟨-, s, -, hbytes⟩ := decode_text_eq_ok.1 h
      refine ⟨s.toList, ?_⟩
      rw [← Text.encode_eq_flatMap, ← Text.utf8Bytes_eq_encode]
      exact hbytes
    · rintro ⟨s, hbytes⟩
      refine ⟨.str (String.ofList s), decode_text_eq_ok.2 ⟨hlen, _, rfl, ?_⟩⟩
      rw [← Text.encode_eq_flatMap] at hbytes
      exact hbytes

theorem holds_of_accepts (hspells : type.Spells value) (haccepts : type.Accepts order value)
    {t : Scalar} (ht : type.element? = some t) {v : Int} (hv : .int v ∈ value.numbers) :
    t.Holds v := by
  cases hspells with
  | scalar hitem =>
    cases ht
    cases hitem with
    | integer hint w =>
      cases List.mem_singleton.1 hv
      exact (accepts_int_iff hint).1 haccepts
    | double x => cases List.mem_singleton.1 hv
  | array hitems =>
    cases ht
    obtain ⟨items, hliteral, -, hall⟩ := accepts_array_iff.1 haccepts
    cases hliteral
    cases hitems _ hv with
    | integer hint w => exact (accepts_int_iff hint).1 (hall _ hv)
  | text hlast => cases ht

/-- **Decoding undoes encoding, and exactly the representable values encode.** What is encoded has the size
of its type and decodes to a literal with the same bytes, which is the one that was encoded if that is
spelled as the type spells it. -/
theorem decode_undoes_encode (order : ByteOrder) :
    (∀ t : Scalar, t.isFloat = false → ∀ v, (scalar t).Accepts order (.int v) ↔ t.Holds v) ∧
    (∀ t n literal, (array t n).Accepts order literal ↔ ∃ items, literal = .array items ∧
      items.length = n ∧ ∀ item ∈ items, (scalar t).Accepts order item) ∧
    (∀ n literal, (text n).Accepts order literal ↔
      ∃ s, literal = .str s ∧ s.utf8ByteSize ≤ n) ∧
    ∀ type : StoredType, type.element? ≠ some .f32 → ∀ literal bytes,
      type.encode order literal = .ok bytes →
        bytes.length = type.size ∧ ∃ value, type.decode order bytes = .ok value ∧
          type.encode order value = .ok bytes ∧ (type.Spells literal → value = literal) := by
  refine ⟨fun t hint v => accepts_int_iff hint, fun t n literal => accepts_array_iff,
    fun n literal => accepts_text_iff, ?_⟩
  intro type hexact literal bytes h
  obtain ⟨value, hvalue⟩ := decode_of_encode h order
  refine ⟨StoredType.length_of_encode h, value, hvalue, encode_of_decode hexact hvalue, ?_⟩
  intro hspells
  exact Except.ok.inj (hvalue.symm.trans (decode_of_spells hspells h))

end StoredType

namespace Specimen

open StoredType

theorem levels_decode_undoes_encode :
    Scalar.i16.isFloat = false ∧ Scalar.i16.Holds (-32768) ∧
      (scalar .i16).Accepts .big (.int (-32768)) ∧
      (array .i16 2).element? ≠ some .f32 ∧
      (array .i16 2).encode .big (.array [.int (-32768), .int 300]) = .ok [0x80, 0x00, 0x01, 0x2C] ∧
      (array .i16 2).Spells (.array [.int (-32768), .int 300]) ∧
      (array .i16 2).decode .big [0x80, 0x00, 0x01, 0x2C] =
        .ok (.array [.int (-32768), .int 300]) := by
  obtain ⟨hints, -, -, hback⟩ := StoredType.decode_undoes_encode .big
  have hheld : Scalar.i16.Holds (-32768) := by decide
  have hexact : (array .i16 2).element? ≠ some .f32 := by decide
  have hencode : (array .i16 2).encode .big (.array [.int (-32768), .int 300]) =
      .ok [0x80, 0x00, 0x01, 0x2C] := rfl
  have hspells : (array .i16 2).Spells (.array [.int (-32768), .int 300]) := by
    refine .array fun item hitem => ?_
    obtain rfl | rfl : item = .int (-32768) ∨ item = .int 300 := by simpa using hitem
    · exact .integer rfl _
    · exact .integer rfl _
  obtain ⟨-, value, hdecode, -, hsame⟩ := hback (array .i16 2) hexact _ _ hencode
  rw [hsame hspells] at hdecode
  exact ⟨rfl, hheld, (hints .i16 rfl _).2 hheld, hexact, hencode, hspells, hdecode⟩

end Specimen

/-- **Encoding undoes decoding on every byte string.** The bytes that decode are the ones that can be read,
no two of them to the same value, and a value that was decoded is spelled as its type spells it. -/
theorem StoredType.encode_undoes_decode (type : StoredType) (hexact : type.element? ≠ some .f32)
    (order : ByteOrder) :
    (∀ bytes, bytes.length = type.size →
      ((∃ value, type.decode order bytes = .ok value) ↔ type.Readable bytes)) ∧
    (∀ bytes value, type.decode order bytes = .ok value →
      type.encode order value = .ok bytes ∧ type.Spells value ∧
        ∀ t, type.element? = some t → ∀ v, .int v ∈ value.numbers → t.Holds v) ∧
    ∀ bytes bytes' value, type.decode order bytes = .ok value →
      type.decode order bytes' = .ok value → bytes = bytes' := by
  refine ⟨fun bytes hlen => StoredType.exists_decode_iff hlen, ?_, ?_⟩
  · intro bytes value h
    have hencode := StoredType.encode_of_decode hexact h
    have hspells := StoredType.spells_of_decode hexact h
    exact ⟨hencode, hspells, fun t ht v hv => holds_of_accepts hspells ⟨bytes, hencode⟩ ht hv⟩
  · intro bytes bytes' value h h'
    exact Except.ok.inj ((encode_of_decode hexact h).symm.trans (encode_of_decode hexact h'))

namespace Specimen

open StoredType

theorem note_encode_undoes_decode :
    (text 6).element? ≠ some .f32 ∧ ∃ value,
      (text 6).decode .little [0x61, 0x00, 0xC3, 0xA9, 0x00, 0x00] = .ok value ∧
      (text 6).encode .little value = .ok [0x61, 0x00, 0xC3, 0xA9, 0x00, 0x00] := by
  have hexact : (text 6).element? ≠ some .f32 := by decide
  obtain ⟨hreads, hback, -⟩ := StoredType.encode_undoes_decode (text 6) hexact .little
  have hreadable : (text 6).Readable [0x61, 0x00, 0xC3, 0xA9, 0x00, 0x00] :=
    ⟨['a', '\x00', '\u00e9'], by decide⟩
  obtain ⟨value, hdecode⟩ := (hreads _ rfl).2 hreadable
  exact ⟨hexact, value, hdecode, (hback _ _ hdecode).1⟩

end Specimen

end FlashParams
