import FlashParams.Proofs.Text.Split
import FlashParams.Text.Utf8

/-!
# Lines of bytes and lines of text

A file is cut into lines before it is decoded, at the *byte* of the line feed. That is no different
from decoding it first and cutting it at the *character*, because the byte of a line feed is never
part of another character: all bytes of a character outside ASCII have their high bit set
(`ascii_not_mem`). So for the bytes of a text both ways give the same lines, and each line decodes
(`splitWhere_utf8Bytes`).
-/

set_option autoImplicit false

namespace FlashParams.Text

def encode (s : List Char) : List UInt8 :=
  utf8Bytes (String.ofList s)

/-- The bytes of characters are those of each, one after the other. A text can be cut between characters
and its bytes are cut there, too, which is why files may be split before they are decoded. -/
theorem encode_eq_flatMap (s : List Char) : encode s = s.flatMap String.utf8EncodeChar := by
  simp [encode, utf8Bytes, List.utf8Encode]

theorem encode_nil : encode [] = [] := by
  simp [encode_eq_flatMap]

theorem encode_cons (c : Char) (s : List Char) :
    encode (c :: s) = String.utf8EncodeChar c ++ encode s := by
  simp [encode_eq_flatMap]

theorem encode_append (s t : List Char) : encode (s ++ t) = encode s ++ encode t := by
  simp [encode_eq_flatMap]

theorem utf8Bytes_eq_encode (s : String) : utf8Bytes s = encode s.toList := by
  rw [encode, String.ofList_toList]

/-- **Decoding undoes encoding.** Every text has bytes, so nothing is asked of it. -/
theorem ofUtf8?_utf8Bytes (s : String) : ofUtf8? (utf8Bytes s) = some s := by
  have hvalid : s.toByteArray.IsValidUTF8 := s.isValidUTF8
  unfold ofUtf8? utf8Bytes String.fromUTF8?
  rw [dif_pos hvalid]
  rfl

/-- **Encoding undoes decoding.** -/
theorem utf8Bytes_of_ofUtf8? {bytes : List UInt8} {s : String} (h : ofUtf8? bytes = some s) :
    utf8Bytes s = bytes := by
  unfold ofUtf8? String.fromUTF8? at h
  split at h
  · cases h
    rfl
  · cases h

/-! ## Bytes of ASCII -/

theorem ascii_not_mem_of_high {a : UInt8} (ha : a.toNat < 128) (numbers : List Nat)
    (h : ∀ n ∈ numbers, 128 ≤ n ∧ n < 256) : a ∉ numbers.map UInt8.ofNat := by
  intro hmem
  obtain ⟨n, hn, he⟩ := List.mem_map.1 hmem
  obtain ⟨hlow, hhigh⟩ := h n hn
  have hbyte := congrArg UInt8.toNat he
  rw [UInt8.toNat_ofNat_of_lt' hhigh] at hbyte
  omega

/-- The byte of an ASCII character is part of no other character. Line ends, zeros and the sign of
argument files can therefore be looked for among bytes. -/
theorem ascii_not_mem {a : UInt8} (ha : a.toNat < 128) {c : Char} (h : c.toNat ≠ a.toNat) :
    a ∉ String.utf8EncodeChar c := by
  unfold String.utf8EncodeChar
  dsimp only
  split
  -- a character of one byte is that byte
  · rename_i hascii
    intro hmem
    have hbyte := congrArg UInt8.toNat (List.mem_singleton.1 hmem)
    rw [UInt8.toNat_ofNat_of_lt' (by simp only [UInt8.size]; omega)] at hbyte
    exact h hbyte.symm
  -- all bytes of the longer encodings are high
  · split
    · refine ascii_not_mem_of_high ha [_, _] ?_
      simp only [List.forall_mem_cons, List.not_mem_nil, false_implies, implies_true, and_true]
      omega
    · split
      · refine ascii_not_mem_of_high ha [_, _, _] ?_
        simp only [List.forall_mem_cons, List.not_mem_nil, false_implies, implies_true, and_true]
        omega
      · refine ascii_not_mem_of_high ha [_, _, _, _] ?_
        simp only [List.forall_mem_cons, List.not_mem_nil, false_implies, implies_true, and_true]
        omega

/-! ## The line feed -/

theorem encode_newline : String.utf8EncodeChar '\n' = [0x0A] := by
  decide

theorem newline_not_mem {c : Char} (h : c ≠ '\n') : (0x0A : UInt8) ∉ String.utf8EncodeChar c :=
  ascii_not_mem (by decide) fun e => h (Char.ext (UInt32.toNat_inj.1 e))

/-! ## Lines -/

/-- **Cutting the bytes is cutting the text.** The separator has a code of one byte, which occurs in no
longer one; so readers may look for it before the bytes are known to be text. -/
theorem splitWhere_encode (s : List Char) :
    splitWhere (· == 0x0A) (encode s) = (splitWhere (· == '\n') s).map encode := by
  induction s with
  | nil =>
    rw [encode_nil]
    exact congrArg (fun bytes => [bytes]) encode_nil.symm
  | cons c s ih =>
    have hfold : splitWhere (· == (0x0A : UInt8)) (encode (c :: s)) =
        (String.utf8EncodeChar c).foldr (consPiece (· == 0x0A))
          ((splitWhere (· == '\n') s).map encode) := by
      rw [encode_cons, ← ih]
      exact List.foldr_append
    rw [hfold]
    by_cases hc : c = '\n'
    · subst hc
      rw [splitWhere_cons_of_pos rfl, encode_newline, List.map_cons, encode_nil]
      rfl
    · obtain ⟨piece, rest, hpieces⟩ :=
        List.exists_cons_of_ne_nil (splitWhere_ne_nil (· == '\n') s)
      -- all bytes of the character go to the front of the piece behind it
      have hbytes : ∀ x ∈ String.utf8EncodeChar c, (x == (0x0A : UInt8)) = false := by
        intro x hx
        exact beq_eq_false_iff_ne.2 fun e => newline_not_mem hc (e ▸ hx)
      have hstep : splitWhere (· == '\n') (c :: s) = (c :: piece) :: rest := by
        have hcons : splitWhere (· == '\n') (c :: s) =
            consPiece (· == '\n') c (splitWhere (· == '\n') s) := rfl
        rw [hcons, hpieces]
        exact if_neg (by simpa using hc)
      rw [hpieces, hstep, List.map_cons, List.map_cons, foldr_consPiece hbytes, encode_cons]

theorem splitWhere_utf8Bytes (s : String) :
    (splitWhere (· == 0x0A) (utf8Bytes s)).map (fun line => (ofUtf8? line).map String.toList) =
      (splitWhere (· == '\n') s.toList).map some := by
  rw [utf8Bytes_eq_encode, splitWhere_encode, List.map_map]
  refine List.map_congr_left fun line _ => ?_
  rw [Function.comp_apply, encode, ofUtf8?_utf8Bytes, Option.map_some, String.toList_ofList]

end FlashParams.Text
