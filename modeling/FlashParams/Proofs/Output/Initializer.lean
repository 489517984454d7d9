import FlashParams.Output.CSource
import FlashParams.Proofs.Number.Spelling
import FlashParams.Proofs.Text.Blank
import FlashParams.Proofs.Text.Split
import FlashParams.Proofs.Value.RoundTrip

/-!
# Initializers of numbers

The initializer of a number consists of letters, digits, points and signs (`isNumeric_scalar`), so
nothing in it is taken for the punctuation around it. The initializer of an array is a list in braces,
four items to a line; what stands between its commas, without the white space that the lines bring along,
are the initializers of its items (`items?_initializer`).

An integer is written in decimal when it is negative and in hexadecimal when it is not, and both are
spellings of that integer. So an integer type encodes the text to the bytes the value was decoded from.
-/

set_option autoImplicit false

namespace FlashParams

/-! ## Characters of numbers -/

/-- A letter, a digit, a point or a minus sign. Everything that is written for a number consists of
these, and none of them is white space, a comma or a brace; that is all it takes to find the numbers in a
text. -/
def IsNumeric (c : Char) : Prop :=
  c.isAlphanum = true ∨ c = '.' ∨ c = '-'

instance (c : Char) : Decidable (IsNumeric c) :=
  inferInstanceAs (Decidable (_ ∨ _))

theorem toNat_of_isAlphanum {c : Char} (h : c.isAlphanum = true) : 48 ≤ c.toNat ∧ c.toNat ≤ 122 := by
  have hbounds : 'A'.val.toNat = 65 ∧ 'Z'.val.toNat = 90 ∧ 'a'.val.toNat = 97 ∧ 'z'.val.toNat = 122 ∧
      '0'.val.toNat = 48 ∧ '9'.val.toNat = 57 := by decide
  have hnat : c.val.toNat = c.toNat := rfl
  delta Char.isAlphanum Char.isAlpha Char.isUpper Char.isLower Char.isDigit at h
  simp only [Bool.or_eq_true, Bool.and_eq_true, decide_eq_true_eq, UInt32.le_iff_toNat_le, ge_iff_le,
    hnat] at h
  omega

theorem isBlank_of_isAlphanum {c : Char} (h : c.isAlphanum = true) : Text.isBlank c = false := by
  obtain ⟨hlow, hhigh⟩ := toNat_of_isAlphanum h
  exact Text.isBlank_of_visible (by omega) (by omega)

theorem IsNumeric.isBlank {c : Char} (h : IsNumeric c) : Text.isBlank c = false := by
  rcases h with h | rfl | rfl
  · exact isBlank_of_isAlphanum h
  · decide
  · decide

theorem isNumeric_of_all {s : List Char} (h : s.all (IsNumeric ·) = true) : ∀ c ∈ s, IsNumeric c :=
  fun c hc => of_decide_eq_true (List.all_eq_true.1 h c hc)

theorem IsNumeric.ne {c : Char} (h : IsNumeric c) {x : Char} (hx : ¬ IsNumeric x) : c ≠ x := by
  rintro rfl
  exact hx h

namespace Numeral

theorem isNumeric_digitChar (d : Nat) : IsNumeric (digitChar d) := by
  unfold digitChar
  split <;> decide

theorem isNumeric_write {base n : Nat} : ∀ c ∈ write base n, IsNumeric c := by
  intro c hc
  obtain ⟨d, -, rfl⟩ := List.mem_map.1 hc
  exact isNumeric_digitChar d

theorem toList_hex (n : Nat) : (hex n).toList = write 16 n :=
  String.toList_ofList

theorem toList_decimal (n : Nat) : (decimal n).toList = write 10 n :=
  String.toList_ofList

theorem isNumeric_padStart {width : Nat} {s : List Char} (h : ∀ c ∈ s, IsNumeric c) :
    ∀ c ∈ padStart width '0' s, IsNumeric c := by
  refine List.forall_mem_append.2 ⟨fun c hc => ?_, h⟩
  rw [List.eq_of_mem_replicate hc]
  decide

end Numeral

def Literal.IsNumber : Literal → Prop
  | int _ | float _ => True
  | str _ | array _ => False

theorem Scalar.isNumber_decode (type : Scalar) (order : ByteOrder) (bytes : List UInt8) :
    (type.decode order bytes).IsNumber := by
  unfold Scalar.decode
  dsimp only
  split
  · trivial
  · trivial
  · split <;> trivial

theorem Scalar.isNumber_decodeAll {type : Scalar} {order : ByteOrder} {n : Nat} {bytes : List UInt8} :
    ∀ item ∈ type.decodeAll order n bytes, item.IsNumber := by
  induction n generalizing bytes with
  | zero => exact List.forall_mem_nil _
  | succ n ih => exact List.forall_mem_cons.2 ⟨type.isNumber_decode order _, ih⟩

namespace Binary

theorem isNumeric_withSign {x : Double} {s : List Char} (h : ∀ c ∈ s, IsNumeric c) :
    ∀ c ∈ (x.withSign s).toList, IsNumeric c := by
  rw [Double.withSign, String.toList_ofList]
  split
  · exact List.forall_mem_cons.2 ⟨by decide, h⟩
  · exact h

theorem isNumeric_fixed {places : Nat} {x : Double} :
    ∀ c ∈ (x.fixed places).toList, IsNumeric c := by
  unfold Double.fixed
  split
  · exact isNumeric_of_all (by decide)
  split
  · exact isNumeric_withSign (isNumeric_of_all (by decide))
  · exact isNumeric_withSign (List.forall_mem_append.2 ⟨Numeral.isNumeric_write,
      List.forall_mem_cons.2 ⟨by decide, Numeral.isNumeric_padStart Numeral.isNumeric_write⟩⟩)

end Binary

namespace Output.CSource

theorem toList_scalar_ofNat (n : Nat) :
    (scalar (.int (.ofNat n))).toList = ['0', 'x'] ++ Numeral.write 16 n := by
  rw [scalar, String.toList_append, Numeral.toList_hex]
  rfl

theorem toList_scalar_negSucc (n : Nat) :
    (scalar (.int (.negSucc n))).toList = '-' :: Numeral.write 10 (n + 1) := by
  rw [scalar, Numeral.decimalInt, String.toList_append, Numeral.toList_decimal]
  · rfl
  · exact fun _ => Int.noConfusion

theorem isNumeric_scalar {item : Literal} (h : item.IsNumber) :
    ∀ c ∈ (scalar item).toList, IsNumeric c := by
  match item with
  | .int (.ofNat n) =>
    rw [toList_scalar_ofNat]
    exact List.forall_mem_append.2 ⟨isNumeric_of_all (by decide), Numeral.isNumeric_write⟩
  | .int (.negSucc n) =>
    rw [toList_scalar_negSucc]
    exact List.forall_mem_cons.2 ⟨by decide, Numeral.isNumeric_write⟩
  | .float x => exact Binary.isNumeric_fixed
  | .str _ | .array _ => exact h.elim

theorem scalar_ne_nil {item : Literal} (h : item.IsNumber) : (scalar item).toList ≠ [] := by
  match item with
  | .int (.ofNat n) =>
    rw [toList_scalar_ofNat]
    exact List.cons_ne_nil _ _
  | .int (.negSucc n) =>
    rw [toList_scalar_negSucc]
    exact List.cons_ne_nil _ _
  | .float x =>
    have hsign : ∀ s : List Char, s ≠ [] → (x.withSign s).toList ≠ [] := by
      intro s hs
      rw [Binary.Double.withSign, String.toList_ofList]
      split
      · exact List.cons_ne_nil _ _
      · exact hs
    rw [scalar, Binary.Double.fixed]
    split
    · decide
    split
    · exact hsign _ (by decide)
    · exact hsign _ (List.append_ne_nil_of_left_ne_nil (Numeral.write_ne_nil _ _) _)
  | .str _ | .array _ => exact h.elim

/-! ## Lists in braces -/

/-- The items of a list in braces: what stands between its commas, without the white space around it. It
is a reader written for the statement, to say what someone finds in the text without going through the
writer. -/
def items? (text : String) : Option (List String) :=
  match Text.trim text.toList with
  | [] => none
  | opening :: rest =>
    if opening = '\x7b' ∧ rest.getLast? = some '\x7d' then
      some (if rest.dropLast.all Text.isBlank then []
        else (Text.splitWhere (· == ',') rest.dropLast).map fun piece =>
          String.ofList (Text.trim piece))
    else none

/-- The white space that the lines of a list bring along. Lines are broken after a fixed number of items,
so where there is more of it depends on the position. -/
def IsGap (s : List Char) : Prop :=
  ∀ c ∈ s, c = ' ' ∨ c = '\n'

instance (s : List Char) : Decidable (IsGap s) :=
  List.decidableBAll _ s

theorem IsGap.isBlank {s : List Char} (h : IsGap s) : ∀ c ∈ s, Text.isBlank c = true := by
  intro c hc
  rcases h c hc with rfl | rfl
  · decide
  · decide

theorem trim_scalar {item : Literal} (h : item.IsNumber) {front back : List Char}
    (hfront : IsGap front) (hback : IsGap back) :
    String.ofList (Text.trim (front ++ (scalar item).toList ++ back)) = scalar item := by
  have hclean : ∀ c ∈ (scalar item).toList, Text.isBlank c = false :=
    fun c hc => (isNumeric_scalar h c hc).isBlank
  have hpadded : Text.Padded (front ++ (scalar item).toList ++ back) (scalar item).toList :=
    ⟨front, back, hfront.isBlank, hback.isBlank, rfl⟩
  rw [hpadded.trim_eq_of_clean hclean, String.ofList_toList]

theorem comma_not_mem {item : Literal} (h : item.IsNumber) {front back : List Char}
    (hfront : IsGap front) (hback : IsGap back) :
    ∀ c ∈ front ++ (scalar item).toList ++ back, (c == ',') = false := by
  have hgap : ∀ s, IsGap s → ∀ c ∈ s, (c == ',') = false := by
    intro s hs c hc
    rcases hs c hc with rfl | rfl
    · decide
    · decide
  refine List.forall_mem_append.2 ⟨List.forall_mem_append.2 ⟨hgap _ hfront, fun c hc => ?_⟩,
    hgap _ hback⟩
  exact beq_eq_false_iff_ne.2 ((isNumeric_scalar h c hc).ne (by decide))

/-- **What comes between the braces has the items as its pieces.** There is white space in front of the
first item and behind the last, and in front of the others what follows a comma. -/
theorem pieces_values {items : List Literal} (h : ∀ item ∈ items, item.IsNumber) (hne : items ≠ [])
    (index : Nat) {front back : List Char} (hfront : IsGap front) (hback : IsGap back) :
    (Text.splitWhere (· == ',') (front ++ (values index items).toList ++ back)).map
        (fun piece => String.ofList (Text.trim piece)) =
      items.map scalar := by
  induction items generalizing index front with
  | nil => exact absurd rfl hne
  | cons item rest ih =>
    obtain ⟨hitem, hrest⟩ := List.forall_mem_cons.1 h
    cases rest with
    | nil =>
      rw [values, Text.splitWhere_of_forall (comma_not_mem hitem hfront hback), List.map_singleton,
        trim_scalar hitem hfront hback, List.map_singleton]
    | cons next rest =>
      have hnone : IsGap [] := List.forall_mem_nil _
      -- behind the comma there is a blank and perhaps a new line
      obtain ⟨gap, hgap, hvalues⟩ : ∃ gap, IsGap gap ∧ (values index (item :: next :: rest)).toList =
          (scalar item).toList ++ ',' :: (gap ++ (values (index + 1) (next :: rest)).toList) := by
        have hline : IsGap (if index % valuesPerLine = valuesPerLine - 1 then "\n    " else "").toList := by
          split
          · decide
          · decide
        refine ⟨_, List.forall_mem_cons.2 ⟨.inl rfl, hline⟩, ?_⟩
        · rw [values, String.toList_append, String.toList_append, String.toList_append,
            List.append_assoc, List.append_assoc]
          · rfl
          · exact List.cons_ne_nil _ _
      have hsplit : front ++ (values index (item :: next :: rest)).toList ++ back =
          (front ++ (scalar item).toList ++ []) ++
            ',' :: (gap ++ (values (index + 1) (next :: rest)).toList ++ back) := by
        rw [hvalues]
        simp only [List.append_assoc, List.append_nil, List.cons_append]
      rw [hsplit, Text.splitWhere_append_cons (comma_not_mem hitem hfront hnone) rfl, List.map_cons,
        trim_scalar hitem hfront hnone, ih hrest (List.cons_ne_nil _ _) (index + 1) hgap]
      rfl

theorem values_cons (index : Nat) (item : Literal) (rest : List Literal) :
    ∃ tail, (values index (item :: rest)).toList = (scalar item).toList ++ tail := by
  cases rest with
  | nil => exact ⟨[], (List.append_nil _).symm⟩
  | cons next rest =>
    rw [values, String.toList_append, String.toList_append, String.toList_append, List.append_assoc,
      List.append_assoc]
    · exact ⟨_, rfl⟩
    · exact List.cons_ne_nil _ _

/-- **The items of an initializer are the initializers of the items**, in order and all of them. -/
theorem items?_initializer {items : List Literal} (h : ∀ item ∈ items, item.IsNumber)
    (bytes : List UInt8) : items? (initializer (.array items) bytes) = some (items.map scalar) := by
  have hopen : IsGap "\n    ".toList := by decide
  have hclose : IsGap "\n".toList := by decide
  have hbraces : (initializer (.array items) bytes).toList = "\n".toList ++
      (('\x7b' :: ("\n    ".toList ++ (values 0 items).toList ++ "\n".toList)) ++ ['\x7d']) := by
    rw [initializer, String.toList_append, String.toList_append]
    simp
  have htrim : Text.trim (initializer (.array items) bytes).toList =
      '\x7b' :: (("\n    ".toList ++ (values 0 items).toList ++ "\n".toList) ++ ['\x7d']) := by
    rw [hbraces, (Text.padded_of_front hclose.isBlank _).trim_eq]
    · rfl
    · rintro c ⟨⟩
      decide
    · rw [List.getLast?_concat]
      rintro c ⟨⟩
      decide
  rw [items?, htrim]
  dsimp only
  rw [if_pos ⟨rfl, List.getLast?_concat⟩, List.dropLast_concat]
  congr 1
  cases items with
  | nil => rfl
  | cons item rest =>
    rw [pieces_values h (List.cons_ne_nil _ _) 0 hopen hclose, if_neg]
    -- the first character of the first item is not white space
    obtain ⟨tail, htail⟩ := values_cons 0 item rest
    have hitem := h item List.mem_cons_self
    obtain ⟨c, hc⟩ := List.exists_mem_of_ne_nil _ (scalar_ne_nil hitem)
    intro hall
    have hblank := List.all_eq_true.1 hall c (by simp [htail, hc])
    exact Bool.false_ne_true ((isNumeric_scalar hitem c hc).isBlank.symm.trans hblank)

end Output.CSource

/-! ## Integers -/

namespace Integer

theorem bare_of_isNumeric {t : String} (h : ∀ c ∈ t.toList, IsNumeric c) : bare t = t.toList := by
  rw [bare, Text.trim_of_not_blank fun c hc => (h c hc).isBlank]
  exact List.filter_eq_self.2 fun c hc => decide_eq_true ((h c hc).ne (by decide))

theorem parse?_of_spelled {t : String} (h : ∀ c ∈ t.toList, IsNumeric c) {v : Int}
    (hspelled : Spelled t.toList v) : parse? t = some v := by
  have hread : signed? (bare t) = some v := by
    rw [bare_of_isNumeric h]
    exact signed?_eq_some_iff.2 (.inl hspelled)
  exact hread

end Integer

namespace Output.CSource

/-- The initializer of an integer spells it. It is one of many spellings, and the reader takes them all;
what is written has neither blanks nor underscores nor a plus sign. -/
theorem spelled_scalar {v : Int} (h : v.natAbs < Integer.wordBound) :
    Integer.Spelled (scalar (.int v)).toList v := by
  match v with
  | .ofNat n =>
    rw [toList_scalar_ofNat]
    have hspelled := Integer.Spelled.intro .none .lower (Numeral.spells_hex n) h
    rwa [Int.one_mul] at hspelled
  | .negSucc n =>
    rw [toList_scalar_negSucc]
    have hspelled := Integer.Spelled.intro .minus .decimal (Numeral.spells_decimal (n + 1)) h
    rwa [Int.neg_one_mul] at hspelled

theorem parse?_scalar {v : Int} (h : v.natAbs < Integer.wordBound) :
    Integer.parse? (scalar (.int v)) = some v :=
  Integer.parse?_of_spelled (@isNumeric_scalar (.int v) trivial) (spelled_scalar h)

end Output.CSource

namespace Scalar

variable {type : Scalar} {order : ByteOrder} {bytes : List UInt8}

theorem natAbs_lt_of_holds {v : Int} (h : type.Holds v) : v.natAbs < Integer.wordBound := by
  have hbound : Integer.wordBound = 2 ^ 127 := rfl
  cases type <;> simp [Holds, bits, size, isSigned] at h <;> omega

/-- A text that is read as an integer is encoded like the integer. So to get the bytes back it is enough
to read the right number. -/
theorem encode_str (hint : type.isFloat = false) {s : String} {v : Int}
    (h : Integer.read s = .number v) : type.encode order (.str s) = .ok bytes ↔
      type.encode order (.int v) = .ok bytes := by
  have hsame : (Literal.str s).integerFor type = (Literal.int v).integerFor type := by
    simp only [Literal.integerFor, h]
  rw [encode_integer_iff hint, encode_integer_iff hint, hsame]

open Output.CSource

theorem scalar_undoes_decode (hint : type.isFloat = false) (order : ByteOrder)
    (hlen : bytes.length = type.size) : ∃ v, type.decode order bytes = .int v ∧
      Integer.parse? (scalar (type.decode order bytes)) = some v ∧
      type.encode order (.str (scalar (type.decode order bytes))) = .ok bytes := by
  have hexact : type ≠ f32 := by
    rintro rfl
    exact Bool.noConfusion hint
  obtain ⟨hheld, -⟩ := residue_valueOf hint (number_lt_of_length order hlen)
  have hencode := encode_decode hexact order hlen
  rw [decode_integer hint] at hencode ⊢
  have hbound := natAbs_lt_of_holds hheld
  have hparse := parse?_scalar hbound
  have hread := Integer.read_eq_number_iff.2 ⟨hparse, by omega⟩
  exact ⟨_, rfl, hparse, (encode_str hint hread).2 hencode⟩

theorem scalars_undo_decodeAll (hint : type.isFloat = false) (order : ByteOrder) {n : Nat}
    (hlen : bytes.length = type.size * n) :
    List.Forall₂ (fun item text => ∃ v, item = .int v ∧ Integer.parse? text = some v)
        (type.decodeAll order n bytes) ((type.decodeAll order n bytes).map scalar) ∧
      type.encodeAll order (((type.decodeAll order n bytes).map scalar).map .str) = .ok bytes := by
  induction n generalizing bytes with
  | zero =>
    obtain rfl : bytes = [] := List.eq_nil_of_length_eq_zero hlen
    exact ⟨.nil, rfl⟩
  | succ n ih =>
    have hfront : (bytes.take type.size).length = type.size := by
      simp [hlen, Nat.mul_succ]
    have hback : (bytes.drop type.size).length = type.size * n := by
      simp [hlen, Nat.mul_succ]
    obtain ⟨v, hv, hparse, hencode⟩ := scalar_undoes_decode hint order hfront
    obtain ⟨hitems, hrest⟩ := ih hback
    exact ⟨.cons ⟨v, hv, hparse⟩ hitems, encodeAll_cons_eq_ok.2
      ⟨_, _, hencode, hrest, (List.take_append_drop _ _).symm⟩⟩

/-- **The initializers of integers give back their bytes.** The text written for the value of a number is read
as that value and encoded to the bytes it was decoded from. From the initializer of an array the texts of all
its items come back, in order, each of them is read as its item, and together they are encoded to the bytes of
the array. -/
theorem initializers_undo_decode (type : Scalar) (hint : type.isFloat = false) (order : ByteOrder) :
    (∀ bytes, bytes.length = type.size → ∃ v, type.decode order bytes = .int v ∧
      Integer.parse? (scalar (type.decode order bytes)) = some v ∧
      type.encode order (.str (scalar (type.decode order bytes))) = .ok bytes) ∧
    ∀ n bytes, bytes.length = type.size * n → ∃ value texts,
      (StoredType.array type n).decode order bytes = .ok value ∧
      items? (initializer value bytes) = some texts ∧ texts.length = n ∧
      List.Forall₂ (fun item text => ∃ v, item = .int v ∧ Integer.parse? text = some v)
        value.numbers texts ∧
      (StoredType.array type n).encode order (.array (texts.map .str)) = .ok bytes := by
  refine ⟨fun bytes hlen => scalar_undoes_decode hint order hlen, fun n bytes hlen => ?_⟩
  obtain ⟨hitems, hencode⟩ := scalars_undo_decodeAll hint order hlen
  refine ⟨_, _, StoredType.decode_array_eq_ok.2 ⟨hlen, rfl⟩,
    items?_initializer isNumber_decodeAll bytes, by simp, hitems, ?_⟩
  exact StoredType.encode_array_eq_ok.2 ⟨_, rfl, by simp, hencode⟩

end Scalar

namespace Specimen

theorem least_initializers_undo_decode :
    Scalar.i16.isFloat = false ∧
      [0x80, 0x00].length = Scalar.i16.size ∧
      Scalar.i16.encode .big (.str (Output.CSource.scalar (Scalar.i16.decode .big [0x80, 0x00]))) =
        .ok [0x80, 0x00] ∧
      ∃ texts, Output.CSource.items? (Output.CSource.initializer
          (.array [.int 1, .int (-32768), .int 0, .int (-1), .int 300])
          [0, 1, 0x80, 0, 0, 0, 0xFF, 0xFF, 1, 0x2C]) = some texts ∧
        texts.length = 5 ∧ (StoredType.array .i16 5).encode .big (.array (texts.map .str)) =
          .ok [0, 1, 0x80, 0, 0, 0, 0xFF, 0xFF, 1, 0x2C] := by
  obtain ⟨hone, hall⟩ := Scalar.initializers_undo_decode .i16 rfl .big
  obtain ⟨v, -, -, hencode⟩ := hone [0x80, 0x00] rfl
  obtain ⟨value, texts, hdecode, hitems, hcount, -, hback⟩ :=
    hall 5 [0, 1, 0x80, 0, 0, 0, 0xFF, 0xFF, 1, 0x2C] rfl
  cases hdecode
  exact ⟨rfl, rfl, hencode, texts, hitems, hcount, hback⟩

end Specimen

end FlashParams
