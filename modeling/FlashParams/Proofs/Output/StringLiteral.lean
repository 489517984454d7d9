import FlashParams.Output.CSource
import FlashParams.Proofs.Hex.Record
import FlashParams.Proofs.Value.RoundTrip

/-!
# String literals read back

A compiler reads a string literal by rules that know nothing of who wrote it (`readLiteral?`): a quote
closes it, a backslash opens an escape, and an octal escape takes *as many digits as there are*, three at
most. So an escape of one or two digits would swallow a digit of the text behind it. The writer is safe
from this because it always writes three digits (`octalByte_eq`), which leave the reader in front of the
next character whatever that is (`read?_charText`).

The zero bytes at the end of a text are its padding and not written. Those between other bytes are
escaped like any byte that is not printable.
-/

set_option autoImplicit false

namespace FlashParams

namespace Numeral

theorem octalByte_eq (b : UInt8) :
    (octalByte b).toList = [digitChar (b.toNat / 64), digitChar (b.toNat / 8 % 8),
      digitChar (b.toNat % 8)] := by
  have hb : b.toNat < 256 := b.toNat_lt
  have hwrite : ∀ n < 256, padStart 3 '0' (write 8 n) =
      [digitChar (n / 64), digitChar (n / 8 % 8), digitChar (n % 8)] := by
    intro n hn
    unfold write
    by_cases hsmall : n < 8
    · rw [digits_of_lt hsmall, Nat.div_eq_of_lt hsmall, Nat.mod_eq_of_lt hsmall,
        Nat.div_eq_of_lt (by omega)]
      rfl
    by_cases hmedium : n < 64
    · have hfront : n / 8 < 8 := by omega
      rw [digits_of_lt_mul (by decide) (by omega) hmedium, Nat.mod_eq_of_lt hfront,
        Nat.div_eq_of_lt hmedium]
      rfl
    · have hfront : n / 8 / 8 = n / 64 := Nat.div_div_eq_div_mul n 8 8
      rw [digits_of_ge (by decide) (by omega),
        digits_of_lt_mul (by decide) (by omega) (by omega), hfront]
      rfl
  rw [octalByte, String.toList_ofList, hwrite _ hb]

end Numeral

theorem getLast?_dropPadding (bytes : List UInt8) : (dropPadding bytes).getLast? ≠ some 0 := by
  intro hzero
  obtain ⟨front, hfront⟩ := List.getLast?_eq_some_iff.1 hzero
  have hagain : dropPadding (dropPadding bytes) = dropPadding bytes := List.rdropWhile_idempotent _ _
  have hzeros : dropPadding (front ++ [0]) = dropPadding front := dropPadding_zeros front 1
  rw [hfront, hzeros] at hagain
  have hlen := length_dropPadding_le front
  rw [hagain, List.length_append, List.length_singleton] at hlen
  omega

namespace Output.CSource

/-! ## Reading a string literal -/

/-- The escapes of a single character and the bytes they stand for. All that the language has are listed,
also those never written, so that the reader is not made to fit the writer. -/
def simpleEscapes : List (Char × UInt8) :=
  [('\x27', 0x27), ('"', 0x22), ('?', 0x3F), ('\\', 0x5C), ('a', 0x07), ('b', 0x08), ('f', 0x0C),
    ('n', 0x0A), ('r', 0x0D), ('t', 0x09), ('v', 0x0B)]

inductive Place where
  /-- In front of a character, an escape or the closing quote. -/
  | between
  | behindBackslash
  /-- Behind an octal digit of an escape, which stands for a value so far. -/
  | behindOne (value : Nat)
  | behindTwo (value : Nat)
  | behindQuote
  deriving DecidableEq

/-- What a character does with no escape before it: the place behind it and the bytes it gives. A line
does not end inside of a literal. -/
def takePlain? (c : Char) : Option (Place × List UInt8) :=
  if c = '"' then some (.behindQuote, [])
  else if c = '\\' then some (.behindBackslash, [])
  else if c = '\n' then none
  else some (.between, String.utf8EncodeChar c)

def take? : Place → Char → Option (Place × List UInt8)
  | .between, c => takePlain? c
  | .behindBackslash, c =>
    match Numeral.digitOf? 8 c with
    | some d => some (.behindOne d, [])
    | none => (simpleEscapes.lookup c).map fun b => (.between, [b])
  -- an escape goes on as long as there are digits, and ends with its third one
  | .behindOne value, c =>
    match Numeral.digitOf? 8 c with
    | some d => some (.behindTwo (8 * value + d), [])
    | none => (takePlain? c).map fun (place, bytes) => (place, UInt8.ofNat value :: bytes)
  | .behindTwo value, c =>
    match Numeral.digitOf? 8 c with
    | some d => if 8 * value + d < 256 then some (.between, [UInt8.ofNat (8 * value + d)]) else none
    | none => (takePlain? c).map fun (place, bytes) => (place, UInt8.ofNat value :: bytes)
  | .behindQuote, _ => none

/-- The bytes up to the closing quote, and what follows the quote. Octal digits are taken as long as they
come, up to three, which is where an escape could swallow the character behind it. -/
def read? (place : Place) : List Char → Option (List UInt8 × List Char)
  | [] => none
  | c :: rest =>
    match take? place c with
    | none => none
    | some (.behindQuote, bytes) => some (bytes, rest)
    | some (next, bytes) => (read? next rest).map fun (others, rest) => (bytes ++ others, rest)

def readLiteral? : List Char → Option (List UInt8 × List Char)
  | '"' :: rest => read? .between rest
  | _ => none

inductive Body : List Char → Prop where
  | nil : Body []
  | plain {c : Char} {rest : List Char} : c ≠ '"' → c ≠ '\\' → Body rest → Body (c :: rest)
  | escape {c : Char} {rest : List Char} : Body rest → Body ('\\' :: c :: rest)

def IsPrintable (c : Char) : Prop :=
  ' ' ≤ c ∧ c ≤ '~'

instance (c : Char) : Decidable (IsPrintable c) :=
  inferInstanceAs (Decidable (_ ∧ _))

/-! ## One byte -/

/-- How a byte is written: as it is, with a backslash, or as three octal digits. An escape of one
character must not be mistaken for a digit, so none of its characters is one. -/
inductive Written : UInt8 → List Char → Prop where
  | plain {b : UInt8} {c : Char} : IsPrintable c → c ≠ '"' → c ≠ '\\' →
      String.utf8EncodeChar c = [b] → Written b [c]
  | simple {b : UInt8} {c : Char} : IsPrintable c → Numeral.digitOf? 8 c = none →
      simpleEscapes.lookup c = some b → Written b ['\\', c]
  | octal {b : UInt8} {x y z : Nat} : x < 8 → y < 8 → z < 8 → 8 * (8 * x + y) + z = b.toNat →
      Written b ['\\', Numeral.digitChar x, Numeral.digitChar y, Numeral.digitChar z]

theorem charText_printable : ∀ n : Fin 256, 0x20 ≤ n.val → n.val ≤ 0x7E → n.val ≠ 0x22 → n.val ≠ 0x5C →
    IsPrintable (Char.ofNat n) ∧ Char.ofNat n ≠ '"' ∧ Char.ofNat n ≠ '\\' ∧
      String.utf8EncodeChar (Char.ofNat n) = [UInt8.ofNat n] := by
  decide +kernel

theorem written_charText (b : UInt8) : Written b (charText b).toList := by
  have hb : b.toNat < 256 := b.toNat_lt
  unfold charText
  split
  · rename_i hquote
    subst hquote
    exact .simple (by decide) (by decide) rfl
  split
  · rename_i hbackslash
    subst hbackslash
    exact .simple (by decide) (by decide) rfl
  split
  · rename_i hquote hbackslash hrange
    have hne : ∀ c : UInt8, b ≠ c → b.toNat ≠ c.toNat := fun c h e => h (UInt8.toNat_inj.1 e)
    obtain ⟨hprint, hplain, hbare, hbytes⟩ := charText_printable ⟨b.toNat, hb⟩
      (UInt8.le_iff_toNat_le.1 hrange.1) (UInt8.le_iff_toNat_le.1 hrange.2) (hne _ hquote)
      (hne _ hbackslash)
    rw [String.toList_singleton]
    refine .plain hprint hplain hbare ?_
    rw [hbytes, UInt8.ofNat_toNat]
  · rw [String.toList_append, Numeral.octalByte_eq]
    exact .octal (by omega) (by omega) (by omega) (by omega)

section

variable {b : UInt8} {s : List Char}

theorem digitOf?_octal {d : Nat} (h : d < 8) :
    Numeral.digitOf? 8 (Numeral.digitChar d) = some d := by
  have hall : ∀ d < 8, Numeral.digitOf? 8 (Numeral.digitChar d) = some d := by decide
  exact hall d h

theorem isPrintable_digitChar {d : Nat} (h : d < 8) : IsPrintable (Numeral.digitChar d) := by
  have hall : ∀ d < 8, IsPrintable (Numeral.digitChar d) := by decide
  exact hall d h

theorem digitChar_octal {d : Nat} (h : d < 8) :
    Numeral.digitChar d ≠ '"' ∧ Numeral.digitChar d ≠ '\\' := by
  have hall : ∀ d < 8, Numeral.digitChar d ≠ '"' ∧ Numeral.digitChar d ≠ '\\' := by decide
  exact hall d h

theorem Written.isPrintable (h : Written b s) : ∀ c ∈ s, IsPrintable c := by
  cases h with
  | plain hprint _ _ _ => simpa using hprint
  | simple hprint _ _ => simpa using And.intro (by decide : IsPrintable '\\') hprint
  | octal hx hy hz _ =>
    simp only [List.forall_mem_cons, List.not_mem_nil, false_implies, implies_true, and_true]
    exact ⟨by decide, isPrintable_digitChar hx, isPrintable_digitChar hy, isPrintable_digitChar hz⟩

theorem Written.body_append (h : Written b s) {rest : List Char} (hrest : Body rest) :
    Body (s ++ rest) := by
  cases h with
  | plain _ hquote hbackslash _ => exact .plain hquote hbackslash hrest
  | simple _ _ _ => exact .escape hrest
  | octal _ hy hz _ =>
    exact .escape (.plain (digitChar_octal hy).1 (digitChar_octal hy).2
      (.plain (digitChar_octal hz).1 (digitChar_octal hz).2 hrest))

theorem read?_cons {place next : Place} {c : Char} {bytes : List UInt8} (rest : List Char)
    (h : take? place c = some (next, bytes)) (hopen : next ≠ .behindQuote) :
    read? place (c :: rest) =
      (read? next rest).map fun (others, rest) => (bytes ++ others, rest) := by
  rw [read?, h]
  cases next with
  | behindQuote => exact absurd rfl hopen
  | between | behindBackslash | behindOne _ | behindTwo _ => rfl

/-- **A byte is read and nothing of what follows it**: the reader is between two characters again. Three
digits are written for every octal escape, and so a digit behind it is a character of its own. -/
theorem read?_charText (h : Written b s) (rest : List Char) :
    read? .between (s ++ rest) =
      (read? .between rest).map fun (others, rest) => (b :: others, rest) := by
  have hopen : take? .between '\\' = some (.behindBackslash, []) := rfl
  cases h with
  | @plain c hprint hquote hbackslash hbytes =>
    have hline : c ≠ '\n' := by
      rintro rfl
      exact absurd hprint (by decide)
    have htake : take? .between c = some (.between, [b]) := by
      rw [take?, takePlain?, if_neg hquote, if_neg hbackslash, if_neg hline, hbytes]
    exact read?_cons rest htake (by decide)
  | @simple c _ hdigit hlookup =>
    have htake : take? .behindBackslash c = some (.between, [b]) := by
      rw [take?, hdigit, hlookup]
      rfl
    rw [List.cons_append, List.singleton_append, read?_cons _ hopen (by decide),
      read?_cons rest htake (by decide), Option.map_map]
    rfl
  | @octal x y z hx hy hz hvalue =>
    have hfirst : take? .behindBackslash (Numeral.digitChar x) = some (.behindOne x, []) := by
      rw [take?, digitOf?_octal hx]
    have hsecond : take? (.behindOne x) (Numeral.digitChar y) = some (.behindTwo (8 * x + y), []) := by
      rw [take?, digitOf?_octal hy]
    have hthird : take? (.behindTwo (8 * x + y)) (Numeral.digitChar z) = some (.between, [b]) := by
      rw [take?, digitOf?_octal hz]
      dsimp only
      rw [hvalue, if_pos b.toNat_lt, UInt8.ofNat_toNat]
    simp only [List.cons_append, List.nil_append]
    rw [read?_cons _ hopen (by decide), read?_cons _ hfirst (by simp), read?_cons _ hsecond (by simp),
      read?_cons rest hthird (by decide), Option.map_map, Option.map_map, Option.map_map]
    rfl

end

/-! ## Whole literals -/

def bodyText (bytes : List UInt8) : List Char :=
  bytes.flatMap fun b => (charText b).toList

theorem toList_join_charText (bytes : List UInt8) :
    (String.join (bytes.map charText)).toList = bodyText bytes := by
  rw [String.toList_join, List.flatMap_map, bodyText]

theorem stringLiteral_eq (bytes : List UInt8) :
    (stringLiteral bytes).toList = '"' :: (bodyText (dropPadding bytes) ++ ['"']) := by
  rw [stringLiteral, String.toList_append, String.toList_append, toList_join_charText]
  rfl

theorem isPrintable_bodyText {bytes : List UInt8} : ∀ c ∈ bodyText bytes, IsPrintable c := by
  intro c hc
  obtain ⟨b, -, hc⟩ := List.mem_flatMap.1 hc
  exact (written_charText b).isPrintable c hc

theorem body_bodyText (bytes : List UInt8) : Body (bodyText bytes) := by
  induction bytes with
  | nil => exact .nil
  | cons b rest ih => exact (written_charText b).body_append ih

theorem read?_bodyText (bytes : List UInt8) (rest : List Char) :
    read? .between (bodyText bytes ++ '"' :: rest) = some (bytes, rest) := by
  induction bytes with
  | nil => rfl
  | cons b others ih =>
    rw [bodyText, List.flatMap_cons, List.append_assoc, read?_charText (written_charText b)]
    exact congrArg (Option.map _) ih

/-- **A string literal loses nothing but the padding.** It is printable, its quotes are the first and the last
character and those behind a backslash, and what a compiler reads from it, whatever stands behind it, are the
bytes up to the last one that is not zero. -/
theorem stringLiteral_lossless (bytes : List UInt8) :
    (∀ c ∈ (stringLiteral bytes).toList, IsPrintable c) ∧
      (∃ body, (stringLiteral bytes).toList = '"' :: (body ++ ['"']) ∧ Body body) ∧
      ∃ text zeros, bytes = text ++ List.replicate zeros 0 ∧ text.getLast? ≠ some 0 ∧
        ∀ rest, readLiteral? ((stringLiteral bytes).toList ++ rest) = some (text, rest) := by
  have hquote : IsPrintable '"' := by decide
  refine ⟨?_, ⟨_, stringLiteral_eq bytes, body_bodyText _⟩, dropPadding bytes, _,
    (dropPadding_append_zeros bytes).symm, getLast?_dropPadding bytes, fun rest => ?_⟩
  · rw [stringLiteral_eq]
    refine List.forall_mem_cons.2 ⟨hquote, List.forall_mem_append.2 ⟨isPrintable_bodyText, ?_⟩⟩
    simpa using hquote
  · rw [stringLiteral_eq, List.cons_append, List.append_assoc, readLiteral?]
    exact read?_bodyText _ _

end Output.CSource

end FlashParams
