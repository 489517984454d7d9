import FlashParams.Proofs.Number.Fixed
import FlashParams.Proofs.Output.Confined
import FlashParams.Proofs.Output.Initializer

/-!
# Initializers of floating-point values

A floating-point value is written with eight places, so what its initializer says is the nearest decimal
of eight places. Whether the bytes of the image come back, when that decimal is rounded to the type
again, is a question about each value (`Scalar.Prints`): they do exactly if the decimal lies in the
rounding interval of the stored pattern. Eight places are enough wherever the next value is more than a
unit of the last place away, which is so from 1/8 upwards for `float32` and from 2 ^ 26 upwards for
`float64`, and for every value that *is* a decimal of eight places, such as zero of either sign. They are
not enough for any other value below half a unit of the last place: its initializer is zero.

All of this is about one cell of the image. A compiled layout has an initializer in its source for every
parameter, and in it a text for every item (`Layout.Initializes` says which text stands for which cell).
-/

set_option autoImplicit false

namespace FlashParams

open Binary Output.CSource

/-! ## One value -/

namespace Scalar

def format? : Scalar → Option Format
  | f32 => some single
  | f64 => some double
  | _ => none

/-- The bytes that a text stands for: it is read as a decimal number and rounded once to the type. A
compiler that reads the initializer does the same. -/
def restore? (type : Scalar) (order : ByteOrder) (text : String) : Option (List UInt8) :=
  match type.format?, Decimal.read? text with
  | some f, some d => some (order.bytes type.size (d.pattern f))
  | _, _ => none

/-- What a text says about the finite value that is stored in a cell of a floating-point type: which
decimal it is, how far from the value that may be, and when the bytes come back from it. -/
structure Prints (type : Scalar) (f : Format) (order : ByteOrder) (cell : List UInt8) (text : String) :
    Prop where
  /-- The text is read as a decimal of eight places, with the sign of the value. -/
  reads : Decimal.read? text = some ⟨f.negative (order.number cell),
    f.nearest places (f.magnitude (order.number cell)), places⟩
  /-- No other decimal of eight places is nearer to the value. -/
  nearest : IsNearest (f.steps (f.magnitude (order.number cell)) * 10 ^ places) f.unit
    (f.nearest places (f.magnitude (order.number cell)))
  /-- The bytes come back exactly if the decimal is one of the reals that are rounded to the value. -/
  restored_iff : type.restore? order text = some cell ↔
    (f.interval (f.magnitude (order.number cell))).Contains
      (f.nearest places (f.magnitude (order.number cell))) (10 ^ places)
  /-- They come back if the next value is more than a unit of the last place away. -/
  restored_of_wide : f.unit < 10 ^ places * 2 ^ f.shift (f.magnitude (order.number cell)) →
    type.restore? order text = some cell
  /-- They come back if the value is a decimal of eight places. -/
  restored_of_exact : f.unit ∣ f.steps (f.magnitude (order.number cell)) * 10 ^ places →
    type.restore? order text = some cell
  /-- They do not if the value is less than half a unit of the last place, and not zero. -/
  lost_of_small : 0 < f.magnitude (order.number cell) →
    2 * (f.steps (f.magnitude (order.number cell)) * 10 ^ places) < f.unit →
      f.nearest places (f.magnitude (order.number cell)) = 0 ∧ type.restore? order text ≠ some cell

section

variable {type : Scalar} {f : Format} (hformat : type.format? = some f)
include hformat

theorem format_bounds : 2 * f.signBit = 2 ^ type.bits ∧ f.infinity < f.signBit ∧ 0 < f.fractionBits ∧
    5 ^ places ≤ f.lead := by
  cases type with
  | f32 | f64 =>
    cases hformat
    decide +kernel
  | _ => cases hformat

variable {order : ByteOrder} {cell : List UInt8} (hlen : cell.length = type.size)
include hlen

/-- **The literal of a finite cell is its value**, in the format of literals. Values are compared over
the units of their formats, so that a single and the double it is widened to can be said to be equal. -/
theorem decode_finite (hfinite : f.magnitude (order.number cell) < f.infinity) :
    ∃ x : Double, type.decode order cell = .float x ∧ x.magnitude < double.infinity ∧
      x.negative = f.negative (order.number cell) ∧
      x.steps * f.unit = f.steps (f.magnitude (order.number cell)) * double.unit := by
  have hlt := number_lt_of_length order hlen
  cases type with
  | f32 =>
    cases hformat
    have hbits : (UInt32.ofNat (order.number cell)).toNat = order.number cell :=
      UInt32.toNat_ofNat_of_lt' hlt
    have hmagnitude : (Single.mk (UInt32.ofNat (order.number cell))).magnitude =
        single.magnitude (order.number cell) := congrArg (· % single.signBit) hbits
    have hnegative : (Single.mk (UInt32.ofNat (order.number cell))).negative =
        single.negative (order.number cell) := congrArg (fun n => decide (single.signBit ≤ n)) hbits
    obtain ⟨hsign, hbelow, hsteps⟩ := Single.widen_exact (hmagnitude ▸ hfinite)
    exact ⟨_, rfl, hbelow, hsign.trans hnegative, hmagnitude ▸ hsteps⟩
  | f64 =>
    cases hformat
    have hbits : (UInt64.ofNat (order.number cell)).toNat = order.number cell :=
      UInt64.toNat_ofNat_of_lt' hlt
    have hmagnitude : (Double.mk (UInt64.ofNat (order.number cell))).magnitude =
        double.magnitude (order.number cell) := congrArg (· % double.signBit) hbits
    have hnegative : (Double.mk (UInt64.ofNat (order.number cell))).negative =
        double.negative (order.number cell) := congrArg (fun n => decide (double.signBit ≤ n)) hbits
    exact ⟨_, rfl, hmagnitude ▸ hfinite, hnegative, by rw [Double.steps, hmagnitude]⟩
  | _ => cases hformat

theorem exists_fixed (hfinite : f.magnitude (order.number cell) < f.infinity) :
    ∃ x : Double, scalar (type.decode order cell) = x.fixed places ∧ x.magnitude < double.infinity ∧
      x.negative = f.negative (order.number cell) ∧
      double.nearest places x.magnitude = f.nearest places (f.magnitude (order.number cell)) := by
  obtain ⟨x, hdecode, hbelow, hsign, hsteps⟩ := decode_finite hformat hlen hfinite
  refine ⟨x, by rw [hdecode]; rfl, hbelow, hsign, roundDiv_congr double.unit_pos f.unit_pos ?_⟩
  rw [Nat.mul_right_comm, ← Double.steps, hsteps, Nat.mul_right_comm]

/-- **The bytes come back exactly if the decimal is rounded to the magnitude that is stored.** The sign
is read apart, and magnitudes of one format are the numbers below its infinity. -/
theorem restore?_eq_some_iff {text : String} {d : Decimal} (hread : Decimal.read? text = some d)
    (hsign : d.negative = f.negative (order.number cell)) :
    type.restore? order text = some cell ↔
      f.round d.number (10 ^ d.places) = f.magnitude (order.number cell) := by
  obtain ⟨hbits, hinfinity, -, -⟩ := format_bounds hformat
  have hlt := number_lt_of_length order hlen
  have hround : f.round d.number (10 ^ d.places) < f.signBit :=
    Nat.lt_of_le_of_lt (Nat.min_le_right _ _) hinfinity
  have hpattern : d.pattern f < 2 ^ type.bits := by
    rw [← hbits, Decimal.pattern, Format.signed]
    split <;> omega
  have hrestore : type.restore? order text = some (order.bytes type.size (d.pattern f)) := by
    rw [restore?, hformat, hread]
  have hbytes : order.bytes type.size (d.pattern f) = cell ↔ d.pattern f = order.number cell := by
    constructor
    · rintro hcell
      rw [← hcell, number_bytes_of_lt order hpattern]
    · intro hnumber
      rw [hnumber, ← hlen, order.bytes_number]
  rw [hrestore, Option.some.injEq, hbytes, Decimal.pattern,
    Format.signed_eq_iff (hbits.symm ▸ hlt) hround]
  exact ⟨fun h => h.2.symm, fun h => ⟨hsign.symm, h.symm⟩⟩

/-- **What is written for a finite value prints it.** Everything that is known of the text is collected
here: its decimal, how far that is from the value, and when it is read back. -/
theorem prints_decode (hfinite : f.magnitude (order.number cell) < f.infinity) :
    type.Prints f order cell (scalar (type.decode order cell)) := by
  obtain ⟨-, -, hbits, hplaces⟩ := format_bounds hformat
  obtain ⟨x, htext, hbelow, hsign, hnearest⟩ := exists_fixed hformat hlen hfinite
  have hread : Decimal.read? (scalar (type.decode order cell)) =
      some ⟨f.negative (order.number cell), f.nearest places (f.magnitude (order.number cell)),
        places⟩ := by
    rw [htext, Decimal.read?_fixed hbelow (by decide), hsign, hnearest]
  have hiff := restore?_eq_some_iff hformat hlen hread rfl
  refine ⟨hread, f.isNearest _ _, ?_, ?_, ?_, ?_⟩
  · rw [hiff]
    exact Format.round_eq_iff hbits (Nat.pow_pos (by decide)) hfinite
  · exact fun hwide => hiff.2 (Format.round_nearest_of_wide hbits hfinite hplaces hwide)
  · exact fun hexact => hiff.2 (Format.round_nearest_of_exact hbits hfinite hexact)
  · intro hpos hsmall
    obtain ⟨hzero, hround⟩ := Format.round_nearest_of_small hbits hfinite hsmall
    exact ⟨hzero, fun hrestored => hpos.ne (hround.symm.trans (hiff.1 hrestored))⟩

/-- The next value is that far away from 1/8 and from 2 ^ 26 on. -/
example : single.unit < 10 ^ places * 2 ^ single.shift 0x3E000000 ∧
    double.unit < 10 ^ places * 2 ^ double.shift 0x4190000000000000 := by
  decide +kernel

/-- Two values have the same text if they have the same sign and the same nearest decimal. Their cells need
not have one byte order, since a text says nothing about the order its bytes were in. -/
theorem scalar_decode_eq_iff {order' : ByteOrder} {cell' : List UInt8} (hlen' : cell'.length = type.size)
    (hfinite : f.magnitude (order.number cell) < f.infinity)
    (hfinite' : f.magnitude (order'.number cell') < f.infinity) :
    scalar (type.decode order cell) = scalar (type.decode order' cell') ↔
      f.negative (order.number cell) = f.negative (order'.number cell') ∧
        f.nearest places (f.magnitude (order.number cell)) =
          f.nearest places (f.magnitude (order'.number cell')) := by
  obtain ⟨x, htext, hbelow, hsign, hnearest⟩ := exists_fixed hformat hlen hfinite
  obtain ⟨y, htext', hbelow', hsign', hnearest'⟩ := exists_fixed hformat hlen' hfinite'
  rw [htext, htext', Double.fixed_eq_fixed_iff hbelow hbelow' (by decide), hsign, hsign', hnearest,
    hnearest']

end

/-! ## Cells of arrays -/

def cells (type : Scalar) : Nat → List UInt8 → List (List UInt8)
  | 0, _ => []
  | count + 1, bytes => bytes.take type.size :: type.cells count (bytes.drop type.size)

theorem decodeAll_eq_map (type : Scalar) (order : ByteOrder) (n : Nat) (bytes : List UInt8) :
    type.decodeAll order n bytes = (type.cells n bytes).map (type.decode order) := by
  induction n generalizing bytes with
  | zero => rfl
  | succ n ih => rw [decodeAll, cells, List.map_cons, ih]

@[simp] theorem length_cells (type : Scalar) (n : Nat) (bytes : List UInt8) :
    (type.cells n bytes).length = n := by
  induction n generalizing bytes with
  | zero => rfl
  | succ n ih => rw [cells, List.length_cons, ih]

theorem length_of_mem_cells {type : Scalar} {n : Nat} {bytes : List UInt8}
    (hlen : bytes.length = type.size * n) : ∀ cell ∈ type.cells n bytes, cell.length = type.size := by
  induction n generalizing bytes with
  | zero => exact List.forall_mem_nil _
  | succ n ih =>
    refine List.forall_mem_cons.2 ⟨?_, ih ?_⟩
    · simp [hlen, Nat.mul_succ]
    · simp [hlen, Nat.mul_succ]

end Scalar

/-! ## Initializers of a layout -/

def StoredType.itemTexts? : StoredType → String → Option (List String)
  | .scalar _, s => some [s]
  | .array _ _, s => items? s
  | .text _, _ => none

theorem StoredType.itemTexts?_initializer {type : StoredType} {t : Scalar} {order : ByteOrder}
    {bytes : List UInt8} {value : Literal} (helement : type.element? = some t)
    (hdecode : type.decode order bytes = .ok value) :
    bytes.length = t.size * type.count ∧ type.itemTexts? (initializer value bytes) =
      some ((t.cells type.count bytes).map fun cell => Output.CSource.scalar (t.decode order cell)) := by
  cases type with
  | scalar t' =>
    cases helement
    obtain ⟨hlen, rfl⟩ := decode_scalar_eq_ok.1 hdecode
    have hinitializer : initializer (t.decode order bytes) bytes =
        Output.CSource.scalar (t.decode order bytes) := by
      have hnumber := t.isNumber_decode order bytes
      generalize t.decode order bytes = item at hnumber
      cases item with
      | int _ | float _ => rfl
      | str _ | array _ => exact hnumber.elim
    refine ⟨by rw [hlen, count, Nat.mul_one], ?_⟩
    rw [itemTexts?, hinitializer, count, Scalar.cells, Scalar.cells, ← hlen, List.take_length]
    rfl
  | array t' n =>
    cases helement
    obtain ⟨hlen, rfl⟩ := decode_array_eq_ok.1 hdecode
    refine ⟨hlen, ?_⟩
    rw [itemTexts?, items?_initializer Scalar.isNumber_decodeAll, Scalar.decodeAll_eq_map, List.map_map]
    rfl
  | text n => cases helement

/-- A text stands for a cell of the image: that of a parameter of the type, or of an item of an array.
What is lost in writing a value is said of cells, so that arrays need no case of their own. -/
def Layout.Initializes (l : Layout) (t : Scalar) (order : ByteOrder) (cell : List UInt8) (text : String) :
    Prop :=
  ∃ s ∈ l.symbols.entries, ∃ type value bytes texts, s.kind = .parameter type ∧
    type.element? = some t ∧ s.byteOrder = order ∧ symbolValue l s type = .ok (value, bytes) ∧
    type.itemTexts? (initializer value bytes) = some texts ∧
    (cell, text) ∈ (t.cells type.count bytes).zip texts

theorem symbolValue_eq_ok {l : Layout} {s : Symbol} {type : StoredType} {value : Literal}
    {bytes : List UInt8} : symbolValue l s type = .ok (value, bytes) ↔
      l.symbolBytes? s = some bytes ∧ type.decode s.byteOrder bytes = .ok value := by
  constructor
  · intro h
    unfold symbolValue at h
    split at h
    · cases h
    · rename_i bytes' hbytes
      split at h
      · rename_i value' hdecode
        cases h
        exact ⟨hbytes, hdecode⟩
      · cases h
  · rintro ⟨hbytes, hdecode⟩
    simp only [symbolValue, hbytes, hdecode]

theorem Layout.Initializes.text_eq {l : Layout} {t : Scalar} {order : ByteOrder} {cell : List UInt8}
    {text : String} (h : l.Initializes t order cell text) :
    cell.length = t.size ∧ text = Output.CSource.scalar (t.decode order cell) := by
  obtain ⟨s, -, type, value, bytes, texts, -, helement, rfl, hvalue, htexts, hmem⟩ := h
  obtain ⟨hlen, hall⟩ := StoredType.itemTexts?_initializer helement (symbolValue_eq_ok.1 hvalue).2
  obtain rfl := Option.some.inj (hall.symm.trans htexts)
  rw [← List.map_prod_left_eq_zip] at hmem
  obtain ⟨cell', hcell, heq⟩ := List.mem_map.1 hmem
  cases heq
  exact ⟨Scalar.length_of_mem_cells hlen _ hcell, rfl⟩

theorem Layout.initializes_of_mem_cells {l : Layout} {s : Symbol} (hs : s ∈ l.symbols.entries)
    {type : StoredType} (hkind : s.kind = .parameter type) {t : Scalar} (helement : type.element? = some t)
    {value : Literal} {bytes : List UInt8} (hvalue : symbolValue l s type = .ok (value, bytes))
    {cell : List UInt8} (hcell : cell ∈ t.cells type.count bytes) :
    l.Initializes t s.byteOrder cell (Output.CSource.scalar (t.decode s.byteOrder cell)) := by
  obtain ⟨-, htexts⟩ := StoredType.itemTexts?_initializer helement (symbolValue_eq_ok.1 hvalue).2
  refine ⟨s, hs, type, value, bytes, _, hkind, helement, rfl, hvalue, htexts, ?_⟩
  rw [← List.map_prod_left_eq_zip]
  exact List.mem_map.2 ⟨cell, hcell, rfl⟩

/-! ## Definitions in the source -/

theorem Output.CSource.text_within {unit : Unit} {pieces : List Piece} {p : Piece} (hp : p ∈ pieces) :
    (p.text unit).toList <:+: (textOf unit pieces).toList := by
  obtain ⟨front, back, rfl⟩ := List.append_of_mem hp
  rw [textOf_append, textOf_cons, String.toList_append, String.toList_append, ← List.append_assoc]
  exact List.infix_append _ _ _

theorem Output.CSource.definition_within (s : Symbol) (type : StoredType) (value : Literal) :
    (definition s type value).toList <:+: ((Piece.symbol s type value).text .source).toList := by
  refine ⟨("/* Parameter " ++ s.name ++ " @ " ++ Numeral.addressLower s.address ++ "\n"
    ++ commentText s.comment).toList, ['\n', '\n'], ?_⟩
  show _ = ("/* Parameter " ++ s.name ++ " @ " ++ Numeral.addressLower s.address ++ "\n"
    ++ commentText s.comment ++ declaration s type ++ " = " ++ initializerOf value ++ ";\n\n").toList
  simp [definition]

section

variable {d : Declaration} {l : Layout} (h : d.compile = .ok l)
include h

/-- **Every parameter has an initializer in the source**: it is written for the value of its bytes. -/
theorem Declaration.initializer_within {s : Symbol} (hs : s ∈ l.symbols.entries) {type : StoredType}
    (hkind : s.kind = .parameter type) : ∃ value bytes, symbolValue l s type = .ok (value, bytes) ∧
      ∀ ctx, ∃ source, write l ctx = .ok source ∧
        (declaration s type ++ " = " ++ initializer value bytes ++ ";").toList <:+: source.toList := by
  obtain ⟨hconsists, -⟩ := d.consists_of_compile h
  obtain ⟨value, hvalue⟩ := hconsists.exists_values
  have htype : storedType? s.kind = some type := by rw [hkind]; rfl
  obtain ⟨bytes, hbytes, hdecode⟩ := hvalue s hs type htype
  refine ⟨value s, bytes, symbolValue_eq_ok.2 ⟨hbytes, hdecode⟩, fun ctx => ⟨_, write_eq hvalue ctx, ?_⟩⟩
  obtain ⟨b, hb, hin⟩ := List.mem_flatMap.1 (hconsists.perm_visited.mem_iff.2 hs)
  have hpiece : Piece.symbol s type (value s) ∈ pieces value l :=
    mem_pieces.2 ⟨b, hb, .inr (.inr (.inr ⟨s, hin, type, htype, rfl⟩))⟩
  have hinfix : (definition s type (value s)).toList <:+:
      (preamble ctx ++ textOf .source (pieces value l)).toList := by
    rw [@String.toList_append (preamble ctx)]
    have hblocks := (definition_within s type (value s)).trans (@text_within .source _ _ hpiece)
    exact hblocks.trans (List.suffix_append _ _).isInfix
  rw [initializer_eq hdecode]
  exact hinfix

/-- **How much of a floating-point value its initializer says.** Every parameter of a floating-point type has
an initializer in the source, with a text for each of its items. The text of a finite value prints it, and two
finite values have the same text if and only if they have the same sign and the same nearest decimal. -/
theorem Declaration.float_initializers :
    (∀ s ∈ l.symbols.entries, ∀ type t f, s.kind = .parameter type → type.element? = some t →
      t.format? = some f → ∃ value bytes texts, symbolValue l s type = .ok (value, bytes) ∧
        (∀ ctx, ∃ source, write l ctx = .ok source ∧
          (declaration s type ++ " = " ++ initializer value bytes ++ ";").toList <:+: source.toList) ∧
        type.itemTexts? (initializer value bytes) = some texts ∧ texts.length = type.count) ∧
    ∀ t f, t.format? = some f → ∀ order cell text, l.Initializes t order cell text →
      f.magnitude (order.number cell) < f.infinity → t.Prints f order cell text ∧
        ∀ order' cell' text', l.Initializes t order' cell' text' →
          f.magnitude (order'.number cell') < f.infinity →
            (text = text' ↔ f.negative (order.number cell) = f.negative (order'.number cell') ∧
              f.nearest places (f.magnitude (order.number cell)) =
                f.nearest places (f.magnitude (order'.number cell'))) := by
  refine ⟨fun s hs type t f hkind helement _ => ?_, ?_⟩
  · obtain ⟨value, bytes, hvalue, hsource⟩ := Declaration.initializer_within h hs hkind
    obtain ⟨-, htexts⟩ := StoredType.itemTexts?_initializer helement (symbolValue_eq_ok.1 hvalue).2
    exact ⟨value, bytes, _, hvalue, hsource, htexts, by simp⟩
  · intro t f hformat order cell text htext hfinite
    obtain ⟨hlen, rfl⟩ := htext.text_eq
    refine ⟨Scalar.prints_decode hformat hlen hfinite, fun order' cell' text' htext' hfinite' => ?_⟩
    obtain ⟨hlen', rfl⟩ := htext'.text_eq
    exact Scalar.scalar_decode_eq_iff hformat hlen hlen' hfinite hfinite'

end

namespace Specimen

/-- Two values far below the last of eight places. -/
def faint : Declaration :=
  { name := "faint"
    containers := [{
      name := "c"
      base := 0
      blocks := [{
        name := "b"
        length := 16
        fields := [.parameter ⟨"p", .next, .array .f64 2, 1,
          .array [.float ⟨0x3E112E0BE826D695⟩, .float ⟨0x3E212E0BE826D695⟩], none, none⟩] }] }] }

def nano : List UInt8 :=
  [0x95, 0xD6, 0x26, 0xE8, 0x0B, 0x2E, 0x11, 0x3E]

def twoNano : List UInt8 :=
  [0x95, 0xD6, 0x26, 0xE8, 0x0B, 0x2E, 0x21, 0x3E]

theorem exists_faint : ∃ l, faint.compile = .ok l ∧ ∃ s ∈ l.symbols.entries,
    s.kind = .parameter (.array .f64 2) ∧ s.byteOrder = .little ∧
      l.symbolBytes? s = some (nano ++ twoNano) := by
  obtain ⟨l, hl⟩ := Declaration.exists_of_isOk_compile (d := faint) (by decide +kernel)
  refine ⟨l, hl, ?_⟩
  have hcheck : (faint.compile.toOption.any fun l => l.symbols.entries.any fun s =>
      s.kind = .parameter (.array .f64 2) ∧ s.byteOrder = .little ∧
        l.symbolBytes? s = some (nano ++ twoNano)) = true := by decide +kernel
  rw [hl] at hcheck
  obtain ⟨s, hs, hall⟩ := List.any_eq_true.1 hcheck
  exact ⟨s, hs, of_decide_eq_true hall⟩

theorem exists_initializes : ∃ l, faint.compile = .ok l ∧
    ∀ cell ∈ [nano, twoNano], l.Initializes .f64 .little cell
      (Output.CSource.scalar (Scalar.f64.decode .little cell)) := by
  obtain ⟨l, hl, s, hs, hkind, horder, hbytes⟩ := exists_faint
  refine ⟨l, hl, fun cell hcell => ?_⟩
  have hvalue := symbolValue_eq_ok.2 ⟨hbytes, @StoredType.decode_array_eq_ok .f64 2 _ _ _ |>.2 ⟨rfl, rfl⟩⟩
  rw [← horder]
  exact Layout.initializes_of_mem_cells hs hkind rfl hvalue hcell

theorem faint_float_initializers : ∃ l, faint.compile = .ok l ∧
    (∃ s ∈ l.symbols.entries, s.kind = .parameter (.array .f64 2) ∧
      ∃ value bytes texts, symbolValue l s (.array .f64 2) = .ok (value, bytes) ∧
        StoredType.itemTexts? (.array .f64 2) (initializer value bytes) = some texts ∧ texts.length = 2) ∧
    double.magnitude (ByteOrder.little.number nano) < double.infinity ∧
    Scalar.f64.Prints double .little nano (Output.CSource.scalar (Scalar.f64.decode .little nano)) := by
  obtain ⟨l, hl, s, hs, hkind, -⟩ := exists_faint
  obtain ⟨l', hl', hall⟩ := exists_initializes
  obtain rfl : l = l' := Except.ok.inj (hl.symm.trans hl')
  have hfinite : double.magnitude (ByteOrder.little.number nano) < double.infinity := by decide +kernel
  obtain ⟨hwritten, hprints⟩ := Declaration.float_initializers hl
  obtain ⟨value, bytes, texts, hvalue, -, htexts, hcount⟩ := hwritten s hs _ _ _ hkind rfl rfl
  have hnano := hall nano List.mem_cons_self
  exact ⟨l, hl, ⟨s, hs, hkind, value, bytes, texts, hvalue, htexts, hcount⟩, hfinite,
    (hprints _ _ rfl _ _ _ hnano hfinite).1⟩

/-- Two different finite values other than zero have the same text, and the bytes of neither come back. -/
theorem faint_lost : ∃ l text, faint.compile = .ok l ∧ nano ≠ twoNano ∧
    ∀ cell ∈ [nano, twoNano], l.Initializes .f64 .little cell text ∧
      0 < double.magnitude (ByteOrder.little.number cell) ∧
      double.magnitude (ByteOrder.little.number cell) < double.infinity ∧
      Scalar.f64.restore? .little text ≠ some cell := by
  obtain ⟨l, hl, hall⟩ := exists_initializes
  have hsmall : ∀ cell ∈ [nano, twoNano], cell.length = Scalar.f64.size ∧
      0 < double.magnitude (ByteOrder.little.number cell) ∧
      double.magnitude (ByteOrder.little.number cell) < double.infinity ∧
      2 * (double.steps (double.magnitude (ByteOrder.little.number cell)) * 10 ^ places) < double.unit ∧
      double.negative (ByteOrder.little.number cell) = false := by decide +kernel
  have hzero : ∀ cell ∈ [nano, twoNano],
      double.nearest places (double.magnitude (ByteOrder.little.number cell)) = 0 := by
    intro cell hcell
    obtain ⟨-, -, hfinite, hlow, -⟩ := hsmall cell hcell
    exact (Format.round_nearest_of_small (by decide) hfinite hlow).1
  obtain ⟨hlen', -, hfinite', -, hsign'⟩ := hsmall nano List.mem_cons_self
  refine ⟨l, Output.CSource.scalar (Scalar.f64.decode .little nano), hl, by decide, fun cell hcell => ?_⟩
  obtain ⟨hlen, hpos, hfinite, hlow, hsign⟩ := hsmall cell hcell
  have hsame : Output.CSource.scalar (Scalar.f64.decode .little cell) =
      Output.CSource.scalar (Scalar.f64.decode .little nano) := by
    refine (@Scalar.scalar_decode_eq_iff .f64 double rfl _ _ hlen _ _ hlen' hfinite hfinite').2 ⟨?_, ?_⟩
    · rw [hsign, hsign']
    · rw [hzero cell hcell, hzero nano List.mem_cons_self]
  have hprints := @Scalar.prints_decode .f64 double rfl .little _ hlen hfinite
  have hheld := hall cell hcell
  rw [hsame] at hprints hheld
  exact ⟨hheld, hpos, hfinite, (hprints.lost_of_small hpos hlow).2⟩

end Specimen

end FlashParams
