import FlashParams.Output.CSource
import FlashParams.Proofs.Output.Listing
import FlashParams.Proofs.Value.Decode

/-!
# The C files of a compiled layout

The C source takes its initializers from the finished image, so writing it can fail in two ways that
writing the other files cannot: a symbol may have no bytes, or bytes that are no value of its type.
Of a compiled layout neither happens (`Layout.Stored`): a symbol lies inside one segment, with as many
bytes as its type has, and they are the bytes some literal was encoded to, which decode again.

The text is put together from `Piece`s. A piece knows what it defines and with which value, so a
statement about the file is one about a list of pieces; `write_eq` says that the source is the text of
such a list. It is a function of the *values* of the symbols (`initializer_eq`): a text is written from
its bytes, but these are the bytes of the decoded text.
-/

set_option autoImplicit false

namespace FlashParams

namespace Output.CSource

/-! ## Pieces -/

/-- The initializer of a value. The writer takes that of a text from its bytes; a text that has been
decoded has the same bytes, so the value alone says what is written. -/
def initializerOf : Literal → String
  | .array items => "\n\x7b\n    " ++ values 0 items ++ "\n\x7d"
  | .str s => "\"" ++ String.join ((Text.utf8Bytes s).map charText) ++ "\""
  | other => scalar other

def openingText (b : BlockRecord) : String :=
  s!"/* BEGIN Block {b.name} in container {b.container} @ "
    ++ Numeral.addressLower b.address ++ "\n" ++ commentText b.comment

def closingText (b : BlockRecord) : String :=
  s!"/* END Block {b.name}\n */\n\n"

def valueText (unit : Unit) (s : Symbol) (type : StoredType) (value : Literal) : String :=
  let opening := s!"/* Parameter {s.name} @ " ++ Numeral.addressLower s.address ++ "\n"
    ++ commentText s.comment
  match unit with
  | .header => opening ++ s!"extern {declaration s type};\n\n"
  | .source => opening ++ declaration s type ++ " = " ++ initializerOf value ++ ";\n\n"

/-- What a C file has between its first and its last lines. Both files are made from one list of pieces,
so a statement about which symbols there are is made once for the two. -/
inductive Piece where
  | opening (block : BlockRecord)
  | header (block : BlockRecord) (header : Header)
  | symbol (s : Symbol) (type : StoredType) (value : Literal)
  | closing (block : BlockRecord)

namespace Piece

def text (unit : Unit) : Piece → String
  | opening b => openingText b
  | header b h => headerText unit b h
  | symbol s type value => valueText unit s type value
  | closing b => closingText b

def header? : Piece → Option BlockRecord
  | header b _ => some b
  | _ => none

def symbol? : Piece → Option Symbol
  | symbol s _ _ => some s
  | _ => none

end Piece

def textOf (unit : Unit) (pieces : List Piece) : String :=
  String.join (pieces.map (Piece.text unit))

def symbolPieces (value : Symbol → Literal) (s : Symbol) : List Piece :=
  ((storedType? s.kind).map fun type => Piece.symbol s type (value s)).toList

def blockPieces (value : Symbol → Literal) (l : Layout) (b : BlockRecord) : List Piece :=
  .opening b ::
    (b.header.toList.map (.header b) ++ (l.symbols.inBlock b.name).flatMap (symbolPieces value)
      ++ [.closing b])

/-- The pieces of all blocks, in the order of the file. The writer can fail at each symbol; here every
symbol has been given a value, and what is left is a list. -/
def pieces (value : Symbol → Literal) (l : Layout) : List Piece :=
  ((groups l).flatMap (·.2)).flatMap (blockPieces value l)

theorem mem_symbolPieces {value : Symbol → Literal} {s : Symbol} {p : Piece} :
    p ∈ symbolPieces value s ↔ ∃ type, storedType? s.kind = some type ∧ p = .symbol s type (value s) := by
  rw [symbolPieces, Option.mem_toList, Option.map_eq_some_iff]
  exact exists_congr fun type => and_congr_right fun _ => eq_comm

theorem mem_pieces {value : Symbol → Literal} {l : Layout} {p : Piece} :
    p ∈ pieces value l ↔ ∃ b ∈ l.blocks, p = .opening b ∨ p = .closing b ∨
      (∃ h, b.header = some h ∧ p = .header b h) ∨
        ∃ s ∈ l.symbols.inBlock b.name, ∃ type, storedType? s.kind = some type ∧
          p = .symbol s type (value s) := by
  rw [pieces, flatMap_groups, List.mem_flatMap]
  refine exists_congr fun b => and_congr_right fun _ => ?_
  rw [blockPieces, List.mem_cons, List.mem_append, List.mem_append, List.mem_flatMap, List.mem_map,
    List.mem_singleton]
  have hheader : (∃ h, h ∈ b.header.toList ∧ Piece.header b h = p) ↔
      ∃ h, b.header = some h ∧ p = .header b h :=
    exists_congr fun h => and_congr Option.mem_toList eq_comm
  simp only [mem_symbolPieces, hheader]
  exact or_congr_right or_comm

/-! ## Texts of pieces -/

theorem textOf_append (unit : Unit) (front back : List Piece) :
    textOf unit (front ++ back) = textOf unit front ++ textOf unit back := by
  rw [textOf, List.map_append, String.join_append]
  rfl

theorem textOf_cons (unit : Unit) (p : Piece) (rest : List Piece) :
    textOf unit (p :: rest) = p.text unit ++ textOf unit rest :=
  String.join_cons

theorem textOf_singleton (unit : Unit) (p : Piece) : textOf unit [p] = p.text unit :=
  (textOf_cons unit p []).trans String.append_empty

theorem concat_eq {α : Type} {f : α → Except Fault String} {g : α → List Piece} {unit : Unit}
    {items : List α} (h : ∀ x ∈ items, f x = .ok (textOf unit (g x))) :
    concat f items = .ok (textOf unit (items.flatMap g)) := by
  -- the text written so far goes in front of what is to come
  have hrun : ∀ text : String, items.foldlM (fun text item => (f item).map (text ++ ·)) text =
      .ok (text ++ textOf unit (items.flatMap g)) := by
    induction items with
    | nil => exact fun text => congrArg Except.ok (String.append_empty).symm
    | cons x rest ih =>
      intro text
      rw [List.foldlM_cons, h x List.mem_cons_self, List.flatMap_cons, textOf_append,
        ← String.append_assoc]
      exact ih (fun y hy => h y (List.mem_cons_of_mem _ hy)) _
  rw [concat, hrun, String.empty_append]

/-- A symbol has a value: its bytes are in the image and decode to it, in its own byte order. The header
of a block has no stored type and therefore no value to be asked for. -/
def HasValue (l : Layout) (s : Symbol) (value : Literal) : Prop :=
  ∀ type, storedType? s.kind = some type →
    ∃ bytes, l.symbolBytes? s = some bytes ∧ type.decode s.byteOrder bytes = .ok value

/-- **An initializer is a function of the value**, also where it is written from the bytes. What is shown
of the file can therefore be told by the values alone. -/
theorem initializer_eq {type : StoredType} {order : ByteOrder} {bytes : List UInt8} {value : Literal}
    (h : type.decode order bytes = .ok value) : initializer value bytes = initializerOf value := by
  cases value with
  | str s => rw [initializer, initializerOf, stringLiteral, StoredType.dropPadding_of_decode h]
  | int _ | float _ | array _ => rfl

theorem symbolText_eq {l : Layout} {s : Symbol} {value : Symbol → Literal}
    (h : HasValue l s (value s)) (unit : Unit) :
    symbolText l unit s = .ok (textOf unit (symbolPieces value s)) := by
  unfold symbolText symbolPieces
  cases htype : storedType? s.kind with
  | none => rfl
  | some type =>
    obtain ⟨bytes, hbytes, hdecode⟩ := h type htype
    rw [Option.map_some, Option.toList_some, textOf_singleton]
    cases unit with
    | header => rfl
    | source =>
      dsimp only [symbolValue, Piece.text]
      rw [hbytes]
      dsimp only
      rw [hdecode]
      dsimp only
      rw [initializer_eq hdecode]
      rfl

theorem blockText_eq {l : Layout} {value : Symbol → Literal}
    (h : ∀ s ∈ l.symbols.entries, HasValue l s (value s)) (unit : Unit) (b : BlockRecord) :
    blockText l unit b = .ok (textOf unit (blockPieces value l b)) := by
  have hsymbols : concat (symbolText l unit) (l.symbols.inBlock b.name) =
      .ok (textOf unit ((l.symbols.inBlock b.name).flatMap (symbolPieces value))) :=
    concat_eq fun s hs => symbolText_eq (h s (SymbolTable.mem_inBlock.1 hs).1) unit
  unfold blockText blockPieces
  rw [hsymbols, textOf_cons, textOf_append, textOf_append, textOf_singleton]
  -- both sides are the same four texts in the same order
  have hassoc : ∀ o h s c : String, o ++ h ++ s ++ c = o ++ (h ++ s ++ c) := fun o h s c => by
    rw [String.append_assoc, String.append_assoc, String.append_assoc]
  cases b.header with
  | none => exact congrArg Except.ok (hassoc (openingText b) "" _ (closingText b))
  | some header =>
    have hone := textOf_singleton unit (.header b header)
    rw [Option.toList_some, List.map_singleton, hone]
    exact congrArg Except.ok (hassoc (openingText b) (headerText unit b header) _ (closingText b))

theorem blocksText_eq {l : Layout} {value : Symbol → Literal}
    (h : ∀ s ∈ l.symbols.entries, HasValue l s (value s)) (unit : Unit) :
    blocksText l unit = .ok (textOf unit (pieces value l)) :=
  concat_eq fun b _ => blockText_eq h unit b

/-! ## Files -/

def preamble (ctx : Context) : String :=
  let header := ctx.file "h"
  banner ctx [] ++ s!"#include \"{header}\"\n\n"

/-- **The source of a layout whose symbols have values is written**, and is the text of its pieces. What
can fail in the writer is the reading and decoding of bytes, and with values both are known to succeed. -/
theorem write_eq {l : Layout} {value : Symbol → Literal}
    (h : ∀ s ∈ l.symbols.entries, HasValue l s (value s)) (ctx : Context) :
    write l ctx = .ok (preamble ctx ++ textOf .source (pieces value l)) := by
  unfold write
  rw [blocksText_eq h]
  rfl

end Output.CSource

/-! ## Symbols of a compiled layout -/

/-- A symbol lies inside one segment, with as many bytes as its type has; those of a text are UTF-8 up to
the last byte that is not zero. -/
structure Layout.Stored (l : Layout) (s : Symbol) : Prop where
  stop : s.stop ≤ 0x100000000
  sized : s.size.toNat = s.kind.size
  bytes : ∃ segment ∈ l.image.segments, ∃ bytes,
    segment.base.toNat ≤ s.address.toNat ∧ s.stop ≤ segment.stop ∧
      (segment.bytes.drop (s.address.toNat - segment.base.toNat)).take s.size.toNat = bytes ∧
      bytes.length = s.kind.size ∧ l.symbolBytes? s = some bytes ∧
      ∀ n, s.kind = .parameter (.text n) → ∃ text, Text.ofUtf8? (dropPadding bytes) = some text

open Output.CSource in
/-- What an element has laid is as long as its kind, and decodes if the kind has values. The kinds of
symbols are settled when they are declared, so nothing is decoded with a type it was not encoded with. -/
theorem Element.decodes_of_laid {c : Container} {b : Block} {base : UInt32} {bytes : List UInt8}
    {e : Element} {q : Patch} (h : e.Laid c b base bytes q) :
    q.bytes.length = q.symbol.kind.size ∧
      ∀ type, storedType? q.symbol.kind = some type →
        ∃ value, type.decode q.symbol.byteOrder q.bytes = .ok value := by
  match e with
  | .header first =>
    rw [h]
    exact ⟨Header.length_bytes first b.length b.byteOrder, fun type htype => nomatch htype⟩
  | .field (.parameter p) =>
    obtain ⟨place, type, hocc, -, hencode, hsymbol⟩ := h
    have hkind : q.symbol.kind = .parameter type := by
      rw [hsymbol, PlacedField.symbol, hocc]
      rfl
    rw [hkind]
    refine ⟨StoredType.length_of_encode hencode, fun other hother => ?_⟩
    cases hother
    exact StoredType.decode_of_encode hencode q.symbol.byteOrder
  | .field (.checksum k) =>
    obtain ⟨job, rfl, hsound, sum, -, rfl⟩ := h
    have hkind : (job.place.symbol c b b.byteOrder).kind = .checksum job.checksum.type := by
      rw [PlacedField.symbol, hsound.occupant]
      rfl
    have hlen := ByteOrder.length_bytes b.byteOrder job.checksum.type.size sum
    dsimp only
    rw [hkind]
    refine ⟨hlen, fun type htype => ?_⟩
    cases htype
    exact ⟨_, StoredType.decode_scalar_eq_ok.2 ⟨hlen, rfl⟩⟩

variable {d : Declaration} {l : Layout}

section

variable {parts : List Part} (h : Consists parts l.image l.symbols l.blocks) {s : Symbol}
  (hs : s ∈ l.symbols.entries)
include h hs

theorem Consists.hasValue : ∃ value, Output.CSource.HasValue l s value := by
  obtain ⟨p, hp, q, hq, rfl⟩ := h.mem_symbols.1 hs
  obtain ⟨e, -, hlaid⟩ := h.exists_element hp hq
  have hdecodes := (Element.decodes_of_laid hlaid).2
  unfold Output.CSource.HasValue
  cases htype : Output.CSource.storedType? q.symbol.kind with
  | none => exact ⟨.int 0, fun type hother => nomatch hother⟩
  | some type =>
    obtain ⟨value, hvalue⟩ := hdecodes type htype
    refine ⟨value, fun other hother => ?_⟩
    cases hother
    exact ⟨q.bytes, h.symbolBytes?_eq hp hq, hvalue⟩

theorem Consists.stored : l.Stored s := by
  obtain ⟨p, hp, q, hq, rfl⟩ := h.mem_symbols.1 hs
  obtain ⟨e, -, hlaid⟩ := h.exists_element hp hq
  obtain ⟨hlen, hdecodes⟩ := Element.decodes_of_laid hlaid
  have hfits := h.fits hp hq
  have hstop := h.stops p hp
  have hends : q.symbol.stop ≤ p.place.stop := hfits.ends
  have hwindow := h.window_patch hp hq
  rw [hfits.sized] at hwindow
  refine ⟨Nat.le_trans hends hstop, hfits.sized.symm.trans hlen, p.segment,
    h.segment_mem hp hfits.low hfits.starts, q.bytes, hfits.low, ?_, hwindow, hlen,
    h.symbolBytes?_eq hp hq, fun n hkind => ?_⟩
  · rw [Part.span_segment hstop]
    exact hends
  -- a text decodes only if it is UTF-8 without its padding
  · obtain ⟨value, hvalue⟩ := hdecodes (.text n) (by rw [hkind]; rfl)
    unfold StoredType.decode at hvalue
    split at hvalue
    · cases hvalue
    · dsimp only at hvalue
      split at hvalue
      · rename_i text htext
        exact ⟨text, htext⟩
      · cases hvalue

omit hs in
theorem Consists.exists_values :
    ∃ value : Symbol → Literal, ∀ s ∈ l.symbols.entries, Output.CSource.HasValue l s (value s) := by
  have hvalues : ∀ s, ∃ value, s ∈ l.symbols.entries → Output.CSource.HasValue l s value := by
    intro s
    by_cases hs : s ∈ l.symbols.entries
    · obtain ⟨value, hvalue⟩ := h.hasValue hs
      exact ⟨value, fun _ => hvalue⟩
    · exact ⟨.int 0, fun hmem => absurd hmem hs⟩
  choose value hvalue using hvalues
  exact ⟨value, hvalue⟩

end

open Output CSource in
/-- **The C source of a compiled layout can be written**, for every context. No symbol is without
bytes and no bytes are without a value: every symbol lies inside one segment with as many bytes as its
type has, and every initializer in the text is that of the value its bytes decode to in the symbol's
own byte order. -/
theorem Declaration.writes_source (h : d.compile = .ok l) :
    (∀ s ∈ l.symbols.entries, l.Stored s) ∧
      ∃ value : Symbol → Literal, (∀ s ∈ l.symbols.entries, HasValue l s (value s)) ∧
        ∀ ctx, write l ctx = .ok (preamble ctx ++ textOf .source (pieces value l)) := by
  obtain ⟨hconsists, -⟩ := d.consists_of_compile h
  obtain ⟨value, hvalue⟩ := hconsists.exists_values
  exact ⟨fun s hs => hconsists.stored hs, value, hvalue, write_eq hvalue⟩

namespace Specimen

/-- A text with a null character of its own at its end, an array in the other byte order, a text without
bytes and the last byte of the address space. -/
def legend : Block :=
  { name := "legend"
    length := 16
    fields :=
      [.parameter
         { name := "unit"
           offset := .next
           type := .text (some 6)
           align := 1
           value := .str "\u00B5m\x00"
           byteOrder := none
           comment := some "micrometre" },
       .parameter
         { name := "range"
           offset := .next
           type := .scalar .i16
           align := 2
           value := .array [.int (-2), .int 513]
           byteOrder := some .big
           comment := none },
       .parameter
         { name := "note"
           offset := .fixed 15
           type := .text (some 0)
           align := 1
           value := .str ""
           byteOrder := none
           comment := none },
       .parameter
         { name := "revision"
           offset := .fixed 15
           type := .scalar .u8
           align := 1
           value := .int 7
           byteOrder := none
           comment := none }] }

def inscribed : Declaration :=
  { containers := [{ name := "top", base := 0xFFFFFFF0, blocks := [legend] }] }

theorem inscribed_writes_source : ∃ l, inscribed.compile = .ok l ∧
    (∀ s ∈ l.symbols.entries, l.Stored s) ∧
      ∃ value : Symbol → Literal,
        (∀ s ∈ l.symbols.entries, Output.CSource.HasValue l s (value s)) ∧
        ∀ ctx, Output.CSource.write l ctx =
          .ok (Output.CSource.preamble ctx
            ++ Output.CSource.textOf .source (Output.CSource.pieces value l)) := by
  obtain ⟨l, hl⟩ := Declaration.exists_of_isOk_compile (d := inscribed) (by decide +kernel)
  exact ⟨l, hl, Declaration.writes_source hl⟩

end Specimen

end FlashParams
