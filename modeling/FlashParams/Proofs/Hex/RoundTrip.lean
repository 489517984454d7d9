import FlashParams.Hex.Read
import FlashParams.Hex.Write
import FlashParams.Proofs.Hex.Record
import FlashParams.Proofs.Image.Pieces
import FlashParams.Proofs.Text.Utf8

/-!
# Reading an image undoes writing it

Writer and reader both keep an upper half of addresses, and they keep it apart from each other: the
writer to decide whether a base record is due, the reader to complete the addresses of data records.
`Reader.At` is what ties them. While a written text is read, the reader's base is always the upper half
that was in force for the writer, so the address completed is the one the writer cut the record at.

What the reader collects are therefore the writer's records with their full addresses. They *cut* the
bytes of each segment into consecutive pieces (`Cuts`), which are in order and have the same bytes at
the same addresses as the segments; and ordered pieces make an image of just these bytes
(`Image.bytes_ofPieces`). The segments may be others: two that touch are written one after the other,
and the reader cannot know that there were two.
-/

set_option autoImplicit false

namespace FlashParams

/-! ## Pieces of a run of bytes -/

/-- Consecutive pieces that are together the bytes at an address. The writer cuts a segment where its
records end, and this is all that is remembered of where that is. -/
inductive Cuts : Nat → List UInt8 → List Segment → Prop where
  | nil {a : Nat} : Cuts a [] []
  | cons {s : Segment} {data : List UInt8} {pieces : List Segment} :
      s.bytes ≠ [] → s.stop ≤ 0x100000000 → Cuts s.stop data pieces →
      Cuts s.base.toNat (s.bytes ++ data) (s :: pieces)

namespace Cuts

variable {a : Nat} {data : List UInt8} {pieces : List Segment}

theorem eq_nil (h : Cuts a [] pieces) : pieces = [] := by
  generalize hempty : ([] : List UInt8) = bytes at h
  cases h with
  | nil => rfl
  | cons hne _ _ => exact absurd (List.append_eq_nil_iff.1 hempty.symm).1 hne

theorem within (h : Cuts a data pieces) :
    ∀ s ∈ pieces, a ≤ s.base.toNat ∧ s.stop ≤ a + data.length := by
  induction h with
  | nil => exact List.forall_mem_nil _
  | @cons t data rest hne hstop _ ih =>
    intro s hs
    have hend : t.stop + data.length = t.base.toNat + (t.bytes ++ data).length := by
      rw [List.length_append, Segment.stop, Nat.add_assoc]
    rcases List.mem_cons.1 hs with rfl | hs
    · exact ⟨Nat.le_refl _, by omega⟩
    · have hlow : t.base.toNat ≤ t.stop := Nat.le_add_right _ _
      obtain ⟨hfirst, hlast⟩ := ih s hs
      exact ⟨by omega, by omega⟩

theorem ordered (h : Cuts a data pieces) : Ordered pieces := by
  induction h with
  | nil => exact .nil
  | cons hne hstop hrest ih => exact ih.cons hne hstop fun t ht => (hrest.within t ht).1

theorem bytes (h : Cuts a data pieces) :
    pieces.flatMap Image.segmentBytes = Image.bytesFrom a data := by
  induction h with
  | nil => rfl
  | cons _ _ _ ih =>
    rw [List.flatMap_cons, ih, Image.bytesFrom_append]
    rfl

theorem of_take {n : Nat} {s : Segment} (hbase : s.base.toNat = a) (hbytes : s.bytes = data.take n)
    (hne : s.bytes ≠ []) (hstop : s.stop ≤ 0x100000000) (h : Cuts (a + n) (data.drop n) pieces) :
    Cuts a data (s :: pieces) := by
  rw [← hbase, ← List.take_append_drop n data, ← hbytes]
  refine .cons hne hstop ?_
  by_cases hall : data.length ≤ n
  · have hnone : data.drop n = [] := List.drop_eq_nil_of_le hall
    rw [hnone] at h ⊢
    rw [h.eq_nil]
    exact .nil
  · have hlen : s.bytes.length = n := by
      rw [hbytes, List.length_take, Nat.min_eq_left (by omega)]
    rwa [Segment.stop, hbase, hlen]

end Cuts

namespace Hex

/-! ## The records of a run of bytes -/

def pieceRecords (upper address : Nat) (data : List UInt8) : List Record :=
  (if address / bank ≠ upper then [upperRecord (address / bank)] else [])
    ++ [⟨UInt16.ofNat (address % bank), kindData, data⟩]

theorem recordsAt_nil (upper address : Nat) : recordsAt upper address [] = ([], upper) := by
  rw [recordsAt, if_pos rfl]

theorem recordsAt_of_ne_nil {data : List UInt8} (h : data ≠ []) (upper address : Nat) :
    recordsAt upper address data =
      (pieceRecords upper address (data.take (room address))
        ++ (recordsAt (address / bank) (address + room address) (data.drop (room address))).1,
      (recordsAt (address / bank) (address + room address) (data.drop (room address))).2) := by
  rw [recordsAt, if_neg h]
  exact Prod.ext (List.append_cons _ _ _) rfl

theorem recordsOf_cons (upper : Nat) (s : Segment) (rest : List Segment) :
    recordsOf upper (s :: rest) = (recordsAt upper s.base.toNat s.bytes).1
      ++ recordsOf (recordsAt upper s.base.toNat s.bytes).2 rest :=
  rfl

/-! ## A reader that follows a writer -/

namespace Reader

/-- A reader of written records. `upper` is in force for the writer and the base belongs to it, so a data
record is completed to the address it was cut at. -/
structure At (r : Reader) (upper : Nat) (pieces : List Segment) : Prop where
  base : r.base.toNat = upper * bank
  data : r.data.reverse = pieces
  startAddress : r.startAddress = none
  ended : r.ended = false

def linesOf (records : List Record) : List (Option (List Char)) :=
  records.map fun item => some item.write

theorem linesOf_append (front back : List Record) :
    linesOf (front ++ back) = linesOf front ++ linesOf back :=
  List.map_append

variable {r : Reader} {upper : Nat} {pieces : List Segment}

/-- A line that was written for a record is taken for that record, from any state that has not ended: it
is not blank, and it has no white space around it. -/
theorem line_write (h : r.ended = false) (number : Nat) {item : Record}
    (hlen : item.data.length < 256) :
    r.line number (some item.write) = r.record number item := by
  unfold line
  dsimp only
  rw [Record.trim_write, if_neg Record.write_ne_nil, h, if_neg Bool.false_ne_true,
    Record.read_write number hlen]

theorem lines_cons {number : Nat} {content : Option (List Char)} {next : Reader}
    (h : r.line number content = .ok next) (rest : List (Option (List Char))) :
    r.lines number (content :: rest) = next.lines (number + 1) rest := by
  rw [lines, h]

theorem At.record_upper (h : r.At upper pieces) (number : Nat) {next : Nat} (hnext : next < bank) :
    ∃ r' : Reader, r.record number (upperRecord next) = .ok r' ∧ r'.At next pieces := by
  have hword : (upperRecord next).word number = .ok (UInt16.ofNat next) :=
    congrArg Except.ok (wordOf_wordBytes (UInt16.ofNat next))
  have hbase : (UInt32.ofNat ((UInt16.ofNat next).toNat * 0x10000)).toNat = next * bank := by
    rw [UInt16.toNat_ofNat_of_lt' hnext]
    exact UInt32.toNat_ofNat_of_lt' (by simp only [UInt32.size, bank] at *; omega)
  refine ⟨{ r with base := UInt32.ofNat ((UInt16.ofNat next).toNat * 0x10000) }, ?_,
    hbase, h.data, h.startAddress, h.ended⟩
  have hkind : (upperRecord next).kind = kindLinearBase := rfl
  unfold record
  rw [hkind, if_neg (by decide), if_neg (by decide), if_neg (by decide), if_pos rfl, hword]
  rfl

theorem At.lines_change (h : r.At upper pieces) (number : Nat) {next : Nat} (hnext : next < bank) :
    ∃ (r' : Reader) (number' : Nat), (∀ tail,
      r.lines number (linesOf (if next ≠ upper then [upperRecord next] else []) ++ tail) =
        r'.lines number' tail) ∧ r'.At next pieces := by
  by_cases hsame : next = upper
  · rw [if_neg (not_not_intro hsame)]
    exact ⟨r, number, fun _ => rfl, hsame ▸ h⟩
  · obtain ⟨r', hrecord, hat⟩ := h.record_upper number hnext
    have hshort : (upperRecord next).data.length < 256 := by
      show 2 < 256
      decide
    have hline : r.line number (some (upperRecord next).write) = .ok r' := by
      rw [line_write h.ended number hshort, hrecord]
    rw [if_pos hsame]
    exact ⟨r', number + 1, fun tail => lines_cons hline tail, hat⟩

/-- A data record is completed to the address it was cut at: the address of the record is the remainder
by the bank, and the base in force is the rest. -/
theorem At.record_data {address : Nat} (h : r.At (address / bank) pieces) (number : Nat)
    {data : List UInt8} (hne : data ≠ []) (hstop : address + data.length ≤ 0x100000000) :
    ∃ (r' : Reader) (s : Segment),
      r.record number ⟨UInt16.ofNat (address % bank), kindData, data⟩ = .ok r' ∧
      s.base.toNat = address ∧ s.bytes = data ∧ r'.At (address / bank) (pieces ++ [s]) := by
  have hpos := List.length_pos_iff.2 hne
  have hlow : (UInt16.ofNat (address % bank)).toNat = address % bank :=
    UInt16.toNat_ofNat_of_lt' (Nat.mod_lt _ (by decide))
  -- upper half and lower half put together give the address again, without wrapping
  have haddress : (r.base + (UInt16.ofNat (address % bank)).toUInt32).toNat = address := by
    rw [UInt32.toNat_add, h.base, UInt16.toNat_toUInt32, hlow, Nat.div_add_mod']
    exact Nat.mod_eq_of_lt (by omega)
  have hspace : inAddressSpace (r.base + (UInt16.ofNat (address % bank)).toUInt32) data.length =
      true := by
    rw [inAddressSpace, haddress]
    exact decide_eq_true hstop
  refine ⟨_, ⟨r.base + (UInt16.ofNat (address % bank)).toUInt32, data⟩, if_pos hspace, haddress,
    rfl, h.base, ?_, h.startAddress, h.ended⟩
  show (_ :: r.data).reverse = _
  rw [List.reverse_cons, h.data]

theorem At.lines_piece (h : r.At upper pieces) (number address : Nat) {data : List UInt8}
    (hne : data ≠ []) (hshort : data.length < 256) (hstop : address + data.length ≤ 0x100000000) :
    ∃ (r' : Reader) (s : Segment) (number' : Nat), (∀ tail,
      r.lines number (linesOf (pieceRecords upper address data) ++ tail) = r'.lines number' tail) ∧
      s.base.toNat = address ∧ s.bytes = data ∧ r'.At (address / bank) (pieces ++ [s]) := by
  have hpos := List.length_pos_iff.2 hne
  have hbank : address / bank < bank := by
    unfold bank
    omega
  obtain ⟨r₁, number₁, hlines, hat₁⟩ := h.lines_change number hbank
  obtain ⟨r₂, s, hrecord, hbase, hbytes, hat₂⟩ := hat₁.record_data number₁ hne hstop
  have hline : r₁.line number₁ (some (Record.write
      ⟨UInt16.ofNat (address % bank), kindData, data⟩)) = .ok r₂ := by
    rw [line_write hat₁.ended number₁ hshort, hrecord]
  refine ⟨r₂, s, number₁ + 1, fun tail => ?_, hbase, hbytes, hat₂⟩
  rw [pieceRecords, linesOf_append, List.append_assoc, hlines]
  exact lines_cons hline tail

/-- **A reader follows the writer through a run of bytes.** What it collects cuts these bytes, and at
the end the same upper half is in force for both. -/
theorem lines_recordsAt {r : Reader} {upper : Nat} {pieces : List Segment} (address : Nat)
    (data : List UInt8) (hstop : address + data.length ≤ 0x100000000) (h : r.At upper pieces)
    (number : Nat) (rest : List (Option (List Char))) :
    ∃ (r' : Reader) (more : List Segment) (number' : Nat),
      r.lines number (linesOf (recordsAt upper address data).1 ++ rest) =
        r'.lines number' rest ∧
      r'.At (recordsAt upper address data).2 (pieces ++ more) ∧ Cuts address data more := by
  by_cases hne : data = []
  · subst hne
    rw [recordsAt_nil]
    exact ⟨r, [], number, rfl, by rwa [List.append_nil], .nil⟩
  · have hpos := List.length_pos_iff.2 hne
    have hroom := room_pos address
    have hlen : (data.take (room address)).length = min (room address) data.length :=
      List.length_take
    have hshort : room address ≤ recordLength := Nat.min_le_left _ _
    have htop : address + room address ≤ 0x100000000 := by
      unfold room bank
      omega
    have htake : data.take (room address) ≠ [] := by
      rw [← List.length_pos_iff]
      omega
    obtain ⟨r₁, s, number₁, hlines₁, hbase, hbytes, hat₁⟩ :=
      h.lines_piece number address htake (by unfold recordLength at hshort; omega) (by omega)
    -- then the records of the bytes left over
    obtain ⟨r₂, more, number₂, hlines₂, hat₂, hcuts⟩ := lines_recordsAt (address + room address)
      (data.drop (room address)) (by rw [List.length_drop]; omega) hat₁ number₁ rest
    have hend : s.stop ≤ 0x100000000 := by
      rw [Segment.stop, hbase, hbytes]
      omega
    refine ⟨r₂, s :: more, number₂, ?_, ?_, .of_take hbase hbytes (hbytes ▸ htake) hend hcuts⟩
    · rw [recordsAt_of_ne_nil hne, linesOf_append, List.append_assoc]
      exact (hlines₁ _).trans hlines₂
    · rw [recordsAt_of_ne_nil hne]
      rwa [List.append_assoc, List.singleton_append] at hat₂
termination_by data.length
decreasing_by
  have := room_pos address
  have := List.length_pos_iff.2 hne
  rw [List.length_drop]
  omega

/-- The same for segments in order. The pieces are in order too, and start no earlier than the first
segment does, which is what keeps the pieces of one segment in front of those of the next. -/
theorem At.lines_recordsOf {segments : List Segment} (hsegments : Ordered segments)
    (h : r.At upper pieces) (number : Nat) (rest : List (Option (List Char))) :
    ∃ (r' : Reader) (upper' : Nat) (more : List Segment) (number' : Nat),
      r.lines number (linesOf (recordsOf upper segments) ++ rest) = r'.lines number' rest ∧
      r'.At upper' (pieces ++ more) ∧ Ordered more ∧
      (∀ t ∈ more, ∃ s ∈ segments, s.base.toNat ≤ t.base.toNat) ∧
      more.flatMap Image.segmentBytes = segments.flatMap Image.segmentBytes := by
  induction segments generalizing r upper pieces number with
  | nil =>
    exact ⟨r, upper, [], number, rfl, by rwa [List.append_nil], hsegments,
      List.forall_mem_nil _, rfl⟩
  | cons s segments ih =>
    obtain ⟨r₁, front, number₁, hlines₁, hat₁, hcuts⟩ := lines_recordsAt s.base.toNat s.bytes
      (hsegments.inside s List.mem_cons_self) h number
      (linesOf (recordsOf (recordsAt upper s.base.toNat s.bytes).2 segments) ++ rest)
    obtain ⟨r₂, upper', back, number₂, hlines₂, hat₂, hordered, hlow, hbytes⟩ :=
      ih hsegments.tail hat₁ number₁
    have hafter := (List.pairwise_cons.1 hsegments.disjoint).1
    have hwithin := hcuts.within
    refine ⟨r₂, upper', front ++ back, number₂, ?_, ?_, ?_, ?_, ?_⟩
    · rw [← hlines₂, ← hlines₁, ← List.append_assoc, recordsOf_cons, linesOf_append]
    · rwa [← List.append_assoc]
    · refine hcuts.ordered.append hordered fun t ht u hu => ?_
      -- a later piece starts no earlier than a later segment, an earlier one ends where this segment does
      obtain ⟨v, hv, hvu⟩ := hlow u hu
      have hend := (hwithin t ht).2
      have hnext := hafter v hv
      rw [Segment.stop] at hnext
      omega
    · intro t ht
      rcases List.mem_append.1 ht with ht | ht
      · exact ⟨s, List.mem_cons_self, (hwithin t ht).1⟩
      · obtain ⟨v, hv, hvt⟩ := hlow t ht
        exact ⟨v, List.mem_cons_of_mem _ hv, hvt⟩
    · rw [List.flatMap_append, hcuts.bytes, hbytes]
      rfl

theorem At.lines_end (h : r.At upper pieces) (number : Nat) :
    r.lines number (linesOf [endRecord] ++ [some []]) = .ok { r with ended := true } := by
  have hline : r.line number (some endRecord.write) = .ok { r with ended := true } := by
    rw [line_write h.ended number (by decide)]
    rfl
  exact lines_cons hline [some []]

end Reader

/-- The lines of written records, and the empty piece after the last line end. The reader splits at line
ends and the writer puts one behind every record, so there is always an empty line at the end. -/
theorem splitWhere_text (records : List Record) :
    (Text.splitWhere (· == '\n') (text records)).map some =
      Reader.linesOf records ++ [some []] := by
  have htext : text records = (records.map Record.write).flatMap (· ++ ['\n']) := by
    unfold text
    rw [List.flatMap_map]
  have hclean : ∀ l ∈ records.map Record.write, ∀ c ∈ l, (c == '\n') = false := by
    intro l hl
    obtain ⟨item, -, rfl⟩ := List.mem_map.1 hl
    exact Record.newline_not_mem_write
  rw [htext, Text.splitWhere_closed hclean rfl, List.map_append, List.map_map]
  rfl

theorem readBytes_utf8Bytes (s : String) : readBytes (Text.utf8Bytes s) = readChars s.toList := by
  unfold readBytes readChars
  rw [Text.splitWhere_utf8Bytes]

/-- What is read from the text of an image: ordered pieces with the bytes of the image, one for each data
record. Putting them together is a matter of images and no longer of text. -/
theorem exists_pieces {m : Image} (hm : m.WellFormed) :
    ∃ pieces, readBytes (Text.utf8Bytes (write m)) = .ok ⟨.ofPieces pieces, none, pieces.length⟩ ∧
      Ordered pieces ∧ pieces.flatMap Image.segmentBytes = m.bytes := by
  have hstart : Reader.At {} 0 [] := ⟨rfl, rfl, rfl, rfl⟩
  obtain ⟨r, upper, pieces, number, hlines, hat, hordered, -, hbytes⟩ :=
    hstart.lines_recordsOf hm.ordered 1 (Reader.linesOf [endRecord] ++ [some []])
  have hread : Reader.lines {} 1 (Reader.linesOf (records m) ++ [some []]) =
      .ok { r with ended := true } := by
    rw [← hat.lines_end number, ← hlines, ← List.append_assoc, ← Reader.linesOf_append]
    rfl
  have hdata : r.data.reverse = pieces := hat.data
  have hfile : { r with ended := true }.file = ⟨.ofPieces pieces, none, pieces.length⟩ := by
    rw [← hdata, List.length_reverse, ← hat.startAddress]
    rfl
  refine ⟨pieces, ?_, hordered, hbytes⟩
  rw [readBytes_utf8Bytes, write, String.toList_ofList]
  unfold readChars
  rw [splitWhere_text]
  unfold readLines
  rw [hread]
  exact congrArg Except.ok hfile

/-- **Reading the text of an image gives back its bytes.** Segments that touch come back as one, so
images are compared by their bytes; the check over an image goes by bytes too and is the same. -/
theorem readBytes_write {m : Image} (hm : m.WellFormed) :
    ∃ f, readBytes (Text.utf8Bytes (write m)) = .ok f ∧ f.image.bytes = m.bytes ∧
      f.startAddress = none ∧ imageCheck f.image = imageCheck m := by
  obtain ⟨pieces, hread, hordered, hbytes⟩ := exists_pieces hm
  have himage : (Image.ofPieces pieces).bytes = m.bytes := by
    rw [Image.bytes_ofPieces hordered, hbytes]
  refine ⟨_, hread, himage, rfl, ?_⟩
  show (Crc.crc32.checksum (Image.ofPieces pieces).content).toNat = _
  rw [Image.content_eq, himage, ← Image.content_eq]
  rfl

end Hex

namespace Specimen

def edges : Image :=
  ⟨[⟨0xFFFE, [1, 2, 3, 4]⟩, ⟨0x10002, [5]⟩, ⟨0xFFFFFFFF, [6]⟩], by unfold Ascending; decide⟩

theorem edges_wellFormed : edges.WellFormed :=
  ⟨by decide, by decide, by decide⟩

theorem readBytes_edges :
    ∃ f, Hex.readBytes (Text.utf8Bytes (Hex.write edges)) = .ok f ∧ f.image.bytes = edges.bytes ∧
      f.startAddress = none ∧ Hex.imageCheck f.image = Hex.imageCheck edges :=
  Hex.readBytes_write edges_wellFormed

end Specimen

end FlashParams
