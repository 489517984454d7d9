import FlashParams.Proofs.Hex.RoundTrip
import FlashParams.Proofs.Image.Runs

/-!
# The last record counts

What a file says is a matter of its records alone. A data record has bytes for the addresses from its own
16-bit address on, added to a base, and the base is the one that the latest base record in front of it
sets (`baseAfter`). Where several records have a byte for one address, the last of them counts
(`LastByte`). Neither says anything about segments.

A reader keeps up with that line by line. `Reader.Tracks` ties it to the records read so far: it adds to
the same base, and its pieces, the last one first, give each address the byte of the last record
(`Tracks.record`). A sum of a base and a 16-bit address does not wrap (`baseAfter_le`), which is why the
reader may add in 32 bits. The image of the pieces is then a matter of `Image.ofPieces_spec`: without
seams, hence determined by its map, however the records were ordered, cut or repeated.
-/

set_option autoImplicit false

namespace FlashParams

namespace Hex

/-! ## What records say -/

/-- The address a record makes the base of those after it, if it is a base record. It is read off the
record alone, so what a file says can be told without running the reader. -/
def Record.base? (r : Record) : Option Nat :=
  match r.data with
  | [high, low] =>
    if r.kind = kindSegmentBase then some ((wordOf high low).toNat * 0x10)
    else if r.kind = kindLinearBase then some ((wordOf high low).toNat * 0x10000)
    else none
  | _ => none

def baseAfter (records : List Record) : Nat :=
  (records.filterMap Record.base?).getLast?.getD 0

/-- The byte a record has for an address when a base is in force. The address of a record is not wrapped
around at the end of its bank; a record that reaches beyond goes on in the next one. -/
def Record.byteAt? (r : Record) (base x : Nat) : Option UInt8 :=
  if r.kind = kindData ∧ base + r.address.toNat ≤ x then r.data[x - (base + r.address.toNat)]?
  else none

def byteFrom? (records : List Record) (i x : Nat) : Option UInt8 :=
  records[i]?.bind fun r => r.byteAt? (baseAfter (records.take i)) x

/-- The last record that has a byte for an address has this one. That is the meaning of a file here: a
map, given by its records in order, with nothing about segments in it. -/
def LastByte (records : List Record) (x : Nat) (b : UInt8) : Prop :=
  ∃ i, byteFrom? records i x = some b ∧ ∀ j, i < j → byteFrom? records j x = none

/-- The record in a line, if there is one. Its number is not asked for, because faults name lines and
records do not. -/
def recordOf? (line : List UInt8) : Option Record :=
  (Text.ofUtf8? line).bind fun s => (Record.read 0 (Text.trim s.toList)).toOption

def Blank (line : List UInt8) : Prop :=
  ∃ s, Text.ofUtf8? line = some s ∧ Text.trim s.toList = []

def recordsIn (content : List UInt8) : List Record :=
  (Text.splitWhere (· == 0x0A) content).filterMap recordOf?

/-! ## One more record -/

section

variable {records : List Record} {item : Record} {i x : Nat} {b : UInt8}

theorem baseAfter_concat :
    baseAfter (records ++ [item]) = item.base?.getD (baseAfter records) := by
  unfold baseAfter
  rw [List.filterMap_append]
  cases hbase : item.base? with
  | none => rw [List.filterMap_cons_none hbase, List.filterMap_nil, List.append_nil]; rfl
  | some a =>
    rw [List.filterMap_cons_some hbase, List.filterMap_nil, List.getLast?_concat]
    rfl

theorem Record.base?_le {a : Nat} (h : item.base? = some a) : a ≤ 0xFFFF0000 := by
  unfold Record.base? at h
  split at h
  · rename_i high low _
    have hword := (wordOf high low).toNat_lt
    split at h
    · cases h
      omega
    · split at h
      · cases h
        omega
      · cases h
  · cases h

theorem baseAfter_le (records : List Record) : baseAfter records ≤ 0xFFFF0000 := by
  unfold baseAfter
  cases hlast : (records.filterMap Record.base?).getLast? with
  | none => exact Nat.zero_le _
  | some a =>
    obtain ⟨r, -, hr⟩ := List.mem_filterMap.1 (List.mem_of_getLast? hlast)
    exact Record.base?_le hr

theorem byteFrom?_of_ge (hi : records.length ≤ i) : byteFrom? records i x = none := by
  rw [byteFrom?, List.getElem?_eq_none hi]
  rfl

theorem byteFrom?_concat_of_lt (hi : i < records.length) :
    byteFrom? (records ++ [item]) i x = byteFrom? records i x := by
  rw [byteFrom?, List.getElem?_append_left hi, List.take_append_of_le_length (Nat.le_of_lt hi)]
  rfl

theorem byteFrom?_concat_self :
    byteFrom? (records ++ [item]) records.length x = item.byteAt? (baseAfter records) x := by
  rw [byteFrom?, List.getElem?_concat_length, List.take_left']
  · rfl
  · rfl

theorem lastByte_concat :
    LastByte (records ++ [item]) x b ↔
      item.byteAt? (baseAfter records) x = some b ∨
        item.byteAt? (baseAfter records) x = none ∧ LastByte records x b := by
  have hlater : ∀ j, records.length < j → byteFrom? (records ++ [item]) j x = none := by
    intro j hj
    refine byteFrom?_of_ge ?_
    rw [List.length_append, List.length_singleton]
    exact hj
  constructor
  · rintro ⟨i, hi, hnone⟩
    rcases Nat.lt_trichotomy i records.length with hlt | rfl | hlt
    · right
      refine ⟨byteFrom?_concat_self.symm.trans (hnone _ hlt), i, ?_, fun j hj => ?_⟩
      · rwa [byteFrom?_concat_of_lt hlt] at hi
      · by_cases hin : j < records.length
        · exact (byteFrom?_concat_of_lt hin).symm.trans (hnone j hj)
        · exact byteFrom?_of_ge (Nat.le_of_not_lt hin)
    · left
      exact byteFrom?_concat_self.symm.trans hi
    · rw [hlater i hlt] at hi
      cases hi
  · rintro (hself | ⟨hself, i, hi, hnone⟩)
    · exact ⟨records.length, byteFrom?_concat_self.trans hself, hlater⟩
    · have hlt : i < records.length := by
        by_contra hge
        rw [byteFrom?_of_ge (Nat.le_of_not_lt hge)] at hi
        cases hi
      refine ⟨i, (byteFrom?_concat_of_lt hlt).trans hi, fun j hj => ?_⟩
      rcases Nat.lt_trichotomy j records.length with hin | rfl | hin
      · exact (byteFrom?_concat_of_lt hin).trans (hnone j hj)
      · exact byteFrom?_concat_self.trans hself
      · exact hlater j hin

end

/-! ## A reader keeps up -/

/-- Which line it is matters to faults only. The reader numbers lines and `recordOf?` does not, so the
two are compared through this. -/
theorem Record.toOption_read (number number' : Nat) (chars : List Char) :
    (Record.read number chars).toOption = (Record.read number' chars).toOption := by
  have hbytes : ∀ bytes, (Record.ofBytes number bytes).toOption =
      (Record.ofBytes number' bytes).toOption := by
    intro bytes
    unfold Record.ofBytes
    split
    · dsimp only
      split
      · rfl
      · split
        · rfl
        · split <;> rfl
    · rfl
  unfold Record.read
  split
  · split
    · rfl
    · exact hbytes _
  · rfl

theorem Record.word_eq_ok {item : Record} {number : Nat} {w : UInt16}
    (h : item.word number = .ok w) : ∃ high low, item.data = [high, low] ∧ w = wordOf high low := by
  unfold Record.word at h
  split at h
  · rename_i high low hdata
    cases h
    exact ⟨high, low, hdata, rfl⟩
  · cases h

namespace Reader

variable {r r' : Reader} {records : List Record} {item : Record} {number : Nat}

def piece (r : Reader) (item : Record) : Segment :=
  ⟨r.base + item.address.toUInt32, item.data⟩

/-- A base record sets the base that it has. Both kinds do, with different scales, and neither can leave
the 32 bits. -/
theorem base_of_word {scale : Nat} (hscale : 0xFFFF * scale < 0x100000000)
    (hitem : ∀ high low, item.data = [high, low] →
      item.base? = some ((wordOf high low).toNat * scale))
    (h : (item.word number).map (fun w => { r with base := UInt32.ofNat (w.toNat * scale) }) =
      .ok r') : r'.data = r.data ∧ item.base? = some r'.base.toNat := by
  cases hword : item.word number with
  | error fault =>
    rw [hword] at h
    cases h
  | ok w =>
    rw [hword] at h
    cases h
    obtain ⟨high, low, hdata, rfl⟩ := Record.word_eq_ok hword
    have hlt : (wordOf high low).toNat * scale < 0x100000000 := by
      have := (wordOf high low).toNat_lt
      exact Nat.lt_of_le_of_lt (Nat.mul_le_mul_right scale (by omega)) hscale
    refine ⟨rfl, (hitem high low hdata).trans (congrArg some ?_)⟩
    exact (UInt32.toNat_ofNat_of_lt' hlt).symm

/-- What taking in a record does: a data record adds its piece, another one may set the base. This is the
inversion of a step; the cases of the reader's own definition are not opened anywhere else. -/
theorem record_eq_ok (h : r.record number item = .ok r') :
    (item.kind = kindData ∧ item.base? = none ∧ (r.piece item).stop ≤ 0x100000000 ∧
        r'.data = r.piece item :: r.data ∧ r'.base = r.base) ∨
      (item.kind ≠ kindData ∧ r'.data = r.data ∧
        r'.base.toNat = item.base?.getD r.base.toNat) := by
  have hother : item.kind ≠ kindSegmentBase → item.kind ≠ kindLinearBase → item.base? = none := by
    intro hsegment hlinear
    unfold Record.base?
    split
    · rw [if_neg hsegment, if_neg hlinear]
    · rfl
  unfold record at h
  split at h
  · rename_i hkind
    dsimp only at h
    split at h
    · rename_i hspace
      cases h
      refine .inl ⟨hkind, hother ?_ ?_, of_decide_eq_true hspace, rfl, rfl⟩
      · rw [hkind]
        decide
      · rw [hkind]
        decide
    · cases h
  rename_i hdata
  refine .inr ⟨hdata, ?_⟩
  split at h
  · rename_i hkind
    cases h
    rw [hother (by rw [hkind]; decide) (by rw [hkind]; decide)]
    exact ⟨rfl, rfl⟩
  split at h
  · rename_i hkind
    obtain ⟨hsame, hbase⟩ := base_of_word (by decide) (fun high low hitem => by
      rw [Record.base?, hitem]
      exact if_pos hkind) h
    rw [hbase]
    exact ⟨hsame, rfl⟩
  rename_i hsegment
  split at h
  · rename_i hkind
    obtain ⟨hsame, hbase⟩ := base_of_word (by decide) (fun high low hitem => by
      rw [Record.base?, hitem]
      exact (if_neg hsegment).trans (if_pos hkind)) h
    rw [hbase]
    exact ⟨hsame, rfl⟩
  rename_i hlinear
  rw [hother hsegment hlinear]
  split at h
  · cases hstart : item.start number with
    | error fault =>
      rw [hstart] at h
      cases h
    | ok a =>
      rw [hstart] at h
      cases h
      exact ⟨rfl, rfl⟩
  · cases h

/-- The reader has read these records. It is the invariant of a run, and all it knows of the pieces
gathered so far is the map that they are. -/
structure Tracks (r : Reader) (records : List Record) : Prop where
  base : r.base.toNat = baseAfter records
  inside : ∀ s ∈ r.data, s.stop ≤ 0x100000000
  memory : ∀ x b, Memory.ofSegments r.data x = some b ↔ LastByte records x b

theorem tracks_nil : Tracks {} [] := by
  refine ⟨rfl, List.forall_mem_nil _, fun x b => ⟨fun h => ?_, fun ⟨i, hi, _⟩ => ?_⟩⟩
  · cases h
  · rw [byteFrom?_of_ge (Nat.zero_le i)] at hi
    cases hi

/-- A piece has the bytes of its record: base and address add up without wrapping, because the piece was
accepted only where it ends inside the address space. -/
theorem Tracks.memory_piece (h : r.Tracks records) (hkind : item.kind = kindData) (x : Nat) :
    (r.piece item).memory x = item.byteAt? (baseAfter records) x := by
  have haddress : (r.base + item.address.toUInt32).toNat =
      baseAfter records + item.address.toNat := by
    have hbase := baseAfter_le records
    have hlow := item.address.toNat_lt
    rw [UInt32.toNat_add, h.base, UInt16.toNat_toUInt32]
    exact Nat.mod_eq_of_lt (by omega)
  unfold Record.byteAt? Segment.memory piece
  dsimp only
  rw [haddress]
  simp only [hkind, true_and]

/-- **One record more, for the reader as for what records say.** Address records change where the next
data goes and leave the map; data records are laid over what is there. These are the two cases. -/
theorem Tracks.record (h : r.Tracks records) (hrecord : r.record number item = .ok r') :
    r'.Tracks (records ++ [item]) := by
  rcases record_eq_ok hrecord with ⟨hkind, hbase, hstop, hdata, hsame⟩ | ⟨hkind, hdata, hbase⟩
  · refine ⟨?_, ?_, fun x b => ?_⟩
    · rw [hsame, baseAfter_concat, hbase]
      exact h.base
    · rw [hdata]
      exact List.forall_mem_cons.2 ⟨hstop, h.inside⟩
    · rw [hdata, Memory.ofSegments_cons, Memory.orElse, h.memory_piece hkind, lastByte_concat,
        Option.or_eq_some_iff, h.memory]
  · have hnone : ∀ x, item.byteAt? (baseAfter records) x = none := fun x =>
      if_neg fun hboth => hkind hboth.1
    refine ⟨?_, by rw [hdata]; exact h.inside, fun x b => ?_⟩
    · rw [hbase, baseAfter_concat, h.base]
    · rw [hdata, lastByte_concat, hnone, h.memory]
      exact ⟨fun hb => .inr ⟨rfl, hb⟩, fun hb => hb.elim (fun hno => nomatch hno) (·.2)⟩

theorem line_eq_ok {content : List UInt8}
    (h : r.line number ((Text.ofUtf8? content).map String.toList) = .ok r') :
    (Blank content ∧ recordOf? content = none ∧ r' = r) ∨
      ∃ item, recordOf? content = some item ∧ r.record number item = .ok r' := by
  unfold recordOf?
  cases hdecoded : Text.ofUtf8? content with
  | none =>
    rw [hdecoded] at h
    cases h
  | some s =>
    rw [hdecoded] at h
    unfold Reader.line at h
    dsimp only [Option.map_some] at h
    dsimp only [Option.bind_some]
    split at h
    · rename_i hblank
      cases h
      rw [hblank]
      exact .inl ⟨⟨s, hdecoded, hblank⟩, rfl, rfl⟩
    split at h
    · cases h
    rw [Record.toOption_read 0 number]
    split at h
    · cases h
    · rename_i item hread
      rw [hread]
      exact .inr ⟨item, rfl, h⟩

/-- **A reader keeps up with a whole file**, and passes over blank lines only. A record behind the end
record is a fault, so in a file that is read nothing stands there that the map would have to count. -/
theorem Tracks.lines (h : r.Tracks records) {content : List (List UInt8)}
    (hlines : r.lines number (content.map fun line => (Text.ofUtf8? line).map String.toList) =
      .ok r') :
    r'.Tracks (records ++ content.filterMap recordOf?) ∧
      ∀ line ∈ content, recordOf? line = none → Blank line := by
  induction content generalizing r records number with
  | nil =>
    cases hlines
    rw [List.filterMap_nil, List.append_nil]
    exact ⟨h, List.forall_mem_nil _⟩
  | cons line rest ih =>
    rw [List.map_cons, Reader.lines] at hlines
    split at hlines
    · cases hlines
    rename_i next hnext
    rcases line_eq_ok hnext with ⟨hblank, hnone, rfl⟩ | ⟨item, hitem, hrecord⟩
    · obtain ⟨htracks, hrest⟩ := ih h hlines
      rw [List.filterMap_cons_none hnone]
      exact ⟨htracks, List.forall_mem_cons.2 ⟨fun _ => hblank, hrest⟩⟩
    · obtain ⟨htracks, hrest⟩ := ih (h.record hrecord) hlines
      rw [List.append_assoc, List.singleton_append] at htracks
      rw [List.filterMap_cons_some hitem]
      refine ⟨htracks, List.forall_mem_cons.2 ⟨fun hnone => ?_, hrest⟩⟩
      rw [hitem] at hnone
      cases hnone

end Reader

/-! ## Files -/

variable {content : List UInt8} {f : File}

theorem readBytes_spec (h : readBytes content = .ok f) :
    Canonical f.image.segments ∧
      (∀ x b, f.image.memory x = some b ↔ LastByte (recordsIn content) x b) ∧
      ∀ line ∈ Text.splitWhere (· == 0x0A) content, recordOf? line = none → Blank line := by
  unfold readBytes readLines at h
  split at h
  · cases h
  rename_i r hlines
  split at h
  · cases h
    obtain ⟨htracks, hblank⟩ := Reader.tracks_nil.lines hlines
    rw [List.nil_append] at htracks
    have hinside : ∀ s ∈ r.data.reverse, s.stop ≤ 0x100000000 := fun s hs =>
      htracks.inside s (List.mem_reverse.1 hs)
    obtain ⟨hcanonical, hmemory⟩ := Image.ofPieces_spec hinside
    rw [List.reverse_reverse] at hmemory
    refine ⟨hcanonical, fun x b => ?_, hblank⟩
    have hfile : r.file.image.memory = Memory.ofSegments r.data := hmemory
    rw [hfile]
    exact htracks.memory x b
  · cases h

/-- An image without seams comes back as it was written, since there is one image without seams for a
map. -/
theorem readBytes_write_of_canonical {m : Image} (hm : Canonical m.segments) :
    ∃ f', readBytes (Text.utf8Bytes (write m)) = .ok f' ∧ f'.image = m := by
  obtain ⟨pieces, hread, hordered, hbytes⟩ := exists_pieces hm.wellFormed
  have hcanonical := (Image.ofPieces_spec hordered.inside).1
  refine ⟨_, hread, hcanonical.eq_of_memory_eq hm (funext fun x => Option.ext fun b => ?_)⟩
  rw [← hcanonical.wellFormed.mem_bytes, ← hm.wellFormed.mem_bytes, Image.bytes_ofPieces hordered,
    hbytes]

/-- What the image of a file is to the file. It says everything about the image but how it was arrived
at, so a reader that took the records in another order would satisfy it as well. -/
structure File.LastWins (content : List UInt8) (f : File) : Prop where
  /-- A line without a record is blank. -/
  blank : ∀ line ∈ Text.splitWhere (· == 0x0A) content, recordOf? line = none → Blank line
  /-- Each address has the byte of the last record that has one for it, and no other address has one. -/
  map : ∀ x b, f.image.memory x = some b ↔ LastByte (recordsIn content) x b
  /-- Segments are not empty and never touch. -/
  canonical : Canonical f.image.segments
  /-- They are the maximal runs of addresses that have bytes. -/
  runs : ∀ s, s ∈ f.image.segments ↔ s.IsRun f.image.memory
  /-- Files that say the same have one image, whatever their records. -/
  unique : ∀ (content' : List UInt8) (f' : File), readBytes content' = .ok f' →
    (∀ x b, LastByte (recordsIn content') x b ↔ LastByte (recordsIn content) x b) →
    f'.image = f.image
  /-- The image, written and read again, is the same one. -/
  rewritten : ∃ f', readBytes (Text.utf8Bytes (write f.image)) = .ok f' ∧ f'.image = f.image

/-- **A file is read as the map its last records give, in canonical form.** The map comes from the
invariant of the reader; that it has one canonical form, whatever the records, is a fact about images. -/
theorem readBytes_lastWins (h : readBytes content = .ok f) : f.LastWins content := by
  obtain ⟨hcanonical, hmap, hblank⟩ := readBytes_spec h
  refine ⟨hblank, hmap, hcanonical, fun s => hcanonical.mem_iff_isRun, fun content' f' h' hsame => ?_,
    readBytes_write_of_canonical hcanonical⟩
  obtain ⟨hcanonical', hmap', -⟩ := readBytes_spec h'
  refine hcanonical'.eq_of_memory_eq hcanonical (funext fun x => Option.ext fun b => ?_)
  rw [hmap', hmap, hsame]

end Hex

namespace Specimen

def scattered : List UInt8 :=
  Text.utf8Bytes (String.intercalate "\n"
    [":020000021000EC", ":04FFFE0001020304F5", " :020001000A0BE8", "", ":020000040002F8",
      ":020001000C0DE4", ":020000040001F9", ":01FFFD0009FA", ":00000001FF"])

theorem scattered_lastWins :
    ∃ f, Hex.readBytes scattered = .ok f ∧ f.LastWins scattered ∧
      f.image.segments = [⟨0x10001, [10, 11]⟩, ⟨0x1FFFD, [9, 1, 2, 3, 12, 13]⟩] := by
  have hsegments : (Hex.readBytes scattered).toOption.map (fun f => f.image.segments) =
      some [⟨0x10001, [10, 11]⟩, ⟨0x1FFFD, [9, 1, 2, 3, 12, 13]⟩] := by
    decide +kernel
  cases hread : Hex.readBytes scattered with
  | error fault =>
    rw [hread] at hsegments
    cases hsegments
  | ok f =>
    rw [hread] at hsegments
    exact ⟨f, rfl, Hex.readBytes_lastWins hread, Option.some.inj hsegments⟩

end Specimen

end FlashParams
