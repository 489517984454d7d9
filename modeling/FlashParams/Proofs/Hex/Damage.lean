import Mathlib.Data.UInt
import FlashParams.Proofs.Hex.RoundTrip
import FlashParams.Proofs.Text.Damage

/-!
# One damaged character

A single character of a written file is replaced by another. What it was decides who notices: the colon
is missed by the parser, a character that is no digit by the digit reader, a digit changes one byte of
its record and the sum of the record with it, and the sum is zero on both sides of the change or the
record is refused. That covers the count, the address, the type and the check byte itself along with the
data, since the sum is over all of them (`Record.read_damaged`).

White space is the one replacement the reader removes before it looks. It cannot hide: with it, a line of
pairs of digits becomes shorter by one character and its digits no longer pair up, or it is still there
for the digit reader.

So a damaged line is refused or stands for the very record that was written, and nothing else in the file
is touched (`Reader.lines_damaged`). The replacement may still be a different character. A digit in lower
case, or a plus sign for a leading zero, is read as before.
-/

set_option autoImplicit false

namespace FlashParams

open Text (Damage)

namespace Hex

/-! ## Digits -/

theorem not_blank_of_readByte? {high low : Char} {b : UInt8} (h : readByte? high low = some b) :
    Text.isBlank high = false ∧ Text.isBlank low = false := by
  unfold readByte? at h
  dsimp only at h
  split at h
  · rename_i hhigh hlow
    refine ⟨?_, Numeral.isBlank_of_digitOf? hlow⟩
    split at hhigh
    · rename_i hplus
      rw [hplus]
      decide
    · exact Numeral.isBlank_of_digitOf? hhigh
  · cases h

/-- What is read as bytes consists of pairs of characters, none of them blank. So damage that turns a
digit into white space is seen even where trimming would remove it. -/
theorem pairs_of_readBytes? :
    ∀ {s : List Char} {bytes : List UInt8}, readBytes? s = some bytes →
      s.length = 2 * bytes.length ∧ ∀ c ∈ s, Text.isBlank c = false
  | [], _, h => by
    cases h
    exact ⟨rfl, List.forall_mem_nil _⟩
  | [_], _, h => by cases h
  | high :: low :: rest, bytes, h => by
    unfold readBytes? at h
    split at h
    · rename_i b others hbyte hothers
      cases h
      obtain ⟨hlength, hblank⟩ := pairs_of_readBytes? hothers
      obtain ⟨hhigh, hlow⟩ := not_blank_of_readByte? hbyte
      refine ⟨?_, List.forall_mem_cons.2 ⟨hhigh, List.forall_mem_cons.2 ⟨hlow, hblank⟩⟩⟩
      rw [List.length_cons, List.length_cons, List.length_cons, hlength]
      omega
    · cases h

/-- **A damaged digit is a damaged byte**, if it is read at all. Digits go in pairs, so the damage stays
within one byte, and as many bytes are read as were written. -/
theorem damage_of_readBytes? {old new : Char} :
    ∀ {bytes bytes' : List UInt8} {t : List Char}, Damage old new (writeBytes bytes) t →
      readBytes? t = some bytes' → ∃ b b', Damage b b' bytes bytes'
  | [], _, _, hdamage, _ => nomatch hdamage
  | b :: rest, bytes', t, hdamage, hread => by
    have hcons : writeBytes (b :: rest) = Numeral.digitChar (b.toNat / 16) ::
        Numeral.digitChar (b.toNat % 16) :: writeBytes rest := by
      rw [writeBytes, List.flatMap_cons, writeByte_eq]
      rfl
    rw [hcons] at hdamage
    -- the first digit, the second, or one of a later byte
    cases hdamage with
    | here =>
      rw [readBytes?, readBytes?_writeBytes] at hread
      split at hread
      · rename_i b' others _ hothers
        cases hothers
        cases hread
        exact ⟨b, b', .here⟩
      · cases hread
    | there hdamage =>
      cases hdamage with
      | here =>
        rw [readBytes?, readBytes?_writeBytes] at hread
        split at hread
        · rename_i b' others _ hothers
          cases hothers
          cases hread
          exact ⟨b, b', .here⟩
        · cases hread
      | there hdamage =>
        have hbyte : readByte? (Numeral.digitChar (b.toNat / 16))
            (Numeral.digitChar (b.toNat % 16)) = some b := by
          have hb : b.toNat < 256 := b.toNat_lt
          rw [readByte?_digits (by omega) (Nat.mod_lt _ (by decide)), Nat.div_add_mod,
            UInt8.ofNat_toNat]
        rw [readBytes?, hbyte] at hread
        split at hread
        · rename_i b₀ others hb₀ hothers
          cases hb₀
          cases hread
          obtain ⟨c, c', hrest⟩ := damage_of_readBytes? hdamage hothers
          exact ⟨c, c', .there hrest⟩
        · cases hread

/-! ## Sums -/

theorem checkByteOf_eq (bytes : List UInt8) : checkByteOf bytes = -bytes.sum := by
  rw [checkByteOf, List.sum_eq_foldl]

/-- Only the right byte keeps the sum: when all other bytes are the same, the sum determines the one that
is left. This is all the check byte is needed for. -/
theorem eq_of_sum_eq {b b' : UInt8} {bytes bytes' : List UInt8} (h : Damage b b' bytes bytes')
    (hsum : bytes.sum = bytes'.sum) : b = b' := by
  obtain ⟨front, back, rfl, rfl⟩ := h.exists_append
  rw [List.sum_append, List.sum_append, List.sum_cons, List.sum_cons] at hsum
  exact (UInt8.add_left_inj _).1 ((UInt8.add_right_inj _).1 hsum)

namespace Record

variable {line : Nat} {r item : Record}

theorem sum_of_ofBytes {bytes : List UInt8} (h : ofBytes line bytes = .ok item) :
    bytes.sum = 0 := by
  unfold ofBytes at h
  split at h
  · rename_i count high low kind rest
    dsimp only at h
    split at h
    · cases h
    · rename_i found hlast
      split at h
      · cases h
      split at h
      · cases h
      · rename_i hcheck
        obtain ⟨data, rfl⟩ := List.getLast?_eq_some_iff.1 hlast
        rw [List.dropLast_concat, checkByteOf_eq, Decidable.not_not] at hcheck
        have hsplit : count :: high :: low :: kind :: (data ++ [found]) =
            (count :: high :: low :: kind :: data) ++ [found] := rfl
        rw [hsplit, List.sum_append, List.sum_singleton, hcheck, UInt8.add_right_neg]
  · cases h

theorem exists_bytes_of_read {s : List Char} (h : Record.read line s = .ok item) :
    ∃ digits bytes, s = ':' :: digits ∧ readBytes? digits = some bytes ∧
      ofBytes line bytes = .ok item := by
  unfold Record.read at h
  split at h
  · rename_i digits
    split at h
    · cases h
    · rename_i bytes hbytes
      exact ⟨digits, bytes, rfl, hbytes, h⟩
  · cases h

theorem length_write (r : Record) : r.write.length = 2 * (r.body.length + 1) + 1 := by
  have hpairs := (pairs_of_readBytes? (readBytes?_writeBytes (r.body ++ [checkByteOf r.body]))).1
  rw [write, List.length_cons, hpairs, List.length_append]
  rfl

/-- A damaged line does not become blank. It is longer than one character, and a blank line would be
passed over without a word. -/
theorem trim_damaged_ne_nil {old new : Char} {t : List Char} (h : Damage old new r.write t) :
    Text.trim t ≠ [] := by
  cases hnew : Text.isBlank new with
  | false =>
    have hblank := h.forall_mem isBlank_of_mem_write hnew
    rw [Text.trim_of_not_blank hblank, ← List.length_pos_iff, h.length_eq, length_write]
    exact Nat.succ_pos _
  | true =>
    rcases h.trim_of_blank isBlank_of_mem_write hnew with hmem | hlength
    · exact List.ne_nil_of_mem hmem
    · rw [length_write] at hlength
      rw [← List.length_pos_iff]
      omega

/-- **A damaged line is refused or read as the record that was written.** The sum of the bytes is what
tells them apart. One byte that differs changes it, and no other can make up for that. -/
theorem read_damaged (hlen : r.data.length < 256) {old new : Char} {t : List Char}
    (h : Damage old new r.write t) (hread : Record.read line (Text.trim t) = .ok item) :
    item = r := by
  obtain ⟨digits, bytes, htrim, hbytes, hitem⟩ := exists_bytes_of_read hread
  obtain ⟨hpairs, hdigits⟩ := pairs_of_readBytes? hbytes
  cases hnew : Text.isBlank new with
  | true =>
    -- the line is one short of pairs, or has a character that is no digit
    rcases h.trim_of_blank isBlank_of_mem_write hnew with hmem | hlength
    · rw [htrim] at hmem
      rcases List.mem_cons.1 hmem with rfl | hmem
      · exact absurd hnew (by decide)
      · exact absurd hnew (Bool.eq_false_iff.1 (hdigits _ hmem))
    · rw [htrim, List.length_cons, hpairs, length_write] at hlength
      omega
  | false =>
    rw [Text.trim_of_not_blank (h.forall_mem isBlank_of_mem_write hnew)] at htrim hread
    subst htrim
    have hwritten := read_write line hlen
    cases h with
    | here =>
      -- only a colon can stand for the colon
      rw [← write, hwritten] at hread
      cases hread
      rfl
    | there h =>
      have hvalid : ofBytes line (r.body ++ [checkByteOf r.body]) = .ok r := by
        rw [write, Record.read, readBytes?_writeBytes] at hwritten
        exact hwritten
      obtain ⟨b, b', hdamage⟩ := damage_of_readBytes? h hbytes
      have hsame := eq_of_sum_eq hdamage
        ((sum_of_ofBytes hvalid).trans (sum_of_ofBytes hitem).symm)
      rw [← hdamage.eq_of_eq hsame, hvalid] at hitem
      cases hitem
      rfl

end Record

/-! ## The records of an image -/

theorem length_lt_of_mem_recordsAt (upper address : Nat) (data : List UInt8) :
    ∀ item ∈ (recordsAt upper address data).1, item.data.length < 256 := by
  by_cases hne : data = []
  · rw [hne, recordsAt_nil]
    exact List.forall_mem_nil _
  · have hpos := List.length_pos_iff.2 hne
    have hroom := room_pos address
    have hshort : (data.take (room address)).length < 256 := by
      have hlimit : room address ≤ recordLength := Nat.min_le_left _ _
      rw [List.length_take]
      unfold recordLength at hlimit
      omega
    have hrest := length_lt_of_mem_recordsAt (address / bank) (address + room address)
      (data.drop (room address))
    rw [recordsAt_of_ne_nil hne]
    refine List.forall_mem_append.2 ⟨List.forall_mem_append.2 ⟨?_, ?_⟩, hrest⟩
    · split
      · refine List.forall_mem_singleton.2 ?_
        show 2 < 256
        decide
      · exact List.forall_mem_nil _
    · exact List.forall_mem_singleton.2 hshort
termination_by data.length
decreasing_by
  rw [List.length_drop]
  omega

theorem length_lt_of_mem_recordsOf :
    ∀ (segments : List Segment) (upper : Nat), ∀ item ∈ recordsOf upper segments,
      item.data.length < 256
  | [], _ => List.forall_mem_nil _
  | s :: rest, upper => by
    rw [recordsOf_cons]
    exact List.forall_mem_append.2 ⟨length_lt_of_mem_recordsAt upper s.base.toNat s.bytes,
      length_lt_of_mem_recordsOf rest _⟩

theorem length_lt_of_mem_records (m : Image) : ∀ item ∈ records m, item.data.length < 256 :=
  List.forall_mem_append.2 ⟨length_lt_of_mem_recordsOf m.segments 0,
    List.forall_mem_singleton.2 (by decide)⟩

/-! ## The lines of a file -/

namespace Reader

variable {r r' : Reader} {number : Nat}

theorem line_damaged {item : Record} (hlen : item.data.length < 256) {old new : Char}
    {t : List Char} (h : Damage old new item.write t) (hline : r.line number (some t) = .ok r') :
    r.line number (some item.write) = .ok r' := by
  unfold line at hline
  dsimp only at hline
  rw [if_neg (Record.trim_damaged_ne_nil h)] at hline
  split at hline
  · cases hline
  · rename_i hended
    rw [line_write (Bool.eq_false_iff.2 hended) number hlen]
    split at hline
    · cases hline
    · rename_i found hfound
      rwa [Record.read_damaged hlen h hfound] at hline

/-- **A file with a damaged line is refused or read like the undamaged one.** Lines are read one at a
time, with the reader as all that passes from one to the next. -/
theorem lines_damaged {records : List Record} (hlen : ∀ item ∈ records, item.data.length < 256)
    {old new : Char} {line line' : List Char} {lines' : List (List Char)}
    (hline : Damage old new line line')
    (hlines : Damage line line' (records.map Record.write) lines')
    (rest : List (Option (List Char))) {last : Reader}
    (hread : r.lines number (lines'.map some ++ rest) = .ok last) :
    r.lines number (linesOf records ++ rest) = .ok last := by
  induction records generalizing r number lines' with
  | nil => cases hlines
  | cons item records ih =>
    obtain ⟨hitem, hrecords⟩ := List.forall_mem_cons.1 hlen
    cases hlines with
    | here =>
      rw [List.map_cons, List.map_map, List.cons_append, lines] at hread
      split at hread
      · cases hread
      · rename_i next hnext
        exact (lines_cons (line_damaged hitem hline hnext) _).trans hread
    | there hlines =>
      rw [List.map_cons, List.cons_append, lines] at hread
      split at hread
      · cases hread
      · rename_i next hnext
        exact (lines_cons hnext _).trans (ih hrecords hlines hread)

end Reader

theorem readChars_damaged {m : Image} {old new : Char} {t : List Char}
    (h : Damage old new (write m).toList t) (hold : old ≠ '\n') (hnew : new ≠ '\n') {f : File}
    (hread : readChars t = .ok f) : readChars (write m).toList = .ok f := by
  have htext : (write m).toList = ((records m).map Record.write).flatMap (· ++ ['\n']) := by
    rw [write, String.toList_ofList, text, List.flatMap_map]
  rw [htext] at h
  obtain ⟨line, line', lines', hline, hlines, rfl⟩ := h.of_closed hold
  have hclean : ∀ l ∈ (records m).map Record.write, ∀ c ∈ l, (c == '\n') = false := by
    intro l hl
    obtain ⟨item, -, rfl⟩ := List.mem_map.1 hl
    exact Record.newline_not_mem_write
  have hmem : line ∈ (records m).map Record.write := by
    obtain ⟨front, back, hsplit, -⟩ := hlines.exists_append
    rw [hsplit]
    exact List.mem_append_right _ List.mem_cons_self
  have hclean' : ∀ l ∈ lines', ∀ c ∈ l, (c == '\n') = false :=
    hlines.forall_mem hclean (hline.forall_mem (hclean line hmem) (beq_eq_false_iff_ne.2 hnew))
  -- the damaged text has the same lines but one
  unfold readChars readLines at hread ⊢
  rw [Text.splitWhere_closed hclean' rfl, List.map_append, List.map_singleton] at hread
  rw [write, String.toList_ofList, splitWhere_text]
  split at hread
  · cases hread
  · rename_i last hlast
    rw [Reader.lines_damaged (length_lt_of_mem_records m) hline hlines _ hlast]
    exact hread

/-- **A single damaged character is never read as different data.** Whatever character of a record line
is replaced, by whatever character that does not end a line, the file is refused or has the bytes that
were written. -/
theorem bytes_of_damaged {m : Image} (hm : m.WellFormed) {front back : List Char} {old new : Char}
    (htext : (write m).toList = front ++ old :: back) (hold : old ≠ '\n') (hnew : new ≠ '\n')
    {f : File}
    (hread : readBytes (Text.utf8Bytes (String.ofList (front ++ new :: back))) = .ok f) :
    f.image.bytes = m.bytes := by
  have hdamage : Damage old new (write m).toList (front ++ new :: back) := by
    rw [htext]
    exact .of_append front back
  rw [readBytes_utf8Bytes, String.toList_ofList] at hread
  have hsame := readChars_damaged hdamage hold hnew hread
  obtain ⟨pieces, hwritten, hordered, hbytes⟩ := exists_pieces hm
  rw [readBytes_utf8Bytes, hsame] at hwritten
  cases hwritten
  exact (Image.bytes_ofPieces hordered).trans hbytes

end Hex

namespace Specimen

theorem bytes_of_damaged_edges :
    ∃ front back f, (Hex.write edges).toList = front ++ 'E' :: back ∧
      Hex.readBytes (Text.utf8Bytes (String.ofList (front ++ 'e' :: back))) = .ok f ∧
      f.image.bytes = edges.bytes := by
  let front := ":02FFFE000102F".toList
  let back :=
    "\n:020000040001F9\n:020000000304F7\n:0100020005F8\n:02000004FFFFFC\n".toList ++
      ":01FFFF0006FB\n:00000001FF\n".toList
  have hwrite : Hex.write edges =
      ":02FFFE000102FE\n:020000040001F9\n:020000000304F7\n:0100020005F8\n" ++
        ":02000004FFFFFC\n:01FFFF0006FB\n:00000001FF\n" := by cbv
  have htext : (Hex.write edges).toList = front ++ 'E' :: back := by
    rw [hwrite]
    decide
  have haccepted :
      (Hex.readBytes (Text.utf8Bytes (String.ofList (front ++ 'e' :: back)))).isOk = true := by
    decide +kernel
  cases hread : Hex.readBytes (Text.utf8Bytes (String.ofList (front ++ 'e' :: back))) with
  | error fault =>
    rw [hread] at haccepted
    cases haccepted
  | ok f =>
    exact ⟨front, back, f, htext, hread,
      Hex.bytes_of_damaged edges_wellFormed htext (by decide) (by decide) hread⟩

end Specimen

end FlashParams
