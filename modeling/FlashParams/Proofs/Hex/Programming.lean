import FlashParams.Proofs.Hex.Grammar
import FlashParams.Proofs.Hex.LastRecord
import FlashParams.Proofs.Image.Memory

/-!
# What a programmer is given

A device programmer reads a file from the front. It keeps the base that the last base record set and puts
the data of each data record at this base and the record's own address; it need not know anything else of
the format. `Programs` says what it may rely on when the file was written for an image. The data records
come in ascending order and are together the bytes of the image. Each has one byte at least, no more than
sixteen, and lies within 64 KiB that share the upper half of their addresses. A base record is there in
front of a data record when the upper half changes, and only then. The end record is the last record and
the only one of its kind. The lines themselves follow the grammar (`write_programs`).

The writer's recursion is over what is left of a segment. What one turn of it adds to the records is a
data record with a base record in front of it or none, and `Paged` is a list of such turns, from the
upper half in force before them to the one after. All that is said of single records follows from it by
induction.
-/

set_option autoImplicit false

namespace FlashParams

namespace Hex

/-! ## Absolute addresses -/

def baseFrom (base : Nat) (records : List Record) : Nat :=
  (records.filterMap Record.base?).getLast?.getD base

/-- The data of data records with the absolute addresses it is put at, when a base is in force. A
programmer does no more than this with a file. -/
def placedFrom (base : Nat) : List Record → List (Nat × List UInt8)
  | [] => []
  | r :: rest =>
    (if r.kind = kindData then [(base + r.address.toNat, r.data)] else [])
      ++ placedFrom (r.base?.getD base) rest

/-- The record in front of a data record sets a base exactly if the upper half of the address is not the
one in force before. So no base record is missing, and none is there for nothing. -/
def BaseWhenDue (base : Nat) (front : List Record) (r : Record) : Prop :=
  (∃ b ∈ front.getLast?, b.kind = kindLinearBase) ↔
    (baseFrom base front + r.address.toNat) / 0x10000 ≠ baseFrom base front.dropLast / 0x10000

/-- What may be relied on in the records of an image. Addresses are those a programmer arrives at, so nothing
here knows how the image was cut. -/
structure Programs (m : Image) (records : List Record) : Prop where
  /-- The last record ends the file. All others have data or set a base. -/
  ends : ∃ front, records = front ++ [endRecord] ∧
    ∀ r ∈ front, r.kind = kindData ∨ r.kind = kindLinearBase ∧ r.address = 0 ∧ r.data.length = 2
  /-- Data records are short and stay within one upper half. -/
  short : ∀ p ∈ placedFrom 0 records, 1 ≤ p.2.length ∧ p.2.length ≤ 16 ∧
    (p.1 + p.2.length - 1) / 0x10000 = p.1 / 0x10000
  ascending : (placedFrom 0 records).Pairwise fun p q => p.1 + p.2.length ≤ q.1
  bytes : (placedFrom 0 records).flatMap (fun p => Image.bytesFrom p.1 p.2) = m.bytes
  due : ∀ front r back, records = front ++ r :: back → r.kind = kindData → BaseWhenDue 0 front r
  /-- A base record is followed by the data record it is for. -/
  used : ∀ front b back, records = front ++ b :: back → b.kind = kindLinearBase →
    ∃ r rest, back = r :: rest ∧ r.kind = kindData

variable {base upper middle last : Nat} {written front back : List Record} {r : Record}

theorem baseFrom_cons :
    baseFrom base (r :: written) = baseFrom (r.base?.getD base) written := by
  unfold baseFrom
  cases hbase : r.base? with
  | none => rw [List.filterMap_cons_none hbase, Option.getD_none]
  | some a =>
    rw [List.filterMap_cons_some hbase, List.getLast?_cons, Option.getD_some, Option.getD_some]

theorem placedFrom_append :
    placedFrom base (front ++ back) =
      placedFrom base front ++ placedFrom (baseFrom base front) back := by
  induction front generalizing base with
  | nil => rfl
  | cons r front ih =>
    rw [List.cons_append, placedFrom, ih, placedFrom, baseFrom_cons, List.append_assoc]

theorem Record.base?_of_data (h : r.kind = kindData) : r.base? = none := by
  unfold base?
  split
  · rw [h, if_neg (by decide), if_neg (by decide)]
  · rfl

theorem base?_upperRecord {next : Nat} (h : next < bank) :
    (upperRecord next).base? = some (next * bank) := by
  show some ((wordOf _ _).toNat * 0x10000) = _
  rw [wordOf_wordBytes, UInt16.toNat_ofNat_of_lt' h]
  rfl

theorem kind_upperRecord_ne (next : Nat) : (upperRecord next).kind ≠ kindData := by
  show kindLinearBase ≠ kindData
  decide

theorem mul_bank_div (upper : Nat) : upper * bank / 0x10000 = upper :=
  Nat.mul_div_cancel upper (show 0 < 0x10000 by decide)

/-! ## Base records when due -/

/-- Only what is directly in front of a record matters, so the records before that can be taken off one
by one in an induction from the front. -/
theorem baseWhenDue_cons_cons {first second : Record} :
    BaseWhenDue base (first :: second :: front) r ↔
      BaseWhenDue (first.base?.getD base) (second :: front) r := by
  unfold BaseWhenDue
  rw [List.getLast?_cons_cons, List.dropLast_cons_cons, baseFrom_cons (r := first),
    baseFrom_cons (r := first)]

theorem baseWhenDue_cons_data {first : Record} (h : first.kind = kindData) :
    BaseWhenDue base (first :: front) r ↔ BaseWhenDue base front r := by
  cases front with
  | nil =>
    have hkind : first.kind ≠ kindLinearBase := by
      rw [h]
      decide
    unfold BaseWhenDue
    rw [baseFrom_cons, Record.base?_of_data h]
    simp [hkind]
  | cons second front =>
    rw [baseWhenDue_cons_cons, Record.base?_of_data h, Option.getD_none]

/-! ## Turns of the writer -/

/-- A data record as the writer cuts it. It stays in its bank, which is a bound on its address and length
together and cannot be seen from either. -/
structure Record.Short (r : Record) : Prop where
  kind : r.kind = kindData
  nonempty : r.data ≠ []
  length : r.data.length ≤ recordLength
  room : r.address.toNat + r.data.length ≤ bank

/-- Data records, with a base record in front of each that changes the upper half. The numbers are the
upper halves in force before and after. -/
inductive Paged : Nat → List Record → Nat → Prop where
  | nil {upper : Nat} : Paged upper [] upper
  | data {upper last : Nat} {r : Record} {rest : List Record} :
      r.Short → Paged upper rest last → Paged upper (r :: rest) last
  | change {upper next last : Nat} {r : Record} {rest : List Record} :
      next ≠ upper → next < bank → r.Short → Paged next rest last →
      Paged upper (upperRecord next :: r :: rest) last

namespace Record.Short

theorem address_lt (h : r.Short) : r.address.toNat < bank := by
  have hpos := List.length_pos_iff.2 h.nonempty
  have hroom := h.room
  omega

theorem upper_eq (h : r.Short) (upper : Nat) :
    (upper * bank + r.address.toNat) / 0x10000 = upper := by
  have hlow := h.address_lt
  unfold bank at *
  omega

theorem last_upper_eq (h : r.Short) (upper : Nat) :
    (upper * bank + r.address.toNat + r.data.length - 1) / 0x10000 = upper := by
  have hpos := List.length_pos_iff.2 h.nonempty
  have hroom := h.room
  unfold bank at *
  omega

theorem span (h : r.Short) (upper : Nat) : 1 ≤ r.data.length ∧ r.data.length ≤ 16 ∧
    (upper * bank + r.address.toNat + r.data.length - 1) / 0x10000 =
      (upper * bank + r.address.toNat) / 0x10000 :=
  ⟨List.length_pos_iff.2 h.nonempty, h.length, (h.last_upper_eq upper).trans (h.upper_eq upper).symm⟩

end Record.Short

namespace Paged

theorem append (h : Paged upper front middle) (hback : Paged middle back last) :
    Paged upper (front ++ back) last := by
  induction h with
  | nil => exact hback
  | data hshort _ ih => exact .data hshort (ih hback)
  | change hne hnext hshort _ ih => exact .change hne hnext hshort (ih hback)

/-- The upper half after the records is what a programmer has in force there. The writer hands its number
on and a programmer looks at the records; this says they agree. -/
theorem baseFrom_eq (h : Paged upper written last) :
    baseFrom (upper * bank) written = last * bank := by
  induction h with
  | nil => rfl
  | data hshort _ ih => rw [baseFrom_cons, Record.base?_of_data hshort.kind, Option.getD_none, ih]
  | change _ hnext hshort _ ih =>
    rw [baseFrom_cons, base?_upperRecord hnext, baseFrom_cons, Record.base?_of_data hshort.kind,
      Option.getD_none, Option.getD_some, ih]

theorem short (h : Paged upper written last) : ∀ p ∈ placedFrom (upper * bank) written,
    1 ≤ p.2.length ∧ p.2.length ≤ 16 ∧ (p.1 + p.2.length - 1) / 0x10000 = p.1 / 0x10000 := by
  induction h with
  | nil => exact List.forall_mem_nil _
  | data hshort _ ih =>
    rw [placedFrom, if_pos hshort.kind, Record.base?_of_data hshort.kind]
    exact List.forall_mem_cons.2 ⟨hshort.span _, ih⟩
  | change _ hnext hshort _ ih =>
    rw [placedFrom, if_neg (kind_upperRecord_ne _), base?_upperRecord hnext, placedFrom,
      if_pos hshort.kind, Record.base?_of_data hshort.kind]
    exact List.forall_mem_cons.2 ⟨hshort.span _, ih⟩

/-- **What stands at any place**: a data record that has a base record in front of it when one is due, or
a base record and a data record after it. -/
theorem of_split (h : Paged upper written last) (hsplit : written = front ++ r :: back) :
    r.Short ∧ BaseWhenDue (upper * bank) front r ∨
      ∃ next first rest, r = upperRecord next ∧ back = first :: rest ∧ first.Short := by
  induction h generalizing front with
  | nil => exact absurd hsplit.symm (List.append_ne_nil_of_right_ne_nil _ (List.cons_ne_nil _ _))
  | @data upper last first rest hshort _ ih =>
    cases front with
    | nil =>
      cases hsplit
      have hsame : (upper * bank + r.address.toNat) / 0x10000 = upper * bank / 0x10000 :=
        (hshort.upper_eq upper).trans (mul_bank_div upper).symm
      have hdue : BaseWhenDue (upper * bank) [] r :=
        iff_of_false (fun ⟨_, hb, _⟩ => nomatch hb) (not_not_intro hsame)
      exact .inl ⟨hshort, hdue⟩
    | cons _ front =>
      cases hsplit
      exact (ih rfl).imp_left (And.imp_right (baseWhenDue_cons_data hshort.kind).2)
  | @change upper next last first rest hne hnext hshort _ ih =>
    -- the base record of this turn, its data record, or a record of a later turn
    cases front with
    | nil =>
      cases hsplit
      exact .inr ⟨next, first, rest, rfl, rfl, hshort⟩
    | cons _ front =>
      cases front with
      | nil =>
        cases hsplit
        have hother : (baseFrom (upper * bank) [upperRecord next] + r.address.toNat) / 0x10000 ≠
            upper * bank / 0x10000 := by
          rw [baseFrom_cons, base?_upperRecord hnext, mul_bank_div]
          exact (hshort.upper_eq next).trans_ne hne
        have hdue : BaseWhenDue (upper * bank) [upperRecord next] r :=
          iff_of_true ⟨upperRecord next, rfl, rfl⟩ hother
        exact .inl ⟨hshort, hdue⟩
      | cons _ front =>
        cases hsplit
        refine (ih rfl).imp_left (And.imp_right fun hdue => ?_)
        rw [baseWhenDue_cons_cons, base?_upperRecord hnext]
        exact (baseWhenDue_cons_data hshort.kind).2 hdue

end Paged

/-- One turn of the writer: the base record if it is due and one data record, which go where the data
belongs. -/
theorem paged_pieceRecords (upper : Nat) {address : Nat} {data : List UInt8}
    (hbank : address / bank < bank) (hne : data ≠ []) (hlen : data.length ≤ recordLength)
    (hroom : address % bank + data.length ≤ bank) :
    Paged upper (pieceRecords upper address data) (address / bank) ∧
      placedFrom (upper * bank) (pieceRecords upper address data) = [(address, data)] := by
  have hlow : (UInt16.ofNat (address % bank)).toNat = address % bank :=
    UInt16.toNat_ofNat_of_lt' (Nat.mod_lt _ (by decide))
  have hshort : Record.Short ⟨UInt16.ofNat (address % bank), kindData, data⟩ :=
    ⟨rfl, hne, hlen, by rwa [hlow]⟩
  have haddress : address / bank * bank + (UInt16.ofNat (address % bank)).toNat = address := by
    rw [hlow, Nat.div_add_mod']
  by_cases hsame : address / bank = upper
  · subst hsame
    rw [pieceRecords, if_neg (not_not_intro rfl), List.nil_append, placedFrom, if_pos rfl, haddress]
    exact ⟨.data hshort .nil, rfl⟩
  · rw [pieceRecords, if_pos hsame, List.singleton_append, placedFrom,
      if_neg (kind_upperRecord_ne _), base?_upperRecord hbank, Option.getD_some, placedFrom,
      if_pos rfl, haddress]
    exact ⟨.change hsame hbank hshort .nil, rfl⟩

/-- The records of bytes at an address are turns, and put these bytes there. Induction on the bytes as
the writer cuts them; a turn never reaches into the next bank. -/
theorem paged_recordsAt (upper address : Nat) (data : List UInt8)
    (hstop : address + data.length ≤ 0x100000000) :
    Paged upper (recordsAt upper address data).1 (recordsAt upper address data).2 ∧
      (placedFrom (upper * bank) (recordsAt upper address data).1).flatMap
        (fun p => Image.bytesFrom p.1 p.2) = Image.bytesFrom address data := by
  by_cases hne : data = []
  · subst hne
    rw [recordsAt_nil]
    exact ⟨.nil, rfl⟩
  · have hpos := List.length_pos_iff.2 hne
    have hroom := room_pos address
    have hlen : (data.take (room address)).length = min (room address) data.length :=
      List.length_take
    have hlimit : room address ≤ recordLength := Nat.min_le_left _ _
    have hend : room address ≤ bank - address % bank := Nat.min_le_right _ _
    have hlow : address % bank < bank := Nat.mod_lt _ (by decide)
    have hbank : address / bank < bank := by
      unfold bank
      omega
    have htake : data.take (room address) ≠ [] := by
      rw [← List.length_pos_iff]
      omega
    obtain ⟨hpiece, hplaced⟩ := paged_pieceRecords upper hbank htake (by omega) (by omega)
    -- then the records of the bytes left over
    obtain ⟨hrest, hbytes⟩ := paged_recordsAt (address / bank) (address + room address)
      (data.drop (room address)) (by rw [List.length_drop]; unfold room bank at *; omega)
    rw [recordsAt_of_ne_nil hne]
    refine ⟨hpiece.append hrest, ?_⟩
    rw [placedFrom_append, hplaced, hpiece.baseFrom_eq, List.singleton_append, List.flatMap_cons,
      hbytes, Image.bytesFrom_take_append_drop]
termination_by data.length
decreasing_by
  have := room_pos address
  have := List.length_pos_iff.2 hne
  rw [List.length_drop]
  omega

theorem paged_recordsOf {segments : List Segment}
    (hinside : ∀ s ∈ segments, s.stop ≤ 0x100000000) (upper : Nat) :
    ∃ last, Paged upper (recordsOf upper segments) last ∧
      (placedFrom (upper * bank) (recordsOf upper segments)).flatMap
        (fun p => Image.bytesFrom p.1 p.2) = segments.flatMap Image.segmentBytes := by
  induction segments generalizing upper with
  | nil => exact ⟨upper, .nil, rfl⟩
  | cons s rest ih =>
    obtain ⟨hstop, hrest⟩ := List.forall_mem_cons.1 hinside
    obtain ⟨hfront, hbytes⟩ := paged_recordsAt upper s.base.toNat s.bytes hstop
    obtain ⟨last, hback, hbytes'⟩ := ih hrest (recordsAt upper s.base.toNat s.bytes).2
    rw [recordsOf_cons]
    refine ⟨last, hfront.append hback, ?_⟩
    rw [placedFrom_append, hfront.baseFrom_eq, List.flatMap_append, hbytes, hbytes',
      List.flatMap_cons, Image.segmentBytes_eq]

/-! ## Files -/

/-- What stands in front of the last of a list. The end record is at the end and is none of the others,
so a split at another record leaves it behind. -/
theorem exists_of_concat_eq {α : Type} {list front back : List α} {last item : α}
    (h : list ++ [last] = front ++ item :: back) (hne : item ≠ last) :
    ∃ back', back = back' ++ [last] ∧ list = front ++ item :: back' := by
  rcases List.eq_nil_or_concat back with rfl | ⟨back', last', rfl⟩
  · exact absurd (List.singleton_inj.1 (List.append_inj' h rfl).2).symm hne
  · rw [List.concat_eq_append, ← List.cons_append, ← List.append_assoc] at h
    obtain ⟨hlist, hlast⟩ := List.append_inj' h rfl
    cases hlast
    exact ⟨back', List.concat_eq_append, hlist⟩

/-- Pieces that list ascending bytes are in ascending order themselves. The order of records is had from
that of the image's bytes, without a second induction over the writer. -/
theorem ascending_of_bytes {pieces : List (Nat × List UInt8)}
    (hne : ∀ p ∈ pieces, 1 ≤ p.2.length)
    (hbytes : (pieces.flatMap fun p => Image.bytesFrom p.1 p.2).Pairwise fun x y => x.1 < y.1) :
    pieces.Pairwise fun p q => p.1 + p.2.length ≤ q.1 := by
  refine (List.pairwise_flatMap.1 hbytes).2.imp_of_mem fun {p q} hp hq hpq => ?_
  have hpos := hne p hp
  have hfirst := hne q hq
  have hlast : p.2.length - 1 < p.2.length := by omega
  -- the last byte of one is in front of the first byte of the other
  have hlt := hpq _ (Image.mem_bytesFrom hlast) _ (Image.mem_bytesFrom hfirst)
  dsimp only at hlt
  omega

theorem programs_records {m : Image} (hm : m.WellFormed) : Programs m (records m) := by
  obtain ⟨last, hpaged, hbytes⟩ := paged_recordsOf hm.inside 0
  rw [Nat.zero_mul] at hbytes
  have hplaced : placedFrom 0 (records m) = placedFrom 0 (recordsOf 0 m.segments) := by
    rw [records, placedFrom_append]
    exact List.append_nil _
  have hshort := hpaged.short
  rw [Nat.zero_mul, ← hplaced] at hshort
  rw [← hplaced] at hbytes
  have hends : endRecord.kind ≠ kindData ∧ endRecord.kind ≠ kindLinearBase := by decide
  refine ⟨⟨_, rfl, fun r hr => ?_⟩, hshort, ascending_of_bytes (fun p hp => (hshort p hp).1) ?_,
    hbytes, fun front r back hsplit hkind => ?_, fun front b back hsplit hkind => ?_⟩
  · obtain ⟨front, back, hsplit⟩ := List.append_of_mem hr
    rcases hpaged.of_split hsplit with ⟨hr, -⟩ | ⟨next, _, _, rfl, -⟩
    · exact .inl hr.kind
    · exact .inr ⟨rfl, rfl, rfl⟩
  · rw [hbytes]
    exact hm.bytes_ascending
  · obtain ⟨_, -, hfront⟩ := exists_of_concat_eq hsplit fun e => hends.1 (e ▸ hkind)
    rcases hpaged.of_split hfront with ⟨-, hdue⟩ | ⟨next, _, _, rfl, -⟩
    · rwa [Nat.zero_mul] at hdue
    · exact absurd hkind (kind_upperRecord_ne next)
  · obtain ⟨_, rfl, hfront⟩ := exists_of_concat_eq hsplit fun e => hends.2 (e ▸ hkind)
    rcases hpaged.of_split hfront with ⟨hb, -⟩ | ⟨_, first, rest, -, rfl, hfirst⟩
    · rw [hb.kind] at hkind
      exact absurd hkind (by decide)
    · exact ⟨first, rest ++ [endRecord], rfl, hfirst.kind⟩

/-- **A written file can be programmed by anyone who knows the format.** Every line is spelled as the
grammar has it, and the records are the bytes of the image in short pieces and in ascending order, with base
records where they are due and the end record at the end. -/
theorem write_programs {m : Image} (hm : m.WellFormed) :
    ∃ lines records, (write m).toList = lines.flatMap (· ++ ['\n']) ∧
      List.Forall₂ Record.Spelled lines records ∧ Programs m records := by
  refine ⟨(records m).map Record.write, records m, ?_, ?_, programs_records hm⟩
  · rw [write, String.toList_ofList, text, List.flatMap_map]
  · rw [List.forall₂_map_left_iff, List.forall₂_same]
    exact fun r hr => Record.spelled_write (length_lt_of_mem_records m r hr)

end Hex

namespace Specimen

theorem edges_programs :
    ∃ lines records, (Hex.write edges).toList = lines.flatMap (· ++ ['\n']) ∧
      List.Forall₂ Hex.Record.Spelled lines records ∧ Hex.Programs edges records :=
  Hex.write_programs edges_wellFormed

end Specimen

end FlashParams
