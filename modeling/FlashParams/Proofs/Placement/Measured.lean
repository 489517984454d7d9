import FlashParams.Proofs.Placement.Account
import FlashParams.Proofs.Value.DeclaredType

/-!
# Sizes in a machine word

The size of a field is computed in a machine word of 64 bits, and only then compared with the bound of
32 bits that every size has to keep. What one expects of a block is that the word is no limit of its own:
each size beyond 32 bits is reported for that, however large it is (`Block.ReportsSizes`).

A declared length may fill the word by itself, and the elements of an array may have more than one byte.
`DeclaredType.Outgrows` says which literals a type stores in more bytes than a word can count, and
`Block.reportsSizes_iff_not_outgrows` that these are the only ones to fail on. A block is up to the
expectation exactly when none of its fields whose size is asked for outgrows the word; otherwise it has
no outcome at all, for the fields in front of that one either. The law of placement has the same
exception (`Block.placesFields_iff`): where there is a run it obeys the law, and there is none exactly
then.

Which sizes are asked for depends on the run before them, since a name that is taken is refused first.
The run that breaks off and the run with exact sizes agree up to the place (`FieldRun.all?_eq_none_iff`),
so `Block.Measures` can be stated with the latter.
-/

set_option autoImplicit false

namespace FlashParams

open StoredType (wordBound)

/-! ## Types that outgrow the word -/

theorem StoredType.wordSize?_eq_some_iff {type : StoredType} :
    type.wordSize? = some type.size ↔ type.size < wordBound := by
  unfold wordSize?
  split <;> simp [*]

theorem StoredType.wordSize?_eq_none_iff {type : StoredType} :
    type.wordSize? = none ↔ wordBound ≤ type.size := by
  unfold wordSize?
  split <;> simp <;> omega

/-- The literal takes more bytes in the type than a machine word can count. An array without a length has
that of its literal, so it takes a literal of absurd length to outgrow the word there; an array with one
needs no more than a large number in its type. -/
inductive DeclaredType.Outgrows : DeclaredType → Literal → Prop where
  | array {t : Scalar} {n : Nat} {value : Literal} :
      wordBound ≤ t.size * n → Outgrows (.array t n) value
  | items {t : Scalar} {items : List Literal} :
      wordBound ≤ t.size * items.length → Outgrows (.scalar t) (.array items)
  /-- No text of a type declares such a length (`DeclaredType.length_lt_of_ofText`). -/
  | padded {n : Nat} {value : Literal} : wordBound ≤ n → Outgrows (.text (some n)) value
  | terminated {s : String} : wordBound ≤ s.utf8ByteSize + 1 → Outgrows (.text none) (.str s)

def DeclaredType.FitsWord (t : DeclaredType) (value : Literal) : Prop :=
  ∀ type, t.stored value = .ok type → type.wordSize? = some type.size

theorem Scalar.size_lt_wordBound (t : Scalar) : t.size < wordBound := by
  cases t <;> decide

theorem DeclaredType.outgrows_iff {t : DeclaredType} {value : Literal} :
    t.Outgrows value ↔ ∃ type, t.stored value = .ok type ∧ wordBound ≤ type.size := by
  constructor
  · rintro (⟨h⟩ | @⟨t, items, h⟩ | ⟨h⟩ | ⟨h⟩)
    · exact ⟨_, rfl, h⟩
    · cases items with
      | nil => exact absurd h (by simp [wordBound])
      | cons item rest => exact ⟨_, rfl, h⟩
    · exact ⟨_, rfl, h⟩
    · exact ⟨_, rfl, h⟩
  · rintro ⟨type, htype, h⟩
    unfold DeclaredType.stored at htype
    split at htype
    · cases htype
    · cases htype
      exact .items h
    · cases htype
      exact absurd (Scalar.size_lt_wordBound _) (Nat.not_lt.2 h)
    · cases htype
      exact .array h
    · cases htype
      exact .padded h
    · cases htype
      exact .terminated h
    · cases htype

theorem DeclaredType.fitsWord_iff (t : DeclaredType) (value : Literal) :
    t.FitsWord value ↔ ¬ t.Outgrows value := by
  rw [outgrows_iff]
  constructor
  · rintro h ⟨type, htype, hlarge⟩
    exact Nat.not_lt.2 hlarge (StoredType.wordSize?_eq_some_iff.1 (h type htype))
  · intro h type htype
    exact StoredType.wordSize?_eq_some_iff.2 (Nat.not_le.1 fun hlarge => h ⟨type, htype, hlarge⟩)

/-- A length of text that can be written fits the word. Lengths are read as words, so a text never
outgrows one, and only arrays multiply. -/
theorem DeclaredType.length_lt_of_ofText {source : String} {n : Nat}
    (h : ofText source = .ok (.text (some n))) : n < wordBound := by
  obtain ⟨-, hle⟩ := (Spelled.of_ofText h).declarable n rfl
  exact Nat.lt_of_le_of_lt hle (by decide)

/-! ## One field -/

inductive Field.Outgrows : Field → Prop where
  | parameter {q : Parameter} : q.type.Outgrows q.value → Outgrows (.parameter q)

theorem Field.outgrows_iff {f : Field} :
    f.Outgrows ↔ ∃ occupant, f.occupant = .ok occupant ∧ wordBound ≤ occupant.kind.size := by
  constructor
  · rintro ⟨h⟩
    obtain ⟨type, htype, hlarge⟩ := DeclaredType.outgrows_iff.1 h
    exact ⟨.parameter _ type, by rw [Field.occupant, htype], hlarge⟩
  · rintro ⟨occupant, hoccupant, hlarge⟩
    unfold Field.occupant at hoccupant
    split at hoccupant
    · split at hoccupant
      · rename_i htype
        cases hoccupant
        exact .parameter (DeclaredType.outgrows_iff.2 ⟨_, htype, hlarge⟩)
      · cases hoccupant
    · split at hoccupant
      · cases hoccupant
      · cases hoccupant
        exact absurd (Scalar.size_lt_wordBound _) (Nat.not_lt.2 hlarge)

theorem Field.exceedsWord_iff {f : Field} :
    f.exceedsWord = true ↔ isAlignment f.align = true ∧ f.Outgrows := by
  unfold exceedsWord
  rw [Bool.and_eq_true, outgrows_iff]
  refine and_congr_right fun _ => ?_
  cases hoccupant : f.occupant with
  | error fault => simp
  | ok occupant =>
    cases occupant with
    | parameter q type =>
      simp [Option.isNone_iff_eq_none, StoredType.wordSize?_eq_none_iff, Occupant.kind,
        SymbolKind.size]
    | checksum c =>
      simpa [Occupant.kind, SymbolKind.size] using c.type.size_lt_wordBound

/-- A size beyond 32 bits is an address overflow, before the place of the field is looked for. So it is
reported as such even when the field would also be in the way of another. -/
theorem placeField_of_large {base limit cursor index : Nat} {taken : List Taken} {f : Field}
    {occupant : Occupant} (haligned : isAlignment f.align = true) (htyped : f.occupant = .ok occupant)
    (hlarge : 0x100000000 ≤ occupant.kind.size) :
    placeField base limit cursor taken index f = .error (.addressOverflow f.name) := by
  unfold placeField
  rw [if_neg (by rw [haligned]; exact Bool.false_ne_true), htyped]
  exact if_pos hlarge

/-! ## Runs that can break off -/

namespace FieldRun

variable {base limit index : Nat} {run final : FieldRun}

theorem step?_eq_none_iff {f : Field} :
    run.step? base limit index f = none ↔
      (∀ q ∈ run.placed, q.name ≠ f.name) ∧ isAlignment f.align = true ∧ f.Outgrows := by
  unfold step?
  rw [← Field.exceedsWord_iff]
  split <;> simp_all

theorem step?_eq_some {f : Field} {next : FieldRun} (h : run.step? base limit index f = some next) :
    next = run.step base limit index f := by
  unfold step? at h
  split at h
  · cases h
  · cases h
    rfl

theorem all?_eq_some : ∀ {fields : List Field} {run : FieldRun} {index : Nat},
    run.all? base limit index fields = some final → final = run.all base limit index fields
  | [], _, _, h => by
    cases h
    rfl
  | f :: rest, run, index, h => by
    obtain ⟨next, hnext, hrest⟩ := Option.bind_eq_some_iff.1 h
    have hfinal := all?_eq_some hrest
    rwa [step?_eq_some hnext] at hfinal

/-- **A run breaks off at the first field whose size is asked for and outgrows the word.** A field that
is refused before its size is asked for, for its name, its alignment or its literal, may be of any size. -/
theorem all?_eq_none_iff : ∀ {fields : List Field} {run : FieldRun} {index : Nat},
    run.all? base limit index fields = none ↔ ∃ front f back, fields = front ++ f :: back ∧
      (run.all base limit index front).step? base limit (index + front.length) f = none
  | [], _, _ => by
    constructor
    · intro h
      cases h
    · rintro ⟨front, f, back, hsplit, -⟩
      exact absurd hsplit.symm (List.append_ne_nil_of_right_ne_nil _ (List.cons_ne_nil _ _))
  | f :: rest, run, index => by
    have hrest : (run.all? base limit index (f :: rest) = none) ↔
        run.step? base limit index f = none ∨
          (run.step base limit index f).all? base limit (index + 1) rest = none := by
      rw [all?]
      cases hstep : run.step? base limit index f with
      | none => simp
      | some next => simp [step?_eq_some hstep]
    rw [hrest, all?_eq_none_iff]
    constructor
    · rintro (h | ⟨front, g, back, rfl, h⟩)
      · exact ⟨[], f, rest, rfl, h⟩
      · refine ⟨f :: front, g, back, rfl, ?_⟩
        rwa [all, List.length_cons, Nat.add_comm front.length, ← Nat.add_assoc]
    · rintro ⟨front, g, back, hsplit, h⟩
      cases front with
      | nil =>
        cases hsplit
        exact .inl h
      | cons first front =>
        cases hsplit
        refine .inr ⟨front, g, back, rfl, ?_⟩
        rwa [all, List.length_cons, Nat.add_comm front.length, ← Nat.add_assoc] at h

theorem exists_faults (base limit : Nat) : ∀ (fields : List Field) (run : FieldRun) (index : Nat),
    ∃ later, (run.all base limit index fields).faults = run.faults ++ later
  | [], run, _ => ⟨[], (List.append_nil _).symm⟩
  | f :: rest, run, index => by
    obtain ⟨later, hlater⟩ := exists_faults base limit rest (run.step base limit index f) (index + 1)
    rw [all, hlater]
    rcases run.step_cases base limit index f with ⟨p, -, -, hstep⟩ | ⟨fault, hstep⟩
    · exact ⟨later, by rw [hstep]⟩
    · exact ⟨fault :: later, by rw [hstep, List.append_assoc]; rfl⟩

theorem index_lt_of_mem : ∀ {fields : List Field} {run : FieldRun} {index : Nat},
    (∀ p ∈ run.placed, p.index < index) →
      ∀ p ∈ (run.all base limit index fields).placed, p.index < index + fields.length
  | [], _, _, h => h
  | f :: rest, run, index, h => by
    rw [all, List.length_cons, Nat.add_comm rest.length, ← Nat.add_assoc]
    refine index_lt_of_mem fun p hp => ?_
    rcases run.step_cases base limit index f with ⟨q, hq, -, hstep⟩ | ⟨fault, hstep⟩
    · rw [hstep] at hp
      rcases List.mem_append.1 hp with hp | hp
      · exact Nat.lt_succ_of_lt (h p hp)
      · rw [List.mem_singleton.1 hp, (tried_of_placeField hq).1]
        exact Nat.lt_succ_self index
    · rw [hstep] at hp
      exact Nat.lt_succ_of_lt (h p hp)

end FieldRun

/-! ## Blocks -/

/-- The size of the field behind `front` is asked for, and it is that of `occupant`: no field placed in
front of it has its name, and its alignment and its type are in order. These are the checks the code
makes before it multiplies. -/
structure Block.Measures (b : Block) (base : UInt32) (front : List Field) (f : Field)
    (occupant : Occupant) : Prop where
  declared : ∃ back, b.fields = front ++ f :: back
  new : ∀ q ∈ (b.placeFirst base front).placed, q.name ≠ f.name
  aligned : isAlignment f.align = true
  typed : f.occupant = .ok occupant

/-- What is expected of the sizes in a block: all fields are tried, and one of a size that has no 32-bit
form is reported for that and placed nowhere. The first half is what fails when a size outgrows the word,
and then nothing at all is reported. -/
structure Block.ReportsSizes (b : Block) (base : UInt32) : Prop where
  tried : b.place? base = some (b.place base)
  reported : ∀ front f occupant, b.Measures base front f occupant →
    0xFFFFFFFF < occupant.kind.size →
      .addressOverflow f.name ∈ (b.place base).faults ∧
        ∀ p ∈ (b.place base).placed, p.index ≠ front.length

/-- Some field of a block outgrows the word when its size is asked for. It depends on `base` only because
what is asked of a field depends on the fields that have been placed. -/
def Block.Outgrows (b : Block) (base : UInt32) : Prop :=
  ∃ front f occupant, b.Measures base front f occupant ∧ f.Outgrows

variable {b : Block} {base : UInt32}

theorem Block.place?_eq_none_iff : b.place? base = none ↔ b.Outgrows base := by
  unfold Block.place?
  rw [FieldRun.all?_eq_none_iff]
  constructor
  · rintro ⟨front, f, back, hsplit, h⟩
    obtain ⟨hnew, haligned, houtgrows⟩ := FieldRun.step?_eq_none_iff.1 h
    obtain ⟨occupant, htyped, -⟩ := Field.outgrows_iff.1 houtgrows
    exact ⟨front, f, occupant, ⟨⟨back, hsplit⟩, hnew, haligned, htyped⟩, houtgrows⟩
  · rintro ⟨front, f, occupant, ⟨⟨back, hsplit⟩, hnew, haligned, -⟩, houtgrows⟩
    exact ⟨front, f, back, hsplit, FieldRun.step?_eq_none_iff.2 ⟨hnew, haligned, houtgrows⟩⟩

theorem Block.place?_eq_some {run : FieldRun} (h : b.place? base = some run) : run = b.place base :=
  FieldRun.all?_eq_some h

/-- With exact sizes each size beyond 32 bits is reported. It is about the run that cannot break off,
which is the run of the block when no size outgrows the word. -/
theorem Block.Measures.reported {front : List Field} {f : Field} {occupant : Occupant}
    (h : b.Measures base front f occupant) (hlarge : 0xFFFFFFFF < occupant.kind.size) :
    .addressOverflow f.name ∈ (b.place base).faults ∧
      ∀ p ∈ (b.place base).placed, p.index ≠ front.length := by
  obtain ⟨back, hsplit⟩ := h.declared
  have hfind : (b.placeFirst base front).placed.find? (·.name = f.name) = none :=
    List.find?_eq_none.2 fun q hq => by simpa using h.new q hq
  have hstep : (b.placeFirst base front).step base.toNat (base.toNat + b.length.toNat) front.length f =
      { b.placeFirst base front with
        faults := (b.placeFirst base front).faults ++ [.addressOverflow f.name] } := by
    unfold FieldRun.step
    rw [hfind]
    dsimp only
    rw [placeField_of_large h.aligned h.typed hlarge]
  obtain ⟨later, hlater⟩ := FieldRun.exists_faults base.toNat (base.toNat + b.length.toNat) back
    ((b.placeFirst base front).step base.toNat (base.toNat + b.length.toNat) front.length f)
    (front.length + 1)
  obtain ⟨added, hadded, hhigh⟩ := FieldRun.exists_added base.toNat (base.toNat + b.length.toNat) back
    ((b.placeFirst base front).step base.toNat (base.toNat + b.length.toNat) front.length f)
    (front.length + 1)
  have hlow : ∀ p ∈ (b.placeFirst base front).placed, p.index < 0 + front.length :=
    FieldRun.index_lt_of_mem (by rw [b.placed_beginFields base]; exact List.forall_mem_nil _)
  rw [Block.place_eq hsplit, hlater, hadded, hstep]
  refine ⟨List.mem_append_left _ (List.mem_append_right _ (List.mem_singleton_self _)), ?_⟩
  intro p hp
  rcases List.mem_append.1 hp with hp | hp
  · have := hlow p hp
    omega
  · have := hhigh p hp
    omega

/-- **The sizes in a block are reported unless one of them outgrows the word.** The products that leave
the word are thus the only sizes that go unreported; everything between 32 bits and the word is caught. -/
theorem Block.reportsSizes_iff_not_outgrows (b : Block) (base : UInt32) :
    b.ReportsSizes base ↔ ¬ b.Outgrows base := by
  rw [← Block.place?_eq_none_iff]
  constructor
  · intro h hnone
    cases hnone.symm.trans h.tried
  · intro h
    obtain ⟨run, hrun⟩ := Option.ne_none_iff_exists'.1 h
    exact ⟨Block.place?_eq_some hrun ▸ hrun, fun _ _ _ hmeasures => hmeasures.reported⟩

/-- **A block accounts for its fields by the law of placement unless one of them outgrows the word.** A block
in which one does has no run at all, so that not even the fields in front of it get a place or a fault. -/
theorem Block.placesFields_iff (b : Block) (base : UInt32)
    (hlimit : base.toNat + b.length.toNat ≤ 0x100000000) :
    ((∃ run, b.place? base = some run ∧ b.PlacesFields base run) ↔ ¬ b.Outgrows base) ∧
      (∀ run, b.place? base = some run → b.PlacesFields base run) ∧
      (b.place? base = none ↔ b.Outgrows base) := by
  have hlaw : ∀ run, b.place? base = some run → b.PlacesFields base run := by
    intro run hrun
    rw [Block.place?_eq_some hrun]
    exact b.placesFields_place base hlimit
  refine ⟨?_, hlaw, Block.place?_eq_none_iff⟩
  rw [← Block.place?_eq_none_iff]
  constructor
  · rintro ⟨run, hrun, -⟩ hnone
    cases hnone.symm.trans hrun
  · intro h
    obtain ⟨run, hrun⟩ := Option.ne_none_iff_exists'.1 h
    exact ⟨run, hrun, hlaw run hrun⟩

namespace Specimen

/-- Sixteen bytes for the header, one field that goes back behind another, one that meets it, one that
has its name, and one that has no room. -/
def crowded : Block :=
  { name := "crowded"
    length := 32
    header := some ⟨1, 2, 3, 4⟩
    fields :=
      [ .parameter ⟨"far", .fixed 24, .scalar .u32, 4, .int 1, none, none⟩,
        .parameter ⟨"met", .fixed 26, .scalar .u16, 2, .int 1, none, none⟩,
        .parameter ⟨"near", .fixed 16, .scalar .u8, 1, .int 1, none, none⟩,
        .parameter ⟨"far", .next, .scalar .u8, 1, .int 1, none, none⟩,
        .checksum ⟨"sum", .next, .u32, 4, {}, {}, none⟩,
        .parameter ⟨"late", .next, .scalar .u64, 8, .int 1, none, none⟩ ] }

/-- The block ends with the address space; its fields are placed by the law. -/
theorem crowded_placesFields :
    (0xFFFFFFE0 : UInt32).toNat + crowded.length.toNat ≤ 0x100000000 ∧
      ∃ run, crowded.place? 0xFFFFFFE0 = some run ∧ crowded.PlacesFields 0xFFFFFFE0 run ∧
        run.placed.map (fun p => (p.index, p.address)) =
          [(0, 0xFFFFFFF8), (2, 0xFFFFFFF0), (4, 0xFFFFFFF4)] ∧
        run.faults.length = 3 := by
  have hlimit : (0xFFFFFFE0 : UInt32).toNat + crowded.length.toNat ≤ 0x100000000 := by decide
  have hsome : (crowded.place? 0xFFFFFFE0).isSome = true := by decide +kernel
  obtain ⟨run, hrun⟩ := Option.isSome_iff_exists.1 hsome
  obtain ⟨-, hlaw, -⟩ := Block.placesFields_iff crowded 0xFFFFFFE0 hlimit
  refine ⟨hlimit, run, hrun, hlaw run hrun, ?_⟩
  rw [Block.place?_eq_some hrun]
  exact ⟨by decide +kernel, by decide +kernel⟩

/-- A field in order, and behind it an array of 2^63 items of two bytes. -/
def towering : Block :=
  { name := "towering"
    length := 16
    fields :=
      [ .parameter ⟨"low", .next, .scalar .u8, 1, .int 1, none, none⟩,
        .parameter ⟨"high", .next, .array .u16 9223372036854775808, 1, .int 0, none, none⟩ ] }

/-- The block fits, and neither of its fields is accounted for: there is no run. -/
theorem towering_not_placesFields :
    (0 : UInt32).toNat + towering.length.toNat ≤ 0x100000000 ∧ towering.place? 0 = none ∧
      ¬ ∃ run, towering.place? 0 = some run ∧ towering.PlacesFields 0 run := by
  have hnone : towering.place? 0 = none := Option.isNone_iff_eq_none.1 (by decide +kernel)
  refine ⟨by decide, hnone, ?_⟩
  rintro ⟨run, hrun, -⟩
  cases hnone.symm.trans hrun

end Specimen

end FlashParams
