import FlashParams.Proofs.Assembly.Elements
import FlashParams.Proofs.Revision.Address

/-!
# Revised fields

A declaration may be revised without moving anything inside its blocks: a literal is exchanged for
another one of the same stored type, or a placeholder for what it stands for. `Occupant.Revises` lists
what may differ between a placed field and its revision. `kept` says whether the literals had to stay, so
that one relation serves revisions that change bytes and those that do not.

The revised fields are placed again, in a block that may have been moved. What has to be shown is that
every check they pass now is one the old fields passed, for the cursor, the limit and the spans taken are
all moved by one distance. Only runs without faults are compared, and `FieldSteps` records such a run as
the list of the fields it places, so that the induction has both the run and what becomes of its fields
(`FieldSteps.moved`).
-/

set_option autoImplicit false

namespace FlashParams

/-! ## What may differ -/

/-- The end of a range is kept, or replaced by the byte in front of the checksum it stood for. The latter
fixes an open end, so that it too is the same after the checksum has been pinned. -/
def CoverageEnd.Revises (base address : UInt32) (e e' : CoverageEnd) : Prop :=
  e' = e ∨ e = .beforeSelf ∧ ∃ distance : UInt32, e' = .fixed distance ∧
    base.toNat + distance.toNat + 1 = address.toNat

/-- A field placed at an address, in a block at `base` of this byte order, and a revision of it. `kept`
says that the literals are; without it a parameter may have another one, if that is stored alike and has
bytes. -/
inductive Occupant.Revises (kept : Prop) (order : ByteOrder) (base address : UInt32) :
    Occupant → Occupant → Prop where
  | parameter {q : Parameter} {type : StoredType} {offset : Offset} {declared : DeclaredType}
      {value : Literal} :
      q.offset.Revises base address offset →
      declared.stored value = .ok type →
      (kept → value = q.value) →
      ((∃ bytes, type.encode (q.byteOrder.getD order) q.value = .ok bytes) →
        ∃ bytes, type.encode (q.byteOrder.getD order) value = .ok bytes) →
      Revises kept order base address (.parameter q type)
        (.parameter { q with offset, type := declared, value } type)
  | checksum {c : Checksum} {offset : Offset} {last : CoverageEnd} :
      c.offset.Revises base address offset →
      c.coverage.last.Revises base address last →
      Revises kept order base address (.checksum c)
        (.checksum { c with offset, coverage := { c.coverage with last } })

namespace Occupant.Revises

variable {kept : Prop} {order : ByteOrder} {base address : UInt32} {o o' : Occupant}
  (h : Occupant.Revises kept order base address o o')
include h

theorem name : o'.field.name = o.field.name := by
  cases h <;> rfl

theorem align : o'.field.align = o.field.align := by
  cases h <;> rfl

theorem comment : o'.field.comment = o.field.comment := by
  cases h <;> rfl

theorem kind : o'.kind = o.kind := by
  cases h <;> rfl

theorem offset : o.field.offset.Revises base address o'.field.offset := by
  cases h with
  | parameter hoffset _ _ _ => exact hoffset
  | checksum hoffset _ => exact hoffset

theorem typed (ho : o.field.occupant = .ok o) : o'.field.occupant = .ok o' := by
  cases h with
  | @parameter q type offset declared value _ hstored _ _ =>
    simp only [Occupant.field, Field.occupant, hstored]
  | checksum _ _ =>
    simp only [Occupant.field, Field.occupant] at ho ⊢
    split at ho
    · cases ho
    · rename_i hinteger
      exact if_neg hinteger

end Occupant.Revises

theorem Occupant.Revises.refl {kept : Prop} {order : ByteOrder} {base address : UInt32} {o : Occupant}
    (ho : o.field.occupant = .ok o) : Occupant.Revises kept order base address o o := by
  cases o with
  | parameter q type =>
    exact .parameter (.inl rfl) (Field.stored_of_occupant ho) (fun _ => rfl) fun h => h
  | checksum c => exact .checksum (.inl rfl) (.inl rfl)

/-! ## One field -/

structure PlacedField.Moved (kept : Prop) (order : ByteOrder) (base : UInt32) (δ : Int)
    (p p' : PlacedField) : Prop where
  index : p'.index = p.index
  occupant : Occupant.Revises kept order base p.address p.occupant p'.occupant
  address : (p'.address.toNat : Int) = p.address.toNat + δ
  size : p'.size = p.size

namespace PlacedField.Moved

variable {kept : Prop} {order : ByteOrder} {base : UInt32} {δ : Int} {p p' : PlacedField}

theorem name (h : p.Moved kept order base δ p') : p'.name = p.name :=
  h.occupant.name

theorem stop (h : p.Moved kept order base δ p') : (p'.stop : Int) = p.stop + δ := by
  have haddress := h.address
  rw [PlacedField.stop, PlacedField.stop, h.size]
  omega

theorem span (h : p.Moved kept order base δ p') : p.span.Moved δ p'.span :=
  ⟨h.address, h.stop⟩

theorem isChecksum (h : p.Moved kept order base δ p') : p'.isChecksum = p.isChecksum := by
  have hoccupant := h.occupant
  unfold PlacedField.isChecksum
  revert hoccupant
  cases p.occupant <;> cases p'.occupant <;> intro hoccupant <;> cases hoccupant <;> rfl

end PlacedField.Moved

section

variable {kept : Prop} {order : ByteOrder} {base base' : UInt32} {δ : Int} (hδ : 16384 ∣ δ)
  (hbase : (base'.toNat : Int) = base.toNat + δ) {limit limit' : Nat}
  (hlimit : limit ≤ 0x100000000) (hlimit' : limit' ≤ 0x100000000)
  (hmoved : (limit' : Int) = limit + δ)

include hδ hbase hlimit hlimit' hmoved

/-- **A revised field is placed where the field is moved to.** Every check of a field compares addresses
that move together, and the limit moves with them, so each comes out as it did. -/
theorem placeField_moved {cursor cursor' : Nat} {taken taken' : List Taken} {index : Nat}
    {p : PlacedField} {o' : Occupant}
    (hcursor : (cursor' : Int) = cursor + δ)
    (htaken : List.Forall₂ (fun t t' => t.span.Moved δ t'.span) taken taken')
    (h : placeField base.toNat limit cursor taken index p.occupant.field = .ok p)
    (hrevised : Occupant.Revises kept order base p.address p.occupant o') :
    ∃ p', placeField base'.toNat limit' cursor' taken' index o'.field = .ok p' ∧
      p'.occupant = o' ∧ p.Moved kept order base δ p' := by
  obtain ⟨occupant, address, hadm, hp⟩ := placeField_eq_ok_iff.1 h
  have hoccupant : p.occupant = occupant := congrArg PlacedField.occupant hp
  have hstarts := hadm.starts
  have hends := hadm.ends
  have haddress : p.address.toNat = address := by
    rw [hp]
    exact toNat_lowAddress (Nat.lt_of_lt_of_le hstarts hlimit)
  subst hoccupant
  have hsize : o'.kind.size = p.occupant.kind.size := congrArg SymbolKind.size hrevised.kind
  have halign := dvd_of_isAlignment hδ hadm.aligned
  obtain ⟨start, hresolved, hstart⟩ := hrevised.offset.resolve (isAlignment_pos hadm.aligned)
    halign hbase hcursor (haddress ▸ hadm.resolved)
  -- the field starts in front of the limit, here and where it is moved to
  have hlow : start < 0x100000000 := by omega
  have hspan : (Span.mk address (address + p.occupant.kind.size)).Moved δ
      ⟨start, start + o'.kind.size⟩ := by
    refine ⟨?_, ?_⟩
    · rw [hstart, haddress]
    · show ((start + o'.kind.size : Nat) : Int) = (address + p.occupant.kind.size : Nat) + δ
      rw [hsize]
      omega
  -- the checks in the order they are made, then what the placed field is
  refine ⟨⟨index, o', lowAddress start, UInt32.ofNat o'.kind.size⟩, placeField_eq_ok_iff.2
    ⟨o', start, ⟨?_, ?_, ?_, ?_, ?_, ?_, fun t' ht' => ?_⟩, rfl⟩, rfl, ?_⟩
  · rw [hrevised.align]
    exact hadm.aligned
  · exact hrevised.typed (hadm.typed ▸ rfl)
  · rw [hsize]
    exact hadm.small
  · rwa [hrevised.align]
  · omega
  · rw [hsize]
    omega
  · obtain ⟨t, ht, hpair⟩ := forall₂_exists_right htaken t' ht'
    rw [hspan.meets hpair]
    exact hadm.apart t ht
  · refine ⟨?_, hrevised, ?_, ?_⟩
    · rw [hp]
    · rw [toNat_lowAddress hlow, hstart]
    · rw [hp]
      exact congrArg UInt32.ofNat hsize

end

/-! ## A run of fields -/

def FieldRun.put (run : FieldRun) (p : PlacedField) : FieldRun :=
  { run with
    cursor := p.stop
    taken := run.taken ++ [⟨p.span, p.name⟩]
    placed := run.placed ++ [p] }

/-- A run without faults, as the fields it places one after the other. A revised run is rebuilt along
these steps, with no need to know in advance that it has no faults. -/
inductive FieldSteps (base limit : Nat) : FieldRun → Nat → List PlacedField → FieldRun → Prop where
  | nil {run : FieldRun} {index : Nat} : FieldSteps base limit run index [] run
  | cons {run final : FieldRun} {index : Nat} {p : PlacedField} {rest : List PlacedField} :
      placeField base limit run.cursor run.taken index p.occupant.field = .ok p →
      (∀ q ∈ run.placed, q.name ≠ p.name) →
      FieldSteps base limit (run.put p) (index + 1) rest final →
      FieldSteps base limit run index (p :: rest) final

namespace FieldSteps

variable {base limit : Nat} {run final : FieldRun} {index : Nat} {placed : List PlacedField}

theorem all_eq (h : FieldSteps base limit run index placed final) :
    run.all base limit index (placed.map (·.occupant.field)) = final := by
  induction h with
  | nil => rfl
  | @cons run final index p rest hp hnew _ ih =>
    have hfree : run.placed.find? (·.name = p.occupant.field.name) = none :=
      List.find?_eq_none.2 fun q hq => by simpa using show q.name ≠ p.occupant.field.name from hnew q hq
    have hstep : run.step base limit index p.occupant.field = run.put p := by
      unfold FieldRun.step
      rw [hfree]
      dsimp only
      rw [hp]
      rfl
    rw [List.map_cons, FieldRun.all, hstep, ih]

theorem placed_eq (h : FieldSteps base limit run index placed final) :
    final.placed = run.placed ++ placed := by
  induction h with
  | nil => exact (List.append_nil _).symm
  | cons _ _ _ ih =>
    rw [ih]
    exact List.append_assoc _ _ _

theorem faults_eq (h : FieldSteps base limit run index placed final) : final.faults = run.faults := by
  induction h with
  | nil => rfl
  | cons _ _ _ ih => exact ih

theorem of_no_fault : ∀ (fields : List Field) {run : FieldRun} {index : Nat},
    (run.all base limit index fields).faults = [] →
      ∃ placed, placed.map (·.occupant.field) = fields ∧
        FieldSteps base limit run index placed (run.all base limit index fields)
  | [], _, _, _ => ⟨[], rfl, .nil⟩
  | field :: rest, run, index, h => by
    obtain ⟨placed, hfields, hsteps⟩ := of_no_fault rest h
    -- a fault is never taken back, so this field was placed
    have hmid := hsteps.faults_eq.symm.trans h
    rcases run.step_cases base limit index field with ⟨p, hp, hnew, hstep⟩ | ⟨fault, hstep⟩
    · have hfield := (tried_of_placeField hp).2
      rw [hstep] at hsteps
      refine ⟨p :: placed, by rw [List.map_cons, hfield, hfields], .cons (by rwa [hfield]) ?_ ?_⟩
      · intro q hq
        show q.name ≠ p.occupant.field.name
        rw [hfield]
        exact hnew q hq
      · rw [FieldRun.all, hstep]
        exact hsteps
    · rw [hstep] at hmid
      exact absurd hmid (List.append_ne_nil_of_right_ne_nil _ (List.cons_ne_nil _ _))

end FieldSteps

/-- Two runs, the second with the revised fields and moved. The spans taken are compared without their
names, since only the spans decide whether a field is in the way. -/
structure FieldRun.Moved (kept : Prop) (order : ByteOrder) (base : UInt32) (δ : Int)
    (run run' : FieldRun) : Prop where
  cursor : (run'.cursor : Int) = run.cursor + δ
  taken : List.Forall₂ (fun t t' => t.span.Moved δ t'.span) run.taken run'.taken
  placed : List.Forall₂ (PlacedField.Moved kept order base δ) run.placed run'.placed

section

variable {kept : Prop} {order : ByteOrder} {base base' : UInt32} {δ : Int}

theorem FieldRun.Moved.put {run run' : FieldRun} (h : run.Moved kept order base δ run')
    {p p' : PlacedField} (hp : p.Moved kept order base δ p') :
    (run.put p).Moved kept order base δ (run'.put p') :=
  ⟨hp.stop, List.rel_append h.taken (.cons hp.span .nil), List.rel_append h.placed (.cons hp .nil)⟩

theorem Block.faults_beginFields_eq_nil_iff {b : Block} {base : UInt32} :
    (b.beginFields base).faults = [] ↔ (b.header.isSome → Header.size ≤ b.length.toNat) := by
  unfold Block.beginFields
  cases b.header with
  | none => exact ⟨fun _ h => (Bool.false_ne_true h).elim, fun _ => rfl⟩
  | some header =>
    dsimp only
    split
    · rename_i hshort
      exact ⟨fun h => (List.cons_ne_nil _ _ h).elim, fun h => absurd (h rfl) (by omega)⟩
    · rename_i hroom
      exact ⟨fun _ _ => by omega, fun _ => rfl⟩

theorem Block.moved_beginFields {b b' : Block} (hbase : (base'.toNat : Int) = base.toNat + δ)
    (hheader : b'.header = b.header) :
    (b.beginFields base).Moved kept order base δ (b'.beginFields base') := by
  unfold Block.beginFields
  rw [hheader]
  cases b.header with
  | none => exact ⟨hbase, .nil, .nil⟩
  | some header =>
    have hstop : ((base'.toNat + Header.size : Nat) : Int) = (base.toNat + Header.size : Nat) + δ := by
      omega
    exact ⟨hstop, .cons ⟨hbase, hstop⟩ .nil, .nil⟩

variable (hδ : 16384 ∣ δ) (hbase : (base'.toNat : Int) = base.toNat + δ)
include hδ hbase

/-- **A run of revised fields goes through as the run did.** The induction is on its steps. A fault in
the revised run would have to come from a check that the first run passed. -/
theorem FieldSteps.moved {limit limit' : Nat} (hlimit : limit ≤ 0x100000000)
    (hlimit' : limit' ≤ 0x100000000) (hmoved : (limit' : Int) = limit + δ)
    {run final : FieldRun} {index : Nat} {placed : List PlacedField}
    (h : FieldSteps base.toNat limit run index placed final) {revised : List Occupant}
    (hrevised : List.Forall₂ (fun p o' => Occupant.Revises kept order base p.address p.occupant o')
      placed revised)
    {run' : FieldRun} (hrun : run.Moved kept order base δ run') :
    ∃ placed' final', FieldSteps base'.toNat limit' run' index placed' final' ∧
      placed'.map (·.occupant) = revised ∧
      List.Forall₂ (PlacedField.Moved kept order base δ) placed placed' := by
  induction h generalizing revised run' with
  | nil =>
    cases hrevised
    exact ⟨[], run', .nil, rfl, .nil⟩
  | @cons run final index p rest hp hnew _ ih =>
    cases hrevised with
    | cons hfirst hrest =>
      obtain ⟨p', hp', hoccupant, hpair⟩ :=
        placeField_moved hδ hbase hlimit hlimit' hmoved hrun.cursor hrun.taken hp hfirst
      obtain ⟨placed', final', hsteps, hoccupants, hplaced⟩ := ih hrest (hrun.put hpair)
      refine ⟨p' :: placed', final', .cons ?_ ?_ hsteps, ?_, .cons hpair hplaced⟩
      · rwa [hoccupant]
      · intro q' hq'
        obtain ⟨q, hq, hqq'⟩ := forall₂_exists_right hrun.placed q' hq'
        rw [hqq'.name, hpair.name]
        exact hnew q hq
      · rw [List.map_cons, hoccupant, hoccupants]

/-! ## The fields of a block -/

/-- **The fields of a revised block are placed where its fields are moved to.** The header and the length
of the block are the same, so the runs start alike and end at limits that are moved as well. -/
theorem Block.place_moved {b b' : Block} (hlength : b'.length = b.length)
    (hheader : b'.header = b.header)
    (hstop : base.toNat + b.length.toNat ≤ 0x100000000)
    (hstop' : base'.toNat + b.length.toNat ≤ 0x100000000)
    (h : (b.place base).faults = []) {revised : List Occupant}
    (hfields : b'.fields = revised.map (·.field))
    (hrevised : List.Forall₂ (fun p o' => Occupant.Revises kept order base p.address p.occupant o')
      (b.place base).placed revised) :
    (b'.place base').faults = [] ∧
      List.Forall₂ (PlacedField.Moved kept order base δ) (b.place base).placed
        (b'.place base').placed := by
  obtain ⟨placed, -, hsteps⟩ := FieldSteps.of_no_fault b.fields h
  have hplaced : (b.place base).placed = placed := by
    have := hsteps.placed_eq
    rwa [b.placed_beginFields] at this
  have hbegin := hsteps.faults_eq.symm.trans h
  rw [hplaced] at hrevised ⊢
  have hmoved : ((base'.toNat + b.length.toNat : Nat) : Int) =
      (base.toNat + b.length.toNat : Nat) + δ := by omega
  obtain ⟨placed', final', hsteps', hoccupants, hpairs⟩ := hsteps.moved hδ hbase hstop hstop' hmoved
    hrevised (Block.moved_beginFields hbase hheader)
  have hplace : b'.place base' = final' := by
    rw [← hsteps'.all_eq, Block.place, hfields, hlength, ← hoccupants, List.map_map]
    rfl
  rw [hplace, hsteps'.placed_eq, b'.placed_beginFields]
  refine ⟨hsteps'.faults_eq.trans ?_, hpairs⟩
  rw [Block.faults_beginFields_eq_nil_iff] at hbegin ⊢
  rwa [hheader, hlength]

end

end FlashParams
