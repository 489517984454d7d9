import FlashParams.Proofs.Placement.Address

/-!
# Where the fields of a block end up

`placeField_eq_ok_iff` turns the chain of checks inside out: a field is placed exactly when all of
them pass, and then the result is determined. Everything else about a run of fields is an invariant
of `FieldRun.step`, collected in `FieldRun.Sound`:

* every placed field starts inside the block and ends inside it, at its exact address;
* no two placed fields meet, and none meets what was taken before the first field (the header);
* names are distinct, and each field keeps the stored type it was measured with.

The second half is about runs without faults (`FieldRun.fields_of_no_fault`): there *every* field has
been placed, in declaration order. Faults are never taken back, so it is enough to look at the end.
-/

set_option autoImplicit false

namespace FlashParams

/-! ## One field -/

theorem Field.field_of_occupant {field : Field} {occupant : Occupant}
    (h : field.occupant = .ok occupant) : occupant.field = field := by
  cases field with
  | parameter p =>
    simp only [Field.occupant] at h
    split at h
    · cases h
      rfl
    · cases h
  | checksum c =>
    simp only [Field.occupant] at h
    split at h
    · cases h
    · cases h
      rfl

/-- All checks a field has to pass to be placed with this stored type at this exact address. That its
name is new is not one of them, as the run sees to that before the field is tried. -/
structure Field.Admitted (base limit cursor : Nat) (taken : List Taken) (field : Field)
    (occupant : Occupant) (address : Nat) : Prop where
  aligned : isAlignment field.align = true
  typed : field.occupant = .ok occupant
  small : occupant.kind.size < 0x100000000
  resolved : field.offset.resolve base cursor field.align.toNat = .ok address
  starts : address < limit
  ends : address + occupant.kind.size ≤ limit
  apart : ∀ t ∈ taken, Span.meets ⟨address, address + occupant.kind.size⟩ t.span = false

/-- **A field is placed exactly when it passes every check.** What later proofs ask of a placed field
they get from the conjunction, without the chain of checks and its order. -/
theorem placeField_eq_ok_iff {base limit cursor : Nat} {taken : List Taken} {index : Nat}
    {field : Field} {p : PlacedField} :
    placeField base limit cursor taken index field = .ok p ↔
      ∃ occupant address, field.Admitted base limit cursor taken occupant address ∧
        p = ⟨index, occupant, lowAddress address, UInt32.ofNat occupant.kind.size⟩ := by
  constructor
  · intro h
    unfold placeField at h
    split at h
    · cases h
    rename_i haligned
    split at h
    · cases h
    rename_i occupant htyped
    dsimp only at h
    split at h
    · cases h
    rename_i hsmall
    split at h
    · cases h
    rename_i address hresolved
    split at h
    · cases h
    rename_i hroom
    split at h
    · cases h
    rename_i hfree
    cases h
    refine ⟨occupant, address, ⟨by simpa using haligned, htyped, by omega, hresolved, by omega,
      by omega, fun t ht => ?_⟩, rfl⟩
    exact Bool.eq_false_iff.2 (List.find?_eq_none.1 hfree t ht)
  · rintro ⟨occupant, address, h, rfl⟩
    have hfree : taken.find? (fun t =>
        Span.meets ⟨address, address + occupant.kind.size⟩ t.span) = none :=
      List.find?_eq_none.2 fun t ht => by rw [h.apart t ht]; exact Bool.false_ne_true
    have hroom : ¬ (limit ≤ address ∨ limit < address + occupant.kind.size) := by
      have := h.starts
      have := h.ends
      omega
    unfold placeField
    rw [if_neg (by rw [h.aligned]; exact Bool.false_ne_true), h.typed]
    dsimp only
    rw [if_neg (Nat.not_le.2 h.small), h.resolved]
    dsimp only
    rw [if_neg hroom, hfree]

theorem tried_of_placeField {base limit cursor : Nat} {taken : List Taken} {index : Nat}
    {field : Field} {p : PlacedField} (h : placeField base limit cursor taken index field = .ok p) :
    p.index = index ∧ p.occupant.field = field := by
  obtain ⟨occupant, address, hadm, rfl⟩ := placeField_eq_ok_iff.1 h
  exact ⟨rfl, Field.field_of_occupant hadm.typed⟩

/-- Where an admitted field is placed is where it was resolved to. Its address and its size are narrowed
to words, and it lies in a block that ends within the address space, so neither loses anything. -/
theorem Field.Admitted.span_eq {base limit cursor : Nat} {taken : List Taken} {field : Field}
    {occupant : Occupant} {address : Nat} (h : field.Admitted base limit cursor taken occupant address)
    (hlimit : limit ≤ 0x100000000) (index : Nat) :
    (PlacedField.mk index occupant (lowAddress address) (UInt32.ofNat occupant.kind.size)).span =
      ⟨address, address + occupant.kind.size⟩ := by
  have haddress : (lowAddress address).toNat = address :=
    toNat_lowAddress (Nat.lt_of_lt_of_le h.starts hlimit)
  have hsize : (UInt32.ofNat occupant.kind.size).toNat = occupant.kind.size :=
    UInt32.toNat_ofNat_of_lt' h.small
  simp only [PlacedField.span, PlacedField.stop, haddress, hsize]

/-- What holds of a field that has been placed in a block from `base` to `limit`, apart from what was
taken before it. -/
structure PlacedField.Sound (base limit : Nat) (taken : List Taken) (field : Field)
    (p : PlacedField) : Prop where
  field : p.occupant.field = field
  typed : p.occupant.field.occupant = .ok p.occupant
  sized : p.size.toNat = p.occupant.kind.size
  low : base ≤ p.address.toNat
  starts : p.address.toNat < limit
  ends : p.stop ≤ limit
  apart : ∀ t ∈ taken, p.span.meets t.span = false

theorem PlacedField.sound_of_placeField {base limit cursor : Nat} {taken : List Taken} {index : Nat}
    {field : Field} {p : PlacedField} (hlimit : limit ≤ 0x100000000) (hcursor : base ≤ cursor)
    (h : placeField base limit cursor taken index field = .ok p) : p.Sound base limit taken field := by
  obtain ⟨occupant, address, hadm, rfl⟩ := placeField_eq_ok_iff.1 h
  have hspan := hadm.span_eq hlimit index
  have haddress : (lowAddress address).toNat = address := congrArg Span.start hspan
  have hfield := Field.field_of_occupant hadm.typed
  refine ⟨hfield, ?_, UInt32.toNat_ofNat_of_lt' hadm.small, ?_, ?_, ?_, ?_⟩
  · rw [hfield]
    exact hadm.typed
  · rw [haddress]
    exact Offset.le_of_resolve (isAlignment_pos hadm.aligned) hcursor hadm.resolved
  · rw [haddress]
    exact hadm.starts
  · exact Nat.le_trans (Nat.le_of_eq (congrArg Span.stop hspan)) hadm.ends
  · rw [hspan]
    exact hadm.apart

/-! ## A run of fields -/

/-- What holds of the fields placed so far, in a block from `base` to `limit` of which `owned` was taken
before the first of them. The cursor is in it because an open offset goes by nothing else, and the list
of what is taken because the next field is compared with that and not with the fields. -/
structure FieldRun.Sound (base limit : Nat) (owned : List Taken) (run : FieldRun) : Prop where
  cursor : base ≤ run.cursor
  taken : run.taken = owned ++ run.placed.map fun p => ⟨p.span, p.name⟩
  typed : ∀ p ∈ run.placed, p.occupant.field.occupant = .ok p.occupant
  sized : ∀ p ∈ run.placed, p.size.toNat = p.occupant.kind.size
  low : ∀ p ∈ run.placed, base ≤ p.address.toNat
  starts : ∀ p ∈ run.placed, p.address.toNat < limit
  ends : ∀ p ∈ run.placed, p.stop ≤ limit
  apart : run.placed.Pairwise fun p q => p.span.meets q.span = false
  unowned : ∀ p ∈ run.placed, ∀ t ∈ owned, p.span.meets t.span = false
  distinct : (run.placed.map (·.name)).Nodup

/-- What a step does: it places the field, or reports it and changes nothing else. In particular a field
that fails does not move the cursor, and its name stays free. -/
theorem FieldRun.step_cases (base limit : Nat) (run : FieldRun) (index : Nat) (field : Field) :
    (∃ p, placeField base limit run.cursor run.taken index field = .ok p ∧
        (∀ q ∈ run.placed, q.name ≠ field.name) ∧
        run.step base limit index field =
          { run with
            cursor := p.stop
            taken := run.taken ++ [⟨p.span, p.name⟩]
            placed := run.placed ++ [p] }) ∨
      ∃ fault, run.step base limit index field = { run with faults := run.faults ++ [fault] } := by
  unfold FieldRun.step
  split
  · exact .inr ⟨_, rfl⟩
  · rename_i hnew
    split
    · rename_i p hp
      refine .inl ⟨p, hp, fun q hq => ?_, rfl⟩
      simpa using List.find?_eq_none.1 hnew q hq
    · exact .inr ⟨_, rfl⟩

theorem FieldRun.Sound.of_nothing_placed {base limit : Nat} {owned : List Taken} {run : FieldRun}
    (hplaced : run.placed = []) (htaken : run.taken = owned) (hcursor : base ≤ run.cursor) :
    run.Sound base limit owned := by
  have hnone : ∀ {P : PlacedField → Prop}, ∀ p ∈ run.placed, P p := by
    intro P
    rw [hplaced]
    exact List.forall_mem_nil _
  refine ⟨hcursor, ?_, hnone, hnone, hnone, hnone, hnone, ?_, hnone, ?_⟩
  · rw [hplaced, htaken, List.map_nil, List.append_nil]
  · rw [hplaced]
    exact List.Pairwise.nil
  · rw [hplaced]
    exact List.nodup_nil

theorem FieldRun.Sound.step {base limit : Nat} {owned : List Taken} {run : FieldRun}
    (hlimit : limit ≤ 0x100000000) (h : run.Sound base limit owned) (index : Nat) (field : Field) :
    (run.step base limit index field).Sound base limit owned := by
  rcases run.step_cases base limit index field with ⟨p, hp, hnew, hstep⟩ | ⟨fault, hstep⟩
  · have hsound := PlacedField.sound_of_placeField hlimit h.cursor hp
    -- every clause about placed fields holds of the old ones and of the new one
    have hall : ∀ {P : PlacedField → Prop}, (∀ q ∈ run.placed, P q) → P p →
        ∀ q ∈ run.placed ++ [p], P q := fun hold hlast =>
      List.forall_mem_append.2 ⟨hold, List.forall_mem_singleton.2 hlast⟩
    rw [hstep]
    refine ⟨?_, ?_, hall h.typed hsound.typed, hall h.sized hsound.sized, hall h.low hsound.low,
      hall h.starts hsound.starts, hall h.ends hsound.ends, ?_, hall h.unowned ?_, ?_⟩
    · exact Nat.le_trans hsound.low (Nat.le_add_right _ _)
    · show run.taken ++ [_] = owned ++ (run.placed ++ [p]).map _
      rw [h.taken, List.map_append, List.append_assoc]
      rfl
    · refine List.pairwise_append.2 ⟨h.apart, List.pairwise_singleton _ _, fun q hq r hr => ?_⟩
      rw [List.mem_singleton.1 hr, Span.meets_comm]
      refine hsound.apart ⟨q.span, q.name⟩ ?_
      rw [h.taken]
      exact List.mem_append_right _ (List.mem_map_of_mem hq)
    · intro t ht
      refine hsound.apart t ?_
      rw [h.taken]
      exact List.mem_append_left _ ht
    · show ((run.placed ++ [p]).map (·.name)).Nodup
      rw [List.map_append, List.nodup_append]
      refine ⟨h.distinct, List.pairwise_singleton _ _, fun a ha b hb => ?_⟩
      obtain ⟨q, hq, rfl⟩ := List.mem_map.1 ha
      obtain ⟨r, hr, rfl⟩ := List.mem_map.1 hb
      rw [List.mem_singleton.1 hr]
      have := hnew q hq
      rwa [← hsound.field] at this
  · rw [hstep]
    exact { h with }

theorem FieldRun.Sound.all {base limit : Nat} {owned : List Taken} (hlimit : limit ≤ 0x100000000) :
    ∀ (fields : List Field) {run : FieldRun} (index : Nat), run.Sound base limit owned →
      (run.all base limit index fields).Sound base limit owned
  | [], _, _, h => h
  | field :: rest, _, index, h => FieldRun.Sound.all hlimit rest (index + 1) (h.step hlimit index field)

/-- What every placement guarantees, every placed field has, whatever the state in which it was placed. -/
theorem FieldRun.forall_placed {base limit : Nat} {P : PlacedField → Prop}
    (hP : ∀ cursor taken index field p,
      placeField base limit cursor taken index field = .ok p → P p) :
    ∀ (fields : List Field) (run : FieldRun) (index : Nat), (∀ p ∈ run.placed, P p) →
      ∀ p ∈ (run.all base limit index fields).placed, P p
  | [], _, _, h => h
  | field :: rest, run, index, h => by
    refine forall_placed hP rest (run.step base limit index field) (index + 1) ?_
    rcases run.step_cases base limit index field with ⟨p, hp, -, hstep⟩ | ⟨fault, hstep⟩
    · rw [hstep]
      exact List.forall_mem_append.2 ⟨h, List.forall_mem_singleton.2 (hP _ _ _ _ _ hp)⟩
    · rw [hstep]
      exact h

/-! ## Runs without faults -/

theorem FieldRun.fields_of_no_fault (base limit : Nat) :
    ∀ (fields : List Field) (run : FieldRun) (index : Nat),
      (run.all base limit index fields).faults = [] → run.faults = [] ∧
        (run.all base limit index fields).placed.map (·.occupant.field)
          = run.placed.map (·.occupant.field) ++ fields
  | [], run, _, h => ⟨h, by rw [List.append_nil]; rfl⟩
  | field :: rest, run, index, h => by
    obtain ⟨hfaults, hfields⟩ := fields_of_no_fault base limit rest _ (index + 1) h
    rw [FieldRun.all, hfields]
    rcases run.step_cases base limit index field with ⟨p, hp, -, hstep⟩ | ⟨fault, hstep⟩
    · have hfield := (tried_of_placeField hp).2
      rw [hstep] at hfaults ⊢
      refine ⟨hfaults, ?_⟩
      rw [List.map_append, List.append_assoc]
      show _ ++ ([p.occupant.field] ++ rest) = _
      rw [hfield]
      rfl
    · rw [hstep] at hfaults
      exact absurd hfaults (List.append_ne_nil_of_right_ne_nil _ (List.cons_ne_nil _ _))

/-! ## The fields of a block -/

/-- What a header takes before the first field is placed. A header is no field, but it stands among what
is taken as one would, under a name of its own. -/
def Block.owned (b : Block) (base : UInt32) : List Taken :=
  match b.header with
  | none => []
  | some _ => [⟨⟨base.toNat, base.toNat + Header.size⟩, "header"⟩]

theorem Block.placed_beginFields (b : Block) (base : UInt32) : (b.beginFields base).placed = [] := by
  unfold Block.beginFields
  split <;> rfl

theorem Block.sound_beginFields (b : Block) (base : UInt32) (limit : Nat) :
    (b.beginFields base).Sound base.toNat limit (b.owned base) := by
  refine FieldRun.Sound.of_nothing_placed (b.placed_beginFields base) ?_ ?_
  · unfold Block.beginFields Block.owned
    cases b.header <;> rfl
  · unfold Block.beginFields
    cases b.header with
    | none => exact Nat.le_refl _
    | some _ => exact Nat.le_add_right _ _

/-- **The fields of a block stay inside it and apart.** This is the invariant at the end of the run, and
the form in which the images of blocks get hold of it. -/
theorem Block.sound_place (b : Block) (base : UInt32)
    (hstop : base.toNat + b.length.toNat ≤ 0x100000000) :
    (b.place base).Sound base.toNat (base.toNat + b.length.toNat) (b.owned base) :=
  FieldRun.Sound.all hstop b.fields 0 (b.sound_beginFields base _)

theorem Block.dvd_of_mem_place {b : Block} {base : UInt32}
    (hstop : base.toNat + b.length.toNat ≤ 0x100000000) {p : PlacedField}
    (h : p ∈ (b.place base).placed) : p.occupant.field.align.toNat ∣ p.address.toNat := by
  have hbegin : ∀ q ∈ (b.beginFields base).placed, q.occupant.field.align.toNat ∣ q.address.toNat := by
    rw [b.placed_beginFields base]
    exact List.forall_mem_nil _
  refine FieldRun.forall_placed (fun cursor taken index field q hq => ?_) b.fields _ 0 hbegin p h
  obtain ⟨occupant, address, hadm, rfl⟩ := placeField_eq_ok_iff.1 hq
  have haddress : (lowAddress address).toNat = address :=
    toNat_lowAddress (Nat.lt_of_lt_of_le hadm.starts hstop)
  show occupant.field.align.toNat ∣ (lowAddress address).toNat
  rw [haddress, Field.field_of_occupant hadm.typed]
  exact Offset.dvd_of_resolve hadm.resolved

theorem Block.fields_of_no_fault {b : Block} {base : UInt32} (h : (b.place base).faults = []) :
    (b.place base).placed.map (·.occupant.field) = b.fields := by
  obtain ⟨-, hfields⟩ := FieldRun.fields_of_no_fault _ _ b.fields _ 0 h
  rw [b.placed_beginFields] at hfields
  exact hfields

theorem Block.header_fits_of_no_fault {b : Block} {base : UInt32} (h : (b.place base).faults = [])
    (hheader : b.header.isSome) : Header.size ≤ b.length.toNat := by
  obtain ⟨hfaults, -⟩ := FieldRun.fields_of_no_fault _ _ b.fields _ 0 h
  unfold Block.beginFields at hfaults
  split at hfaults
  · rename_i hnone
    rw [hnone] at hheader
    cases hheader
  · dsimp only at hfaults
    split at hfaults
    · cases hfaults
    · omega

end FlashParams
