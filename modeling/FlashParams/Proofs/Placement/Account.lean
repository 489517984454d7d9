import FlashParams.Proofs.Placement.Fields
import Mathlib.Data.List.Basic
import Mathlib.Data.List.Induction

/-!
# Every field is accounted for

`Field.HasPlace` says in exact numbers when there is a place in a block for a field, and which: the
offset leads to it, it is inside the block, behind or in front of the header and of all that was placed
before, and the name is new. Nothing in it mentions the run that looks for the place.

`Block.PlacesFields` is the law of a run through a whole block. The fields are tried once each and in
order; a field is placed exactly when there is a place for it, at that place, and one that is not placed
is one fault more. In particular a field that fails leaves nothing behind: what comes after it is placed
as if only the *placed* fields had been there. The run with exact sizes obeys the law
(`Block.placesFields_place`).

The induction takes fields off the end of the block (`Block.tracks_placeFirst`), because what is promised
of a field speaks of those in front of it.
-/

set_option autoImplicit false

namespace FlashParams

/-! ## A place for a field -/

/-- Where the fields of a block at `base` begin: behind its header. An exact number, since the header of
a block at the end of the address space may end where addresses do. -/
def Block.fieldsStart (b : Block) (base : UInt32) : Nat :=
  match b.header with
  | none => base.toNat
  | some _ => base.toNat + Header.size

/-- The end of the field placed last; before the first one, where fields begin. -/
def lastFieldStop (start : Nat) (placed : List PlacedField) : Nat :=
  (placed.getLast?.map PlacedField.stop).getD start

theorem lastFieldStop_concat (start : Nat) (placed : List PlacedField) (p : PlacedField) :
    lastFieldStop start (placed ++ [p]) = p.stop := by
  simp [lastFieldStop]

/-- There is a place for a field at this exact address of a block at `base`, as this stored type, when
`before` have been placed. Nothing in it mentions a run: its members speak of the declaration and of the
fields in front, so that it can be read as the law the placement is held to. -/
structure Field.HasPlace (b : Block) (base : UInt32) (before : List PlacedField) (f : Field)
    (occupant : Occupant) (address : Nat) : Prop where
  new : ∀ q ∈ before, q.name ≠ f.name
  typed : f.occupant = .ok occupant
  alignment : ∃ k ≤ maxAlignLog, f.align.toNat = 2 ^ k
  position : f.offset.Leads base.toNat (lastFieldStop (b.fieldsStart base) before) f.align.toNat address
  starts : address < base.toNat + b.length.toNat
  ends : address + occupant.kind.size ≤ base.toNat + b.length.toNat
  header : b.header.isSome →
    address + occupant.kind.size ≤ base.toNat ∨ base.toNat + Header.size ≤ address
  apart : ∀ q ∈ before, q.stop ≤ address ∨ address + occupant.kind.size ≤ q.address.toNat

/-- What is expected of a run through the fields of a block at `base`. A field that fails leaves the
cursor and the taken spans as they are, so where a field may stand depends on the fields *placed* before
it and on none that were reported. -/
structure Block.PlacesFields (b : Block) (base : UInt32) (run : FieldRun) : Prop where
  /-- Fields are placed in the order of the block, each at most once. -/
  ascending : run.placed.Pairwise (·.index < ·.index)
  indexed : ∀ p ∈ run.placed, b.fields[p.index]? = some p.occupant.field
  /-- What is not placed is a fault, and so is a header that does not fit. -/
  faults : run.faults.length + run.placed.length =
    b.fields.length + if b.header.isSome ∧ b.length.toNat < Header.size then 1 else 0
  inside : ∀ p ∈ run.placed,
    base.toNat ≤ p.address.toNat ∧ p.stop ≤ base.toNat + b.length.toNat
  sized : ∀ p ∈ run.placed, p.size.toNat = p.occupant.kind.size
  aligned : ∀ p ∈ run.placed, p.occupant.field.align.toNat ∣ p.address.toNat
  apart : run.placed.Pairwise fun p q =>
    p.stop ≤ q.address.toNat ∨ q.stop ≤ p.address.toNat
  header : b.header.isSome → ∀ p ∈ run.placed,
    p.stop ≤ base.toNat ∨ base.toNat + Header.size ≤ p.address.toNat
  distinct : (run.placed.map (·.name)).Nodup
  position : ∀ front p back, run.placed = front ++ p :: back →
    p.occupant.field.offset.Leads base.toNat (lastFieldStop (b.fieldsStart base) front)
      p.occupant.field.align.toNat p.address.toNat
  /-- A field is placed when there is a place for it behind those in front of it, and there. -/
  complete : ∀ i f, b.fields[i]? = some f → ∀ occupant address,
    (∃ p ∈ run.placed,
        p.index = i ∧ p.occupant = occupant ∧ p.address.toNat = address) ↔
      f.HasPlace b base (run.placed.filter (·.index < i)) occupant address

/-! ## Runs, field by field -/

theorem FieldRun.all_append (base limit : Nat) (front back : List Field) (run : FieldRun)
    (index : Nat) :
    run.all base limit index (front ++ back) =
      (run.all base limit index front).all base limit (index + front.length) back := by
  induction front generalizing run index with
  | nil => rfl
  | cons f front ih =>
    rw [List.cons_append, FieldRun.all, FieldRun.all, ih, List.length_cons, Nat.add_assoc,
      Nat.add_comm 1]

/-- A field that passes every check and has a new name is placed. The name is looked at before anything
else, which is why it is asked for apart from the checks. -/
theorem FieldRun.step_of_ok {base limit index : Nat} {run : FieldRun} {f : Field} {p : PlacedField}
    (hnew : ∀ q ∈ run.placed, q.name ≠ f.name)
    (hp : placeField base limit run.cursor run.taken index f = .ok p) :
    (run.step base limit index f).placed = run.placed ++ [p] := by
  have hnone : run.placed.find? (·.name = f.name) = none := by
    simpa using hnew
  unfold FieldRun.step
  rw [hnone, hp]

/-- What later fields add has their positions in the block, and nothing already placed is taken away.
Together these let a finished run be cut off at a position and be found again as the run so far. -/
theorem FieldRun.exists_added (base limit : Nat) (fields : List Field) (run : FieldRun)
    (index : Nat) :
    ∃ added, (run.all base limit index fields).placed = run.placed ++ added ∧
      ∀ p ∈ added, index ≤ p.index := by
  induction fields generalizing run index with
  | nil => exact ⟨[], (List.append_nil _).symm, List.forall_mem_nil _⟩
  | cons f rest ih =>
    obtain ⟨added, hadded, hlow⟩ := ih (run.step base limit index f) (index + 1)
    have hlow' : ∀ p ∈ added, index ≤ p.index := fun p hp => Nat.le_of_succ_le (hlow p hp)
    rw [FieldRun.all, hadded]
    rcases run.step_cases base limit index f with ⟨p, hp, -, hstep⟩ | ⟨fault, hstep⟩
    · obtain ⟨occupant, address, -, rfl⟩ := placeField_eq_ok_iff.1 hp
      rw [hstep]
      exact ⟨_ :: added, List.append_assoc _ _ _,
        List.forall_mem_cons.2 ⟨Nat.le_refl _, hlow'⟩⟩
    · rw [hstep]
      exact ⟨added, rfl, hlow'⟩

/-- The run of a block after its first fields. The conditions of a field are about the state it finds, so
every statement about one field goes through the run that has come up to it. -/
def Block.placeFirst (b : Block) (base : UInt32) (front : List Field) : FieldRun :=
  (b.beginFields base).all base.toNat (base.toNat + b.length.toNat) 0 front

variable {b : Block} {base : UInt32}

theorem Block.placeFirst_concat (b : Block) (base : UInt32) (front : List Field) (f : Field) :
    b.placeFirst base (front ++ [f]) =
      (b.placeFirst base front).step base.toNat (base.toNat + b.length.toNat) front.length f := by
  rw [Block.placeFirst, FieldRun.all_append, Nat.zero_add]
  rfl

theorem Block.faults_beginFields (b : Block) (base : UInt32) :
    (b.beginFields base).faults.length =
      if b.header.isSome ∧ b.length.toNat < Header.size then 1 else 0 := by
  unfold Block.beginFields
  cases b.header with
  | none => simp
  | some header =>
    simp only [Nat.add_lt_add_iff_left, Option.isSome_some, true_and]
    split <;> rfl

/-- What a run knows of the fields tried so far, from which the law of the whole run is read off: that it
is sound, where its cursor stands, and which of the tried fields the placed ones are. This is the
invariant of the induction from the front of the block. -/
structure FieldRun.Tracks (b : Block) (base : UInt32) (tried : List Field) (run : FieldRun) : Prop where
  sound : run.Sound base.toNat (base.toNat + b.length.toNat) (b.owned base)
  cursor : run.cursor = lastFieldStop (b.fieldsStart base) run.placed
  indexed : ∀ p ∈ run.placed, tried[p.index]? = some p.occupant.field
  ascending : run.placed.Pairwise (·.index < ·.index)
  count : run.faults.length + run.placed.length =
    tried.length + (b.beginFields base).faults.length
  position : ∀ front p back, run.placed = front ++ p :: back →
    p.occupant.field.offset.Leads base.toNat (lastFieldStop (b.fieldsStart base) front)
      p.occupant.field.align.toNat p.address.toNat

section

variable {tried : List Field} {run : FieldRun} (h : run.Tracks b base tried)
include h

theorem FieldRun.Tracks.index_lt {p : PlacedField} (hp : p ∈ run.placed) : p.index < tried.length :=
  (List.getElem?_eq_some_iff.1 (h.indexed p hp)).1

/-- **There is a place for the next field exactly when it has a new name and passes every check.** On the
left stand the fields placed so far, on the right the state of the run; the invariant says that these are
two accounts of one thing. -/
theorem FieldRun.Tracks.hasPlace_iff {f : Field} {occupant : Occupant} {address : Nat} :
    f.HasPlace b base run.placed occupant address ↔
      (∀ q ∈ run.placed, q.name ≠ f.name) ∧ f.Admitted base.toNat (base.toNat + b.length.toNat)
        run.cursor run.taken occupant address := by
  have happart : (∀ t ∈ run.taken, Span.meets ⟨address, address + occupant.kind.size⟩ t.span = false) ↔
      (b.header.isSome →
        address + occupant.kind.size ≤ base.toNat ∨ base.toNat + Header.size ≤ address) ∧
      ∀ q ∈ run.placed, q.stop ≤ address ∨ address + occupant.kind.size ≤ q.address.toNat := by
    rw [h.sound.taken, Block.owned]
    cases b.header with
    | none => simp [Span.not_meets_iff, PlacedField.span]
    | some header => simp [Span.not_meets_iff, PlacedField.span, or_comm]
  constructor
  · intro hplace
    have haligned := isAlignment_iff.2 hplace.alignment
    have hpos := isAlignment_pos haligned
    have hresolved := (Offset.leads_iff hpos).1 (h.cursor ▸ hplace.position)
    -- a size beyond 32 bits does not fit into a block
    have hlow := Offset.le_of_resolve hpos h.sound.cursor hresolved
    have hlength := b.length.toNat_lt
    have hends := hplace.ends
    exact ⟨hplace.new, haligned, hplace.typed, by omega, hresolved, hplace.starts, hends,
      happart.2 ⟨hplace.header, hplace.apart⟩⟩
  · rintro ⟨hnew, hadm⟩
    have hpos := isAlignment_pos hadm.aligned
    obtain ⟨hheader, hothers⟩ := happart.1 hadm.apart
    exact ⟨hnew, hadm.typed, isAlignment_iff.1 hadm.aligned,
      h.cursor ▸ (Offset.leads_iff hpos).2 hadm.resolved, hadm.starts, hadm.ends, hheader, hothers⟩

theorem FieldRun.Tracks.step (hlimit : base.toNat + b.length.toNat ≤ 0x100000000) (f : Field) :
    (run.step base.toNat (base.toNat + b.length.toNat) tried.length f).Tracks b base (tried ++ [f]) := by
  have hsound := h.sound.step hlimit tried.length f
  have hindexed : ∀ p ∈ run.placed, (tried ++ [f])[p.index]? = some p.occupant.field := by
    intro p hp
    rw [List.getElem?_append_left (h.index_lt hp), h.indexed p hp]
  rcases run.step_cases base.toNat (base.toNat + b.length.toNat) tried.length f with
    ⟨p, hp, -, hstep⟩ | ⟨fault, hstep⟩
  · obtain ⟨occupant, address, hadm, rfl⟩ := placeField_eq_ok_iff.1 hp
    have haddress : (lowAddress address).toNat = address :=
      toNat_lowAddress (Nat.lt_of_lt_of_le hadm.starts hlimit)
    have hfield := Field.field_of_occupant hadm.typed
    rw [hstep] at hsound ⊢
    refine ⟨hsound, (lastFieldStop_concat _ _ _).symm, ?_, ?_, ?_, ?_⟩
    · refine List.forall_mem_append.2 ⟨hindexed, List.forall_mem_singleton.2 ?_⟩
      simp [hfield]
    · refine List.pairwise_append.2 ⟨h.ascending, List.pairwise_singleton _ _, ?_⟩
      intro q hq r hr
      rw [List.mem_singleton.1 hr]
      exact h.index_lt hq
    · have hcount := h.count
      simp only [List.length_append, List.length_singleton]
      omega
    · intro front q back hsplit
      -- the field asked for is the new one or one of the old ones
      rcases List.eq_nil_or_concat' back with rfl | ⟨back, r, rfl⟩
      · obtain ⟨rfl, hlast⟩ := List.append_inj' hsplit rfl
        cases hlast
        dsimp only
        rw [hfield, haddress, ← h.cursor]
        exact (Offset.leads_iff (isAlignment_pos hadm.aligned)).2 hadm.resolved
      · rw [← List.cons_append, ← List.append_assoc] at hsplit
        exact h.position front q back (List.append_inj' hsplit rfl).1
  · rw [hstep] at hsound ⊢
    refine ⟨hsound, h.cursor, hindexed, h.ascending, ?_, h.position⟩
    have hcount := h.count
    simp only [List.length_append, List.length_singleton]
    omega

end

theorem Block.tracks_placeFirst (hlimit : base.toNat + b.length.toNat ≤ 0x100000000)
    (front : List Field) : (b.placeFirst base front).Tracks b base front := by
  induction front using List.reverseRecOn with
  | nil =>
    have hplaced : (b.placeFirst base []).placed = [] := b.placed_beginFields base
    refine ⟨b.sound_beginFields base _, ?_, ?_, ?_, ?_, ?_⟩
    · rw [hplaced, Block.placeFirst, FieldRun.all, Block.beginFields, Block.fieldsStart]
      cases b.header <;> rfl
    · simp [hplaced]
    · simp [hplaced]
    · rw [hplaced]
      exact Nat.add_comm _ _
    · simp [hplaced]
  | append_singleton front f ih =>
    rw [b.placeFirst_concat]
    exact ih.step hlimit f

/-! ## The law -/

section

variable {front back : List Field} {f : Field} (hsplit : b.fields = front ++ f :: back)
include hsplit

theorem Block.place_eq : b.place base =
    ((b.placeFirst base front).step base.toNat (base.toNat + b.length.toNat) front.length f).all
      base.toNat (base.toNat + b.length.toNat) (front.length + 1) back := by
  rw [Block.place, hsplit, FieldRun.all_append, Nat.zero_add]
  rfl

/-- The fields placed in front of another are those placed when it is tried. Positions ascend, so
filtering the finished run by position gives back the run as it was. -/
theorem Block.filter_placed (hlimit : base.toNat + b.length.toNat ≤ 0x100000000) :
    (b.place base).placed.filter (·.index < front.length) = (b.placeFirst base front).placed := by
  obtain ⟨added, hadded, hlater⟩ := FieldRun.exists_added base.toNat (base.toNat + b.length.toNat)
    (f :: back) (b.placeFirst base front) front.length
  have hplaced : (b.place base).placed = (b.placeFirst base front).placed ++ added := by
    rw [Block.place_eq hsplit]
    exact hadded
  have hold : ∀ p ∈ (b.placeFirst base front).placed, decide (p.index < front.length) = true :=
    fun p hp => decide_eq_true ((b.tracks_placeFirst hlimit front).index_lt hp)
  have hnew : ∀ p ∈ added, ¬ decide (p.index < front.length) = true := by
    intro p hp
    have hlow := hlater p hp
    simpa using hlow
  rw [hplaced, List.filter_append, List.filter_eq_self.2 hold, List.filter_eq_nil_iff.2 hnew,
    List.append_nil]

theorem Block.placed_iff_hasPlace (hlimit : base.toNat + b.length.toNat ≤ 0x100000000)
    (occupant : Occupant) (address : Nat) :
    (∃ p ∈ (b.place base).placed,
        p.index = front.length ∧ p.occupant = occupant ∧ p.address.toNat = address) ↔
      f.HasPlace b base ((b.place base).placed.filter (·.index < front.length)) occupant address := by
  have htracks := b.tracks_placeFirst hlimit front
  obtain ⟨added, hadded, hlater⟩ := FieldRun.exists_added base.toNat (base.toNat + b.length.toNat) back
    ((b.placeFirst base front).step base.toNat (base.toNat + b.length.toNat) front.length f)
    (front.length + 1)
  rw [Block.filter_placed hsplit hlimit, htracks.hasPlace_iff, Block.place_eq hsplit, hadded]
  constructor
  · rintro ⟨p, hp, hindex, rfl, rfl⟩
    have hnow : p ∈ ((b.placeFirst base front).step base.toNat (base.toNat + b.length.toNat)
        front.length f).placed := by
      rcases List.mem_append.1 hp with hp | hp
      · exact hp
      · have hlow := hlater p hp
        omega
    have hold : p ∉ (b.placeFirst base front).placed := fun hp => by
      have hlow := htracks.index_lt hp
      omega
    rcases FieldRun.step_cases base.toNat (base.toNat + b.length.toNat) (b.placeFirst base front)
        front.length f with ⟨q, hq, hnew, hstep⟩ | ⟨fault, hstep⟩
    · rw [hstep] at hnow
      rcases List.mem_append.1 hnow with hp | hp
      · exact absurd hp hold
      · obtain ⟨occupant, address, hadm, rfl⟩ := placeField_eq_ok_iff.1 hq
        rw [List.mem_singleton.1 hp]
        refine ⟨hnew, ?_⟩
        rwa [toNat_lowAddress (Nat.lt_of_lt_of_le hadm.starts hlimit)]
    · rw [hstep] at hnow
      exact absurd hnow hold
  · rintro ⟨hnew, hadm⟩
    have hok : placeField base.toNat (base.toNat + b.length.toNat) (b.placeFirst base front).cursor
        (b.placeFirst base front).taken front.length f =
          .ok ⟨front.length, occupant, lowAddress address, UInt32.ofNat occupant.kind.size⟩ :=
      placeField_eq_ok_iff.2 ⟨occupant, address, hadm, rfl⟩
    rw [FieldRun.step_of_ok hnew hok]
    exact ⟨_, List.mem_append_left _ (List.mem_append_right _ (List.mem_singleton_self _)), rfl, rfl,
      toNat_lowAddress (Nat.lt_of_lt_of_le hadm.starts hlimit)⟩

end

/-- With exact sizes the run through the fields of a block obeys the law, whichever of them fail. That
the run of the block is this one, and does not break off, is another matter: see
`Block.placesFields_iff`. -/
theorem Block.placesFields_place (b : Block) (base : UInt32)
    (hlimit : base.toNat + b.length.toNat ≤ 0x100000000) : b.PlacesFields base (b.place base) := by
  have htracks : (b.place base).Tracks b base b.fields := b.tracks_placeFirst hlimit b.fields
  have hsound := htracks.sound
  refine
    { ascending := htracks.ascending
      indexed := htracks.indexed
      faults := ?_
      inside := fun p hp => ⟨hsound.low p hp, hsound.ends p hp⟩
      sized := hsound.sized
      aligned := fun p hp => b.dvd_of_mem_place hlimit hp
      apart := hsound.apart.imp fun hmeets => (Span.apart_of_not_meets hmeets).symm
      header := ?_
      distinct := hsound.distinct
      position := htracks.position
      complete := ?_ }
  · rw [htracks.count, b.faults_beginFields]
  · intro hheader p hp
    obtain ⟨header, hsome⟩ := Option.isSome_iff_exists.1 hheader
    have howned : ⟨⟨base.toNat, base.toNat + Header.size⟩, "header"⟩ ∈ b.owned base := by
      simp [Block.owned, hsome]
    exact (Span.apart_of_not_meets (hsound.unowned p hp _ howned)).symm
  · intro i f hf occupant address
    obtain ⟨hi, rfl⟩ := List.getElem?_eq_some_iff.1 hf
    have hlength : (b.fields.take i).length = i := List.length_take_of_le (Nat.le_of_lt hi)
    have hsplit : b.fields = b.fields.take i ++ b.fields[i] :: b.fields.drop (i + 1) := by
      rw [List.getElem_cons_drop, List.take_append_drop]
    have hplaced := Block.placed_iff_hasPlace hsplit hlimit occupant address
    rwa [hlength] at hplaced

end FlashParams
