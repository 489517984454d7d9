import FlashParams.Proofs.Placement.Account
import FlashParams.Proofs.Placement.Reach
import Mathlib.Data.List.Forall2

/-!
# The addresses that faults show

A fault of placement carries addresses that explain it, and they are computed before it is known that
they have 32 bits. `ShowsAddress` is what one expects of each: it is the exact address, or the largest of
32 bits if the exact one has more. Which exact addresses are behind a fault is said apart from the code
that raises it (`Block.exactAddresses`, `Field.exactAddresses`): the place where the block or field was
tried, the end it would have had there, the end of the block around it.

The expectation is met nearly everywhere, by clamping or because the address is already known to be
small. It fails in three places, which show the low 32 bits instead. Two are on the level of blocks, both
for a block that is tried beyond the address space (`Block.CutsAddress`): one that is reported for its
alignment, and one without bytes that is taken for address zero and meets a block that was placed. The
third is the header of a block that ends with the address space and is too short for it
(`Block.CutsLimit`). `faults_show_exact_iff` says that there are no others.
-/

set_option autoImplicit false

namespace FlashParams

/-! ## Exact addresses and shown ones -/

/-- An address is shown as it is if it has 32 bits, and as the largest of 32 bits otherwise. A clamped
address cannot be taken for one in the block, as a wrapped one can. -/
def ShowsAddress (shown : UInt32) (exact : Nat) : Prop :=
  if exact < 0x100000000 then shown.toNat = exact else shown = 0xFFFFFFFF

instance (shown : UInt32) (exact : Nat) : Decidable (ShowsAddress shown exact) :=
  inferInstanceAs (Decidable (if exact < 0x100000000 then shown.toNat = exact else shown = 0xFFFFFFFF))

theorem shows_clampAddress (a : Nat) : ShowsAddress (clampAddress a) a := by
  unfold ShowsAddress clampAddress
  split
  · rename_i h
    rw [Nat.min_eq_left (by omega)]
    exact UInt32.toNat_ofNat_of_lt' h
  · rename_i h
    rw [Nat.min_eq_right (by omega)]
    rfl

theorem shows_lowAddress {a : Nat} (h : a < 0x100000000) : ShowsAddress (lowAddress a) a := by
  rw [ShowsAddress, if_pos h]
  exact toNat_lowAddress h

/-- The low bits of an address that has more are not the largest ones, until nearly twice as far. Nothing
is tried that far out, since both the parent and the distance have 32 bits. -/
theorem not_shows_lowAddress {a : Nat} (h : 0x100000000 ≤ a) (h' : a < 0x1FFFFFFFF) :
    ¬ ShowsAddress (lowAddress a) a := by
  rw [ShowsAddress, if_neg (Nat.not_lt.2 h)]
  intro hshown
  have hlow : (lowAddress a).toNat = a % 0x100000000 := UInt32.toNat_ofNat'
  rw [hshown] at hlow
  have hlargest : (0xFFFFFFFF : UInt32).toNat = 0xFFFFFFFF := rfl
  omega

theorem shows_toNat (a : UInt32) : ShowsAddress a a.toNat := by
  rw [ShowsAddress, if_pos a.toNat_lt]

def Fault.shown : Fault → List UInt32
  | overlap _ _ start stop | blockOverlap _ _ start stop => [start, stop]
  | overflow _ address _ limit => [address, limit]
  | malformedRange _ first last | malformedChecksum _ (.outsideImage first last) => [first, last]
  | rangeOutsideBlock _ first last start stop => [first, last, start, stop]
  | misaligned _ address _ | imageWrite _ address _ | duplicateName _ address
  | invalidSelfReference _ address | selfCoverage _ address | laterChecksum _ _ address => [address]
  | invalidAlignment .. | addressOverflow .. | invalidAccess .. | misalignedAccess ..
  | malformedChecksum .. | valueRange .. | computedValue .. => []

/-- The exact address at which something is tried, whatever its alignment says to it. A misaligned field
has been tried somewhere, and that is the address its fault is about. -/
def Offset.start (offset : Offset) (base cursor align : Nat) : Nat :=
  match offset with
  | .fixed distance => base + distance.toNat
  | .next => alignUp cursor align

namespace Offset

variable {offset : Offset} {base cursor align address : Nat}

theorem eq_start_of_ok (h : offset.resolve base cursor align = .ok address) :
    address = offset.start base cursor align := by
  cases offset with
  | fixed distance =>
    simp only [resolve] at h
    split at h
    · cases h
    · cases h
      rfl
  | next =>
    cases h
    rfl

theorem eq_start_of_leads (h : offset.Leads base cursor align address) :
    address = offset.start base cursor align := by
  rcases Nat.eq_zero_or_pos align with rfl | halign
  · -- zero is the only multiple of zero
    cases offset with
    | fixed distance => exact h.1
    | next => exact Nat.eq_zero_of_zero_dvd h.1.1
  · exact eq_start_of_ok ((leads_iff halign).1 h)

theorem resolve_of_dvd (h : align ∣ offset.start base cursor align) :
    offset.resolve base cursor align = .ok (offset.start base cursor align) := by
  cases offset with
  | fixed distance => exact if_neg (not_not_intro (Nat.mod_eq_zero_of_dvd h))
  | next => rfl

theorem resolve_of_not_dvd (h : ¬ align ∣ offset.start base cursor align) :
    offset.resolve base cursor align = .error (offset.start base cursor align) ∧
      ∃ distance : UInt32, offset.start base cursor align = base + distance.toNat := by
  cases offset with
  | fixed distance => exact ⟨if_pos fun hmod => h (Nat.dvd_of_mod_eq_zero hmod), distance, rfl⟩
  | next => exact absurd (dvd_alignUp cursor align) h

theorem eq_start_of_error (h : offset.resolve base cursor align = .error address) :
    address = offset.start base cursor align ∧ ¬ align ∣ offset.start base cursor align := by
  by_cases hdvd : align ∣ offset.start base cursor align
  · rw [resolve_of_dvd hdvd] at h
    cases h
  · rw [(resolve_of_not_dvd hdvd).1] at h
    cases h
    exact ⟨rfl, hdvd⟩

end Offset

/-! ## Blocks -/

def Block.start (base : UInt32) (placed : List PlacedBlock) (b : Block) : Nat :=
  b.offset.start base.toNat (lastStop base placed) b.align.toNat

/-- The exact addresses behind a fault of a block. Only two faults of a block show any. The others show
its name or its alignment and have nothing to clamp. -/
def Block.exactAddresses (base : UInt32) (placed : List PlacedBlock) (b : Block) : Fault → List Nat
  | .misaligned .. => [b.start base placed]
  | .blockOverlap .. => [b.start base placed, b.start base placed + b.length.toNat]
  | _ => []

/-- What is expected of the faults of a container: each belongs to the block at its position and shows
the addresses that are behind it. Those are recomputed from the declaration, not taken from the fault. -/
def Container.ShowsExact (c : Container) : Prop :=
  ∀ u ∈ c.place.unplaced, c.blocks[u.index]? = some u.block ∧
    List.Forall₂ ShowsAddress u.fault.shown
      (u.block.exactAddresses c.base (c.placeFirst (c.blocks.take u.index)).placed u.fault)

/-- A block is tried beyond the address space and not reported for that: its alignment comes first, or it has
no bytes and meets a block as if it began at zero. -/
def Block.CutsAddress (base : UInt32) (placed : List PlacedBlock) (b : Block) : Prop :=
  isAlignment b.align = true ∧ 0x100000000 ≤ b.start base placed ∧
    (¬ b.align.toNat ∣ b.start base placed ∨
      b.start base placed + b.length.toNat ≤ 0x100000000 ∧ ∃ other ∈ placed, 0 < other.stop)

def Container.CutsAddress (c : Container) : Prop :=
  ∃ front b back, c.blocks = front ++ b :: back ∧ b.CutsAddress c.base (c.placeFirst front).placed

section

variable {base : UInt32} {placed : List PlacedBlock} {b : Block} {index : Nat} {fault : Fault}

/-- A fault of a block shows what is behind it, unless the block is tried beyond the address space.
Within it an address has 32 bits, and cutting it is no different from clamping it. -/
theorem Block.shows_of_error (hcut : ¬ b.CutsAddress base placed)
    (h : placeBlock base (lastStop base placed) placed index b = .error fault) :
    List.Forall₂ ShowsAddress fault.shown (b.exactAddresses base placed fault) := by
  unfold placeBlock at h
  split at h
  · cases h
    exact .nil
  rename_i haligned
  replace haligned : isAlignment b.align = true := by simpa using haligned
  split at h
  · rename_i address hresolved
    cases h
    obtain ⟨rfl, hne⟩ := Offset.eq_start_of_error hresolved
    have hlow : b.start base placed < 0x100000000 :=
      Nat.not_le.1 fun hhigh => hcut ⟨haligned, hhigh, .inl hne⟩
    exact .cons (shows_lowAddress hlow) .nil
  rename_i start hresolved
  obtain rfl := Offset.eq_start_of_ok hresolved
  dsimp only at h
  split at h
  · cases h
    exact .nil
  rename_i hinside
  split at h
  · rename_i other hother
    cases h
    have hlow : b.start base placed < 0x100000000 := by
      refine Nat.not_le.1 fun hhigh => hcut ⟨haligned, hhigh, .inr ⟨Nat.not_lt.1 hinside, other,
        List.mem_of_find?_eq_some hother, ?_⟩⟩
      have hmeets := List.find?_some hother
      simp only [Span.meets, Bool.and_eq_true, decide_eq_true_eq] at hmeets
      exact Nat.lt_of_le_of_lt (Nat.zero_le _) hmeets.1
    exact .cons (shows_lowAddress hlow) (.cons (shows_clampAddress _) .nil)
  · cases h

/-- A block at the end of the address space is compared as if it were everything from zero on, and so it
meets one that has been placed. Its start has been cut while its end has not. -/
theorem exists_meets_cut {other : PlacedBlock} (hother : other ∈ placed) (hstop : 0 < other.stop)
    (length : Nat) :
    ∃ first, placed.find? (fun q =>
      Span.meets ⟨(lowAddress 0x100000000).toNat, 0x100000000 + length⟩ q.span) = some first := by
  have hmeets : Span.meets ⟨(lowAddress 0x100000000).toNat, 0x100000000 + length⟩ other.span = true := by
    have haddress : other.address.toNat < 0x100000000 := other.address.toNat_lt
    simp only [Span.meets, Bool.and_eq_true, decide_eq_true_eq]
    exact ⟨hstop, Nat.lt_of_lt_of_le haddress (Nat.le_add_right _ _)⟩
  exact Option.isSome_iff_exists.1 (List.find?_isSome.2 ⟨other, hother, hmeets⟩)

theorem Block.CutsAddress.exists_fault (h : b.CutsAddress base placed) (index : Nat) :
    ∃ fault, placeBlock base (lastStop base placed) placed index b = .error fault ∧
      ¬ List.Forall₂ ShowsAddress fault.shown (b.exactAddresses base placed fault) := by
  obtain ⟨haligned, hhigh, hcase⟩ := h
  unfold placeBlock
  rw [if_neg (by rw [haligned]; exact Bool.false_ne_true)]
  by_cases hdvd : b.align.toNat ∣ b.start base placed
  · obtain ⟨hinside, other, hother, hstop⟩ := hcase.resolve_left (not_not_intro hdvd)
    have hstart : b.start base placed = 0x100000000 := by omega
    have hresolved : b.offset.resolve base.toNat (lastStop base placed) b.align.toNat =
        .ok (b.start base placed) := Offset.resolve_of_dvd hdvd
    obtain ⟨first, hfirst⟩ := exists_meets_cut hother hstop b.length.toNat
    rw [hresolved]
    dsimp only
    rw [if_neg (Nat.not_lt.2 hinside), hstart, hfirst]
    refine ⟨_, rfl, fun hshows => ?_⟩
    simp only [Fault.shown, Block.exactAddresses, hstart] at hshows
    cases hshows with
    | cons hshown _ => exact not_shows_lowAddress (Nat.le_refl _) (by decide) hshown
  · obtain ⟨hresolved, distance, hstart⟩ := Offset.resolve_of_not_dvd hdvd
    have hstart : b.start base placed = base.toNat + distance.toNat := hstart
    have hdistance := distance.toNat_lt
    have hbase := base.toNat_lt
    rw [hresolved]
    refine ⟨_, rfl, fun hshows => ?_⟩
    cases hshows with
    | cons hshown _ => exact not_shows_lowAddress hhigh (by omega) hshown

end

theorem Container.getElem?_of_unplaced {c : Container} {u : UnplacedBlock} (h : u ∈ c.place.unplaced) :
    c.blocks[u.index]? = some u.block := by
  suffices hfirst : ∀ front : List Block, ∀ u ∈ (c.placeFirst front).unplaced,
      front[u.index]? = some u.block from hfirst c.blocks u h
  intro front
  induction front using List.reverseRecOn with
  | nil => exact List.forall_mem_nil _
  | append_singleton front b ih =>
    have hold : ∀ u ∈ (c.placeFirst front).unplaced, (front ++ [b])[u.index]? = some u.block :=
      fun u hu => by
        have hindex := ih u hu
        rw [List.getElem?_append_left (List.getElem?_eq_some_iff.1 hindex).1, hindex]
    rw [c.placeFirst_concat]
    rcases (c.placeFirst front).step_cases c.base front.length b with ⟨p, -, hstep⟩ | ⟨fault, hstep⟩
    · rw [hstep]
      exact hold
    · rw [hstep]
      exact List.forall_mem_append.2 ⟨hold, List.forall_mem_singleton.2 (by simp)⟩

theorem Container.showsExact_iff (c : Container) : c.ShowsExact ↔ ¬ c.CutsAddress := by
  constructor
  · rintro h ⟨front, b, back, hsplit, hcut⟩
    obtain ⟨fault, hfault, hshows⟩ := hcut.exists_fault front.length
    rw [← c.cursor_placeFirst] at hfault
    have hexact := (h _ (Container.unplaced_of_error hsplit hfault).1).2
    rw [hsplit, List.take_left] at hexact
    exact hshows hexact
  · rintro hcut ⟨index, b, fault⟩ hu
    have hindex : c.blocks[index]? = some b := Container.getElem?_of_unplaced hu
    refine ⟨hindex, ?_⟩
    obtain ⟨hlt, rfl⟩ := List.getElem?_eq_some_iff.1 hindex
    have hlength : (c.blocks.take index).length = index := List.length_take_of_le (Nat.le_of_lt hlt)
    have hsplit : c.blocks = c.blocks.take index ++ c.blocks[index] :: c.blocks.drop (index + 1) := by
      rw [List.getElem_cons_drop, List.take_append_drop]
    have herror := Container.error_of_unplaced hsplit (by rwa [hlength])
    rw [c.cursor_placeFirst] at herror
    exact Block.shows_of_error (fun hb => hcut ⟨_, _, _, hsplit, hb⟩) herror

/-! ## Fields -/

def Field.start (b : Block) (base : UInt32) (before : List PlacedField) (f : Field) : Nat :=
  f.offset.start base.toNat (lastFieldStop (b.fieldsStart base) before) f.align.toNat

def Field.extent (f : Field) : Nat :=
  match f.occupant with
  | .ok occupant => occupant.kind.size
  | .error _ => 0

def Field.exactAddresses (b : Block) (base : UInt32) (before : List PlacedField) (f : Field) :
    Fault → List Nat
  | .duplicateName .. =>
    -- where the one that has the name was placed, behind those in front of it
    match before.find? (·.name = f.name) with
    | some first => [first.occupant.field.start b base (before.takeWhile (·.name ≠ f.name))]
    | none => []
  | .misaligned .. => [f.start b base before]
  | .overflow .. => [f.start b base before, base.toNat + b.length.toNat]
  | .overlap .. => [f.start b base before, f.start b base before + f.extent]
  | _ => []

def Block.Refuses (b : Block) (base : UInt32) (front : List Field) (f : Field) (fault : Fault) : Prop :=
  (b.placeFirst base (front ++ [f])).faults = (b.placeFirst base front).faults ++ [fault]

/-- The exact addresses behind a fault of a block at `base`: that of its header, or that of a field. It
is a relation since one fault may have come from two fields, with different addresses behind it. -/
inductive Block.Computes (b : Block) (base : UInt32) : Fault → List Nat → Prop
  | header {fault : Fault} (h : fault ∈ (b.beginFields base).faults) :
    b.Computes base fault [base.toNat, base.toNat + b.length.toNat]
  | field {front back : List Field} {f : Field} {fault : Fault} (hsplit : b.fields = front ++ f :: back)
      (h : b.Refuses base front f fault) :
    b.Computes base fault (f.exactAddresses b base (b.placeFirst base front).placed fault)

/-- What is expected of the faults of a block at `base`: each is known to come from the header or a
field, and shows the addresses that are behind it there. -/
structure Block.ShowsExact (b : Block) (base : UInt32) : Prop where
  known : ∀ fault ∈ (b.place base).faults, ∃ addresses, b.Computes base fault addresses
  shows : ∀ fault addresses, b.Computes base fault addresses →
    List.Forall₂ ShowsAddress fault.shown addresses

/-- A block is too short for its header and ends with the address space. The limit that its fault shows
is then 2^32, and it is cut to zero. -/
def Block.CutsLimit (b : Block) (base : UInt32) : Prop :=
  b.header.isSome ∧ b.length.toNat < Header.size ∧ base.toNat + b.length.toNat = 0x100000000

section

variable {b : Block} {base : UInt32} {tried : List Field} {run : FieldRun} {f : Field} {fault : Fault}

theorem Field.shown_of_occupant_error {before : List PlacedField} (h : f.occupant = .error fault) :
    fault.shown = [] ∧ f.exactAddresses b base before fault = [] := by
  cases f with
  | parameter p =>
    simp only [Field.occupant] at h
    split at h
    · cases h
    · cases h
      exact ⟨rfl, rfl⟩
  | checksum c =>
    simp only [Field.occupant] at h
    split at h
    · cases h
      exact ⟨rfl, rfl⟩
    · cases h

/-- A field that does not pass the checks is reported with what is behind its fault. The invariant of the
run supplies the cursor, and the limit keeps every address of a field that is shown within 32 bits or
clamped. -/
theorem FieldRun.Tracks.shows_of_error (htracks : run.Tracks b base tried)
    (hlimit : base.toNat + b.length.toNat ≤ 0x100000000) {index : Nat}
    (h : placeField base.toNat (base.toNat + b.length.toNat) run.cursor run.taken index f =
      .error fault) :
    List.Forall₂ ShowsAddress fault.shown (f.exactAddresses b base run.placed fault) := by
  rw [htracks.cursor] at h
  unfold placeField at h
  split at h
  · cases h
    exact .nil
  split at h
  · rename_i htyped
    cases h
    obtain ⟨hshown, hexact⟩ : fault.shown = [] ∧ f.exactAddresses b base run.placed fault = [] :=
      Field.shown_of_occupant_error htyped
    rw [hshown, hexact]
    exact .nil
  rename_i occupant htyped
  have hextent : f.extent = occupant.kind.size := by
    rw [Field.extent, htyped]
  dsimp only at h
  split at h
  · cases h
    exact .nil
  split at h
  · rename_i address hresolved
    cases h
    obtain ⟨rfl, -⟩ := Offset.eq_start_of_error hresolved
    exact .cons (shows_clampAddress _) .nil
  rename_i address hresolved
  obtain rfl := Offset.eq_start_of_ok hresolved
  split at h
  · cases h
    exact .cons (shows_clampAddress _) (.cons (shows_clampAddress _) .nil)
  rename_i hroom
  split at h
  · cases h
    refine .cons (shows_lowAddress (by omega)) (.cons ?_ .nil)
    rw [hextent]
    exact shows_clampAddress _
  · cases h

theorem FieldRun.Tracks.shows_of_taken (htracks : run.Tracks b base tried) {first : PlacedField}
    (h : run.placed.find? (·.name = f.name) = some first) :
    List.Forall₂ ShowsAddress (Fault.duplicateName f.name first.address).shown
      (f.exactAddresses b base run.placed (.duplicateName f.name first.address)) := by
  obtain ⟨hname, front, back, hsplit, hfront⟩ := List.find?_eq_some_iff_append.1 h
  have hbefore : run.placed.takeWhile (·.name ≠ f.name) = front := by
    rw [hsplit, List.takeWhile_append_of_pos (by simpa using hfront),
      List.takeWhile_cons_of_neg (by simpa using hname), List.append_nil]
  have haddress : first.address.toNat = first.occupant.field.start b base front :=
    Offset.eq_start_of_leads (htracks.position front first back hsplit)
  simp only [Field.exactAddresses, h, hbefore, ← haddress]
  exact .cons (shows_toNat _) .nil

theorem Block.Refuses.shows {front : List Field} (h : b.Refuses base front f fault)
    (hlimit : base.toNat + b.length.toNat ≤ 0x100000000) :
    List.Forall₂ ShowsAddress fault.shown
      (f.exactAddresses b base (b.placeFirst base front).placed fault) := by
  have htracks := b.tracks_placeFirst hlimit front
  rw [Block.Refuses, b.placeFirst_concat] at h
  unfold FieldRun.step at h
  split at h
  · rename_i first hfirst
    cases List.append_cancel_left h
    exact htracks.shows_of_taken hfirst
  split at h
  · exact absurd h.symm (by simp)
  · rename_i herror
    cases List.append_cancel_left h
    exact htracks.shows_of_error hlimit herror

end

/-- Every fault is that of the header or of a field that has been tried. Faults are only added, one step
at a time, so each can be traced to the step that added it. -/
theorem Block.known_placeFirst (b : Block) (base : UInt32) (tried : List Field) :
    ∀ fault ∈ (b.placeFirst base tried).faults, fault ∈ (b.beginFields base).faults ∨
      ∃ front f back, tried = front ++ f :: back ∧ b.Refuses base front f fault := by
  induction tried using List.reverseRecOn with
  | nil => exact fun fault h => .inl h
  | append_singleton tried f ih =>
    have hold : ∀ fault ∈ (b.placeFirst base tried).faults, fault ∈ (b.beginFields base).faults ∨
        ∃ front g back, tried ++ [f] = front ++ g :: back ∧ b.Refuses base front g fault := by
      intro fault h
      refine (ih fault h).imp_right ?_
      rintro ⟨front, g, back, rfl, hrefuses⟩
      exact ⟨front, g, back ++ [f], by simp, hrefuses⟩
    have hconcat := b.placeFirst_concat base tried f
    rcases (b.placeFirst base tried).step_cases base.toNat (base.toNat + b.length.toNat) tried.length f
      with ⟨p, -, -, hstep⟩ | ⟨fault, hstep⟩
    · rw [hconcat, hstep]
      exact hold
    · have hrefuses : b.Refuses base tried f fault := by
        rw [Block.Refuses, hconcat, hstep]
      rw [hrefuses]
      exact List.forall_mem_append.2
        ⟨hold, List.forall_mem_singleton.2 (.inr ⟨tried, f, [], rfl, hrefuses⟩)⟩

theorem Block.mem_faults_beginFields {b : Block} {base : UInt32} {fault : Fault} :
    fault ∈ (b.beginFields base).faults ↔ b.header.isSome ∧ b.length.toNat < Header.size ∧
      fault = .overflow (b.name ++ " header") base (UInt32.ofNat Header.size)
        (lowAddress (base.toNat + b.length.toNat)) := by
  unfold Block.beginFields
  cases b.header with
  | none => simp
  | some header =>
    simp only [Nat.add_lt_add_iff_left, Option.isSome_some, true_and]
    split <;> simp [*]

theorem Block.showsExact_iff {b : Block} {base : UInt32}
    (hlimit : base.toNat + b.length.toNat ≤ 0x100000000) : b.ShowsExact base ↔ ¬ b.CutsLimit base := by
  constructor
  · rintro h ⟨hheader, hshort, hend⟩
    have hshows := h.shows _ _ (.header (Block.mem_faults_beginFields.2 ⟨hheader, hshort, rfl⟩))
    cases hshows with
    | cons _ hshows =>
      cases hshows with
      | cons hshown _ => exact not_shows_lowAddress (Nat.le_of_eq hend.symm) (by omega) hshown
  · intro hcut
    refine ⟨fun fault h => ?_, ?_⟩
    · rcases b.known_placeFirst base b.fields fault h with h | ⟨front, f, back, hsplit, hrefuses⟩
      · exact ⟨_, .header h⟩
      · exact ⟨_, .field hsplit hrefuses⟩
    · rintro fault addresses (h | ⟨hsplit, hrefuses⟩)
      · obtain ⟨hheader, hshort, rfl⟩ := Block.mem_faults_beginFields.1 h
        have hlow : base.toNat + b.length.toNat < 0x100000000 :=
          Nat.lt_of_le_of_ne hlimit fun hend => hcut ⟨hheader, hshort, hend⟩
        exact .cons (shows_toNat base) (.cons (shows_lowAddress hlow) .nil)
      · exact hrefuses.shows hlimit

/-- **Faults show exact addresses, clamped to 32 bits, everywhere but where an address is cut**: in a container
for a block that is tried beyond the address space and not reported for that, in a block for a header that does
not fit in front of the end of the address space. -/
theorem faults_show_exact_iff (c : Container) (b : Block) (base : UInt32)
    (hlimit : base.toNat + b.length.toNat ≤ 0x100000000) :
    (c.ShowsExact ↔ ¬ c.CutsAddress) ∧ (b.ShowsExact base ↔ ¬ b.CutsLimit base) :=
  ⟨c.showsExact_iff, Block.showsExact_iff hlimit⟩

namespace Specimen

def skewed : Container :=
  { name := "skewed"
    base := 0xFFFFFFF0
    blocks := [{ name := "b", offset := .fixed 17, length := 4, align := 4 }] }

def clipped : Block :=
  { name := "clipped"
    length := 8
    header := some ⟨1, 2, 3, 4⟩
    fields :=
      [ .parameter ⟨"odd", .fixed 5, .scalar .u16, 2, .int 1, none, none⟩,
        .parameter ⟨"late", .next, .scalar .u8, 1, .int 1, none, none⟩ ] }

/-- Away from the end of the address space nothing is cut. -/
theorem clipped_shows_exact :
    (0x100 : UInt32).toNat + clipped.length.toNat ≤ 0x100000000 ∧ clipped.ShowsExact 0x100 ∧
      ((clipped.place 0x100).faults.map Fault.shown) = [[0x100, 0x108], [0x105], [0x110, 0x108]] := by
  have hlimit : (0x100 : UInt32).toNat + clipped.length.toNat ≤ 0x100000000 := by decide
  refine ⟨hlimit, (faults_show_exact_iff skewed clipped 0x100 hlimit).2.2 ?_, by decide +kernel⟩
  rintro ⟨-, -, hend⟩
  exact absurd hend (by decide)

/-- The block is reported at address one, and the limit of the header as zero. -/
theorem skewed_clipped_cut : ¬ skewed.ShowsExact ∧ ¬ clipped.ShowsExact 0xFFFFFFF8 := by
  constructor
  · intro h
    have hunplaced : skewed.place.unplaced =
        [⟨0, { name := "b", offset := .fixed 17, length := 4, align := 4 }, .misaligned "b" 1 4⟩] := rfl
    have hshows := (h _ (hunplaced ▸ List.mem_singleton_self _)).2
    exact absurd hshows (by decide +kernel)
  · intro h
    have hheader : .overflow "clipped header" 0xFFFFFFF8 16 0 ∈ (clipped.beginFields 0xFFFFFFF8).faults :=
      Block.mem_faults_beginFields.2 ⟨rfl, by decide, rfl⟩
    exact absurd (h.shows _ _ (.header hheader)) (by decide +kernel)

end Specimen

end FlashParams
