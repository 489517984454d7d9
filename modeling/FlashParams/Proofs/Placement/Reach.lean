import FlashParams.Proofs.Placement.Blocks
import Mathlib.Data.List.Basic
import Mathlib.Data.List.Induction
import Mathlib.Order.Bounds.Basic

/-!
# Where blocks belong, and when they get there

`Block.BelongsAt` says where a block belongs in exact numbers, without the code that finds the place: a
fixed offset counts from the container, an open one takes the least aligned address behind the block
placed last. `Container.InReach` is what one expects of a whole container: every placed block is where
it belongs, between the start of its container and the end of the address space, no two share an
address, and a block that belongs outside is reported for it.

The expectation fails in one corner. A block without bytes that belongs at the very end of the address
space passes the test of its *end*; its address is then cut to 32 bits and becomes zero, and the next
open block is placed behind *that*, in front of its container. `Container.inReach_iff` says that this
is the only way to fail: a container is in reach exactly when no block without bytes belongs at the
end.

The induction behind it takes blocks off the end (`placedInReach_placeFirst`), since what is promised of
a block speaks of those placed before it.
-/

set_option autoImplicit false

namespace FlashParams

/-! ## Where a block belongs -/

/-- The end of the block placed last; before the first one, the start of the container. Blocks that are
left over do not move it, which is what ties a block to those in front of it and to nothing else. -/
def lastStop (base : UInt32) (placed : List PlacedBlock) : Nat :=
  (placed.getLast?.map PlacedBlock.stop).getD base.toNat

theorem lastStop_concat (base : UInt32) (placed : List PlacedBlock) (p : PlacedBlock) :
    lastStop base (placed ++ [p]) = p.stop := by
  rw [lastStop, List.getLast?_concat]
  rfl

/-- The exact address where a block belongs when `placed` have been placed before it. It is a number
without a bound: where it lies beyond the address space the block has to be reported. -/
structure Block.BelongsAt (base : UInt32) (placed : List PlacedBlock) (b : Block) (start : Nat) :
    Prop where
  alignment : ∃ k ≤ maxAlignLog, b.align.toNat = 2 ^ k
  address :
    match b.offset with
    | .fixed distance => start = base.toNat + distance.toNat ∧ b.align.toNat ∣ start
    | .next => IsLeast {a | b.align.toNat ∣ a ∧ lastStop base placed ≤ a} start

variable {base : UInt32} {placed : List PlacedBlock} {b : Block} {start : Nat}

theorem Block.belongsAt_iff :
    b.BelongsAt base placed start ↔ isAlignment b.align = true ∧
      b.offset.resolve base.toNat (lastStop base placed) b.align.toNat = .ok start := by
  constructor
  · rintro ⟨halignment, haddress⟩
    have haligned := isAlignment_iff.2 halignment
    exact ⟨haligned, (Offset.leads_iff (isAlignment_pos haligned)).1 haddress⟩
  · rintro ⟨haligned, hresolved⟩
    exact ⟨isAlignment_iff.1 haligned, (Offset.leads_iff (isAlignment_pos haligned)).2 hresolved⟩

theorem Block.BelongsAt.overflows (h : b.BelongsAt base placed start)
    (hover : 0x100000000 < start + b.length.toNat) (index : Nat) :
    placeBlock base (lastStop base placed) placed index b = .error (.addressOverflow b.name) := by
  obtain ⟨haligned, hresolved⟩ := Block.belongsAt_iff.1 h
  unfold placeBlock
  rw [if_neg (by rw [haligned]; exact Bool.false_ne_true), hresolved]
  exact if_pos hover

/-- A block that belongs inside is not reported for its address; nor is one without bytes at the end. The
second is the one that gets through and then has no address. -/
theorem Block.BelongsAt.not_overflows (h : b.BelongsAt base placed start)
    (hinside : start + b.length.toNat ≤ 0x100000000) (index : Nat) :
    placeBlock base (lastStop base placed) placed index b ≠ .error (.addressOverflow b.name) := by
  obtain ⟨haligned, hresolved⟩ := Block.belongsAt_iff.1 h
  intro hplace
  unfold placeBlock at hplace
  rw [if_neg (by rw [haligned]; exact Bool.false_ne_true), hresolved] at hplace
  dsimp only at hplace
  rw [if_neg (Nat.not_lt.2 hinside)] at hplace
  split at hplace
  · cases hplace
  · cases hplace

/-! ## What is expected -/

/-- Placed blocks are where they belong, inside the address space and apart. Where one belongs is told
from those in front of it, as everywhere in the account of placement. -/
structure PlacedInReach (base : UInt32) (placed : List PlacedBlock) : Prop where
  above : ∀ p ∈ placed, base.toNat ≤ p.address.toNat
  below : ∀ p ∈ placed, p.stop ≤ 0x100000000
  position : ∀ front p back, placed = front ++ p :: back →
    p.block.BelongsAt base front p.address.toNat
  apart : placed.Pairwise fun p q => p.stop ≤ q.address.toNat ∨ q.stop ≤ p.address.toNat

def Container.placeFirst (c : Container) (front : List Block) : BlockRun :=
  BlockRun.all c.base { cursor := c.base.toNat } 0 front

/-- What is expected of a container: its placed blocks are in reach, and a block that belongs where it
has no address or where it does not end in time is reported for that and placed nowhere. The two sides
together leave no room for a block that is dropped in silence. -/
structure Container.InReach (c : Container) : Prop where
  placed : PlacedInReach c.base c.place.placed
  overflow : ∀ front b back, c.blocks = front ++ b :: back →
    ∀ start, b.BelongsAt c.base (c.placeFirst front).placed start →
      0x100000000 ≤ start ∨ 0x100000000 < start + b.length.toNat →
      ⟨front.length, b, .addressOverflow b.name⟩ ∈ c.place.unplaced ∧
        ∀ p ∈ c.place.placed, p.index ≠ front.length

theorem PlacedInReach.nil : PlacedInReach base [] :=
  ⟨List.forall_mem_nil _, List.forall_mem_nil _,
    fun _ _ _ h => absurd h.symm (List.append_ne_nil_of_right_ne_nil _ (List.cons_ne_nil _ _)),
    .nil⟩

theorem PlacedInReach.base_le_lastStop (h : PlacedInReach base placed) :
    base.toNat ≤ lastStop base placed := by
  rcases List.eq_nil_or_concat' placed with rfl | ⟨front, p, rfl⟩
  · exact Nat.le_refl _
  · rw [lastStop_concat]
    exact Nat.le_trans (h.above p (List.mem_append_right _ (List.mem_singleton_self p)))
      (Nat.le_add_right _ _)

theorem PlacedInReach.concat (h : PlacedInReach base placed) {p : PlacedBlock}
    (habove : base.toNat ≤ p.address.toNat) (hbelow : p.stop ≤ 0x100000000)
    (hposition : p.block.BelongsAt base placed p.address.toNat)
    (hapart : ∀ q ∈ placed, q.stop ≤ p.address.toNat ∨ p.stop ≤ q.address.toNat) :
    PlacedInReach base (placed ++ [p]) := by
  refine ⟨List.forall_mem_append.2 ⟨h.above, List.forall_mem_singleton.2 habove⟩,
    List.forall_mem_append.2 ⟨h.below, List.forall_mem_singleton.2 hbelow⟩, ?_,
    List.pairwise_append.2 ⟨h.apart, List.pairwise_singleton _ _, ?_⟩⟩
  · intro front q back hsplit
    -- the block asked for is the new one or one of the old ones
    rcases List.eq_nil_or_concat' back with rfl | ⟨back, r, rfl⟩
    · obtain ⟨rfl, hlast⟩ := List.append_inj' hsplit rfl
      cases hlast
      exact hposition
    · rw [← List.cons_append, ← List.append_assoc] at hsplit
      exact h.position front q back (List.append_inj' hsplit rfl).1
  · intro q hq r hr
    rw [List.mem_singleton.1 hr]
    exact hapart q hq

/-! ## Runs, block by block -/

theorem BlockRun.all_append (base : UInt32) :
    ∀ (front back : List Block) (run : BlockRun) (index : Nat),
      run.all base index (front ++ back)
        = (run.all base index front).all base (index + front.length) back
  | [], _, _, _ => rfl
  | b :: front, back, run, index => by
    rw [List.cons_append, BlockRun.all, BlockRun.all, all_append base front back, List.length_cons,
      Nat.add_assoc, Nat.add_comm 1]

theorem BlockRun.cursor_step {run : BlockRun} (h : run.cursor = lastStop base run.placed)
    (index : Nat) (b : Block) :
    (run.step base index b).cursor = lastStop base (run.step base index b).placed := by
  rcases run.step_cases base index b with ⟨p, -, hstep⟩ | ⟨fault, hstep⟩
  · rw [hstep]
    exact (lastStop_concat _ _ _).symm
  · rw [hstep]
    exact h

/-- What later blocks add has their positions in the container. Positions tell the report of one block
from that of another with the same name, which names could not. -/
theorem BlockRun.exists_added (base : UInt32) :
    ∀ (blocks : List Block) (run : BlockRun) (index : Nat),
      ∃ placed unplaced, (run.all base index blocks).placed = run.placed ++ placed ∧
        (run.all base index blocks).unplaced = run.unplaced ++ unplaced ∧
        (∀ p ∈ placed, index ≤ p.index ∧ p.index < index + blocks.length) ∧
        ∀ u ∈ unplaced, index ≤ u.index ∧ u.index < index + blocks.length
  | [], _, _ => ⟨[], [], (List.append_nil _).symm, (List.append_nil _).symm,
      List.forall_mem_nil _, List.forall_mem_nil _⟩
  | b :: rest, run, index => by
    obtain ⟨placed, unplaced, hplaced, hunplaced, hp, hu⟩ :=
      exists_added base rest (run.step base index b) (index + 1)
    rw [BlockRun.all, hplaced, hunplaced, List.length_cons]
    have hp' : ∀ p ∈ placed, index ≤ p.index ∧ p.index < index + (rest.length + 1) :=
      fun p hmem => by have := hp p hmem; omega
    have hu' : ∀ u ∈ unplaced, index ≤ u.index ∧ u.index < index + (rest.length + 1) :=
      fun u hmem => by have := hu u hmem; omega
    rcases run.step_cases base index b with ⟨p, hplace, hstep⟩ | ⟨fault, hstep⟩
    · obtain ⟨start, -, rfl⟩ := placeBlock_eq_ok_iff.1 hplace
      rw [hstep]
      exact ⟨_ :: placed, unplaced, List.append_assoc _ _ _, rfl,
        List.forall_mem_cons.2 ⟨⟨Nat.le_refl _, by simp⟩, hp'⟩, hu'⟩
    · rw [hstep]
      exact ⟨placed, _ :: unplaced, rfl, List.append_assoc _ _ _, hp',
        List.forall_mem_cons.2 ⟨⟨Nat.le_refl _, by simp⟩, hu'⟩⟩

section

variable {c : Container} {front back : List Block} (hsplit : c.blocks = front ++ b :: back)
include hsplit

theorem Container.place_eq : c.place =
    ((c.placeFirst front).step c.base front.length b).all c.base (front.length + 1) back := by
  rw [Container.place, hsplit, BlockRun.all_append, Nat.zero_add]
  rfl

theorem Container.unplaced_of_error {fault : Fault}
    (h : placeBlock c.base (c.placeFirst front).cursor (c.placeFirst front).placed front.length b
      = .error fault) :
    ⟨front.length, b, fault⟩ ∈ c.place.unplaced ∧ ∀ p ∈ c.place.placed, p.index ≠ front.length := by
  obtain ⟨before, -, hbefore, -, hlow, -⟩ :=
    BlockRun.exists_added c.base front { cursor := c.base.toNat } 0
  obtain ⟨after, later, hafter, hlater, hhigh, -⟩ := BlockRun.exists_added c.base back
    ((c.placeFirst front).step c.base front.length b) (front.length + 1)
  have hstep : (c.placeFirst front).step c.base front.length b =
      { c.placeFirst front with
        unplaced := (c.placeFirst front).unplaced ++ [⟨front.length, b, fault⟩] } := by
    rw [BlockRun.step, h]
  rw [Container.place_eq hsplit, hafter, hlater, hstep]
  refine ⟨List.mem_append_left _ (List.mem_append_right _ (List.mem_singleton_self _)), ?_⟩
  intro p hp
  rcases List.mem_append.1 hp with hp | hp
  · have hmem : p ∈ [] ++ before := hbefore ▸ hp
    have := hlow p hmem
    omega
  · have := hhigh p hp
    omega

/-- What is reported with a position is why the block there was refused. Read with its converse above,
reports and refusals are the same, and a statement about one block can be taken out of the whole run. -/
theorem Container.error_of_unplaced {fault : Fault}
    (h : ⟨front.length, b, fault⟩ ∈ c.place.unplaced) :
    placeBlock c.base (c.placeFirst front).cursor (c.placeFirst front).placed front.length b
      = .error fault := by
  obtain ⟨-, before, -, hbefore, -, hlow⟩ :=
    BlockRun.exists_added c.base front { cursor := c.base.toNat } 0
  obtain ⟨-, after, -, hafter, -, hhigh⟩ := BlockRun.exists_added c.base back
    ((c.placeFirst front).step c.base front.length b) (front.length + 1)
  -- the report is not one of an earlier block, nor of a later one
  have hold : ∀ {u : UnplacedBlock}, u ∈ (c.placeFirst front).unplaced → u.index < front.length := by
    intro u hu
    have hmem : u ∈ [] ++ before := hbefore ▸ hu
    have := hlow u hmem
    omega
  rw [Container.place_eq hsplit, hafter] at h
  rcases List.mem_append.1 h with h | h
  · unfold BlockRun.step at h
    split at h
    · exact absurd (hold h) (Nat.lt_irrefl _)
    · rename_i other hother
      rcases List.mem_append.1 h with h | h
      · exact absurd (hold h) (Nat.lt_irrefl _)
      · cases List.mem_singleton.1 h
        exact hother
  · exact absurd (hhigh _ h).1 (Nat.not_succ_le_self _)

end

theorem Container.placeFirst_concat (c : Container) (front : List Block) (b : Block) :
    c.placeFirst (front ++ [b]) = (c.placeFirst front).step c.base front.length b := by
  rw [Container.placeFirst, BlockRun.all_append, Nat.zero_add]
  rfl

theorem Container.cursor_placeFirst (c : Container) (front : List Block) :
    (c.placeFirst front).cursor = lastStop c.base (c.placeFirst front).placed := by
  induction front using List.reverseRecOn with
  | nil => rfl
  | append_singleton front b ih =>
    rw [c.placeFirst_concat]
    exact BlockRun.cursor_step ih _ _

/-! ## When a container is in reach -/

/-- Some block of a container has no bytes and belongs at the very end of the address space. Its end is
checked and found to be in reach, and only then is its address cut to 32 bits, to zero. -/
def Container.Brims (c : Container) : Prop :=
  ∃ front b back, c.blocks = front ++ b :: back ∧ b.length = 0 ∧
    b.BelongsAt c.base (c.placeFirst front).placed 0x100000000

/-- A block that is placed while others are in reach is in reach, if it has an address. The hypothesis
rules out the one block that brims; without it the next block would be placed behind address zero. -/
theorem PlacedInReach.step (h : PlacedInReach base placed) {index : Nat} {p : PlacedBlock}
    (hplace : placeBlock base (lastStop base placed) placed index b = .ok p)
    (hend : ¬ (b.length = 0 ∧ b.BelongsAt base placed 0x100000000)) :
    PlacedInReach base (placed ++ [p]) := by
  obtain ⟨start, hadm, rfl⟩ := placeBlock_eq_ok_iff.1 hplace
  have hbelongs : b.BelongsAt base placed start :=
    Block.belongsAt_iff.2 ⟨hadm.aligned, hadm.resolved⟩
  have hinside := hadm.inside
  -- the end of the address space is the only place without an address a block could be given
  have hstart : start < 0x100000000 := by
    by_contra hno
    have hlength : b.length.toNat = 0 := by omega
    obtain rfl : start = 0x100000000 := by omega
    exact hend ⟨UInt32.toNat_inj.1 hlength, hbelongs⟩
  have haddress : (lowAddress start).toNat = start := toNat_lowAddress hstart
  refine h.concat ?_ hadm.stop_le ?_ fun q hq => ?_
  · show base.toNat ≤ (lowAddress start).toNat
    rw [haddress]
    exact Offset.le_of_resolve (isAlignment_pos hadm.aligned) h.base_le_lastStop hadm.resolved
  · show b.BelongsAt base placed (lowAddress start).toNat
    rwa [haddress]
  · have hmeets := Span.apart_of_not_meets (hadm.apart q hq)
    show q.stop ≤ (lowAddress start).toNat ∨
      (lowAddress start).toNat + b.length.toNat ≤ q.address.toNat
    rw [haddress] at hmeets ⊢
    exact hmeets

theorem Container.placedInReach_placeFirst {c : Container} (h : ¬ c.Brims) {front : List Block} :
    ∀ {back : List Block}, c.blocks = front ++ back →
      PlacedInReach c.base (c.placeFirst front).placed := by
  induction front using List.reverseRecOn with
  | nil =>
    intro back _
    exact .nil
  | append_singleton front b ih =>
    intro back hsplit
    rw [List.append_assoc] at hsplit
    have hbefore := ih hsplit
    have hend : ¬ (b.length = 0 ∧ b.BelongsAt c.base (c.placeFirst front).placed 0x100000000) :=
      fun hb => h ⟨front, b, back, hsplit, hb⟩
    rw [c.placeFirst_concat]
    rcases (c.placeFirst front).step_cases c.base front.length b with ⟨p, hp, hstep⟩ | ⟨fault, hstep⟩
    · rw [c.cursor_placeFirst] at hp
      rw [hstep]
      exact hbefore.step hp hend
    · rw [hstep]
      exact hbefore

/-- **A container is in reach unless a block without bytes belongs at the end of the address space.** In
the other direction the block that brims is itself out of reach: it is placed at zero, where it does not
belong. -/
theorem Container.inReach_iff (c : Container) : c.InReach ↔ ¬ c.Brims := by
  constructor
  · -- such a block would have to be reported for its address, and it is not
    rintro h ⟨front, b, back, hsplit, hlength, hbelongs⟩
    obtain ⟨hreport, -⟩ := h.overflow front b back hsplit _ hbelongs (.inl (Nat.le_refl _))
    have hplace := Container.error_of_unplaced hsplit hreport
    rw [c.cursor_placeFirst] at hplace
    refine hbelongs.not_overflows ?_ _ hplace
    rw [hlength]
    exact Nat.le_refl _
  · intro h
    refine ⟨Container.placedInReach_placeFirst h (List.append_nil _).symm, ?_⟩
    intro front b back hsplit start hbelongs hout
    have hover : 0x100000000 < start + b.length.toNat := by
      by_contra hno
      obtain rfl : start = 0x100000000 := by omega
      have hlength : b.length.toNat = 0 := by omega
      exact h ⟨front, b, back, hsplit, UInt32.toNat_inj.1 hlength, hbelongs⟩
    refine Container.unplaced_of_error hsplit ?_
    rw [c.cursor_placeFirst]
    exact hbelongs.overflows hover _

namespace Specimen

def brim : Container :=
  { name := "brim"
    base := 0xFFFFFFF0
    blocks := [{ name := "end", offset := .fixed 16, length := 0 }, { name := "next", length := 4 }] }

/-- The block after it is placed in front of the container. -/
theorem brim_not_inReach : ¬ brim.InReach := by
  intro h
  have hplaced : brim.place.placed =
      [⟨0, { name := "end", offset := .fixed 16, length := 0 }, 0⟩,
        ⟨1, { name := "next", length := 4 }, 0⟩] := rfl
  have habove := h.placed.above
  rw [hplaced] at habove
  exact absurd (habove _ (List.mem_cons_of_mem _ List.mem_cons_self)) (by decide)

end Specimen

end FlashParams
