import FlashParams.Proofs.Placement.Blocks
import FlashParams.Proofs.Revision.Sheet

/-!
# Revised blocks in their container

The block level repeats the field level with one corner more, the one that placement itself has. A block
without bytes may be placed at the very end of the address space, where its address is narrowed to zero.
It cannot be moved from there, and the distance to zero is not the one it was resolved with. A revision
has to leave such blocks as they are, which `PlacedBlock.Revises.solid` asks of all blocks without bytes:
they stay where they are, with the offset they have.

A moved block needs room at its new place. That is a condition on where it ends and has to be asked for
(`PlacedBlock.Revises.room`), while the start of the container, and with it every address in it, is above
zero because the container's new address is a word.
-/

set_option autoImplicit false

namespace FlashParams

/-! ## One block -/

/-- A placed block, in a container at `base` that is moved by `δ`, and a revision of it. It is about a
block *with* its address, since an offset is revised according to where it led. -/
structure PlacedBlock.Revises (kept : Prop) (base : UInt32) (δ : Int) (p : PlacedBlock) (b' : Block) :
    Prop where
  block : p.block.Revises kept p.address b'
  offset : p.block.offset.Revises base p.address b'.offset
  room : (p.stop : Int) + δ ≤ 0x100000000
  solid : p.block.length ≠ 0 ∨ δ = 0 ∧ b'.offset = p.block.offset

structure PlacedBlock.Moved (kept : Prop) (base : UInt32) (δ : Int) (p p' : PlacedBlock) : Prop where
  index : p'.index = p.index
  address : (p'.address.toNat : Int) = p.address.toNat + δ
  revises : p.Revises kept base δ p'.block

namespace PlacedBlock.Moved

variable {kept : Prop} {base : UInt32} {δ : Int} {p p' : PlacedBlock}

theorem stop (h : p.Moved kept base δ p') : (p'.stop : Int) = p.stop + δ := by
  have haddress := h.address
  rw [PlacedBlock.stop, PlacedBlock.stop, h.revises.block.length]
  omega

theorem span (h : p.Moved kept base δ p') : p.span.Moved δ p'.span :=
  ⟨h.address, h.stop⟩

theorem stop_le (h : p.Moved kept base δ p') : p'.stop ≤ 0x100000000 := by
  have hstop := h.stop
  have hroom := h.revises.room
  omega

end PlacedBlock.Moved

section

variable {kept : Prop} {base base' : UInt32} {δ : Int} (hδ : 16384 ∣ δ)
  (hbase : (base'.toNat : Int) = base.toNat + δ)
include hδ hbase

/-- **A revised block is placed where the block is moved to.** The checks compare addresses with each
other, with one exception, the end of the address space; that the moved block ends before it is an
assumption. -/
theorem placeBlock_moved {cursor cursor' : Nat} (hcursor : (cursor' : Int) = cursor + δ)
    {placed placed' : List PlacedBlock}
    (hplaced : List.Forall₂ (PlacedBlock.Moved kept base δ) placed placed') {index : Nat}
    {p : PlacedBlock} (h : placeBlock base cursor placed index p.block = .ok p) {b' : Block}
    (hrevised : p.Revises kept base δ b') :
    ∃ p', placeBlock base' cursor' placed' index b' = .ok p' ∧ p'.block = b' ∧
      p.Moved kept base δ p' := by
  obtain ⟨start, hadm, hp⟩ := placeBlock_eq_ok_iff.1 h
  have haddress : p.address = lowAddress start := congrArg PlacedBlock.address hp
  have hinside := hadm.inside
  have hroom := hrevised.room
  have halign := dvd_of_isAlignment hδ hadm.aligned
  have hpos := isAlignment_pos hadm.aligned
  obtain ⟨start', hresolved, hstart, hinside', hlow⟩ : ∃ start',
      b'.offset.resolve base'.toNat cursor' p.block.align.toNat = .ok start' ∧
        (start' : Int) = start + δ ∧ start' + p.block.length.toNat ≤ 0x100000000 ∧
        ((lowAddress start').toNat : Int) = (lowAddress start).toNat + δ := by
    rcases hrevised.solid with hsolid | ⟨rfl, hsame⟩
    · -- a block with bytes has an address, here and where it is moved to
      have hlength : 0 < p.block.length.toNat :=
        Nat.pos_of_ne_zero fun e => hsolid (UInt32.toNat_inj.1 e)
      have hexact : (lowAddress start).toNat = start := toNat_lowAddress (by omega)
      rw [PlacedBlock.stop, haddress, hexact] at hroom
      obtain ⟨start', hresolved, hstart⟩ := hrevised.offset.resolve hpos halign hbase hcursor
        (by rw [haddress, hexact]; exact hadm.resolved)
      rw [haddress, hexact] at hstart
      exact ⟨start', hresolved, hstart, by omega, by
        rw [toNat_lowAddress (by omega), hexact, hstart]⟩
    · -- one without bytes has stayed where it was
      obtain rfl : base' = base := UInt32.toNat_inj.1 (by omega)
      obtain rfl : cursor' = cursor := by omega
      exact ⟨start, hsame ▸ hadm.resolved, by omega, hinside, by omega⟩
  have hspan : (Span.mk (lowAddress start).toNat (start + p.block.length.toNat)).Moved δ
      ⟨(lowAddress start').toNat, start' + p.block.length.toNat⟩ := by
    refine ⟨hlow, ?_⟩
    show ((start' + p.block.length.toNat : Nat) : Int) = (start + p.block.length.toNat : Nat) + δ
    omega
  refine ⟨⟨index, b', lowAddress start'⟩, placeBlock_eq_ok_iff.2
    ⟨start', ⟨?_, ?_, ?_, fun q' hq' => ?_⟩, rfl⟩, rfl, ?_, ?_, hrevised⟩
  · rw [hrevised.block.align]
    exact hadm.aligned
  · rw [hrevised.block.align]
    exact hresolved
  · rw [hrevised.block.length]
    exact hinside'
  · obtain ⟨q, hq, hpair⟩ := forall₂_exists_right hplaced q' hq'
    rw [hrevised.block.length, hspan.meets hpair.span]
    exact hadm.apart q hq
  · rw [hp]
  · rw [haddress]
    exact hlow

end

/-! ## A run of blocks -/

def BlockRun.put (run : BlockRun) (p : PlacedBlock) : BlockRun :=
  { run with cursor := p.stop, placed := run.placed ++ [p] }

/-- A run that leaves nothing over, as the blocks it places one after the other. The run of a revision
need not be known to leave nothing over: it is rebuilt along these steps. -/
inductive BlockSteps (base : UInt32) : BlockRun → Nat → List PlacedBlock → BlockRun → Prop where
  | nil {run : BlockRun} {index : Nat} : BlockSteps base run index [] run
  | cons {run final : BlockRun} {index : Nat} {p : PlacedBlock} {rest : List PlacedBlock} :
      placeBlock base run.cursor run.placed index p.block = .ok p →
      BlockSteps base (run.put p) (index + 1) rest final →
      BlockSteps base run index (p :: rest) final

namespace BlockSteps

variable {base : UInt32} {run final : BlockRun} {index : Nat} {placed : List PlacedBlock}

theorem all_eq (h : BlockSteps base run index placed final) :
    run.all base index (placed.map (·.block)) = final := by
  induction h with
  | nil => rfl
  | @cons run final index p rest hp _ ih =>
    have hstep : run.step base index p.block = run.put p := by
      rw [BlockRun.step, hp]
      rfl
    rw [List.map_cons, BlockRun.all, hstep, ih]

theorem placed_eq (h : BlockSteps base run index placed final) :
    final.placed = run.placed ++ placed := by
  induction h with
  | nil => exact (List.append_nil _).symm
  | cons _ _ ih =>
    rw [ih]
    exact List.append_assoc _ _ _

theorem unplaced_eq (h : BlockSteps base run index placed final) :
    final.unplaced = run.unplaced := by
  induction h with
  | nil => rfl
  | cons _ _ ih => exact ih

theorem of_none_left : ∀ (blocks : List Block) {run : BlockRun} {index : Nat},
    (run.all base index blocks).unplaced = [] →
      ∃ placed, placed.map (·.block) = blocks ∧
        BlockSteps base run index placed (run.all base index blocks)
  | [], _, _, _ => ⟨[], rfl, .nil⟩
  | block :: rest, run, index, h => by
    obtain ⟨placed, hblocks, hsteps⟩ := of_none_left rest h
    have hmid := hsteps.unplaced_eq.symm.trans h
    rcases run.step_cases base index block with ⟨p, hp, hstep⟩ | ⟨fault, hstep⟩
    · have hblock := (tried_of_placeBlock hp).2
      rw [hstep] at hsteps
      refine ⟨p :: placed, by rw [List.map_cons, hblock, hblocks], .cons (by rwa [hblock]) ?_⟩
      rw [BlockRun.all, hstep]
      exact hsteps
    · rw [hstep] at hmid
      exact absurd hmid (List.append_ne_nil_of_right_ne_nil _ (List.cons_ne_nil _ _))

/-- **A run of revised blocks goes through as the run did.** The induction is on the steps of the first
run, with the second run placed beside it. -/
theorem moved {kept : Prop} {base' : UInt32} {δ : Int} (hδ : 16384 ∣ δ)
    (hbase : (base'.toNat : Int) = base.toNat + δ)
    (h : BlockSteps base run index placed final) {blocks' : List Block}
    (hrevised : List.Forall₂ (PlacedBlock.Revises kept base δ) placed blocks') {run' : BlockRun}
    (hcursor : (run'.cursor : Int) = run.cursor + δ)
    (hplaced : List.Forall₂ (PlacedBlock.Moved kept base δ) run.placed run'.placed) :
    ∃ placed' final', BlockSteps base' run' index placed' final' ∧
      placed'.map (·.block) = blocks' ∧
      List.Forall₂ (PlacedBlock.Moved kept base δ) placed placed' := by
  induction h generalizing blocks' run' with
  | nil =>
    cases hrevised
    exact ⟨[], run', .nil, rfl, .nil⟩
  | @cons run final index p rest hp _ ih =>
    cases hrevised with
    | cons hfirst hrest =>
      obtain ⟨p', hp', hblock, hpair⟩ := placeBlock_moved hδ hbase hcursor hplaced hp hfirst
      have hput : List.Forall₂ (PlacedBlock.Moved kept base δ) (run.put p).placed
          (run'.put p').placed := List.rel_append hplaced (.cons hpair .nil)
      have hstop : ((run'.put p').cursor : Int) = (run.put p).cursor + δ := hpair.stop
      obtain ⟨placed', final', hsteps, hblocks, hpairs⟩ := ih hrest hstop hput
      refine ⟨p' :: placed', final', .cons (by rwa [hblock]) hsteps, ?_, .cons hpair hpairs⟩
      rw [List.map_cons, hblock, hblocks]

end BlockSteps

/-! ## Containers -/

structure Container.Revises (kept : Prop) (δ : Int) (c c' : Container) : Prop where
  name : c'.name = c.name
  base : (c'.base.toNat : Int) = c.base.toNat + δ
  blocks : List.Forall₂ (PlacedBlock.Revises kept c.base δ) c.place.placed c'.blocks

/-- **The blocks of a revised container are placed where its blocks are moved to.** In particular none of
them is left over, so a revision does not make a declaration fail here. -/
theorem Container.place_moved {kept : Prop} {δ : Int} (hδ : 16384 ∣ δ) {c c' : Container}
    (h : c.Revises kept δ c') (hplaced : c.place.unplaced = []) :
    c'.place.unplaced = [] ∧
      List.Forall₂ (PlacedBlock.Moved kept c.base δ) c.place.placed c'.place.placed := by
  obtain ⟨placed, -, hsteps⟩ := BlockSteps.of_none_left c.blocks hplaced
  have hall : c.place.placed = placed := hsteps.placed_eq
  have hrevised := h.blocks
  rw [hall] at hrevised ⊢
  have hstart : (({ cursor := c'.base.toNat } : BlockRun).cursor : Int) = c.base.toNat + δ := h.base
  obtain ⟨placed', final', hsteps', hblocks, hpairs⟩ := hsteps.moved hδ h.base hrevised hstart .nil
  have hplace : c'.place = final' := by
    rw [← hsteps'.all_eq, hblocks]
    rfl
  rw [hplace, hsteps'.placed_eq, hsteps'.unplaced_eq]
  exact ⟨rfl, hpairs⟩

end FlashParams
