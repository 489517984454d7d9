import FlashParams.Proofs.Placement.Address

/-!
# Where the blocks of a container end up

The block level is the field level with one corner more. A block without bytes may start exactly at
the end of the address space; its address is then narrowed to zero, and the span it is recorded with
is empty at zero instead of empty at the end. Neither span has an address, so what is promised below
(`stop_le_of_mem_place`) holds there too, but `PlacedBlock.address` is not where the block was
resolved to.

As for fields, a block is placed exactly when all checks pass (`placeBlock_eq_ok_iff`), and when no
block is left over all of them are placed, in declaration order.
-/

set_option autoImplicit false

namespace FlashParams

/-! ## One block -/

/-- All checks a block has to pass to be placed at this exact address. The address is a number and not a
word: the end of the block is compared before anything is narrowed, and a block without bytes at the end
of the address space passes. -/
structure Block.Admitted (base : UInt32) (cursor : Nat) (placed : List PlacedBlock) (block : Block)
    (start : Nat) : Prop where
  aligned : isAlignment block.align = true
  resolved : block.offset.resolve base.toNat cursor block.align.toNat = .ok start
  inside : start + block.length.toNat ≤ 0x100000000
  apart : ∀ other ∈ placed,
    Span.meets ⟨(lowAddress start).toNat, start + block.length.toNat⟩ other.span = false

/-- **A block is placed exactly when it passes every check.** The checks are made in a fixed order and
the first that fails is reported, so this is all that remains of the order when none fails. -/
theorem placeBlock_eq_ok_iff {base : UInt32} {cursor : Nat} {placed : List PlacedBlock}
    {index : Nat} {block : Block} {p : PlacedBlock} :
    placeBlock base cursor placed index block = .ok p ↔
      ∃ start, block.Admitted base cursor placed start ∧ p = ⟨index, block, lowAddress start⟩ := by
  constructor
  · intro h
    unfold placeBlock at h
    split at h
    · cases h
    rename_i haligned
    split at h
    · cases h
    rename_i start hresolved
    dsimp only at h
    split at h
    · cases h
    rename_i hinside
    split at h
    · cases h
    rename_i hfree
    cases h
    refine ⟨start, ⟨by simpa using haligned, hresolved, by omega, fun other ho => ?_⟩, rfl⟩
    exact Bool.eq_false_iff.2 (List.find?_eq_none.1 hfree other ho)
  · rintro ⟨start, h, rfl⟩
    have hfree : placed.find? (fun other =>
        Span.meets ⟨(lowAddress start).toNat, start + block.length.toNat⟩ other.span) = none :=
      List.find?_eq_none.2 fun other ho => by rw [h.apart other ho]; exact Bool.false_ne_true
    unfold placeBlock
    rw [if_neg (by rw [h.aligned]; exact Bool.false_ne_true), h.resolved]
    dsimp only
    rw [if_neg (Nat.not_lt.2 h.inside), hfree]

theorem tried_of_placeBlock {base : UInt32} {cursor : Nat} {placed : List PlacedBlock} {index : Nat}
    {block : Block} {p : PlacedBlock} (h : placeBlock base cursor placed index block = .ok p) :
    p.index = index ∧ p.block = block := by
  obtain ⟨start, -, rfl⟩ := placeBlock_eq_ok_iff.1 h
  exact ⟨rfl, rfl⟩

/-- A placed block ends inside the address space, also after its address has been narrowed: only a block
without bytes is moved by that, and it is moved to zero. -/
theorem Block.Admitted.stop_le {base : UInt32} {cursor : Nat} {placed : List PlacedBlock}
    {block : Block} {start index : Nat} (h : block.Admitted base cursor placed start) :
    (PlacedBlock.mk index block (lowAddress start)).stop ≤ 0x100000000 := by
  have hinside := h.inside
  show (lowAddress start).toNat + block.length.toNat ≤ 0x100000000
  by_cases hlow : start < 0x100000000
  · rw [toNat_lowAddress hlow]
    exact hinside
  · have := (lowAddress start).toNat_lt
    omega

/-! ## A run of blocks -/

/-- What a step does: it places the block, or reports it and changes nothing else. What holds of a run of
blocks is an induction over these two cases, with `placeBlock` in place of the branches of the step. -/
theorem BlockRun.step_cases (base : UInt32) (run : BlockRun) (index : Nat) (block : Block) :
    (∃ p, placeBlock base run.cursor run.placed index block = .ok p ∧
        run.step base index block =
          { run with cursor := p.stop, placed := run.placed ++ [p] }) ∨
      ∃ fault, run.step base index block =
        { run with unplaced := run.unplaced ++ [⟨index, block, fault⟩] } := by
  unfold BlockRun.step
  split
  · rename_i p hp
    exact .inl ⟨p, hp, rfl⟩
  · exact .inr ⟨_, rfl⟩

/-- What every placement guarantees, every placed block has. A property that does not depend on the state
of the run needs no invariant, and comes through here at once. -/
theorem BlockRun.forall_placed {base : UInt32} {P : PlacedBlock → Prop}
    (hP : ∀ cursor placed index block p,
      placeBlock base cursor placed index block = .ok p → P p) :
    ∀ (blocks : List Block) (run : BlockRun) (index : Nat), (∀ p ∈ run.placed, P p) →
      ∀ p ∈ (run.all base index blocks).placed, P p
  | [], _, _, h => h
  | block :: rest, run, index, h => by
    refine forall_placed hP rest (run.step base index block) (index + 1) ?_
    rcases run.step_cases base index block with ⟨p, hp, hstep⟩ | ⟨fault, hstep⟩
    · rw [hstep]
      exact List.forall_mem_append.2 ⟨h, List.forall_mem_singleton.2 (hP _ _ _ _ _ hp)⟩
    · rw [hstep]
      exact h

theorem Container.stop_le_of_mem_place {c : Container} {p : PlacedBlock} (h : p ∈ c.place.placed) :
    p.stop ≤ 0x100000000 := by
  refine BlockRun.forall_placed (P := fun p => p.stop ≤ 0x100000000)
    (fun cursor placed index block p hp => ?_) c.blocks _ 0
    (List.forall_mem_nil _) p h
  obtain ⟨start, hadm, rfl⟩ := placeBlock_eq_ok_iff.1 hp
  exact hadm.stop_le

theorem Container.dvd_of_mem_place {c : Container} {p : PlacedBlock} (h : p ∈ c.place.placed) :
    p.block.align.toNat ∣ p.address.toNat := by
  refine BlockRun.forall_placed (P := fun p => p.block.align.toNat ∣ p.address.toNat)
    (fun cursor placed index block p hp => ?_) c.blocks _ 0 (List.forall_mem_nil _) p h
  obtain ⟨start, hadm, rfl⟩ := placeBlock_eq_ok_iff.1 hp
  show block.align.toNat ∣ (lowAddress start).toNat
  by_cases hlow : start < 0x100000000
  · rw [toNat_lowAddress hlow]
    exact Offset.dvd_of_resolve hadm.resolved
  · -- the end of the address space is narrowed to zero, which is aligned to anything
    have hinside := hadm.inside
    obtain rfl : start = 0x100000000 := by omega
    exact Nat.dvd_zero _

/-! ## Runs that leave nothing over -/

/-- Blocks left over stay left over, and without one every block tried has been placed. The two are one
induction: the second needs that the rest of the run left nothing over either. -/
theorem BlockRun.blocks_of_none_left (base : UInt32) :
    ∀ (blocks : List Block) (run : BlockRun) (index : Nat),
      (run.all base index blocks).unplaced = [] → run.unplaced = [] ∧
        (run.all base index blocks).placed.map (·.block) = run.placed.map (·.block) ++ blocks
  | [], run, _, h => ⟨h, by rw [List.append_nil]; rfl⟩
  | block :: rest, run, index, h => by
    obtain ⟨hleft, hblocks⟩ := blocks_of_none_left base rest _ (index + 1) h
    rw [BlockRun.all, hblocks]
    rcases run.step_cases base index block with ⟨p, hp, hstep⟩ | ⟨fault, hstep⟩
    · have hblock := (tried_of_placeBlock hp).2
      rw [hstep] at hleft ⊢
      refine ⟨hleft, ?_⟩
      rw [List.map_append, List.append_assoc, List.map_singleton, hblock]
      rfl
    · rw [hstep] at hleft
      exact absurd hleft (List.append_ne_nil_of_right_ne_nil _ (List.cons_ne_nil _ _))

/-- A container that leaves no block over has placed all of them, in declaration order. -/
theorem Container.blocks_of_none_left {c : Container} (h : c.place.unplaced = []) :
    c.place.placed.map (·.block) = c.blocks := by
  obtain ⟨-, hblocks⟩ := BlockRun.blocks_of_none_left c.base c.blocks _ 0 h
  exact hblocks

end FlashParams
