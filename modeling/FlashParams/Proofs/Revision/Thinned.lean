import FlashParams.Proofs.Placement.Measured
import FlashParams.Proofs.Revision.Blocks

/-!
# What fails leaves nothing behind

A field that finds no place is a fault and nothing else: the cursor, the spans that are taken and the
names that are given away are those of the fields placed. So a block can be *thinned* to the fields that
were placed in it, and these are placed as they were. The same goes for the blocks of a container.

Both inductions go over what was declared, with two runs side by side: the run of everything, and the run
of what is kept. A step of the first that fails is no step of the second. The runs need not be equal, for
the second counts positions without gaps, and `Agrees` asks for what the next placement reads. What the
second run does is given as `FieldSteps` and `BlockSteps`, whose runs have no faults by construction.

A field that is left out may have been the one that outgrows the machine word. Thinned blocks therefore
also have all their sizes computed (`Block.Undisturbed.tried`).
-/

set_option autoImplicit false

namespace FlashParams

open StoredType (wordBound)

/-! ## Items by their positions -/

/-- The items of a list at positions that are kept; the first item has position `start`. Positions rather
than names, since two fields may have one name and only one of them a place. -/
def keepAt {α : Type} (keep : Nat → Bool) (start : Nat) : List α → List α
  | [] => []
  | x :: rest => if keep start then x :: keepAt keep (start + 1) rest else keepAt keep (start + 1) rest

section

variable {α : Type} {keep keep' : Nat → Bool}

theorem keepAt_congr : ∀ {items : List α} {start : Nat}, (∀ i, start ≤ i → keep i = keep' i) →
    keepAt keep start items = keepAt keep' start items
  | [], _, _ => rfl
  | x :: rest, start, h => by
    have hrest : keepAt keep (start + 1) rest = keepAt keep' (start + 1) rest :=
      keepAt_congr fun i hi => h i (Nat.le_of_succ_le hi)
    rw [keepAt, keepAt, h start (Nat.le_refl _), hrest]

theorem keepAt_cons_of_pos {start : Nat} {x : α} {rest : List α} (h : keep start = true) :
    keepAt keep start (x :: rest) = x :: keepAt keep (start + 1) rest :=
  if_pos h

theorem keepAt_cons_of_neg {start : Nat} {x : α} {rest : List α} (h : keep start = false) :
    keepAt keep start (x :: rest) = keepAt keep (start + 1) rest :=
  if_neg (Bool.eq_false_iff.1 h)

end

/-- Items numbered on from `start`. Taking items out shifts the positions of those behind, which is the
one thing that changes in what is placed. -/
def renumber {α : Type} (number : Nat → α → α) (start : Nat) (items : List α) : List α :=
  items.mapIdx fun i x => number (start + i) x

section

variable {α β : Type} {number : Nat → α → α}

theorem renumber_zero (items : List α) : renumber number 0 items = items.mapIdx number := by
  simp only [renumber, Nat.zero_add]

theorem renumber_cons (start : Nat) (x : α) (rest : List α) :
    renumber number start (x :: rest) = number start x :: renumber number (start + 1) rest := by
  simp only [renumber, List.mapIdx_cons, Nat.add_zero, Nat.add_assoc, Nat.add_comm 1]

theorem map_renumber {g : α → β} (hg : ∀ i x, g (number i x) = g x) :
    ∀ (items : List α) (start : Nat), (renumber number start items).map g = items.map g
  | [], _ => rfl
  | x :: rest, start => by
    rw [renumber_cons, List.map_cons, hg, map_renumber hg rest, List.map_cons]

end

/-! ## Fields -/

def PlacedField.withIndex (index : Nat) (p : PlacedField) : PlacedField :=
  { p with index }

/-- Two runs between which the next field makes no difference. Of a run it looks at the cursor, at the
spans taken and at the names placed, and at nothing else. -/
structure FieldRun.Agrees (run run' : FieldRun) : Prop where
  cursor : run'.cursor = run.cursor
  taken : run'.taken = run.taken
  names : run'.placed.map (·.name) = run.placed.map (·.name)

theorem FieldRun.Agrees.refl (run : FieldRun) : run.Agrees run :=
  ⟨rfl, rfl, rfl⟩

theorem FieldRun.Agrees.put {run run' : FieldRun} (h : run.Agrees run') (p : PlacedField)
    (index : Nat) : (run.put p).Agrees (run'.put (p.withIndex index)) := by
  refine ⟨rfl, ?_, ?_⟩
  · show run'.taken ++ _ = run.taken ++ _
    rw [h.taken]
    rfl
  · show (run'.placed ++ _).map _ = (run.placed ++ _).map _
    rw [List.map_append, h.names, List.map_append]
    rfl

theorem FieldRun.Agrees.new {run run' : FieldRun} (h : run.Agrees run') {name : String}
    (hnew : ∀ q ∈ run.placed, q.name ≠ name) : ∀ q ∈ run'.placed, q.name ≠ name := by
  intro q hq
  have hmem : q.name ∈ run.placed.map (·.name) := h.names ▸ List.mem_map_of_mem hq
  obtain ⟨q', hq', hname⟩ := List.mem_map.1 hmem
  exact hname ▸ hnew q' hq'

theorem placeField_at {base limit cursor index : Nat} {taken : List Taken} {f : Field}
    {p : PlacedField} (h : placeField base limit cursor taken index f = .ok p) (index' : Nat) :
    placeField base limit cursor taken index' f = .ok (p.withIndex index') := by
  obtain ⟨occupant, address, hadm, rfl⟩ := placeField_eq_ok_iff.1 h
  exact placeField_eq_ok_iff.2 ⟨occupant, address, hadm, rfl⟩

/-- **Without the fields that are not placed, a run places the others as it did.** The induction goes
along the fields of the whole block. A field that is not placed leaves the first run as it is, and the
second run has no such field. -/
theorem FieldRun.exists_thinned (base limit : Nat) :
    ∀ (fields : List Field) {run run' : FieldRun} (index index' : Nat), run.Agrees run' →
      ∃ added final, (run.all base limit index fields).placed = run.placed ++ added ∧
        (∀ p ∈ added, index ≤ p.index) ∧
        keepAt (fun i => added.any (·.index = i)) index fields = added.map (·.occupant.field) ∧
        FieldSteps base limit run' index' (renumber PlacedField.withIndex index' added) final
  | [], run, run', _, _, _ =>
    ⟨[], run', (List.append_nil _).symm, List.forall_mem_nil _, rfl, .nil⟩
  | f :: rest, run, run', index, index', hagrees => by
    rcases run.step_cases base limit index f with ⟨p, hp, hnew, hstep⟩ | ⟨fault, hstep⟩
    · obtain ⟨hindex, hfield⟩ := tried_of_placeField hp
      obtain ⟨added, final, hadded, hhigh, hkept, hsteps⟩ :=
        exists_thinned base limit rest (index + 1) (index' + 1) (hagrees.put p index')
      refine ⟨p :: added, final, ?_, ?_, ?_, ?_⟩
      · rw [all, hstep]
        exact hadded.trans (List.append_assoc _ _ _)
      · exact List.forall_mem_cons.2
          ⟨Nat.le_of_eq hindex.symm, fun q hq => Nat.le_of_succ_le (hhigh q hq)⟩
      · -- from the next position on, the new field is none of those asked for
        have hrest : keepAt (fun i => (p :: added).any (·.index = i)) (index + 1) rest =
            keepAt (fun i => added.any (·.index = i)) (index + 1) rest :=
          keepAt_congr fun i hi => by
            simp [hindex, show index ≠ i by omega]
        rw [keepAt_cons_of_pos (by simp [hindex]), hrest, hkept, List.map_cons, hfield]
      · rw [renumber_cons]
        refine .cons ?_ ?_ hsteps
        · show placeField base limit run'.cursor run'.taken index' p.occupant.field = _
          rw [hagrees.cursor, hagrees.taken, hfield]
          exact placeField_at hp index'
        · show ∀ q ∈ run'.placed, q.name ≠ p.occupant.field.name
          rw [hfield]
          exact hagrees.new hnew
    · have hagrees' : FieldRun.Agrees { run with faults := run.faults ++ [fault] } run' :=
        ⟨hagrees.cursor, hagrees.taken, hagrees.names⟩
      obtain ⟨added, final, hadded, hhigh, hkept, hsteps⟩ :=
        exists_thinned base limit rest (index + 1) index' hagrees'
      refine ⟨added, final, ?_, fun p hp => Nat.le_of_succ_le (hhigh p hp), ?_, hsteps⟩
      · rw [all, hstep]
        exact hadded
      · have hmissing : added.any (·.index = index) = false := by
          refine List.any_eq_false.2 fun p hp => ?_
          have hlow := hhigh p hp
          simp only [decide_eq_true_eq]
          omega
        rw [keepAt_cons_of_neg hmissing, hkept]

/-- The block with the fields that are placed in it. It is itself a declaration, which can be placed
again from the start. -/
def Block.thinned (b : Block) (base : UInt32) : Block :=
  { b with fields := keepAt (fun i => (b.place base).placed.any (·.index = i)) 0 b.fields }

/-- What is expected when the fields that find no place in a block are taken out of it: the others are
placed as they were, all their sizes are computed, and at most the header is at fault. -/
structure Block.Undisturbed (b : Block) (base : UInt32) : Prop where
  placed : ((b.thinned base).place base).placed = (b.place base).placed.mapIdx PlacedField.withIndex
  tried : (b.thinned base).place? base = some ((b.thinned base).place base)
  faults : ((b.thinned base).place base).faults = (b.beginFields base).faults

theorem Block.undisturbed (b : Block) (base : UInt32) : b.Undisturbed base := by
  obtain ⟨added, final, hadded, -, hkept, hsteps⟩ :=
    FieldRun.exists_thinned base.toNat (base.toNat + b.length.toNat) b.fields 0 0
      (FieldRun.Agrees.refl (b.beginFields base))
  have hplaced : (b.place base).placed = added := by
    rw [b.placed_beginFields] at hadded
    exact hadded
  have hfields : (b.thinned base).fields = added.map (·.occupant.field) := by
    rw [← hkept, ← hplaced]
    rfl
  have hfinal : (b.thinned base).place base = final := by
    have hsame : (renumber PlacedField.withIndex 0 added).map (·.occupant.field) =
        added.map (·.occupant.field) :=
      map_renumber (by intro _ _; rfl) added 0
    rw [← hsteps.all_eq, hsame, ← hfields]
    rfl
  refine ⟨?_, ?_, ?_⟩
  · rw [hfinal, hsteps.placed_eq, b.placed_beginFields, hplaced, renumber_zero, List.nil_append]
  · -- what has been placed has 32 bits for its size
    have hsmall : ∀ p ∈ (b.place base).placed, ¬ p.occupant.field.Outgrows := by
      refine FieldRun.forall_placed (P := fun p => ¬ p.occupant.field.Outgrows) ?_ b.fields _ 0 ?_
      · intro cursor taken index f p hp houtgrows
        obtain ⟨occupant, address, hadm, rfl⟩ := placeField_eq_ok_iff.1 hp
        obtain ⟨occupant', htyped, hlarge⟩ := Field.outgrows_iff.1 houtgrows
        have hsize := hadm.small
        rw [Field.field_of_occupant hadm.typed, hadm.typed] at htyped
        cases htyped
        exact absurd (Nat.le_trans hlarge (Nat.le_of_lt hsize)) (by decide)
      · rw [b.placed_beginFields]
        exact List.forall_mem_nil _
    obtain ⟨run, hrun⟩ : ∃ run, (b.thinned base).place? base = some run := by
      refine Option.ne_none_iff_exists'.1 fun hnone => ?_
      obtain ⟨front, f, occupant, hmeasures, houtgrows⟩ := Block.place?_eq_none_iff.1 hnone
      obtain ⟨back, hsplit⟩ := hmeasures.declared
      have hmem : f ∈ added.map (·.occupant.field) := by
        rw [← hfields, hsplit]
        exact List.mem_append_right _ List.mem_cons_self
      obtain ⟨p, hp, rfl⟩ := List.mem_map.1 hmem
      exact hsmall p (hplaced ▸ hp) houtgrows
    rw [hrun, Block.place?_eq_some hrun]
  · rw [hfinal, hsteps.faults_eq]

/-! ## Blocks -/

def PlacedBlock.withIndex (index : Nat) (p : PlacedBlock) : PlacedBlock :=
  { p with index }

/-- Two runs between which the next block makes no difference. -/
structure BlockRun.Agrees (run run' : BlockRun) : Prop where
  cursor : run'.cursor = run.cursor
  spans : run'.placed.map (·.span) = run.placed.map (·.span)

theorem BlockRun.Agrees.refl (run : BlockRun) : run.Agrees run :=
  ⟨rfl, rfl⟩

theorem BlockRun.Agrees.put {run run' : BlockRun} (h : run.Agrees run') (p : PlacedBlock)
    (index : Nat) : (run.put p).Agrees (run'.put (p.withIndex index)) := by
  refine ⟨rfl, ?_⟩
  show (run'.placed ++ _).map _ = (run.placed ++ _).map _
  rw [List.map_append, h.spans, List.map_append]
  rfl

theorem BlockRun.Agrees.placeBlock {run run' : BlockRun} (h : run.Agrees run') {base : UInt32}
    {index : Nat} {b : Block} {p : PlacedBlock}
    (hp : FlashParams.placeBlock base run.cursor run.placed index b = .ok p) (index' : Nat) :
    FlashParams.placeBlock base run'.cursor run'.placed index' b = .ok (p.withIndex index') := by
  obtain ⟨start, hadm, rfl⟩ := placeBlock_eq_ok_iff.1 hp
  refine placeBlock_eq_ok_iff.2
    ⟨start, ⟨hadm.aligned, h.cursor ▸ hadm.resolved, hadm.inside, fun other hother => ?_⟩, rfl⟩
  have hmem : other.span ∈ run.placed.map (·.span) := h.spans ▸ List.mem_map_of_mem hother
  obtain ⟨q, hq, hspan⟩ := List.mem_map.1 hmem
  exact hspan ▸ hadm.apart q hq

/-- **Without the blocks left over, a run places the others as it did.** The induction is that for
fields, with spans in place of names: a block left over has taken no span and moved no cursor. -/
theorem BlockRun.exists_thinned (base : UInt32) :
    ∀ (blocks : List Block) {run run' : BlockRun} (index index' : Nat), run.Agrees run' →
      ∃ added left final, (run.all base index blocks).placed = run.placed ++ added ∧
        (run.all base index blocks).unplaced = run.unplaced ++ left ∧
        (∀ u ∈ left, index ≤ u.index) ∧
        keepAt (fun i => left.all (·.index ≠ i)) index blocks = added.map (·.block) ∧
        BlockSteps base run' index' (renumber PlacedBlock.withIndex index' added) final
  | [], run, run', _, _, _ =>
    ⟨[], [], run', (List.append_nil _).symm, (List.append_nil _).symm, List.forall_mem_nil _, rfl, .nil⟩
  | b :: rest, run, run', index, index', hagrees => by
    rcases run.step_cases base index b with ⟨p, hp, hstep⟩ | ⟨fault, hstep⟩
    · have hblock := (tried_of_placeBlock hp).2
      obtain ⟨added, left, final, hadded, hleft, hhigh, hkept, hsteps⟩ :=
        exists_thinned base rest (index + 1) (index' + 1) (hagrees.put p index')
      refine ⟨p :: added, left, final, ?_, ?_, fun u hu => Nat.le_of_succ_le (hhigh u hu), ?_, ?_⟩
      · rw [all, hstep]
        exact hadded.trans (List.append_assoc _ _ _)
      · rw [all, hstep]
        exact hleft
      · have hpresent : left.all (·.index ≠ index) = true := by
          refine List.all_eq_true.2 fun u hu => ?_
          have hlow := hhigh u hu
          simp only [ne_eq, decide_eq_true_eq]
          omega
        rw [keepAt_cons_of_pos hpresent, hkept, List.map_cons, hblock]
      · rw [renumber_cons]
        have hagain := hagrees.placeBlock hp index'
        rw [← hblock] at hagain
        exact .cons hagain hsteps
    · have hagrees' :
          BlockRun.Agrees { run with unplaced := run.unplaced ++ [⟨index, b, fault⟩] } run' :=
        ⟨hagrees.cursor, hagrees.spans⟩
      obtain ⟨added, left, final, hadded, hleft, hhigh, hkept, hsteps⟩ :=
        exists_thinned base rest (index + 1) index' hagrees'
      refine ⟨added, ⟨index, b, fault⟩ :: left, final, ?_, ?_, ?_, ?_, hsteps⟩
      · rw [all, hstep]
        exact hadded
      · rw [all, hstep]
        exact hleft.trans (List.append_assoc _ _ _)
      · exact List.forall_mem_cons.2
          ⟨Nat.le_refl _, fun u hu => Nat.le_of_succ_le (hhigh u hu)⟩
      · have hrest :
            keepAt (fun i => (UnplacedBlock.mk index b fault :: left).all (·.index ≠ i)) (index + 1) rest =
              keepAt (fun i => left.all (·.index ≠ i)) (index + 1) rest :=
          keepAt_congr fun i hi => by
            simp [show index ≠ i by omega]
        rw [keepAt_cons_of_neg (by simp), hrest, hkept]

def Container.thinned (c : Container) : Container :=
  { c with blocks := keepAt (fun i => c.place.unplaced.all (·.index ≠ i)) 0 c.blocks }

/-- What is expected when the blocks that are reported are taken out of a container: the others are
placed as they were, and none of them is left over. -/
structure Container.Undisturbed (c : Container) : Prop where
  placed : c.thinned.place.placed = c.place.placed.mapIdx PlacedBlock.withIndex
  unplaced : c.thinned.place.unplaced = []

theorem Container.undisturbed (c : Container) : c.Undisturbed := by
  obtain ⟨added, left, final, hadded, hleft, -, hkept, hsteps⟩ :=
    BlockRun.exists_thinned c.base c.blocks 0 0
      (BlockRun.Agrees.refl { cursor := c.base.toNat })
  have hplaced : c.place.placed = added := hadded
  have hunplaced : c.place.unplaced = left := hleft
  have hblocks : c.thinned.blocks = added.map (·.block) := by
    rw [← hkept, ← hunplaced]
    rfl
  have hfinal : c.thinned.place = final := by
    have hsame : (renumber PlacedBlock.withIndex 0 added).map (·.block) = added.map (·.block) :=
      map_renumber (by intro _ _; rfl) added 0
    rw [← hsteps.all_eq, hsame, ← hblocks]
    rfl
  refine ⟨?_, ?_⟩
  · rw [hfinal, hsteps.placed_eq, hplaced, renumber_zero, List.nil_append]
  · rw [hfinal, hsteps.unplaced_eq]

/-- **Fields and blocks that find no place do not disturb the others.** Whatever is wrong with one of
them, a user who takes it out finds all others where they were. -/
theorem placed_undisturbed :
    (∀ (b : Block) (base : UInt32), b.Undisturbed base) ∧ ∀ c : Container, c.Undisturbed :=
  ⟨Block.undisturbed, Container.undisturbed⟩

end FlashParams
