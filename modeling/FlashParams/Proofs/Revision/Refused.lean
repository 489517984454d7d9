import FlashParams.Proofs.Revision.Naming

/-!
# Overrides that are refused half way

An override gives parameters their new literal while it goes through the declaration, and the first
checksum it finds refuses it on the spot. What one expects of a refused override is that it has changed
nothing (`Declaration.Atomic`).

`Declaration.Refusal` is the place where the scan ends, as what stands in front of it and behind it on
each of the three levels. What the scan leaves is then written down without it: everything in front has
been overridden, everything behind is as it was (`Refusal.leaves`, `Refusal.assign_eq`). So a refused
override has changed nothing exactly when the parameters in front of the checksum that it finds had the
new literal already (`Declaration.assign_atomic_iff`), and the order of blocks and fields decides.
-/

set_option autoImplicit false

namespace FlashParams

/-! ## Scans that stop -/

section

variable {α : Type} {f : α → α × Except Fault Nat}

/-- A scan that stops has changed the items in front and the one it stops at. The one it stops at may be
a block or a container and have been changed in part. -/
theorem assignEach_of_refused {item changed : α} {fault : Fault} {back : List α}
    (hitem : f item = (changed, .error fault)) :
    ∀ {front : List α}, (∀ x ∈ front, ∃ k, (f x).2 = .ok k) →
      assignEach f (front ++ item :: back) =
        (front.map (fun x => (f x).1) ++ changed :: back, .error fault)
  | [], _ => by
    rw [List.nil_append, assignEach, hitem]
    rfl
  | x :: front, h => by
    obtain ⟨⟨k, hk⟩, hfront⟩ := List.forall_mem_cons.1 h
    have hx : f x = ((f x).1, .ok k) := by rw [← hk]
    rw [List.cons_append, assignEach, hx]
    dsimp only
    rw [assignEach_of_refused hitem hfront]
    rfl

theorem exists_refused_of_assignEach {fault : Fault} : ∀ {items : List α},
    (assignEach f items).2 = .error fault → ∃ front item back, items = front ++ item :: back ∧
      (∀ x ∈ front, ∃ k, (f x).2 = .ok k) ∧ (f item).2 = .error fault
  | [], h => by cases h
  | item :: rest, h => by
    cases hitem : f item with
    | mk changed outcome =>
      rw [assignEach, hitem] at h
      cases outcome with
      | error fault' =>
        cases h
        exact ⟨[], item, rest, rfl, List.forall_mem_nil _, by rw [hitem]⟩
      | ok k =>
        have hrest : (assignEach f rest).2 = .error fault := by
          cases hall : (assignEach f rest).2 with
          | error fault' =>
            simp only [hall, Except.map] at h
            exact h
          | ok n =>
            simp only [hall, Except.map] at h
            cases h
        obtain ⟨front, stop, back, rfl, hfront, hstop⟩ := exists_refused_of_assignEach hrest
        exact ⟨item :: front, stop, back, rfl,
          List.forall_mem_cons.2 ⟨⟨k, by rw [hitem]⟩, hfront⟩, hstop⟩

end

/-! ## The place of a refusal -/

variable {target : Option String × String} {name : String} {value : Literal}

theorem Container.tally_assign (c : Container) :
    Tally (Field.FoundBy name) c.members (c.assign (splitTarget name) value).2 :=
  Tally.assignEach fun b _ => b.tally_assign

def NoneRefuses (name : String) (fields : List (Block × Field)) : Prop :=
  ∀ b c, (b, .checksum c) ∈ fields → ¬ (Field.checksum c).FoundBy name b

theorem Tally.noneRefuses {fields : List (Block × Field)} {report : Except Fault Nat} {n : Nat}
    (h : Tally (Field.FoundBy name) fields report) (hreport : report = .ok n) :
    NoneRefuses name fields :=
  (hreport ▸ h).no_checksum

/-- The fields in front of a place, with their blocks: those of the containers in front, of the blocks in
front in its container, and of its block. -/
def fieldsInFront (front : List Container) (before : List Block) (block : Block)
    (passed : List Field) : List (Block × Field) :=
  front.flatMap Container.members ++ before.flatMap Block.members ++ passed.map (block, ·)

/-- The place of the first checksum that an override finds in a declaration. It holds the declaration
taken apart at that place, so that what is changed and what is left can be told by position. -/
structure Declaration.Refusal (d : Declaration) (name : String) where
  front : List Container
  container : Container
  back : List Container
  before : List Block
  block : Block
  after : List Block
  passed : List Field
  checksum : Checksum
  left : List Field
  containers : d.containers = front ++ container :: back
  blocks : container.blocks = before ++ block :: after
  fields : block.fields = passed ++ .checksum checksum :: left
  found : (Field.checksum checksum).FoundBy name block
  first : NoneRefuses name (fieldsInFront front before block passed)

namespace Declaration.Refusal

variable {d : Declaration}

def overridden (r : d.Refusal name) : List (Block × Field) :=
  fieldsInFront r.front r.before r.block r.passed

/-- The declaration with what stands in front of the checksum overridden, and nothing else. -/
def leaves (r : d.Refusal name) (value : Literal) : Declaration :=
  let target := splitTarget name
  let block := { r.block with
    fields := r.passed.map (Field.override target value r.block) ++ .checksum r.checksum :: r.left }
  let container := { r.container with
    blocks := r.before.map (Block.override target value) ++ block :: r.after }
  { d with containers := r.front.map (Container.override target value) ++ container :: r.back }

theorem assign_block (r : d.Refusal name) (value : Literal) :
    r.block.assign (splitTarget name) value =
      ({ r.block with
          fields := r.passed.map (Field.override (splitTarget name) value r.block)
            ++ .checksum r.checksum :: r.left },
        .error (.computedValue r.checksum.name)) := by
  obtain ⟨hb, hname⟩ := Field.foundBy_iff.1 r.found
  have hspeaks : (splitTarget name).1.all (· = r.block.name) = true :=
    (Option.all_eq_true _ _).2 fun block hblock => decide_eq_true (hb block hblock)
  have hstop : (Field.checksum r.checksum).assign (splitTarget name).2 value =
      (.checksum r.checksum, .error (.computedValue r.checksum.name)) :=
    if_pos hname
  have hpassed : ∀ f ∈ r.passed, ∃ k, (f.assign (splitTarget name).2 value).2 = .ok k := by
    intro f hf
    refine ⟨_, (Field.tally_assign hb f).counted fun b c hmem => r.first b c ?_⟩
    refine List.mem_append_right _ ?_
    rw [List.mem_singleton.1 hmem]
    exact List.mem_map_of_mem hf
  rw [Block.assign, if_pos hspeaks, r.fields, assignEach_of_refused hstop hpassed]
  simp only [Field.override_of_assign hb]

theorem assign_container (r : d.Refusal name) (value : Literal) :
    r.container.assign (splitTarget name) value =
      ({ r.container with
          blocks := r.before.map (Block.override (splitTarget name) value) ++
            (r.block.assign (splitTarget name) value).1 :: r.after },
        .error (.computedValue r.checksum.name)) := by
  have hbefore : ∀ b ∈ r.before, ∃ k, (b.assign (splitTarget name) value).2 = .ok k := by
    intro b hb
    refine ⟨_, b.tally_assign.counted fun b' c hmem => r.first b' c ?_⟩
    exact List.mem_append_left _ (List.mem_append_right _ (List.mem_flatMap.2 ⟨b, hb, hmem⟩))
  rw [Container.assign, r.blocks, assignEach_of_refused (r.assign_block value) hbefore,
    map_assigned hbefore fun _ _ => Block.override_of_assign, r.assign_block value]

/-- **A refused override has overridden what stands in front of the checksum.** The three loops are
opened one inside the other at the place of the refusal. -/
theorem assign_eq (r : d.Refusal name) (value : Literal) :
    d.assign name value = (r.leaves value, .error (.computedValue r.checksum.name)) := by
  have hfront : ∀ c ∈ r.front, ∃ k, (c.assign (splitTarget name) value).2 = .ok k := by
    intro c hc
    refine ⟨_, c.tally_assign.counted fun b s hmem => r.first b s ?_⟩
    exact List.mem_append_left _ (List.mem_append_left _ (List.mem_flatMap.2 ⟨c, hc, hmem⟩))
  rw [Declaration.assign_eq, r.containers, assignEach_of_refused (r.assign_container value) hfront,
    map_assigned hfront fun _ _ => Container.override_of_assign, r.assign_block value]
  rfl

end Declaration.Refusal

theorem Field.checksum_of_assign_error {f : Field} {field : String} {fault : Fault}
    (h : (f.assign field value).2 = .error fault) : ∃ c, f = .checksum c ∧ c.name = field := by
  cases f with
  | parameter p =>
    rw [Field.assign] at h
    split at h <;> cases h
  | checksum c =>
    rw [Field.assign] at h
    split at h
    · exact ⟨c, rfl, by assumption⟩
    · cases h

theorem Declaration.nonempty_refusal {d : Declaration} {fault : Fault}
    (h : (d.assign name value).2 = .error fault) : Nonempty (d.Refusal name) := by
  rw [Declaration.assign_eq] at h
  obtain ⟨front, container, back, hcontainers, hfront, hcontainer⟩ := exists_refused_of_assignEach h
  obtain ⟨before, block, after, hblocks, hbefore, hblock⟩ := exists_refused_of_assignEach hcontainer
  rw [Block.assign] at hblock
  split at hblock
  · rename_i hspeaks
    have hb : ∀ front ∈ (splitTarget name).1, front = block.name := fun front hname =>
      of_decide_eq_true ((Option.all_eq_true _ _).1 hspeaks front hname)
    obtain ⟨passed, f, left, hfields, hpassed, hf⟩ := exists_refused_of_assignEach hblock
    obtain ⟨checksum, rfl, hname⟩ := Field.checksum_of_assign_error hf
    refine ⟨front, container, back, before, block, after, passed, checksum, left, hcontainers, hblocks,
      hfields, Field.foundBy_iff.2 ⟨hb, hname⟩, fun b c hmem => ?_⟩
    -- whatever was gone through in front reported no checksum of its own
    rcases List.mem_append.1 hmem with hmem | hmem
    · rcases List.mem_append.1 hmem with hmem | hmem
      · obtain ⟨other, hother, hmem⟩ := List.mem_flatMap.1 hmem
        obtain ⟨k, hk⟩ := hfront other hother
        exact other.tally_assign.noneRefuses hk b c hmem
      · obtain ⟨other, hother, hmem⟩ := List.mem_flatMap.1 hmem
        obtain ⟨k, hk⟩ := hbefore other hother
        exact other.tally_assign.noneRefuses hk b c hmem
    · obtain ⟨g, hg, hpair⟩ := List.mem_map.1 hmem
      obtain ⟨k, hk⟩ := hpassed g hg
      cases hpair
      exact (Field.tally_assign hb _).noneRefuses hk block c (List.mem_singleton_self _)
  · cases hblock

/-! ## When nothing has changed -/

/-- An override would leave a field as it is. Checksums are never changed, so the condition is about
parameters alone. -/
def Field.Keeps (target : Option String × String) (value : Literal) (m : Block × Field) : Prop :=
  ∀ p, m.2 = .parameter p → p.Named target m.1 → p.value = value

theorem map_eq_self_iff {α : Type} {f : α → α} {items : List α} :
    items.map f = items ↔ ∀ x ∈ items, f x = x := by
  simpa using List.map_inj_left (f := f) (g := id) (l := items)

theorem Field.override_eq_self_iff {b : Block} {f : Field} :
    f.override target value b = f ↔ Field.Keeps target value (b, f) := by
  cases f with
  | checksum c =>
    constructor
    · intro _ p hp
      cases hp
    · intro _
      rfl
  | parameter p =>
    rw [Field.override, Field.parameter.injEq]
    constructor
    · intro h q hq hnamed
      cases hq
      rw [Parameter.override_of_named hnamed] at h
      exact (congrArg Parameter.value h).symm
    · intro h
      by_cases hnamed : p.Named target b
      · rw [Parameter.override_of_named hnamed, ← h p rfl hnamed]
      · exact Parameter.override_of_not_named hnamed

theorem Block.override_eq_self_iff {b : Block} :
    b.override target value = b ↔ ∀ m ∈ b.members, Field.Keeps target value m := by
  have hfields : b.override target value = b ↔
      b.fields.map (Field.override target value b) = b.fields := by
    constructor
    · exact fun h => congrArg Block.fields h
    · intro h
      rw [Block.override, h]
  rw [hfields, map_eq_self_iff, Block.members, List.forall_mem_map]
  simp only [Field.override_eq_self_iff]

theorem Container.override_eq_self_iff {c : Container} :
    c.override target value = c ↔ ∀ m ∈ c.members, Field.Keeps target value m := by
  have hblocks : c.override target value = c ↔
      c.blocks.map (Block.override target value) = c.blocks := by
    constructor
    · exact fun h => congrArg Container.blocks h
    · intro h
      rw [Container.override, h]
  rw [hblocks, map_eq_self_iff, Container.members, List.forall_mem_flatMap]
  simp only [Block.override_eq_self_iff]

theorem Declaration.Refusal.leaves_eq_self_iff {d : Declaration} (r : d.Refusal name) :
    r.leaves value = d ↔ ∀ m ∈ r.overridden, Field.Keeps (splitTarget name) value m := by
  have hparts : (∀ m ∈ r.overridden, Field.Keeps (splitTarget name) value m) ↔
      r.front.map (Container.override (splitTarget name) value) = r.front ∧
        r.before.map (Block.override (splitTarget name) value) = r.before ∧
        r.passed.map (Field.override (splitTarget name) value r.block) = r.passed := by
    simp only [Declaration.Refusal.overridden, fieldsInFront, List.forall_mem_append, List.forall_mem_flatMap,
      List.forall_mem_map, map_eq_self_iff, Container.override_eq_self_iff, Block.override_eq_self_iff,
      Field.override_eq_self_iff, and_assoc]
  rw [hparts]
  constructor
  · intro h
    -- level by level, what is in front of the place has the length it had
    have hcontainers := congrArg Declaration.containers h
    rw [r.containers] at hcontainers
    obtain ⟨hfront, hback⟩ := List.append_inj hcontainers (List.length_map _)
    have hblocks := congrArg Container.blocks (List.cons.inj hback).1
    rw [r.blocks] at hblocks
    obtain ⟨hbefore, hafter⟩ := List.append_inj hblocks (List.length_map _)
    have hfields := congrArg Block.fields (List.cons.inj hafter).1
    rw [r.fields] at hfields
    exact ⟨hfront, hbefore, (List.append_inj hfields (List.length_map _)).1⟩
  · rintro ⟨hfront, hbefore, hpassed⟩
    simp only [Declaration.Refusal.leaves, hfront, hbefore, hpassed, ← r.fields, ← r.blocks,
      ← r.containers]

def Declaration.Atomic (d : Declaration) (name : String) (value : Literal) : Prop :=
  ∀ fault, (d.assign name value).2 = .error fault → (d.assign name value).1 = d

/-- **An override is refused by the first checksum it finds, with everything in front of that overridden.**
It has changed nothing exactly when the parameters in front that it finds had the literal already. -/
theorem Declaration.assign_atomic_iff (d : Declaration) (name : String) (value : Literal) :
    ((∃ fault, (d.assign name value).2 = .error fault) ↔ Nonempty (d.Refusal name)) ∧
      (∀ r : d.Refusal name,
        d.assign name value = (r.leaves value, .error (.computedValue r.checksum.name))) ∧
      (d.Atomic name value ↔ ∀ r : d.Refusal name, ∀ b p, (b, .parameter p) ∈ r.overridden →
        (Field.parameter p).FoundBy name b → p.value = value) := by
  refine ⟨⟨fun ⟨_, h⟩ => Declaration.nonempty_refusal h, fun ⟨r⟩ => ?_⟩,
    fun r => r.assign_eq value, ?_, ?_⟩
  · exact ⟨.computedValue r.checksum.name, by rw [r.assign_eq value]⟩
  · intro h r b p hmem hfound
    have hsame := h (.computedValue r.checksum.name) (by rw [r.assign_eq value])
    rw [r.assign_eq value] at hsame
    exact r.leaves_eq_self_iff.1 hsame (b, .parameter p) hmem p rfl (Field.foundBy_iff.1 hfound)
  · intro h fault hfault
    obtain ⟨r⟩ := Declaration.nonempty_refusal hfault
    rw [r.assign_eq value]
    refine r.leaves_eq_self_iff.2 fun m hm p hp hnamed => ?_
    obtain ⟨b, f⟩ := m
    cases hp
    exact h r b p hm (Field.foundBy_iff.2 hnamed)

def Declaration.literals (d : Declaration) : List Literal :=
  d.members.filterMap fun m =>
    match m.2 with
    | .parameter p => some p.value
    | .checksum _ => none

namespace Specimen

def namesakes : Declaration :=
  { name := "namesakes"
    containers := [{
      name := "c"
      base := 0
      blocks := [
        { name := "a"
          length := 4
          fields := [.parameter ⟨"p", .next, .scalar .u8, 1, .int 1, none, none⟩] },
        { name := "b"
          length := 8
          fields := [.parameter ⟨"x", .next, .scalar .u32, 1, .int 5, none, none⟩,
            .checksum ⟨"p", .next, .u32, 1, {}, {}, none⟩] }] }] }

/-- The parameter comes first and has its new literal by the time the checksum is found; the override is
refused, and the declaration is not the one it was. -/
theorem namesakes_not_atomic : ¬ namesakes.Atomic "p" (.int 2) := by
  intro h
  have hsame := h (.computedValue "p") rfl
  have hliterals : [Literal.int 2, .int 5] = [.int 1, .int 5] := congrArg Declaration.literals hsame
  cases hliterals

end Specimen

end FlashParams
