import FlashParams.Declaration.Assign
import FlashParams.Proofs.Revision.Compile

/-!
# Overridden literals

An override goes through the declaration field by field and may stop on the way. If it does not, what it
leaves can be said without it: `Declaration.override` has the new literal in place of that of every
parameter the name speaks of, and everything else as it was (`Declaration.override_of_assign`).

Such a declaration is a revision with literals that were not kept, provided the new one is stored as the
old ones were and has bytes. Both are needed of exactly the parameters that change, and whether the
second holds is all that compiling can still fail on (`Declaration.compiles_override_iff`).
-/

set_option autoImplicit false

namespace FlashParams

/-! ## What an override changes -/

/-- A name that has been split speaks of a parameter of a block. Without a first part it speaks of the
parameters of that name in all blocks. -/
def Parameter.Named (target : Option String × String) (b : Block) (p : Parameter) : Prop :=
  (∀ block ∈ target.1, block = b.name) ∧ p.name = target.2

instance (target : Option String × String) (b : Block) (p : Parameter) :
    Decidable (p.Named target b) :=
  inferInstanceAs (Decidable (_ ∧ _))

def Parameter.override (target : Option String × String) (value : Literal) (b : Block)
    (p : Parameter) : Parameter :=
  if p.Named target b then { p with value } else p

def Field.override (target : Option String × String) (value : Literal) (b : Block) : Field → Field
  | .parameter p => .parameter (p.override target value b)
  | .checksum c => .checksum c

def Block.override (target : Option String × String) (value : Literal) (b : Block) : Block :=
  { b with fields := b.fields.map (Field.override target value b) }

def Container.override (target : Option String × String) (value : Literal) (c : Container) :
    Container :=
  { c with blocks := c.blocks.map (Block.override target value) }

/-- A declaration with the new literal for every parameter the name speaks of. In contrast to `assign` it
cannot be refused and has no order, which makes it the one to compile and compare. -/
def Declaration.override (name : String) (value : Literal) (d : Declaration) : Declaration :=
  { d with containers := d.containers.map (Container.override (splitTarget name) value) }

structure Declaration.Changes (d : Declaration) (name : String) (c : Container) (b : Block)
    (p : Parameter) : Prop where
  container : c ∈ d.containers
  block : b ∈ c.blocks
  field : .parameter p ∈ b.fields
  named : p.Named (splitTarget name) b

/-- A literal has bytes in place of that of a parameter: with the declared type of the parameter, and in
its byte order or that of its block. -/
def Parameter.Accepts (b : Block) (p : Parameter) (value : Literal) : Prop :=
  ∃ type bytes, p.type.stored value = .ok type ∧
    type.encode (p.byteOrder.getD b.byteOrder) value = .ok bytes

variable {target : Option String × String} {value : Literal}

theorem Parameter.override_of_named {b : Block} {p : Parameter} (h : p.Named target b) :
    p.override target value b = { p with value } :=
  if_pos h

theorem Parameter.override_of_not_named {b : Block} {p : Parameter} (h : ¬ p.Named target b) :
    p.override target value b = p :=
  if_neg h

/-! ## A scan that does not stop -/

theorem assignEach_eq_map {α : Type} {f : α → α × Except Fault Nat} : ∀ {items : List α} {n : Nat},
    (assignEach f items).2 = .ok n →
      (assignEach f items).1 = items.map (fun item => (f item).1) ∧
        ∀ item ∈ items, ∃ k, (f item).2 = .ok k
  | [], _, _ => ⟨rfl, List.forall_mem_nil _⟩
  | item :: rest, n, h => by
    cases hitem : f item with
    | mk changed outcome =>
      cases outcome with
      | error fault =>
        rw [assignEach, hitem] at h
        cases h
      | ok k =>
        cases hrest : (assignEach f rest).2 with
        | error fault =>
          simp only [assignEach, hitem, hrest] at h
          cases h
        | ok m =>
          obtain ⟨hall, hok⟩ := assignEach_eq_map hrest
          simp only [assignEach, hitem, hall, List.map_cons, true_and]
          exact List.forall_mem_cons.2 ⟨⟨k, by rw [hitem]⟩, hok⟩

theorem map_assigned {α : Type} {f : α → α × Except Fault Nat} {g : α → α} {items : List α}
    (hall : ∀ item ∈ items, ∃ k, (f item).2 = .ok k)
    (hg : ∀ item k, (f item).2 = .ok k → (f item).1 = g item) :
    items.map (fun item => (f item).1) = items.map g := by
  refine List.map_congr_left fun item hitem => ?_
  obtain ⟨k, hk⟩ := hall item hitem
  exact hg item k hk

theorem Field.override_of_assign {b : Block} (hb : ∀ block ∈ target.1, block = b.name) (f : Field) :
    (f.assign target.2 value).1 = f.override target value b := by
  cases f with
  | parameter p =>
    rw [Field.assign, Field.override]
    by_cases hname : p.name = target.2
    · rw [if_pos hname, Parameter.override_of_named ⟨hb, hname⟩]
    · rw [if_neg hname, Parameter.override_of_not_named fun h => hname h.2]
  | checksum c =>
    rw [Field.assign, Field.override]
    split <;> rfl

theorem Block.override_of_assign {b : Block} {n : Nat} (h : (b.assign target value).2 = .ok n) :
    (b.assign target value).1 = b.override target value := by
  unfold Block.assign at h ⊢
  split
  · rename_i hspeaks
    rw [if_pos hspeaks] at h
    have hb : ∀ block ∈ target.1, block = b.name := fun block hblock =>
      of_decide_eq_true ((Option.all_eq_true _ _).1 hspeaks block hblock)
    have hfields := (assignEach_eq_map h).1
    dsimp only
    rw [hfields, Block.override]
    simp only [Field.override_of_assign hb]
  · rename_i hsilent
    -- no parameter of the block is spoken of
    have hkeep : b.fields.map (Field.override target value b) = b.fields := by
      refine List.map_id'' (fun f => ?_) b.fields
      cases f with
      | checksum c => rfl
      | parameter p =>
        refine congrArg Field.parameter (Parameter.override_of_not_named fun h => hsilent ?_)
        exact (Option.all_eq_true _ _).2 fun block hblock => decide_eq_true (h.1 block hblock)
    dsimp only
    rw [Block.override, hkeep]

/-- Gives the fields of a container a new literal. It names the inner loop of `assign`, so that all
levels of the scan have one form. -/
def Container.assign (target : Option String × String) (value : Literal) (c : Container) :
    Container × Except Fault Nat :=
  ({ c with blocks := (assignEach (Block.assign target value) c.blocks).1 },
    (assignEach (Block.assign target value) c.blocks).2)

theorem Declaration.assign_eq (d : Declaration) (name : String) (value : Literal) :
    d.assign name value =
      ({ d with containers := (assignEach (Container.assign (splitTarget name) value) d.containers).1 },
        (assignEach (Container.assign (splitTarget name) value) d.containers).2) :=
  rfl

theorem Container.override_of_assign {c : Container} {n : Nat}
    (h : (c.assign target value).2 = .ok n) : (c.assign target value).1 = c.override target value := by
  obtain ⟨hblocks, hall⟩ := assignEach_eq_map (f := Block.assign target value) h
  rw [Container.assign, hblocks, map_assigned hall fun _ _ => Block.override_of_assign,
    Container.override]

/-- **An override that is carried out gives every parameter it speaks of the new literal and changes
nothing else.** -/
theorem Declaration.override_of_assign {d : Declaration} {name : String} {n : Nat}
    (h : (d.assign name value).2 = .ok n) : (d.assign name value).1 = d.override name value := by
  rw [Declaration.assign_eq] at h ⊢
  obtain ⟨hcontainers, hall⟩ := assignEach_eq_map h
  dsimp only
  rw [hcontainers, map_assigned hall fun _ _ => Container.override_of_assign, Declaration.override]

/-! ## An override is a revision -/

def Occupant.override (target : Option String × String) (value : Literal) (b : Block) :
    Occupant → Occupant
  | .parameter p type => .parameter (p.override target value b) type
  | .checksum c => .checksum c

theorem Occupant.field_override (b : Block) (o : Occupant) :
    (o.override target value b).field = o.field.override target value b := by
  cases o <;> rfl

/-- A placed field with a literal that is stored alike and has bytes is a revision of the field. Stored
alike means of the same size, and so everything behind it stays where it is. -/
theorem Occupant.revises_override {b : Block} {base address : UInt32} {o : Occupant}
    (ho : o.field.occupant = .ok o)
    (hvalue : ∀ p, o.field = .parameter p → p.Named target b →
      p.type.stored value = p.type.stored p.value ∧ p.Accepts b value) :
    Occupant.Revises False b.byteOrder base address o (o.override target value b) := by
  cases o with
  | checksum c => exact .checksum (.inl rfl) (.inl rfl)
  | parameter q type =>
    have hstored := Field.stored_of_occupant ho
    by_cases hnamed : q.Named target b
    · obtain ⟨hsame, type', bytes, haccepts, hbytes⟩ := hvalue q rfl hnamed
      have htype := hsame.trans hstored
      -- the type the literal is accepted with is the one the field has
      cases haccepts.symm.trans htype
      rw [Occupant.override, Parameter.override_of_named hnamed]
      exact .parameter (.inl rfl) htype False.elim fun _ => ⟨bytes, hbytes⟩
    · rw [Occupant.override, Parameter.override_of_not_named hnamed]
      exact .refl ho

theorem Block.revises_override {b : Block} {address : UInt32}
    (hstop : address.toNat + b.length.toNat ≤ 0x100000000) (hplace : (b.place address).faults = [])
    (hvalue : ∀ p, .parameter p ∈ b.fields → p.Named target b →
      p.type.stored value = p.type.stored p.value ∧ p.Accepts b value) :
    b.Revises False address (b.override target value) := by
  have hfields := Block.fields_of_no_fault hplace
  refine ⟨rfl, rfl, rfl, rfl, rfl, rfl, rfl,
    (b.place address).placed.map (·.occupant.override target value b), ?_, ?_⟩
  · show b.fields.map (Field.override target value b) = _
    rw [List.map_map, ← hfields, List.map_map]
    exact List.map_congr_left fun place _ => (Occupant.field_override b place.occupant).symm
  · rw [List.forall₂_map_right_iff]
    refine List.forall₂_same.2 fun place hmem => ?_
    refine Occupant.revises_override ((b.sound_place address hstop).typed place hmem) ?_
    intro p hp
    refine hvalue p ?_
    rw [← hp, ← hfields]
    exact List.mem_map_of_mem hmem

variable {d : Declaration} {l : Layout} {name : String}

theorem Declaration.revises_override (h : d.compile = .ok l)
    (htypes : ∀ c b p, d.Changes name c b p → p.type.stored value = p.type.stored p.value)
    (haccepts : ∀ c b p, d.Changes name c b p → p.Accepts b value) :
    d.Revises False 0 (d.override name value) := by
  refine Declaration.revises_map h (g := fun _ => Block.override (splitTarget name) value)
    (fun _ => rfl) (fun c _ => (Int.add_zero _).symm) (fun _ => rfl) fun p hp => ?_
  have hsound := Declaration.sound_of_part h hp
  have hstop := hsound.stop
  obtain ⟨hc, hb⟩ := Declaration.block_of_part h hp
  refine ⟨Block.revises_override hstop hsound.placed fun q hq hnamed => ?_, .inl rfl, by omega,
    .inr ⟨rfl, rfl⟩⟩
  have hchanges : d.Changes name p.container p.place.block q := ⟨hc, hb, hq, hnamed⟩
  exact ⟨htypes _ _ q hchanges, haccepts _ _ q hchanges⟩

/-! ## Blocks of the overridden declaration -/

theorem Declaration.mem_override {c : Container} (hc : c ∈ d.containers) :
    c.override (splitTarget name) value ∈ (d.override name value).containers :=
  List.mem_map_of_mem hc

theorem Container.mem_override {c : Container} {b : Block} (hb : b ∈ c.blocks) :
    b.override target value ∈ (c.override target value).blocks :=
  List.mem_map_of_mem hb

theorem Block.mem_override {b : Block} {f : Field} (hf : f ∈ b.fields) :
    f.override target value b ∈ (b.override target value).fields :=
  List.mem_map_of_mem hf

theorem Parameter.accepts_of_compile (h : d.compile = .ok l) {c : Container}
    (hc : c ∈ d.containers) {b : Block} (hb : b ∈ c.blocks) {p : Parameter}
    (hp : .parameter p ∈ b.fields) : p.Accepts b p.value := by
  obtain ⟨part, hpart, rfl, rfl⟩ := Declaration.part_of_mem h hc hb
  obtain ⟨q, -, -, type, -, hstored, hbytes, -⟩ :=
    (d.consists_of_compile h).1.exists_patch hpart (Block.mem_elements_of_field hp)
  exact ⟨type, q.bytes, hstored, hbytes⟩

/-- **An override of a literal by one that is stored alike compiles exactly if the new literal has bytes
wherever it is put.** Placement does not look at literals otherwise, so nothing else can go wrong or be
mended. -/
theorem Declaration.compiles_override_iff (h : d.compile = .ok l)
    (htypes : ∀ c b p, d.Changes name c b p → p.type.stored value = p.type.stored p.value) :
    (∃ l', (d.override name value).compile = .ok l') ↔
      ∀ c b p, d.Changes name c b p → p.Accepts b value := by
  constructor
  · rintro ⟨l', hl'⟩ c b p hchanges
    have hfield : (Field.parameter p).override (splitTarget name) value b ∈
        (b.override (splitTarget name) value).fields := Block.mem_override hchanges.field
    rw [Field.override, Parameter.override_of_named hchanges.named] at hfield
    exact Parameter.accepts_of_compile hl' (Declaration.mem_override hchanges.container)
      (Container.mem_override hchanges.block) hfield
  · intro haccepts
    obtain ⟨l', hl', -⟩ :=
      (Declaration.revises_override h htypes haccepts).compile (Int.dvd_zero _) h
    exact ⟨l', hl'⟩

theorem Declaration.outline_override (h : d.compile = .ok l)
    (htypes : ∀ c b p, d.Changes name c b p → p.type.stored value = p.type.stored p.value)
    {l' : Layout} (hl' : (d.override name value).compile = .ok l') :
    l'.blocks = l.blocks ∧ l'.symbols = l.symbols := by
  have haccepts := (Declaration.compiles_override_iff h htypes).1 ⟨l', hl'⟩
  obtain ⟨found, hfound, houtline, -⟩ :=
    (Declaration.revises_override h htypes haccepts).compile (Int.dvd_zero _) h
  cases hl'.symm.trans hfound
  exact ⟨eq_of_forall₂ houtline.blocks fun _ _ hb => hb.eq,
    SymbolTable.ext_entries (eq_of_forall₂ houtline.symbols fun _ _ hs => hs.eq)⟩

end FlashParams
