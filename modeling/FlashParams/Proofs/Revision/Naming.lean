import Mathlib.Data.List.Count
import FlashParams.Proofs.Revision.Override
import FlashParams.Proofs.Text.Split

/-!
# Whom an override names

An override is given a name in writing, `field` or `block.field`. Read as written, the name calls every
field whose own name it is and every field whose block's name and own name, with a point between, it is
(`Field.CalledBy`).

The scan cuts the name at its first point before it compares anything. A name with a point in it is then
never that of a field alone, and what stands in front of the point is never the name of a block that has
one itself: `Field.FoundBy` is what is left. `Declaration.assign_exact_iff` says that an override obeys
the second naming always, and the first exactly when it makes no difference, that is when the override is
refused anyway or finds all it calls.

To obey a naming is to report a checksum among the fields named, or else their number (`Tally`), and then
to have given each of them the new literal and have changed nothing else. The report is put together the
same way for the fields of a block, the blocks of a container and the containers, so one lemma about a
scan does for all three (`Tally.assignEach`).
-/

set_option autoImplicit false

namespace FlashParams

/-! ## Namings -/

/-- A name that is a field's own, or that of its block and its own with a point between. This is how a
user writes a name, with no notion of what happens if there are points in it already. -/
def Field.CalledBy (name : String) (b : Block) (f : Field) : Prop :=
  name = f.name ∨ name = b.name ++ "." ++ f.name

/-- The same where the part in front of the first point is the whole name of the field or the block. It
is what the code finds, since it cuts a name at its first point before it looks for anything. -/
def Field.FoundBy (name : String) (b : Block) (f : Field) : Prop :=
  (name = f.name ∧ '.' ∉ f.name.toList) ∨
    (name = b.name ++ "." ++ f.name ∧ '.' ∉ b.name.toList)

instance (name : String) (b : Block) : DecidablePred (Field.CalledBy name b) :=
  fun _ => inferInstanceAs (Decidable (_ ∨ _))

instance (name : String) (b : Block) : DecidablePred (Field.FoundBy name b) :=
  fun _ => inferInstanceAs (Decidable ((_ ∧ _) ∨ (_ ∧ _)))

def Block.members (b : Block) : List (Block × Field) :=
  b.fields.map (b, ·)

def Container.members (c : Container) : List (Block × Field) :=
  c.blocks.flatMap Block.members

/-- All fields of a declaration with their blocks, in the order of the declaration. Reports go by this
order, as the code scans the declaration in it. -/
def Declaration.members (d : Declaration) : List (Block × Field) :=
  d.containers.flatMap Container.members

theorem Declaration.mem_members {d : Declaration} {c : Container} {b : Block} {f : Field}
    (hc : c ∈ d.containers) (hb : b ∈ c.blocks) (hf : f ∈ b.fields) : (b, f) ∈ d.members :=
  List.mem_flatMap.2 ⟨c, hc, List.mem_flatMap.2 ⟨b, hb, List.mem_map_of_mem hf⟩⟩

def Declaration.mapFields (g : Block → Field → Field) (d : Declaration) : Declaration :=
  { d with containers := d.containers.map fun c =>
      { c with blocks := c.blocks.map fun b => { b with fields := b.fields.map (g b) } } }

theorem Declaration.mapFields_congr {d : Declaration} {g g' : Block → Field → Field}
    (h : ∀ m ∈ d.members, g m.1 m.2 = g' m.1 m.2) : d.mapFields g = d.mapFields g' := by
  unfold Declaration.mapFields
  congr 1
  refine List.map_congr_left fun c hc => ?_
  congr 1
  refine List.map_congr_left fun b hb => ?_
  congr 1
  exact List.map_congr_left fun f hf => h _ (Declaration.mem_members hc hb hf)

section

variable (names : Block → Field → Prop) [∀ b, DecidablePred (names b)]

def Field.withLiteral (value : Literal) (b : Block) : Field → Field
  | .parameter p => .parameter (if names b (.parameter p) then { p with value } else p)
  | .checksum c => .checksum c

/-- A declaration with a new literal in every parameter that is named. It is the intended result of an
override, whatever naming it is that decides what is named. -/
def Declaration.withLiteral (value : Literal) (d : Declaration) : Declaration :=
  d.mapFields (Field.withLiteral names value)

/-- What is reported of fields: a checksum among those named, or the number of those named. Which of
several checksums is reported is left open, and a field that is not named has no influence on it. -/
structure Tally (fields : List (Block × Field)) (report : Except Fault Nat) : Prop where
  refused : ∀ b c, (b, .checksum c) ∈ fields → names b (.checksum c) →
    ∃ b' c', (b', .checksum c') ∈ fields ∧ names b' (.checksum c') ∧
      report = .error (.computedValue c'.name)
  counted : (∀ b c, (b, .checksum c) ∈ fields → ¬ names b (.checksum c)) →
    report = .ok (fields.countP fun m => names m.1 m.2)

/-- An override that goes by a naming: it reports what it should, and if it is not refused, the
parameters named have the new literal and nothing else has changed. The naming is a parameter, so that
the one documented and the one in the code can both be asked for. -/
structure Declaration.Obeys (d : Declaration) (value : Literal)
    (result : Declaration × Except Fault Nat) : Prop where
  report : Tally names d.members result.2
  changes : ∀ n, result.2 = .ok n → result.1 = d.withLiteral names value

end

/-! ## Cutting the name -/

theorem toList_qualified (block field : String) :
    (block ++ "." ++ field).toList = block.toList ++ '.' :: field.toList := by
  simp

theorem Field.foundBy_iff {name : String} {b : Block} {f : Field} :
    f.FoundBy name b ↔
      (∀ block ∈ (splitTarget name).1, block = b.name) ∧ f.name = (splitTarget name).2 := by
  unfold Field.FoundBy splitTarget
  cases hsplit : Text.splitOnce '.' name.toList with
  | none =>
    have hpoint := Text.splitOnce_eq_none_iff.1 hsplit
    constructor
    · rintro (⟨hname, -⟩ | ⟨hname, -⟩)
      · exact ⟨nofun, hname.symm⟩
      · rw [hname, toList_qualified] at hpoint
        exact absurd (List.mem_append_right _ List.mem_cons_self) hpoint
    · rintro ⟨-, hname⟩
      left
      have hfield : f.name = name := hname
      exact ⟨hfield.symm, hfield ▸ hpoint⟩
  | some parts =>
    obtain ⟨front, back⟩ := parts
    obtain ⟨hname, hfront⟩ := Text.splitOnce_eq_some_iff.1 hsplit
    constructor
    · rintro (⟨hfield, hpoint⟩ | ⟨hqualified, hpoint⟩)
      · rw [← hfield, hname] at hpoint
        exact absurd (List.mem_append_right _ List.mem_cons_self) hpoint
      · have hsame : Text.splitOnce '.' name.toList = some (b.name.toList, f.name.toList) := by
          rw [Text.splitOnce_eq_some_iff, hqualified, toList_qualified]
          exact ⟨rfl, hpoint⟩
        cases hsplit.symm.trans hsame
        simp
    · rintro ⟨hblock, hfield⟩
      right
      have hb : String.ofList front = b.name := hblock _ rfl
      have hf : f.name = String.ofList back := hfield
      rw [← hb, hf]
      refine ⟨String.toList_inj.1 ?_, by simpa using hfront⟩
      rw [toList_qualified, hname, String.toList_ofList, String.toList_ofList]

theorem Field.FoundBy.calledBy {name : String} {b : Block} {f : Field} (h : f.FoundBy name b) :
    f.CalledBy name b := by
  rcases h with ⟨hname, -⟩ | ⟨hname, -⟩
  · exact .inl hname
  · exact .inr hname

/-! ## The report of a scan -/

section

variable {names : Block → Field → Prop} [∀ b, DecidablePred (names b)]

theorem Tally.of_not_named {fields : List (Block × Field)} (h : ∀ m ∈ fields, ¬ names m.1 m.2) :
    Tally names fields (.ok 0) := by
  refine ⟨fun b c hmem hnamed => absurd hnamed (h _ hmem), fun _ => ?_⟩
  rw [List.countP_eq_zero.2 fun m hm => by simpa using h m hm]

theorem Tally.no_checksum {fields : List (Block × Field)} {n : Nat}
    (h : Tally names fields (.ok n)) :
    ∀ b c, (b, .checksum c) ∈ fields → ¬ names b (.checksum c) := by
  intro b c hmem hnamed
  obtain ⟨_, _, _, _, hreport⟩ := h.refused b c hmem hnamed
  cases hreport

theorem Tally.exists_checksum {fields : List (Block × Field)} {fault : Fault}
    (h : Tally names fields (.error fault)) :
    ∃ b c, (b, .checksum c) ∈ fields ∧ names b (.checksum c) ∧
      fault = .computedValue c.name := by
  by_contra hno
  have hnone : ∀ b c, (b, .checksum c) ∈ fields → ¬ names b (.checksum c) := by
    intro b c hmem hnamed
    obtain ⟨b', c', hmem', hnamed', hreport⟩ := h.refused b c hmem hnamed
    cases hreport
    exact hno ⟨b', c', hmem', hnamed', rfl⟩
  cases h.counted hnone

/-- **A scan reports of all fields if it reports of those of each item.** Fields, blocks and containers
are scanned by the same loop, so this is the induction for all three levels. -/
theorem Tally.assignEach {α : Type} {f : α → α × Except Fault Nat}
    {members : α → List (Block × Field)} :
    ∀ {items : List α}, (∀ item ∈ items, Tally names (members item) (f item).2) →
      Tally names (items.flatMap members) (assignEach f items).2
  | [], _ => .of_not_named (List.forall_mem_nil _)
  | item :: rest, h => by
    obtain ⟨hitem, hrest⟩ := List.forall_mem_cons.1 h
    have ih := Tally.assignEach hrest
    rw [List.flatMap_cons, FlashParams.assignEach]
    generalize f item = step at hitem ⊢
    obtain ⟨changed, report⟩ := step
    cases report with
    | error fault =>
      -- the scan stops here: one of the fields of this item is a checksum and named
      obtain ⟨b, c, hmem, hnamed, rfl⟩ := hitem.exists_checksum
      have hall := List.mem_append_left (rest.flatMap members) hmem
      exact ⟨fun _ _ _ _ => ⟨b, c, hall, hnamed, rfl⟩, fun hnone => absurd hnamed (hnone b c hall)⟩
    | ok n =>
      have hfirst := hitem.no_checksum
      have hn := hitem.counted hfirst
      constructor
      · intro b c hmem hnamed
        rcases List.mem_append.1 hmem with hmem | hmem
        · exact absurd hnamed (hfirst b c hmem)
        · obtain ⟨b', c', hmem', hnamed', hreport⟩ := ih.refused b c hmem hnamed
          refine ⟨b', c', List.mem_append_right _ hmem', hnamed', ?_⟩
          simp [hreport, Except.map]
      · intro hnone
        have hcount := ih.counted fun b c hmem => hnone b c (List.mem_append_right _ hmem)
        cases hn
        simp [hcount, Except.map, List.countP_append]

end

/-! ## What an override reports and does -/

variable {name : String} {value : Literal}

theorem Field.tally_assign {b : Block} (hb : ∀ block ∈ (splitTarget name).1, block = b.name)
    (f : Field) :
    Tally (Field.FoundBy name) [(b, f)] (f.assign (splitTarget name).2 value).2 := by
  have hfound : f.FoundBy name b ↔ f.name = (splitTarget name).2 :=
    Field.foundBy_iff.trans (and_iff_right hb)
  cases f with
  | parameter p =>
    by_cases hname : p.name = (splitTarget name).2
    · have hnamed := hfound.2 hname
      rw [Field.assign, if_pos hname]
      refine ⟨fun b c hmem => ?_, fun _ => by simp [hnamed]⟩
      simp at hmem
    · rw [Field.assign, if_neg hname]
      exact .of_not_named (List.forall_mem_singleton.2 fun hnamed => hname (hfound.1 hnamed))
  | checksum c =>
    by_cases hname : c.name = (splitTarget name).2
    · have hnamed := hfound.2 hname
      have hmem : (b, Field.checksum c) ∈ [(b, Field.checksum c)] := List.mem_singleton_self _
      rw [Field.assign, if_pos hname]
      exact ⟨fun _ _ _ _ => ⟨b, c, hmem, hnamed, rfl⟩,
        fun hnone => absurd hnamed (hnone b c hmem)⟩
    · rw [Field.assign, if_neg hname]
      exact .of_not_named (List.forall_mem_singleton.2 fun hnamed => hname (hfound.1 hnamed))

theorem Block.tally_assign (b : Block) :
    Tally (Field.FoundBy name) b.members (b.assign (splitTarget name) value).2 := by
  unfold Block.assign
  split
  · rename_i hspeaks
    have hb : ∀ block ∈ (splitTarget name).1, block = b.name := fun block hblock =>
      of_decide_eq_true ((Option.all_eq_true _ _).1 hspeaks block hblock)
    have hmembers : b.members = b.fields.flatMap fun f => [(b, f)] := List.map_eq_flatMap
    rw [hmembers]
    exact Tally.assignEach fun f _ => Field.tally_assign hb f
  · rename_i hsilent
    refine .of_not_named fun m hm hnamed => hsilent ?_
    obtain ⟨f, -, rfl⟩ := List.mem_map.1 hm
    have hb := (Field.foundBy_iff.1 hnamed).1
    exact (Option.all_eq_true _ _).2 fun block hblock => decide_eq_true (hb block hblock)

theorem Declaration.tally_assign (d : Declaration) :
    Tally (Field.FoundBy name) d.members (d.assign name value).2 :=
  Tally.assignEach fun _ _ => Tally.assignEach fun b _ => b.tally_assign

theorem Declaration.override_eq_withLiteral (d : Declaration) :
    d.override name value = d.withLiteral (Field.FoundBy name) value := by
  show d.mapFields (Field.override (splitTarget name) value) = _
  refine Declaration.mapFields_congr fun m _ => ?_
  obtain ⟨b, f⟩ := m
  cases f with
  | checksum c => rfl
  | parameter p =>
    have hnamed : p.Named (splitTarget name) b ↔ (Field.parameter p).FoundBy name b :=
      (Field.foundBy_iff (f := .parameter p)).symm
    simp only [Field.override, Field.withLiteral, Parameter.override, hnamed]

/-- **An override obeys the naming that cuts at the first point.** What is left to ask is when that
naming is the intended one. -/
theorem Declaration.obeys_foundBy (d : Declaration) (name : String) (value : Literal) :
    d.Obeys (Field.FoundBy name) value (d.assign name value) := by
  refine ⟨d.tally_assign, fun n hn => ?_⟩
  rw [Declaration.override_of_assign hn, d.override_eq_withLiteral]

/-! ## Two namings -/

section

variable {names names' : Block → Field → Prop} [∀ b, DecidablePred (names b)]
  [∀ b, DecidablePred (names' b)]

theorem Declaration.Obeys.congr {d : Declaration} {result : Declaration × Except Fault Nat}
    (h : d.Obeys names value result) (hsame : ∀ m ∈ d.members, (names m.1 m.2 ↔ names' m.1 m.2)) :
    d.Obeys names' value result := by
  have hcount : (d.members.countP fun m => names m.1 m.2) =
      d.members.countP fun m => names' m.1 m.2 :=
    List.countP_congr fun m hm => by simpa using hsame m hm
  have hliteral : d.withLiteral names value = d.withLiteral names' value := by
    refine Declaration.mapFields_congr fun m hm => ?_
    obtain ⟨b, f⟩ := m
    cases f with
    | checksum c => rfl
    | parameter p =>
      have hagree := hsame _ hm
      simp only [Field.withLiteral, hagree]
  refine ⟨⟨fun b c hmem hnamed => ?_, fun hnone => ?_⟩, fun n hn => ?_⟩
  · obtain ⟨b', c', hmem', hnamed', hreport⟩ := h.report.refused b c hmem ((hsame _ hmem).2 hnamed)
    exact ⟨b', c', hmem', (hsame _ hmem').1 hnamed', hreport⟩
  · rw [← hcount]
    exact h.report.counted fun b c hmem hnamed => hnone b c hmem ((hsame _ hmem).1 hnamed)
  · rw [← hliteral]
    exact h.changes n hn

/-- Of a naming that names more, the count tells whether it does. So a report that is right for both
namings is enough to conclude that they name the same fields. -/
theorem named_of_countP_eq {fields : List (Block × Field)}
    (hle : ∀ b f, names b f → names' b f)
    (hcount : (fields.countP fun m => names m.1 m.2) = fields.countP fun m => names' m.1 m.2) :
    ∀ m ∈ fields, names' m.1 m.2 → names m.1 m.2 := by
  have hsub : List.Sublist (fields.filter fun m => names m.1 m.2)
      (fields.filter fun m => names' m.1 m.2) :=
    List.monotone_filter_right fields fun m hm => by simpa using hle _ _ (by simpa using hm)
  rw [List.countP_eq_length_filter, List.countP_eq_length_filter] at hcount
  have hsame := hsub.eq_of_length hcount
  intro m hm hnamed
  have hmem : m ∈ fields.filter fun m => names' m.1 m.2 :=
    List.mem_filter.2 ⟨hm, decide_eq_true hnamed⟩
  rw [← hsame] at hmem
  exact of_decide_eq_true (List.mem_filter.1 hmem).2

end

/-- **An override changes what its name finds, which is what its name calls unless a point is in the way.**
It obeys the naming as it is written exactly when it is refused or everything called is found. -/
theorem Declaration.assign_exact_iff (d : Declaration) (name : String) (value : Literal) :
    d.Obeys (Field.FoundBy name) value (d.assign name value) ∧
      (d.Obeys (Field.CalledBy name) value (d.assign name value) ↔
        (∃ b c, (b, .checksum c) ∈ d.members ∧ (Field.checksum c).FoundBy name b) ∨
          ∀ m ∈ d.members, m.2.CalledBy name m.1 → m.2.FoundBy name m.1) := by
  have hobeys := d.obeys_foundBy name value
  refine ⟨hobeys, ?_, ?_⟩
  · intro hcalled
    by_cases hrefused : ∃ b c, (b, .checksum c) ∈ d.members ∧ (Field.checksum c).FoundBy name b
    · exact .inl hrefused
    right
    have hok := hobeys.report.counted fun b c hmem hfound => hrefused ⟨b, c, hmem, hfound⟩
    have hcount := hcalled.report
    rw [hok] at hcount
    have hsame := hcount.counted hcount.no_checksum
    exact named_of_countP_eq (fun _ _ => Field.FoundBy.calledBy) (Except.ok.inj hsame)
  · rintro (⟨b, c, hmem, hfound⟩ | hall)
    · obtain ⟨b', c', hmem', hfound', hreport⟩ := hobeys.report.refused b c hmem hfound
      refine ⟨⟨fun _ _ _ _ => ⟨b', c', hmem', hfound'.calledBy, hreport⟩, fun hnone => ?_⟩, ?_⟩
      · exact absurd hfound.calledBy (hnone b c hmem)
      · intro n hn
        rw [hreport] at hn
        cases hn
    · exact hobeys.congr fun m hm => ⟨Field.FoundBy.calledBy, hall m hm⟩

namespace Specimen

def pointed : Declaration :=
  { name := "pointed"
    containers := [{
      name := "c"
      base := 0
      blocks := [{
        name := "b"
        length := 4
        fields := [.parameter ⟨"p.q", .next, .scalar .u8, 1, .int 1, none, none⟩] }] }] }

/-- The name calls the parameter, and the part in front of its point is looked for as a block. There is
none, so the parameter is not found, and the override reports that it has changed nothing. -/
theorem pointed_not_obeys :
    ¬ pointed.Obeys (Field.CalledBy "p.q") (.int 2) (pointed.assign "p.q" (.int 2)) := by
  intro h
  have hreport : (pointed.assign "p.q" (.int 2)).2 = .ok 0 := rfl
  have hcount := h.report
  rw [hreport] at hcount
  have hone : 0 = pointed.members.countP fun m => m.2.CalledBy "p.q" m.1 :=
    Except.ok.inj (hcount.counted hcount.no_checksum)
  exact absurd hone (by decide)

end Specimen

end FlashParams
