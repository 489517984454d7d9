import FlashParams.Layout.Assembly
import FlashParams.Manifest.Lower
import FlashParams.Proofs.Image.Refinement
import FlashParams.Proofs.Placement.Measured
import FlashParams.Proofs.Placement.Reach
import FlashParams.Proofs.Value.Overflow

/-!
# Compiling in machine words

A declaration is compiled with machine words, and what leaves the word takes the whole compilation with
it: there is no layout then, and no rejection either. Two things can. The size of a field may outgrow a
word of 64 bits when the fields of its block are placed (`Block.Outgrows`), and once they have their
places, a text given for an integer may negate the least word of 128 bits (`Block.Negates`). Either way
the block has to get as far as that: its name has not been tried and its span is free
(`Assembly.admits`). Whether its span can be filled is no further condition, since a block that has been
placed ends with the address space at the latest.

Up to the first block that breaks off, the run is the one with exact sizes, so it can be said with the
latter which blocks get their fields placed (`Declaration.Resolves`). `Declaration.sizes_reported_iff`
goes through the levels. At each of them the sizes are reported as they should be exactly when nothing
leaves the word that is computed there, and a declaration has no outcome exactly when something does.
-/

set_option autoImplicit false

namespace FlashParams

open StoredType (wordBound)

/-! ## Folds that can break off -/

section

variable {α β : Type} {f? : α → β → Option α} {f : α → β → α}
  (hf : ∀ a x next, f? a x = some next → next = f a x)
include hf

theorem eq_foldl_of_foldlM_eq_some : ∀ {l : List β} {a final : α},
    l.foldlM f? a = some final → final = l.foldl f a
  | [], _, _, h => by
    cases h
    rfl
  | x :: rest, a, final, h => by
    rw [List.foldlM_cons] at h
    obtain ⟨next, hnext, hrest⟩ := Option.bind_eq_some_iff.1 h
    have hfinal := eq_foldl_of_foldlM_eq_some hrest
    rwa [hf a x next hnext] at hfinal

/-- A fold breaks off at some item, in the state that the items in front of it lead to. That state is
given by the fold that cannot break off, about which everything else is proved. -/
theorem foldlM_eq_none_iff : ∀ {l : List β} {a : α},
    l.foldlM f? a = none ↔
      ∃ front x back, l = front ++ x :: back ∧ f? (front.foldl f a) x = none
  | [], _ => by
    constructor
    · intro h
      cases h
    · rintro ⟨front, x, back, hsplit, -⟩
      exact absurd hsplit.symm (List.append_ne_nil_of_right_ne_nil _ (List.cons_ne_nil _ _))
  | x :: rest, a => by
    have hrest : (x :: rest).foldlM f? a = none ↔
        f? a x = none ∨ rest.foldlM f? (f a x) = none := by
      rw [List.foldlM_cons]
      cases hstep : f? a x with
      | none => simp
      | some next => simp [hf a x next hstep]
    rw [hrest, foldlM_eq_none_iff]
    constructor
    · rintro (h | ⟨front, y, back, rfl, h⟩)
      · exact ⟨[], x, rest, rfl, h⟩
      · exact ⟨x :: front, y, back, rfl, h⟩
    · rintro ⟨front, y, back, hsplit, h⟩
      cases front with
      | nil =>
        cases hsplit
        exact .inl h
      | cons first front =>
        cases hsplit
        exact .inr ⟨front, y, back, rfl, h⟩

end

/-! ## Values -/

def PlacedField.BreaksOn (b : Block) (p : PlacedField) : Prop :=
  ∃ q type, p.occupant = .parameter q type ∧ type.BreaksOn (q.byteOrder.getD b.byteOrder) q.value

theorem PlacedField.leavesWord_iff {b : Block} {p : PlacedField} :
    p.leavesWord b = true ↔ p.BreaksOn b := by
  unfold PlacedField.leavesWord PlacedField.BreaksOn
  cases p.occupant with
  | checksum c => simp
  | parameter q type =>
    have hunique : (∃ q' type', Occupant.parameter q type = .parameter q' type' ∧
        type'.BreaksOn (q'.byteOrder.getD b.byteOrder) q'.value) ↔
        type.BreaksOn (q.byteOrder.getD b.byteOrder) q.value := by
      constructor
      · rintro ⟨_, _, heq, h⟩
        cases heq
        exact h
      · exact fun h => ⟨q, type, rfl, h⟩
    rw [hunique, ← StoredType.encode_eq_leavesWord_iff]
    dsimp only
    split
    · rename_i h
      exact iff_of_true rfl h
    · rename_i h
      exact iff_of_false Bool.false_ne_true h

/-- Some value in a block breaks off, once all its fields have their places. A field without a place is
not encoded, and in a block whose placement breaks off none is. -/
def Block.Negates (b : Block) (base : UInt32) : Prop :=
  ∃ run, b.place? base = some run ∧ ∃ p ∈ run.placed, p.BreaksOn b

/-! ## Blocks and containers -/

namespace Assembly

variable {a next : Assembly} {c : Container} {p : PlacedBlock}

theorem hasRoom_iff : a.hasRoom p = true ↔ p.stop ≤ 0x100000000 :=
  Image.isSome_fill?

theorem breaksOff_iff (hstop : p.stop ≤ 0x100000000) :
    a.breaksOff p = true ↔
      a.admits p = true ∧ (p.block.Outgrows p.address ∨ p.block.Negates p.address) := by
  unfold breaksOff Block.Negates
  rw [Bool.and_eq_true, ← Block.place?_eq_none_iff]
  refine and_congr_right fun _ => ?_
  cases p.block.place? p.address with
  | none => simp
  | some run => simp [hasRoom_iff.2 hstop, PlacedField.leavesWord_iff]

theorem addBlock?_eq_none_iff (hstop : p.stop ≤ 0x100000000) :
    addBlock? c a p = none ↔
      a.admits p = true ∧ (p.block.Outgrows p.address ∨ p.block.Negates p.address) := by
  rw [← breaksOff_iff hstop]
  unfold addBlock?
  split <;> simp_all

theorem addBlock?_eq_some (h : addBlock? c a p = some next) : next = a.addBlock c p := by
  unfold addBlock? at h
  split at h
  · cases h
  · cases h
    rfl

theorem addContainer?_eq_some (h : a.addContainer? c = some next) : next = a.addContainer c :=
  eq_foldl_of_foldlM_eq_some (fun _ _ _ => addBlock?_eq_some) h

theorem addContainer?_eq_none_iff :
    a.addContainer? c = none ↔ ∃ before p after, c.place.placed = before ++ p :: after ∧
      (before.foldl (fun a q => a.addBlock c q) (a.opened c)).admits p = true ∧
      (p.block.Outgrows p.address ∨ p.block.Negates p.address) := by
  unfold addContainer?
  rw [foldlM_eq_none_iff fun _ _ _ => addBlock?_eq_some]
  refine exists_congr fun before => exists_congr fun p => exists_congr fun after =>
    and_congr_right fun hsplit => addBlock?_eq_none_iff ?_
  exact Container.stop_le_of_mem_place (hsplit ▸ List.mem_append_right _ List.mem_cons_self)

end Assembly

/-! ## Declarations -/

/-- The state in which a block is tried, behind the containers `front` and the blocks `before` of its own
container. Whether the fields of a block get places at all depends on it, as a block that is refused for
its name or its span is not looked into. -/
def Declaration.stateAt (d : Declaration) (front : List Container) (c : Container)
    (before : List PlacedBlock) : Assembly :=
  before.foldl (fun a q => a.addBlock c q) ((front.foldl Assembly.addContainer { name := d.name }).opened c)

/-- A placed block whose fields get their places when the declaration is compiled. A block that is
refused before that may contain anything; its sizes are never asked for. -/
def Declaration.Resolves (d : Declaration) (c : Container) (p : PlacedBlock) : Prop :=
  ∃ front back before after, d.containers = front ++ c :: back ∧
    c.place.placed = before ++ p :: after ∧ (d.stateAt front c before).admits p = true

/-- What is expected of the sizes in a declaration: it is compiled, and those in the blocks whose fields
get their places are reported. -/
structure Declaration.ReportsSizes (d : Declaration) : Prop where
  compiled : d.compile? = some d.compile
  reported : ∀ c p, d.Resolves c p → p.block.ReportsSizes p.address

def Declaration.Outgrows (d : Declaration) : Prop :=
  ∃ c p, d.Resolves c p ∧ p.block.Outgrows p.address

/-- Some text in a declaration negates the least word when it is encoded. That has nothing to do with
sizes, but it is the other way for a declaration to have no outcome, so no account of outcomes can leave
it out. -/
def Declaration.Negates (d : Declaration) : Prop :=
  ∃ c p, d.Resolves c p ∧ p.block.Negates p.address

namespace Declaration

variable {d : Declaration}

theorem assembly?_eq_none_iff : d.assembly? = none ↔ d.Outgrows ∨ d.Negates := by
  have hsome : (d.Outgrows ∨ d.Negates) ↔
      ∃ c p, d.Resolves c p ∧ (p.block.Outgrows p.address ∨ p.block.Negates p.address) := by
    simp only [Outgrows, Negates, and_or_left, exists_or]
  unfold Declaration.assembly?
  rw [hsome, foldlM_eq_none_iff fun _ _ _ => Assembly.addContainer?_eq_some]
  simp only [Assembly.addContainer?_eq_none_iff]
  constructor
  · rintro ⟨front, c, back, hcontainers, before, p, after, hplaced, hadmits, hbreaks⟩
    exact ⟨c, p, ⟨front, back, before, after, hcontainers, hplaced, hadmits⟩, hbreaks⟩
  · rintro ⟨c, p, ⟨front, back, before, after, hcontainers, hplaced, hadmits⟩, hbreaks⟩
    exact ⟨front, c, back, hcontainers, before, p, after, hplaced, hadmits, hbreaks⟩

theorem compile?_eq_none_iff : d.compile? = none ↔ d.Outgrows ∨ d.Negates := by
  rw [← assembly?_eq_none_iff, Declaration.compile?, Option.map_eq_none_iff]

theorem assembly?_eq_some {a : Assembly} (h : d.assembly? = some a) : a = d.assembly :=
  eq_foldl_of_foldlM_eq_some (fun _ _ _ => Assembly.addContainer?_eq_some) h

theorem compile?_eq_some {outcome : Except Rejection Layout} (h : d.compile? = some outcome) :
    outcome = d.compile := by
  obtain ⟨a, ha, rfl⟩ := Option.map_eq_some_iff.1 h
  rw [assembly?_eq_some ha]
  rfl

theorem compile?_of_within (h : ¬ (d.Outgrows ∨ d.Negates)) : d.compile? = some d.compile := by
  obtain ⟨outcome, houtcome⟩ := Option.ne_none_iff_exists'.1 (mt compile?_eq_none_iff.1 h)
  rw [houtcome, compile?_eq_some houtcome]

/-- **Sizes are reported as they should be unless something outgrows the machine word**, for a type with
its literal, in a block and in a declaration. A declaration is compiled unless something in it does, or a
text in it negates the least word; otherwise it has no outcome. -/
theorem sizes_reported_iff (d : Declaration) :
    (∀ (t : DeclaredType) (value : Literal), t.FitsWord value ↔ ¬ t.Outgrows value) ∧
      (∀ source n, DeclaredType.ofText source = .ok (.text (some n)) → n < wordBound) ∧
      (∀ (b : Block) (base : UInt32), b.ReportsSizes base ↔ ¬ b.Outgrows base) ∧
      (d.ReportsSizes ↔ ¬ d.Outgrows ∧ ¬ d.Negates) ∧
      (d.compile? = none ↔ d.Outgrows ∨ d.Negates) := by
  refine ⟨DeclaredType.fitsWord_iff, fun _ _ => DeclaredType.length_lt_of_ofText,
    Block.reportsSizes_iff_not_outgrows, ?_, compile?_eq_none_iff⟩
  rw [← not_or]
  constructor
  · intro h hbreaks
    cases (compile?_eq_none_iff.2 hbreaks).symm.trans h.compiled
  · intro h
    refine ⟨compile?_of_within h, fun c p hresolves => ?_⟩
    exact (Block.reportsSizes_iff_not_outgrows _ _).2 fun hblock => h (.inl ⟨c, p, hresolves, hblock⟩)

end Declaration

namespace Specimen

def lone (source : String) (value : Toml.Value) : Manifest :=
  { containers :=
      [{ name := "c"
         base := .plain 0
         blocks :=
          [{ name := "b"
             length := .plain 16
             fields := [.parameter { name := "p", type := source, value }] }] }] }

def loneBlock (type : DeclaredType) (value : Literal) : Block :=
  { name := "b", length := 16, fields := [.parameter ⟨"p", .next, type, 1, value, none, none⟩] }

def loneContainer (type : DeclaredType) (value : Literal) : Container :=
  { name := "c", base := 0, blocks := [loneBlock type value] }

def loneDeclaration (type : DeclaredType) (value : Literal) : Declaration :=
  { containers := [loneContainer type value] }

theorem lower_lone {source : String} {type : DeclaredType} {value : Toml.Value} {literal : Literal}
    (htype : DeclaredType.ofText source = .ok type) (hvalue : literalOf value = .ok literal) :
    (lone source value).lower = .ok (loneDeclaration type literal) := by
  have hfield : ParameterEntry.lower "b" { name := "p", type := source, value } =
      .ok ⟨"p", .next, type, 1, literal, none, none⟩ := by
    unfold ParameterEntry.lower
    rw [htype, hvalue]
    rfl
  have hblock : BlockEntry.lower
      { name := "b", length := .plain 16,
        fields := [.parameter { name := "p", type := source, value }] } =
      .ok (loneBlock type literal) := by
    simp only [BlockEntry.lower, List.mapM_cons, FieldEntry.lower, hfield]
    rfl
  simp only [Manifest.lower, lone, List.mapM_cons, ContainerEntry.lower, hblock]
  rfl

def leastNegated : String :=
  "--170141183460469231731687303715884105728"

/-- The type can be written, the size of the array is 2^64, and the declaration has no outcome. Neither
has one in which nothing outgrows the word, but a byte is given as a text that negates the least word. -/
theorem lone_not_reportsSizes :
    (∃ t, DeclaredType.ofText "uint16[9223372036854775808]" = .ok t ∧ ¬ t.FitsWord (.int 0)) ∧
      (∃ d, (lone "uint16[9223372036854775808]" (.integer 0)).lower = .ok d ∧
        d.compile? = none ∧ ¬ d.ReportsSizes) ∧
      ∃ d, (lone "uint8" (.string leastNegated)).lower = .ok d ∧
        ¬ d.Outgrows ∧ d.compile? = none ∧ ¬ d.ReportsSizes := by
  have hlarge : DeclaredType.ofText "uint16[9223372036854775808]" =
      .ok (.array .u16 9223372036854775808) := by decide +kernel
  have hsmall : DeclaredType.ofText "uint8" = .ok (.scalar .u8) := by decide +kernel
  have hunreported : ∀ d : Declaration, d.compile? = none → ¬ d.ReportsSizes := by
    intro d hnone hreports
    cases hnone.symm.trans hreports.compiled
  have htowering : (loneDeclaration (.array .u16 9223372036854775808) (.int 0)).compile? = none :=
    Option.isNone_iff_eq_none.1 (by decide +kernel)
  have hnegating : (loneDeclaration (.scalar .u8) (.str leastNegated)).compile? = none :=
    Option.isNone_iff_eq_none.1 (by decide +kernel)
  refine ⟨⟨_, hlarge, fun hfits => ?_⟩, ⟨_, lower_lone hlarge rfl, htowering, hunreported _ htowering⟩,
    _, lower_lone hsmall rfl, ?_, hnegating, hunreported _ hnegating⟩
  · cases hfits (.array .u16 9223372036854775808) rfl
  · rintro ⟨c, p, ⟨front, back, before, after, hcontainers, hplaced, -⟩, houtgrows⟩
    have hc : c ∈ (loneDeclaration (.scalar .u8) (.str leastNegated)).containers := by
      rw [hcontainers]
      exact List.mem_append_right _ List.mem_cons_self
    obtain rfl := List.mem_singleton.1 hc
    have hp : p ∈ [(⟨0, loneBlock (.scalar .u8) (.str leastNegated), 0⟩ : PlacedBlock)] := by
      have hmem : p ∈ before ++ p :: after := List.mem_append_right _ List.mem_cons_self
      rwa [← hplaced] at hmem
    obtain rfl := List.mem_singleton.1 hp
    rw [← Block.place?_eq_none_iff] at houtgrows
    cases houtgrows

end Specimen

end FlashParams
