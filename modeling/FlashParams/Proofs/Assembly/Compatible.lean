import Mathlib.Data.List.Flatten
import Mathlib.Data.List.Nodup
import Mathlib.Data.List.Pairwise
import Mathlib.Data.List.Perm.Subperm
import FlashParams.Proofs.Assembly.Run

/-!
# When a declaration compiles

Blocks are tried one after the other, and each is checked against the ones *taken in* before it. The
order does not matter to a run that ends well: what is checked is, of a single block, that it has no
fault of its own (`Part.Sound`), and of two blocks that neither is in the way of the other
(`Part.Apart`), which is a symmetric relation. `Compatible` says both of a list of parts, so it
stays true when parts are left out or change places (`Compatible.of_subperm`).

`Consists` says what a finished run has found out. `Flawless` is the converse, the invariant of a
run through compatible parts. The two make compiling a property of the parts alone
(`Declaration.compiles_iff`).
-/

set_option autoImplicit false

namespace FlashParams

open scoped List

/-! ## Parts that get along -/

/-- A part that has no fault of its own. Whether it has is settled without the other parts, which is the
reason to tell this half from `Part.Apart`. -/
structure Part.Sound (p : Part) : Prop where
  clean : p.sheet.faults = []
  stop : p.place.stop ≤ 0x100000000
  symbolNames : (p.symbols.map (·.name)).Nodup

/-- Two parts neither of which is in the way of the other. The relation is symmetric, so that it can be
asked of a list in any order. -/
structure Part.Apart (p q : Part) : Prop where
  spans : p.place.span.meets q.place.span = false
  names : p.place.block.name ≠ q.place.block.name
  symbolNames : ∀ s ∈ p.symbols, ∀ t ∈ q.symbols, s.name ≠ t.name

theorem Part.Apart.symm {p q : Part} (h : p.Apart q) : q.Apart p := by
  refine ⟨?_, h.names.symm, fun s hs t ht => (h.symbolNames t ht s hs).symm⟩
  rw [Span.meets_comm]
  exact h.spans

instance : Std.Symm Part.Apart :=
  ⟨fun _ _ => Part.Apart.symm⟩

/-- Parts that can all be in one layout. No order among them is mentioned: a run is not needed to say
whether parts get along. -/
structure Compatible (parts : List Part) : Prop where
  sound : ∀ p ∈ parts, p.Sound
  apart : parts.Pairwise Part.Apart

namespace Compatible

variable {parts fewer : List Part}

/-- **Compatible parts may be left out and put in any order.** What is said of selections and of moved
containers comes from here, as a declaration compiles exactly when its parts are compatible. -/
theorem of_subperm (h : Compatible parts) (hsub : fewer <+~ parts) : Compatible fewer := by
  refine ⟨fun p hp => h.sound p (hsub.subset hp), ?_⟩
  obtain ⟨same, hperm, hsublist⟩ := hsub
  exact (h.apart.sublist hsublist).perm hperm Part.Apart.symm

theorem symbolNames (h : Compatible parts) :
    ((parts.flatMap Part.symbols).map (·.name)).Nodup := by
  rw [List.map_flatMap, List.nodup_flatMap]
  refine ⟨fun p hp => (h.sound p hp).symbolNames, h.apart.imp fun {p q} hpq => ?_⟩
  intro name hp hq
  obtain ⟨s, hs, rfl⟩ := List.mem_map.1 hp
  obtain ⟨t, ht, hst⟩ := List.mem_map.1 hq
  exact hpq.symbolNames s hs t ht hst.symm

theorem last {p : Part} (h : Compatible (parts ++ [p])) :
    p.Sound ∧ ∀ q ∈ parts, q.Apart p :=
  ⟨h.sound p (List.mem_append_right _ List.mem_cons_self), fun q hq =>
    (List.pairwise_append.1 h.apart).2.2 q hq p List.mem_cons_self⟩

theorem nodup (h : Compatible parts) : parts.Nodup :=
  h.apart.imp fun hpq => ne_of_apply_ne (·.place.block.name) hpq.names

/-- A span that has addresses is that of one part only. Without addresses two parts may well agree. -/
theorem eq_of_span_eq (h : Compatible parts) {p q : Part} (hp : p ∈ parts) (hq : q ∈ parts)
    (hne : p.place.span.start < p.place.span.stop) (hspan : p.place.span = q.place.span) :
    p = q := by
  by_contra hdiffer
  have hmeets := (h.apart.forall hp hq hdiffer).spans
  rw [← hspan, Span.meets, decide_eq_true hne] at hmeets
  cases hmeets

end Compatible

theorem Consists.compatible {parts : List Part} {image : Image} {symbols : SymbolTable}
    {blocks : List BlockRecord} (h : Consists parts image symbols blocks) : Compatible parts := by
  have hnames := symbols.nodup
  rw [h.symbols, List.map_flatMap, List.nodup_flatMap] at hnames
  obtain ⟨hown, hacross⟩ := hnames
  refine ⟨fun p hp => ⟨h.clean p hp, h.stops p hp, hown p hp⟩, ?_⟩
  have hpairs := (h.apart.and (List.pairwise_map.1 h.names)).and hacross
  refine hpairs.imp fun ⟨⟨hspans, hnames⟩, hdisjoint⟩ => ⟨hspans, hnames, fun s hs t ht hst => ?_⟩
  exact hdisjoint (List.mem_map_of_mem hs) (hst ▸ List.mem_map_of_mem ht)

/-! ## A run through compatible parts -/

/-- Symbols clash with nothing when no name comes twice, the table and the ones seen included. The
converse is not needed, as a flawless run only has to show that there is no clash. -/
theorem Draft.clashes_eq_nil {table : SymbolTable} {symbols seen : List Symbol}
    (h : ((table.entries ++ seen ++ symbols).map (·.name)).Nodup) :
    Draft.clashes table seen symbols = [] := by
  induction symbols generalizing seen with
  | nil => rfl
  | cons s rest ih =>
    have hnew : s.name ∉ (table.entries ++ seen).map (·.name) := by
      rw [List.map_append, List.nodup_append] at h
      exact fun hmem => h.2.2 _ hmem _ (List.mem_map_of_mem List.mem_cons_self) rfl
    have hfind := find?_name_eq_none_iff.2 hnew
    rw [List.find?_append] at hfind
    unfold Draft.clashes
    rw [SymbolTable.get?_eq_find?, hfind]
    refine ih ?_
    rwa [← List.append_assoc, List.append_assoc _ [s] rest]

namespace Assembly

/-- What holds on a run that meets no fault: all parts tried have been taken in. Unlike in `Holds`, every
name tried is that of a part, so a new name cannot turn out to have been used by a block that failed. -/
structure Flawless (a : Assembly) (parts : List Part) : Prop extends a.Holds parts where
  triedOnly : ∀ entry ∈ a.tried, ∃ p ∈ parts, p.place.block.name = entry.1
  silent : a.diagnostics = []

variable {a : Assembly} {c : Container} {place : PlacedBlock} {parts : List Part}

section

variable (h : a.Flawless parts) (hall : Compatible (parts ++ [⟨c, place⟩]))
include h hall

theorem Flawless.lookup_eq_none : a.tried.lookup place.block.name = none := by
  refine List.lookup_eq_none_iff.2 fun entry hentry => bne_iff_ne.2 fun hsame => ?_
  obtain ⟨p, hp, hp'⟩ := h.triedOnly entry hentry
  exact (hall.last.2 p hp).names (hp'.trans hsame.symm)

theorem Flawless.verdict_eq_nil : a.verdict c place = [] := by
  obtain ⟨hsound, hapart⟩ := hall.last
  have hfree : a.blocks.find? (fun b => place.span.meets b.span) = none := by
    refine List.find?_eq_none.2 fun b hb => ?_
    rw [h.consists.blocks] at hb
    obtain ⟨p, hp, rfl⟩ := List.mem_map.1 hb
    exact Bool.eq_false_iff.1 (hapart p hp).symm.spans
  rw [verdict_of_new (h.lookup_eq_none hall) hfree]
  refine List.append_eq_nil_iff.2 ⟨hsound.clean, Draft.clashes_eq_nil ?_⟩
  have hsymbols := hall.symbolNames
  rw [h.consists.symbols, List.append_nil]
  rwa [List.flatMap_append, List.flatMap_singleton] at hsymbols

theorem Flawless.addBlock : (a.addBlock c place).Flawless (parts ++ [⟨c, place⟩]) := by
  have hstop := hall.last.1.stop
  have hverdict := h.verdict_eq_nil hall
  obtain ⟨-, -, -, hdiagnostics⟩ := h.toHolds.addBlock_of_clean hstop hverdict
  rcases h.toHolds.addBlock hstop c with ⟨-, hnext⟩ | ⟨hfault, -⟩
  · refine ⟨hnext, fun entry hentry => ?_, hdiagnostics.trans h.silent⟩
    rw [tried_addBlock, h.lookup_eq_none hall] at hentry
    rcases List.mem_append.1 hentry with hentry | hentry
    · obtain ⟨p, hp, hp'⟩ := h.triedOnly entry hentry
      exact ⟨p, List.mem_append_left _ hp, hp'⟩
    · rw [List.mem_singleton.1 hentry]
      exact ⟨_, List.mem_append_right _ List.mem_cons_self, rfl⟩
  · exact absurd hverdict hfault

end

theorem Flawless.addBlocks {placed : List PlacedBlock} (h : a.Flawless parts)
    (hall : Compatible (parts ++ placed.map (Part.mk c))) :
    (placed.foldl (fun a p => a.addBlock c p) a).Flawless
      (parts ++ placed.map (Part.mk c)) := by
  induction placed generalizing a parts with
  | nil => rwa [List.map_nil, List.append_nil]
  | cons p rest ih =>
    rw [List.map_cons, List.append_cons] at hall ⊢
    have hfirst := hall.of_subperm (List.sublist_append_left _ _).subperm
    exact ih (h.addBlock hfirst) hall

theorem Flawless.addContainer (h : a.Flawless parts) (hplaced : c.place.unplaced = [])
    (hall : Compatible (parts ++ c.parts)) : (a.addContainer c).Flawless (parts ++ c.parts) := by
  have hopened : (a.opened c).Flawless parts := by
    refine ⟨h.toHolds.opened c, h.triedOnly, ?_⟩
    show a.diagnostics ++ c.place.unplaced.map _ = []
    rw [h.silent, hplaced]
    rfl
  exact hopened.addBlocks hall

theorem Flawless.addContainers {containers : List Container} (h : a.Flawless parts)
    (hplaced : ∀ c ∈ containers, c.place.unplaced = [])
    (hall : Compatible (parts ++ containers.flatMap Container.parts)) :
    (containers.foldl Assembly.addContainer a).Flawless
      (parts ++ containers.flatMap Container.parts) := by
  induction containers generalizing a parts with
  | nil => rwa [List.flatMap_nil, List.append_nil]
  | cons c rest ih =>
    rw [List.flatMap_cons, ← List.append_assoc] at hall ⊢
    have hfirst := hall.of_subperm (List.sublist_append_left _ _).subperm
    exact ih (h.addContainer (hplaced c List.mem_cons_self) hfirst)
      (fun d hd => hplaced d (List.mem_cons_of_mem _ hd)) hall

end Assembly

/-! ## Compiling -/

/-- Every block has a place, and the places and contents of all of them get along. Blocks are placed
within their container and parts compared across containers, which is why it has two halves. -/
structure Declaration.Fits (d : Declaration) : Prop where
  placed : ∀ c ∈ d.containers, c.place.unplaced = []
  parts : Compatible d.parts

variable {d : Declaration}

/-- **A declaration compiles exactly when it fits.** Nothing else counts, such as the order in which the
blocks are tried. One direction runs the assembly, the other reads the parts off its result. -/
theorem Declaration.compiles_iff : (∃ l, d.compile = .ok l) ↔ d.Fits := by
  constructor
  · rintro ⟨l, hl⟩
    obtain ⟨hconsists, hplaced⟩ := d.consists_of_compile hl
    exact ⟨hplaced, hconsists.compatible⟩
  · intro h
    have hstart : ({ name := d.name } : Assembly).Flawless [] :=
      ⟨Assembly.holds_start d.name, List.forall_mem_nil _, rfl⟩
    have hend : d.assembly.Flawless d.parts := hstart.addContainers h.placed h.parts
    unfold Declaration.compile Assembly.finish
    rw [hend.silent]
    exact ⟨_, rfl⟩

theorem Declaration.isOk_compile_iff : d.compile.isOk = true ↔ d.Fits := by
  rw [← Declaration.compiles_iff]
  cases d.compile with
  | ok l => exact ⟨fun _ => ⟨l, rfl⟩, fun _ => rfl⟩
  | error r => exact ⟨fun h => absurd h Bool.false_ne_true, fun ⟨l, h⟩ => nomatch h⟩

def Declaration.withContainers (d : Declaration) (containers : List Container) : Declaration :=
  { d with containers }

theorem Declaration.Fits.of_subperm (h : d.Fits) {picked : List Container}
    (hsub : picked <+~ d.containers) : (d.withContainers picked).Fits := by
  refine ⟨fun c hc => h.placed c (hsub.subset hc), h.parts.of_subperm ?_⟩
  obtain ⟨same, hperm, hsublist⟩ := hsub
  exact ⟨_, hperm.flatMap_right Container.parts, hsublist.flatMap Container.parts⟩

end FlashParams
