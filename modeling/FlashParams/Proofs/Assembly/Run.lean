import FlashParams.Proofs.Assembly.Commit

/-!
# Whole runs

A run goes through containers, and in each container through the blocks that could be placed. One
block keeps `Assembly.Holds` (`Holds.addBlock`), so a run does; what has to be added is *which* parts
the state consists of. In general it is some of the blocks tried, in the order they were tried. When
no diagnostic was given it is all of them, and no block was left unplaced: diagnostics are only ever
added, so none at the end means none on the way.

`Consists d.parts` of a finished layout (`Declaration.consists_of_compile`) is the form in which the
rest of the development knows a successful run.
-/

set_option autoImplicit false

namespace FlashParams

/-! ## Containers -/

def Container.parts (c : Container) : List Part :=
  c.place.placed.map (Part.mk c)

namespace Assembly

variable {a : Assembly} {c : Container} {parts : List Part}

theorem Holds.opened (h : a.Holds parts) (c : Container) : (a.opened c).Holds parts :=
  ⟨h.consists, h.tried⟩

/-- One block, and what the diagnostics say about it. Runs that are known to end without a diagnostic
need the second half: a silent step took its block in. -/
theorem Holds.addBlock_account (h : a.Holds parts) {p : PlacedBlock} (hstop : p.stop ≤ 0x100000000) :
    ∃ taken, taken.Sublist [Part.mk c p] ∧ (a.addBlock c p).Holds (parts ++ taken) ∧
      ((a.addBlock c p).diagnostics = [] → a.diagnostics = [] ∧ taken = [Part.mk c p]) := by
  rcases h.addBlock hstop c with ⟨hclean, hnext⟩ | ⟨hfault, hnext⟩
  · obtain ⟨-, -, -, hdiagnostics⟩ := h.addBlock_of_clean hstop hclean
    exact ⟨_, List.Sublist.refl _, hnext, fun hnone => ⟨hdiagnostics ▸ hnone, rfl⟩⟩
  · obtain ⟨-, -, -, hdiagnostics⟩ := h.addBlock_of_fault hstop hfault
    refine ⟨[], List.nil_sublist _, by rwa [List.append_nil], fun hnone => ?_⟩
    rw [hdiagnostics] at hnone
    exact absurd (List.map_eq_nil_iff.1 (List.append_eq_nil_iff.1 hnone).2) hfault

theorem Holds.addBlocks {placed : List PlacedBlock} (h : a.Holds parts)
    (hstop : ∀ p ∈ placed, p.stop ≤ 0x100000000) :
    ∃ taken, taken.Sublist (placed.map (Part.mk c)) ∧
      (placed.foldl (fun a p => a.addBlock c p) a).Holds (parts ++ taken) ∧
      ((placed.foldl (fun a p => a.addBlock c p) a).diagnostics = [] →
        a.diagnostics = [] ∧ taken = placed.map (Part.mk c)) := by
  induction placed generalizing a parts with
  | nil =>
    exact ⟨[], List.Sublist.refl _, by rwa [List.append_nil], fun hnone => ⟨hnone, rfl⟩⟩
  | cons p rest ih =>
    obtain ⟨one, hone, hnext, hnoneOne⟩ :=
      h.addBlock_account (c := c) (hstop p List.mem_cons_self)
    obtain ⟨more, hmore, hfinal, hnoneMore⟩ :=
      ih hnext fun q hq => hstop q (List.mem_cons_of_mem _ hq)
    refine ⟨one ++ more, hone.append hmore, by rwa [← List.append_assoc], fun hnone => ?_⟩
    -- diagnostics are only added: none at the end, so none after the first block, so none before it
    obtain ⟨hmid, rfl⟩ := hnoneMore hnone
    obtain ⟨hstart, rfl⟩ := hnoneOne hmid
    exact ⟨hstart, rfl⟩

/-- **A container adds some of its blocks; without a diagnostic it adds all of them.** The blocks added
are a sublist, so they keep their order, and the diagnostics alone tell whether any is missing. -/
theorem Holds.addContainer (h : a.Holds parts) (c : Container) :
    ∃ taken, taken.Sublist c.parts ∧ (a.addContainer c).Holds (parts ++ taken) ∧
      ((a.addContainer c).diagnostics = [] →
        a.diagnostics = [] ∧ taken = c.parts ∧ c.place.unplaced = []) := by
  obtain ⟨taken, hsub, hnext, hnone⟩ :=
    (h.opened c).addBlocks (c := c) fun p hp => Container.stop_le_of_mem_place hp
  refine ⟨taken, hsub, hnext, fun hend => ?_⟩
  obtain ⟨hopened, htaken⟩ := hnone hend
  obtain ⟨hstart, hunplaced⟩ := List.append_eq_nil_iff.1 hopened
  exact ⟨hstart, htaken, List.map_eq_nil_iff.1 hunplaced⟩

/-! ## Runs of any length -/

theorem holds_start (name : String) : Holds { name } [] :=
  ⟨.empty, List.forall_mem_nil _⟩

/-- Many containers, when there was no diagnostic. Diagnostics are never removed, so their absence in the
end says the same of every state on the way. -/
theorem Holds.addContainers {containers : List Container} (h : a.Holds parts)
    (hnone : (containers.foldl Assembly.addContainer a).diagnostics = []) :
    a.diagnostics = [] ∧
      (containers.foldl Assembly.addContainer a).Holds
        (parts ++ containers.flatMap Container.parts) ∧
      ∀ c ∈ containers, c.place.unplaced = [] := by
  induction containers generalizing a parts with
  | nil => exact ⟨hnone, by rwa [List.flatMap_nil, List.append_nil], List.forall_mem_nil _⟩
  | cons c rest ih =>
    obtain ⟨taken, -, hnext, haccount⟩ := h.addContainer c
    obtain ⟨hmid, hfinal, hrest⟩ := ih hnext hnone
    obtain ⟨hstart, rfl, hunplaced⟩ := haccount hmid
    refine ⟨hstart, ?_, fun d hd => ?_⟩
    · rwa [List.append_assoc, ← List.flatMap_cons] at hfinal
    · rcases List.mem_cons.1 hd with rfl | hd
      · exact hunplaced
      · exact hrest d hd

end Assembly

/-! ## Finished layouts -/

/-- The parts of a declaration. It does not depend on any run: only the places of the blocks within their
containers are needed. -/
def Declaration.parts (d : Declaration) : List Part :=
  d.containers.flatMap Container.parts

variable {d : Declaration} {l : Layout}

theorem Declaration.exists_of_isOk_compile (h : d.compile.isOk = true) :
    ∃ l, d.compile = .ok l := by
  cases hl : d.compile with
  | ok l => exact ⟨l, rfl⟩
  | error rejection =>
    rw [hl] at h
    cases h

/-- **A layout consists of all blocks declared.** A layout is the result of a run without diagnostics,
and from here on the run itself is no longer looked at. -/
theorem Declaration.consists_of_compile (h : d.compile = .ok l) :
    Consists d.parts l.image l.symbols l.blocks ∧ ∀ c ∈ d.containers, c.place.unplaced = [] := by
  unfold Declaration.compile Assembly.finish at h
  split at h
  · rename_i hnone
    cases h
    obtain ⟨-, hholds, hunplaced⟩ :=
      (Assembly.holds_start d.name).addContainers (List.isEmpty_iff.1 hnone)
    exact ⟨hholds.consists, hunplaced⟩
  · cases h

theorem Declaration.part_of_mem (h : d.compile = .ok l) {c : Container} (hc : c ∈ d.containers)
    {b : Block} (hb : b ∈ c.blocks) :
    ∃ p ∈ d.parts, p.container = c ∧ p.place.block = b := by
  have hblocks := Container.blocks_of_none_left ((d.consists_of_compile h).2 c hc)
  rw [← hblocks] at hb
  obtain ⟨place, hplace, rfl⟩ := List.mem_map.1 hb
  exact ⟨⟨c, place⟩, List.mem_flatMap.2 ⟨c, hc, List.mem_map_of_mem hplace⟩, rfl, rfl⟩

theorem Declaration.mem_of_part {p : Part} (hp : p ∈ d.parts) :
    p.container ∈ d.containers ∧ p.place ∈ p.container.place.placed := by
  obtain ⟨c, hc, hp⟩ := List.mem_flatMap.1 hp
  obtain ⟨place, hplace, rfl⟩ := List.mem_map.1 hp
  exact ⟨hc, hplace⟩

end FlashParams
