import FlashParams.Proofs.Revision.Compile

/-!
# Layouts can be moved

Offsets and ranges are distances from the start of a container or a block; alignments and limits are
facts about absolute addresses. A declaration all of whose containers are moved by one multiple of the
largest alignment therefore compiles to the same layout at another place, down to the bytes of every
checksum.

Moving is the smallest revision: nothing changes but the addresses of the containers
(`Declaration.revises_relocate`). What has to be asked for is only that everything has an address at its
new place, and that no block is without bytes, since such a block can stand at the end of the address
space, which is not moved.
-/

set_option autoImplicit false

namespace FlashParams

/-- A container at another address, given as the distance from its own. The cast wraps, but under the
hypotheses of the results below there is nothing to wrap. -/
def Container.relocate (δ : Int) (c : Container) : Container :=
  { c with base := UInt32.ofNat (c.base.toNat + δ).toNat }

def Declaration.relocate (δ : Int) (d : Declaration) : Declaration :=
  { d with containers := d.containers.map (Container.relocate δ) }

variable {δ : Int} {d : Declaration} {l : Layout}

theorem Container.base_relocate {c : Container} (hlow : 0 ≤ c.base.toNat + δ)
    (hhigh : c.base.toNat + δ < 0x100000000) :
    ((c.relocate δ).base.toNat : Int) = c.base.toNat + δ := by
  have hword : (c.base.toNat + δ).toNat < UInt32.size := by
    rw [UInt32.size]
    omega
  show ((UInt32.ofNat _).toNat : Int) = _
  rw [UInt32.toNat_ofNat_of_lt' hword, Int.toNat_of_nonneg hlow]

/-- **Moving a declaration revises nothing but where it is.** Offsets count from the parent and need not
change; only the addresses of the containers do. -/
theorem Declaration.revises_relocate (h : d.compile = .ok l) (hsolid : d.Solid)
    (hbases : ∀ c ∈ d.containers, 0 ≤ c.base.toNat + δ ∧ c.base.toNat + δ < 0x100000000)
    (hstops : ∀ b ∈ l.blocks, b.stop + δ ≤ 0x100000000) : d.Revises True δ (d.relocate δ) := by
  refine Declaration.revises_map h (f := Container.relocate δ) (g := fun _ b => b) (fun _ => rfl)
    (fun c hc => Container.base_relocate (hbases c hc).1 (hbases c hc).2)
    (fun c => (List.map_id' c.blocks).symm) fun p hp => ?_
  have hsound := Declaration.sound_of_part h hp
  obtain ⟨hc, hb⟩ := Declaration.block_of_part h hp
  have hrecord : p.record ∈ l.blocks := by
    rw [(d.consists_of_compile h).1.blocks]
    exact List.mem_map_of_mem hp
  exact ⟨.refl hsound.stop hsound.placed, .inl rfl, hstops _ hrecord,
    .inl (UInt32.pos_iff_ne_zero.1 (hsolid _ hc _ hb))⟩

/-- **Layouts are relocatable.** Two things can go wrong when a declaration is moved, an alignment that
no longer holds and the end of the address space; the distance and the stops are what is assumed against
them, and nothing is assumed of the fields. -/
theorem Declaration.compile_relocate (h : d.compile = .ok l) (hsolid : d.Solid) (hδ : 16384 ∣ δ)
    (hbases : ∀ c ∈ d.containers, 0 ≤ c.base.toNat + δ ∧ c.base.toNat + δ < 0x100000000)
    (hstops : ∀ b ∈ l.blocks, b.stop + δ ≤ 0x100000000) :
    ∃ l', (d.relocate δ).compile = .ok l' ∧ l.Moved δ l' :=
  (Declaration.revises_relocate h hsolid hbases hstops).compile_kept hδ h

namespace Specimen

theorem declaration_relocate :
    ∃ l l', declaration.compile = .ok l ∧ (declaration.relocate 0xC000).compile = .ok l' ∧
      l.Moved 0xC000 l' := by
  have hstops : declaration.compile.toOption.any (fun l =>
      l.blocks.all fun b => decide ((b.stop : Int) + 0xC000 ≤ 0x100000000)) = true := by
    decide +kernel
  have hsolid : declaration.Solid := by unfold Declaration.Solid; decide
  have hbases : ∀ c ∈ declaration.containers,
      0 ≤ (c.base.toNat : Int) + 0xC000 ∧ (c.base.toNat : Int) + 0xC000 < 0x100000000 := by decide
  cases hl : declaration.compile with
  | error rejection =>
    rw [hl] at hstops
    cases hstops
  | ok l =>
    rw [hl] at hstops
    obtain ⟨l', hl', hmoved⟩ := Declaration.compile_relocate hl hsolid (by decide) hbases
      fun b hb => of_decide_eq_true (List.all_eq_true.1 hstops b hb)
    exact ⟨l, l', rfl, hl', hmoved⟩

end Specimen

end FlashParams
