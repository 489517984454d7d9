import FlashParams.Manifest.Lower
import FlashParams.Proofs.Number.Spelling
import FlashParams.Proofs.Text.Blank
import Mathlib.Data.List.Forall2
import Mathlib.Data.Option.Basic

/-!
# Numbers in quotes

A number in a manifest may be written between quotes, in any spelling of an integer. A manifest is
*respelled* when some of its numbers have been put into quotes that way and nothing else has changed; the
relation says so record by record, number by number. What such a manifest is lowered to is what the first
one is lowered to, be it a declaration or a fault, which shows the value and not the spelling
(`spellings_interchangeable`).

Numbers are only ever looked at through their value and through the question whether they are the dot, so
two lemmas about a number carry everything (`Number.Respelled.value_eq`, `Number.Respelled.isDot_eq`).
The second is why a spelling, which cannot be a dot, may stand where a dot has a meaning of its own.
-/

set_option autoImplicit false

namespace FlashParams

open Manifest (Number Place)

/-! ## Spelled texts -/

namespace Integer

variable {s : List Char} {v : Int} {text : String}

theorem Spelled.isBlank (h : Spelled s v) : ∀ c ∈ s, Text.isBlank c = false := by
  cases h with
  | intro hsign hmark hdigits _ =>
    refine List.forall_mem_append.2 ⟨List.forall_mem_append.2 ⟨?_, ?_⟩, fun c hc => ?_⟩
    · cases hsign with
      | none => exact List.forall_mem_nil _
      | plus => exact List.forall_mem_singleton.2 (by decide)
      | minus => exact List.forall_mem_singleton.2 (by decide)
    · cases hmark with
      | decimal => exact List.forall_mem_nil _
      | lower => exact List.forall_mem_cons.2 ⟨by decide, List.forall_mem_singleton.2 (by decide)⟩
      | upper => exact List.forall_mem_cons.2 ⟨by decide, List.forall_mem_singleton.2 (by decide)⟩
    · obtain ⟨d, hd⟩ := hdigits.exists_digit c hc
      exact Numeral.isBlank_of_digitOf? hd

theorem bare_eq (hs : text.toList.filter (· ≠ '_') = s) (h : Spelled s v) : bare text = s := by
  have hblank : ∀ c ∈ text.toList, Text.isBlank c = false := by
    intro c hc
    by_cases hscore : c = '_'
    · rw [hscore]
      decide
    · exact h.isBlank c (hs ▸ List.mem_filter.2 ⟨hc, decide_eq_true hscore⟩)
  rw [bare, Text.trim_of_not_blank hblank, hs]

theorem not_spelled_dot : ¬ Spelled ['.'] v := by
  intro h
  have hread : signed? ['.'] = some v := signed?_eq_some_iff.2 (.inl h)
  cases hread

def signOf (v : Int) : List Char :=
  if v < 0 then ['-'] else []

/-- The usual spellings of an integer: in decimal, and in hexadecimal behind `0x` with the sign in front,
with letters of either case. That all are read alike is a case of the grammar. -/
def spellings (v : Int) : List (List Char) :=
  [signOf v ++ Numeral.write 10 v.natAbs,
    signOf v ++ '0' :: 'x' :: Numeral.write 16 v.natAbs,
    signOf v ++ '0' :: 'x' :: (Numeral.write 16 v.natAbs).map Char.toLower]

theorem spelled_of_mem_spellings (hv : v.natAbs < wordBound) (hs : s ∈ spellings v) : Spelled s v := by
  obtain ⟨f, hsign, hvalue⟩ : ∃ f, Sign (signOf v) f ∧ f * (v.natAbs : Int) = v := by
    unfold signOf
    split
    · exact ⟨-1, .minus, by omega⟩
    · exact ⟨1, .none, by omega⟩
  have hspelled : ∀ {mark digits : List Char} {base : Nat}, Mark mark base →
      Numeral.Spells base digits v.natAbs → Spelled (signOf v ++ mark ++ digits) v := by
    intro mark digits base hmark hdigits
    have h := Spelled.intro hsign hmark hdigits hv
    rwa [hvalue] at h
  simp only [spellings, List.mem_cons, List.not_mem_nil, or_false] at hs
  rcases hs with rfl | rfl | rfl
  · simpa using hspelled .decimal (Numeral.spells_decimal v.natAbs)
  · simpa using hspelled .lower (Numeral.spells_hex v.natAbs)
  · have hlower : Numeral.Spells 16 ((Numeral.write 16 v.natAbs).map Char.toLower) v.natAbs := by
      rw [Numeral.write, List.map_map]
      exact Numeral.spells_digits (by decide) (fun _ hd => Numeral.digitOf?_toLower hd) _
    simpa using hspelled .lower hlower

end Integer

/-! ## Numbers -/

/-- A number as it was, or with a spelling of it between quotes. A quoted number may not be respelled
again, since the dot is one and stands for no integer. -/
inductive Manifest.Number.Respelled : Number → Number → Prop where
  | same (n : Number) : Respelled n n
  | spelled {v : Int} {text : String} :
      Integer.Spelled (Integer.bare text) v → Respelled (.plain v) (.quoted text)

namespace Manifest.Number.Respelled

variable {n n' : Number} (h : n.Respelled n')
include h

theorem value_eq (place : Place) : n'.value place = n.value place := by
  cases h with
  | same => rfl
  | spelled hspelled => rw [value, value, Integer.read_of_spelled hspelled]

theorem isDot_eq : n'.isDot = n.isDot := by
  cases h with
  | same => rfl
  | @spelled v text hspelled =>
    refine decide_eq_false fun hdot => ?_
    rw [Integer.bare, hdot] at hspelled
    exact Integer.not_spelled_dot hspelled

theorem below_eq (limit : Nat) (place : Place) : n'.below limit place = n.below limit place := by
  rw [below, below, h.value_eq]

theorem toUInt8_eq (place : Place) : n'.toUInt8 place = n.toUInt8 place := by
  rw [toUInt8, toUInt8, h.below_eq]

theorem toUInt16_eq (place : Place) : n'.toUInt16 place = n.toUInt16 place := by
  rw [toUInt16, toUInt16, h.below_eq]

theorem toUInt32_eq (place : Place) : n'.toUInt32 place = n.toUInt32 place := by
  rw [toUInt32, toUInt32, h.below_eq]

theorem toUInt64_eq (place : Place) : n'.toUInt64 place = n.toUInt64 place := by
  rw [toUInt64, toUInt64, h.below_eq]

theorem toOffset_eq (place : Place) : n'.toOffset place = n.toOffset place := by
  rw [toOffset, toOffset, h.isDot_eq, h.toUInt32_eq]

theorem toCoverageEnd_eq (place : Place) : n'.toCoverageEnd place = n.toCoverageEnd place := by
  rw [toCoverageEnd, toCoverageEnd, h.isDot_eq, h.toUInt32_eq]

end Manifest.Number.Respelled

/-- A number that may be left out is read alike if each number is. What it stands for when left out is
not touched by spelling. -/
theorem numberOr_eq {α : Type} {absent : α} {read : Place → Number → Except Manifest.Fault α}
    (hread : ∀ {n n' : Number}, n.Respelled n' → ∀ place, read place n' = read place n)
    {place : Place} {o o' : Option Number} (h : Option.Rel Number.Respelled o o') :
    numberOr absent (read place) o' = numberOr absent (read place) o := by
  cases h with
  | none => rfl
  | some h => exact hread h place

/-- Lists are gone through alike if their items are taken alike. The first fault is then that of the same
item, so what a manifest is refused for does not depend on its spelling either. -/
theorem mapM_eq_of_forall₂ {α β ε : Type} {f g : α → Except ε β} {items items' : List α}
    (h : List.Forall₂ (fun x x' => g x' = f x) items items') : items'.mapM g = items.mapM f := by
  induction h with
  | nil => rfl
  | cons hx _ ih => rw [List.mapM_cons, List.mapM_cons, hx, ih]

/-! ## Records -/

structure HeaderEntry.Respelled (h h' : HeaderEntry) : Prop where
  id : h.id.Respelled h'.id
  major : h.major.Respelled h'.major
  minor : h.minor.Respelled h'.minor
  version : h.version.Respelled h'.version

structure CoverageEntry.Respelled (c c' : CoverageEntry) : Prop where
  rest : c' = { c with first := c'.first, last := c'.last, access := c'.access }
  first : Option.Rel Number.Respelled c.first c'.first
  last : Option.Rel Number.Respelled c.last c'.last
  access : Option.Rel Number.Respelled c.access c'.access

structure CrcEntry.Respelled (c c' : CrcEntry) : Prop where
  rest : c' = { c with polynomial := c'.polynomial, init := c'.init }
  polynomial : Option.Rel Number.Respelled c.polynomial c'.polynomial
  init : Option.Rel Number.Respelled c.init c'.init

structure ParameterEntry.Respelled (p p' : ParameterEntry) : Prop where
  rest : p' = { p with offset := p'.offset, align := p'.align }
  offset : p.offset.Respelled p'.offset
  align : Option.Rel Number.Respelled p.align p'.align

structure ChecksumEntry.Respelled (c c' : ChecksumEntry) : Prop where
  rest : c' = { c with
    offset := c'.offset, align := c'.align, coverage := c'.coverage, params := c'.params }
  offset : c.offset.Respelled c'.offset
  align : Option.Rel Number.Respelled c.align c'.align
  coverage : c.coverage.Respelled c'.coverage
  params : c.params.Respelled c'.params

inductive FieldEntry.Respelled : FieldEntry → FieldEntry → Prop where
  | parameter {p p' : ParameterEntry} : p.Respelled p' → Respelled (.parameter p) (.parameter p')
  | checksum {c c' : ChecksumEntry} : c.Respelled c' → Respelled (.checksum c) (.checksum c')

structure BlockEntry.Respelled (b b' : BlockEntry) : Prop where
  rest : b' = { b with
    offset := b'.offset, length := b'.length, align := b'.align, fill := b'.fill,
    header := b'.header, fields := b'.fields }
  offset : b.offset.Respelled b'.offset
  length : b.length.Respelled b'.length
  align : Option.Rel Number.Respelled b.align b'.align
  fill : Option.Rel Number.Respelled b.fill b'.fill
  header : Option.Rel HeaderEntry.Respelled b.header b'.header
  fields : List.Forall₂ FieldEntry.Respelled b.fields b'.fields

structure ContainerEntry.Respelled (c c' : ContainerEntry) : Prop where
  name : c'.name = c.name
  base : c.base.Respelled c'.base
  blocks : List.Forall₂ BlockEntry.Respelled c.blocks c'.blocks

structure Manifest.Respelled (m m' : Manifest) : Prop where
  name : m'.name = m.name
  containers : List.Forall₂ ContainerEntry.Respelled m.containers m'.containers

/-! ## Lowering -/

theorem HeaderEntry.Respelled.lower_eq {h h' : HeaderEntry} (hr : h.Respelled h') (block : String) :
    h'.lower block = h.lower block := by
  rw [lower, lower, hr.id.toUInt16_eq, hr.major.toUInt16_eq, hr.minor.toUInt16_eq,
    hr.version.toUInt16_eq]

theorem CoverageEntry.Respelled.lower_eq {c c' : CoverageEntry} (h : c.Respelled c') (place : Place) :
    c'.lower place = c.lower place := by
  rw [h.rest, lower, lower, numberOr_eq Number.Respelled.toUInt32_eq h.first,
    numberOr_eq Number.Respelled.toCoverageEnd_eq h.last,
    numberOr_eq Number.Respelled.toUInt32_eq h.access]

theorem CrcEntry.Respelled.lower_eq {c c' : CrcEntry} (h : c.Respelled c') (place : Place) :
    c'.lower place = c.lower place := by
  rw [h.rest, lower, lower, numberOr_eq Number.Respelled.toUInt64_eq h.polynomial,
    numberOr_eq Number.Respelled.toUInt64_eq h.init]

theorem ParameterEntry.Respelled.lower_eq {p p' : ParameterEntry} (h : p.Respelled p')
    (block : String) : p'.lower block = p.lower block := by
  rw [h.rest, lower, lower]
  dsimp only
  rw [h.offset.toOffset_eq, numberOr_eq Number.Respelled.toUInt32_eq h.align]

theorem ChecksumEntry.Respelled.lower_eq {c c' : ChecksumEntry} (h : c.Respelled c')
    (block : String) : c'.lower block = c.lower block := by
  rw [h.rest, lower, lower]
  dsimp only
  rw [h.coverage.lower_eq, h.params.lower_eq, h.offset.toOffset_eq,
    numberOr_eq Number.Respelled.toUInt32_eq h.align]

theorem FieldEntry.Respelled.lower_eq {f f' : FieldEntry} (h : f.Respelled f') (block : String) :
    f'.lower block = f.lower block := by
  cases h with
  | parameter h => rw [lower, lower, h.lower_eq]
  | checksum h => rw [lower, lower, h.lower_eq]

theorem lowerHeader_eq {o o' : Option HeaderEntry} (h : Option.Rel HeaderEntry.Respelled o o')
    (block : String) : lowerHeader block o' = lowerHeader block o := by
  cases h with
  | none => rfl
  | some h => rw [lowerHeader, lowerHeader, h.lower_eq]

theorem BlockEntry.Respelled.lower_eq {b b' : BlockEntry} (h : b.Respelled b') : b'.lower = b.lower := by
  have hfields : b'.fields.mapM (FieldEntry.lower b.name) = b.fields.mapM (FieldEntry.lower b.name) :=
    mapM_eq_of_forall₂ (h.fields.imp fun _ _ hf => hf.lower_eq b.name)
  rw [h.rest, lower, lower]
  dsimp only
  rw [lowerHeader_eq h.header, hfields, h.offset.toOffset_eq, h.length.toUInt32_eq,
    numberOr_eq Number.Respelled.toUInt32_eq h.align,
    numberOr_eq Number.Respelled.toUInt8_eq h.fill]

theorem ContainerEntry.Respelled.lower_eq {c c' : ContainerEntry} (h : c.Respelled c') :
    c'.lower = c.lower := by
  have hblocks : c'.blocks.mapM BlockEntry.lower = c.blocks.mapM BlockEntry.lower :=
    mapM_eq_of_forall₂ (h.blocks.imp fun _ _ hb => hb.lower_eq)
  rw [lower, lower, h.name, h.base.toUInt32_eq, hblocks]

theorem Manifest.Respelled.lower_eq {m m' : Manifest} (h : m.Respelled m') : m'.lower = m.lower := by
  have hcontainers : m'.containers.mapM ContainerEntry.lower =
      m.containers.mapM ContainerEntry.lower :=
    mapM_eq_of_forall₂ (h.containers.imp fun _ _ hc => hc.lower_eq)
  rw [lower, lower, h.name, hcontainers]

/-- **Numbers and their spellings are interchangeable in a manifest.** Each usual spelling of an integer,
with underscores anywhere in it, may stand for it between quotes, and a manifest that has been respelled is
lowered to the same declaration or is refused for the same reason at the same place. -/
theorem spellings_interchangeable :
    (∀ (v : Int) (text : String), v.natAbs < Integer.wordBound →
      text.toList.filter (· ≠ '_') ∈ Integer.spellings v →
        (Number.plain v).Respelled (.quoted text)) ∧
      ∀ m m' : Manifest, m.Respelled m' → m'.lower = m.lower := by
  refine ⟨fun v text hv hmem => ?_, fun _ _ h => h.lower_eq⟩
  have hspelled := Integer.spelled_of_mem_spellings hv hmem
  refine .spelled ?_
  rwa [Integer.bare_eq rfl hspelled]

namespace Specimen

def unquoted : Manifest :=
  { containers := [{
      name := "c"
      base := .plain 4096
      blocks := [{
        name := "b"
        length := .plain 64
        fill := some (.plain 255)
        fields := [.checksum {
          name := "sum"
          type := "uint32"
          coverage := { access := some (.plain 32) }
          params := { polynomial := some (.plain 79764919) } }] }] }] }

def quoted : Manifest :=
  { containers := [{
      name := "c"
      base := .quoted "0x10_00"
      blocks := [{
        name := "b"
        length := .quoted "6_4"
        fill := some (.quoted "0xff")
        fields := [.checksum {
          name := "sum"
          type := "uint32"
          coverage := { access := some (.quoted "0x20") }
          params := { polynomial := some (.quoted "0x4C1_1DB7") } }] }] }] }

theorem quoted_lower : unquoted.Respelled quoted ∧ quoted.lower = unquoted.lower := by
  have hspelled := spellings_interchangeable.1
  have hcoverage : Option.Rel Number.Respelled (some (.plain 32)) (some (.quoted "0x20")) :=
    .some (hspelled 32 "0x20" (by decide) (by decide +kernel))
  have hpolynomial : Option.Rel Number.Respelled (some (.plain 79764919)) (some (.quoted "0x4C1_1DB7")) :=
    .some (hspelled 79764919 "0x4C1_1DB7" (by decide) (by decide +kernel))
  have hfill : Option.Rel Number.Respelled (some (.plain 255)) (some (.quoted "0xff")) :=
    .some (hspelled 255 "0xff" (by decide) (by decide +kernel))
  have hlength : (Number.plain 64).Respelled (.quoted "6_4") :=
    hspelled 64 "6_4" (by decide) (by decide +kernel)
  have hbase : (Number.plain 4096).Respelled (.quoted "0x10_00") :=
    hspelled 4096 "0x10_00" (by decide) (by decide +kernel)
  have hrespelled : unquoted.Respelled quoted :=
    ⟨rfl, .cons ⟨rfl, hbase, .cons ⟨rfl, .same _, hlength, .none, hfill, .none,
      .cons (.checksum ⟨rfl, .same _, .none, ⟨rfl, .none, .none, hcoverage⟩,
        ⟨rfl, hpolynomial, .none⟩⟩) .nil⟩ .nil⟩ .nil⟩
  exact ⟨hrespelled, spellings_interchangeable.2 _ _ hrespelled⟩

end Specimen

end FlashParams
