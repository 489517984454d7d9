import FlashParams.Proofs.Assembly.Verified
import FlashParams.Proofs.Revision.Override

/-!
# Where an override shows

An overridden declaration compiles to the same blocks with the same symbols. What differs is bytes, and
`Layout.Effect` says which: those of the parameters that were changed and those of checksums that cover a
byte that differs. A checksum may cover other checksums, so the second case can lead from one checksum to
the next before it ends at a parameter.

The two layouts are compared block by block. Since they have the same records and the same symbols, a
block and its elements are found under the same names in both and at the same addresses (`Part.Twin`);
nothing has to be laid side by side. An address without a symbol holds the fill byte in both. One with a
symbol holds bytes of an element, and what an element becomes depends on its literal or on the bytes it
covers.
-/

set_option autoImplicit false

namespace FlashParams

/-! ## What may differ -/

def Layout.DiffersAt (l l' : Layout) (a : UInt32) : Prop :=
  l'.image.byteAt? a ≠ l.image.byteAt? a

def Symbol.Holds (s : Symbol) (a : UInt32) : Prop :=
  s.address.toNat ≤ a.toNat ∧ a.toNat < s.stop

/-- A checksum at `address`, in a block at `base`, covers an address. It is read off the declaration, so
that what an override may change can be told without compiling anything. -/
def Checksum.Covers (c : Checksum) (base address a : UInt32) : Prop :=
  base.toNat + c.coverage.first.toNat ≤ a.toNat ∧
    match c.coverage.last with
    | .fixed distance => a.toNat ≤ base.toNat + distance.toNat
    | .beforeSelf => a.toNat < address.toNat

def Layout.InChanged (l : Layout) (d : Declaration) (name : String) (a : UInt32) : Prop :=
  ∃ c b p s, d.Changes name c b p ∧
    l.symbols.get? (fieldSymbolName b.name p.name) = some s ∧ s.Holds a

/-- An address belongs to a checksum that covers one of the addresses two layouts differ at. Those may
again belong to a checksum: one that covers another changes with it. -/
def Layout.InRecomputed (l l' : Layout) (d : Declaration) (a : UInt32) : Prop :=
  ∃ c ∈ d.containers, ∃ b ∈ c.blocks, ∃ k, .checksum k ∈ b.fields ∧
    ∃ r s, l.blocks.find? (·.name = b.name) = some r ∧
      l.symbols.get? (fieldSymbolName b.name k.name) = some s ∧ s.Holds a ∧
      ∃ a', k.Covers r.address s.address a' ∧ l.DiffersAt l' a'

/-- All that an override of this name may do to the layout of a declaration. Its last member bounds the
differences from above; it does not say that the new literal has other bytes. -/
structure Layout.Effect (l : Layout) (d : Declaration) (name : String) (l' : Layout) : Prop where
  blocks : l'.blocks = l.blocks
  symbols : l'.symbols = l.symbols
  addresses : ∀ a, (∃ byte, (a, byte) ∈ l'.image.bytes) ↔ ∃ byte, (a, byte) ∈ l.image.bytes
  differences : ∀ a, l.DiffersAt l' a → l.InChanged d name a ∨ l.InRecomputed l' d a

/-! ## The bytes of a symbol -/

section

variable {parts : List Part} {image : Image} {symbols : SymbolTable} {blocks : List BlockRecord}
  (h : Consists parts image symbols blocks) {a : UInt32}
include h

theorem Consists.exists_part {byte : UInt8} (ha : image.byteAt? a = some byte) :
    ∃ r ∈ blocks, r.address.toNat ≤ a.toNat ∧ a.toNat < r.stop :=
  h.mem_bytes_iff.1 ⟨byte, h.wellFormed.mem_bytes.2 (h.wellFormed.byteAt?_eq a ▸ ha)⟩

theorem Consists.byteAt?_patch {p : Part} (hp : p ∈ parts) {q : Patch} (hq : q ∈ p.sheet.patches)
    (ha : q.symbol.Holds a) : image.byteAt? a = q.bytes[a.toNat - q.symbol.address.toNat]? := by
  obtain ⟨hfrom, hto⟩ := ha
  have hfits := h.fits hp hq
  have hlow := hfits.low
  have hends := hfits.ends
  rw [Symbol.stop, ← hfits.sized] at hto hends
  rw [h.byteAt?_part hp (by omega) (by rw [PlacedBlock.stop]; omega)]
  conv => rhs; rw [← h.window_patch hp hq]
  rw [List.getElem?_take_of_lt (by omega), List.getElem?_drop]
  congr 1
  omega

end

theorem ChecksumJob.Sound.covers {block : Block} {base : UInt32} {job : ChecksumJob}
    (h : job.Sound block base) {a : UInt32} (hlow : job.first.toNat ≤ a.toNat)
    (hhigh : a.toNat ≤ job.last.toNat) : job.checksum.Covers base job.place.address a := by
  obtain ⟨hfirst, hlast⟩ := Checksum.eq_of_range h.range
  refine ⟨by omega, ?_⟩
  cases hend : job.checksum.coverage.last with
  | fixed distance =>
    rw [hend] at hlast
    dsimp only at hlast ⊢
    omega
  | beforeSelf =>
    have hfront := h.lt_of_beforeSelf hend
    rw [hend] at hlast
    dsimp only at hlast ⊢
    omega

/-! ## The same block twice -/

section

variable {target : Option String × String} {value : Literal}

def Element.override (target : Option String × String) (value : Literal) (b : Block) :
    Element → Element
  | .header h => .header h
  | .field f => .field (f.override target value b)

theorem Field.isChecksum_override (b : Block) (f : Field) :
    (f.override target value b).isChecksum = f.isChecksum := by
  cases f <;> rfl

theorem Parameter.name_override (b : Block) (p : Parameter) :
    (p.override target value b).name = p.name := by
  unfold Parameter.override
  split <;> rfl

theorem Element.symbolName_override (b : Block) (e : Element) :
    (e.override target value b).symbolName (b.override target value) = e.symbolName b := by
  match e with
  | .header _ => rfl
  | .field (.parameter p) => exact congrArg (fieldSymbolName b.name) (p.name_override b)
  | .field (.checksum _) => rfl

theorem Block.elements_override (b : Block) :
    (b.override target value).elements = b.elements.map (Element.override target value b) := by
  have hfilter : ∀ keep : Field → Bool, (∀ f, keep (f.override target value b) = keep f) →
      (b.override target value).fields.filter keep =
        (b.fields.filter keep).map (Field.override target value b) := by
    intro keep hkeep
    rw [Block.override, List.filter_map]
    exact congrArg _ (List.filter_congr fun f _ => hkeep f)
  unfold Block.elements
  rw [hfilter (!·.isChecksum) fun f => congrArg (!·) (f.isChecksum_override b),
    hfilter (·.isChecksum) fun f => f.isChecksum_override b]
  simp only [List.map_append, List.map_map]
  rfl

end

/-- A part and, in the overridden declaration, the part of the same block at the same address. Comparing
the two element by element shows where their bytes can differ. -/
structure Part.Twin (target : Option String × String) (value : Literal) (p p' : Part) : Prop where
  block : p'.place.block = p.place.block.override target value
  address : p'.place.address = p.place.address

section

variable {d : Declaration} {l l' : Layout} {name : String} {value : Literal}
  (hl : d.compile = .ok l) (hl' : (d.override name value).compile = .ok l')

include hl hl' in
theorem Declaration.exists_twin (hblocks : l'.blocks = l.blocks) {p : Part} (hp : p ∈ d.parts) :
    ∃ p' ∈ (d.override name value).parts, p.Twin (splitTarget name) value p' := by
  obtain ⟨hc, hb⟩ := Declaration.block_of_part hl hp
  have hb' : p.place.block.override (splitTarget name) value ∈
      (p.container.override (splitTarget name) value).blocks := Container.mem_override hb
  obtain ⟨p', hp', -, hblock⟩ := Declaration.part_of_mem hl' (Declaration.mem_override hc) hb'
  have hrecord := (d.consists_of_compile hl).1.find_record hp
  have hrecord' := (Declaration.consists_of_compile hl').1.find_record hp'
  rw [hblock, hblocks] at hrecord'
  have hsame : p'.record = p.record := Option.some.inj (hrecord'.symm.trans hrecord)
  exact ⟨p', hp', hblock, congrArg BlockRecord.address hsame⟩

end

namespace Part.Twin

variable {target : Option String × String} {value : Literal} {l l' : Layout} {parts parts' : List Part}
  (h : Consists parts l.image l.symbols l.blocks)
  (h' : Consists parts' l'.image l'.symbols l'.blocks) (hsymbols : l'.symbols = l.symbols)
  {p p' : Part} (hp : p ∈ parts) (hp' : p' ∈ parts') (htwin : p.Twin target value p')
include h h' hsymbols hp hp' htwin

/-- An element has its symbol in both. Kinds and sizes agree because the new literal is stored as the old
one was. -/
theorem of_element {e : Element} {q : Patch} (hq : q ∈ p.sheet.patches)
    (hlaid : e.Laid p.container p.place.block p.place.address p.bytes q)
    (he : e ∈ p.place.block.elements) :
    ∃ q' ∈ p'.sheet.patches, (e.override target value p.place.block).Laid p'.container
      p'.place.block p'.place.address p'.bytes q' ∧ q'.symbol = q.symbol := by
  have he' : e.override target value p.place.block ∈ p'.place.block.elements := by
    rw [htwin.block, Block.elements_override]
    exact List.mem_map_of_mem he
  obtain ⟨q', hq', hlaid'⟩ := h'.exists_patch hp' he'
  have hname : q'.symbol.name = q.symbol.name := by
    rw [(Element.describes_of_laid hlaid').name, (Element.describes_of_laid hlaid).name,
      htwin.block, e.symbolName_override]
  -- one table, one name, one symbol
  have hfound := h'.get?_symbol hp' hq'
  rw [hname, hsymbols, h.get?_symbol hp hq] at hfound
  exact ⟨q', hq', hlaid', (Option.some.inj hfound).symm⟩

theorem symbol_of_patch {q' : Patch} (hq' : q' ∈ p'.sheet.patches) :
    ∃ q ∈ p.sheet.patches, q'.symbol = q.symbol := by
  obtain ⟨e', he', hlaid'⟩ := h'.exists_element hp' hq'
  rw [htwin.block, Block.elements_override] at he'
  obtain ⟨e, he, rfl⟩ := List.mem_map.1 he'
  obtain ⟨q, hq, hlaid⟩ := h.exists_patch hp he
  obtain ⟨r', hr', hlaidr, hsymbol⟩ := of_element h h' hsymbols hp hp' htwin hq hlaid he
  have hname : q'.symbol.name = r'.symbol.name := by
    rw [(Element.describes_of_laid hlaid').name, (Element.describes_of_laid hlaidr).name]
  have hfound := h'.get?_symbol hp' hq'
  rw [hname, h'.get?_symbol hp' hr'] at hfound
  exact ⟨q, hq, (Option.some.inj hfound).symm.trans hsymbol⟩

theorem exists_symbol {a : UInt32} (hlow : p.place.address.toNat ≤ a.toNat)
    (hhigh : a.toNat < p.place.stop) (ha : l.DiffersAt l' a) :
    ∃ q ∈ p.sheet.patches, q.symbol.Holds a := by
  refine by_contra fun hnone => ha ?_
  have hout : ∀ q ∈ p.sheet.patches, ¬ q.symbol.Holds a := fun q hq hin => hnone ⟨q, hq, hin⟩
  have hout' : ∀ q' ∈ p'.sheet.patches, ¬ q'.symbol.Holds a := fun q' hq' => by
    obtain ⟨q, hq, hsymbol⟩ := symbol_of_patch h h' hsymbols hp hp' htwin hq'
    rw [hsymbol]
    exact hout q hq
  have hlow' : p'.place.address.toNat ≤ a.toNat := by rwa [htwin.address]
  have hhigh' : a.toNat < p'.place.stop := by
    rw [PlacedBlock.stop, htwin.address, htwin.block]
    exact hhigh
  have hfill := h.byteAt?_outside hp hlow hhigh hout
  have hfill' := h'.byteAt?_outside hp' hlow' hhigh' hout'
  rw [hfill, hfill', htwin.block]
  rfl

omit hsymbols in
/-- The bytes of a checksum differ only if bytes it covers do: its configuration has not changed, and a
checksum is a function of that and of the bytes. -/
theorem exists_covered {k : Checksum} {q q' : Patch}
    (hlaid : Element.Laid p.container p.place.block p.place.address p.bytes
      (.field (.checksum k)) q)
    (hlaid' : Element.Laid p'.container p'.place.block p'.place.address p'.bytes
      (.field (.checksum k)) q')
    (hsymbol : q'.symbol = q.symbol) (hne : q'.bytes ≠ q.bytes) :
    ∃ a', k.Covers p.place.address q.symbol.address a' ∧ l.DiffersAt l' a' := by
  obtain ⟨job, rfl, hsound, value, hvalue, rfl⟩ := hlaid
  obtain ⟨job', hk, hsound', value', hvalue', rfl⟩ := hlaid'
  have haddress : job'.place.address = job.place.address := congrArg Symbol.address hsymbol
  obtain ⟨hfirst, hlast⟩ := Checksum.eq_of_range hsound.range
  obtain ⟨hfirst', hlast'⟩ := Checksum.eq_of_range hsound'.range
  rw [hk, htwin.address, ← hfirst] at hfirst'
  rw [hk, htwin.address, haddress, ← hlast] at hlast'
  have hread : l.image.read? job.first job.last = some (job.covered p.place.address p.bytes) :=
    h.read?_part hp hsound.low hsound.forward hsound.inside
  have hread' : l'.image.read? job'.first job'.last =
      some (job'.covered p'.place.address p'.bytes) :=
    h'.read?_part hp' hsound'.low hsound'.forward hsound'.inside
  rw [UInt32.toNat_inj.1 hfirst', UInt32.toNat_inj.1 hlast'] at hread'
  have hcovered : job'.covered p'.place.address p'.bytes ≠ job.covered p.place.address p.bytes := by
    -- over the same bytes the value would be the same
    intro hsame
    rw [hsame, ChecksumJob.valueOver, hk] at hvalue'
    cases hvalue.symm.trans hvalue'
    refine hne ?_
    rw [hk, htwin.block]
    rfl
  obtain ⟨a', hlow, hhigh, ha'⟩ := h.wellFormed.exists_ne_of_read? h'.wellFormed hread hread' hcovered
  exact ⟨a', hsound.covers hlow hhigh, ha'⟩

omit h h' hsymbols hp hp' in
theorem bytes_eq {e : Element} {q q' : Patch}
    (hlaid : e.Laid p.container p.place.block p.place.address p.bytes q)
    (hlaid' : e.Laid p'.container p'.place.block p'.place.address p'.bytes q')
    (hliteral : ∀ k, e ≠ .field (.checksum k)) : q'.bytes = q.bytes := by
  match e with
  | .header header =>
    rw [hlaid, hlaid', htwin.block]
    rfl
  | .field (.parameter r) =>
    obtain ⟨-, type, -, hstored, hbytes, -⟩ := hlaid
    obtain ⟨-, type', -, hstored', hbytes', -⟩ := hlaid'
    cases hstored.symm.trans hstored'
    rw [htwin.block] at hbytes'
    exact (Except.ok.inj (hbytes.symm.trans hbytes')).symm
  | .field (.checksum k) => exact absurd rfl (hliteral k)

end Part.Twin

/-! ## The whole layout -/

section

variable {d : Declaration} {l l' : Layout} {name : String} {value : Literal}

/-- **Where an override shows there is a parameter it changes or a checksum over such a place.** By the
two lemmas above every other element keeps its bytes, and outside of all elements both images have the
fill byte. -/
theorem Declaration.differences_override (hl : d.compile = .ok l)
    (hl' : (d.override name value).compile = .ok l') (hblocks : l'.blocks = l.blocks)
    (hsymbols : l'.symbols = l.symbols) {a : UInt32} (ha : l.DiffersAt l' a) :
    l.InChanged d name a ∨ l.InRecomputed l' d a := by
  have h := (d.consists_of_compile hl).1
  have h' := (Declaration.consists_of_compile hl').1
  -- one of the images has a byte there, and then both do
  obtain ⟨r, hr, hlow, hhigh⟩ : ∃ r ∈ l.blocks, r.address.toNat ≤ a.toNat ∧ a.toNat < r.stop := by
    cases hbyte : l.image.byteAt? a with
    | some byte => exact h.exists_part hbyte
    | none =>
      rw [Layout.DiffersAt, hbyte] at ha
      obtain ⟨byte, hbyte'⟩ := Option.ne_none_iff_exists'.1 ha
      rw [← hblocks]
      exact h'.exists_part hbyte'
  rw [h.blocks] at hr
  obtain ⟨p, hp, rfl⟩ := List.mem_map.1 hr
  obtain ⟨hc, hb⟩ := Declaration.block_of_part hl hp
  obtain ⟨p', hp', htwin⟩ := Declaration.exists_twin hl hl' hblocks hp
  obtain ⟨q, hq, hin⟩ := htwin.exists_symbol h h' hsymbols hp hp' hlow hhigh ha
  obtain ⟨e, he, hlaid⟩ := h.exists_element hp hq
  obtain ⟨q', hq', hlaid', hsymbol⟩ := htwin.of_element h h' hsymbols hp hp' hq hlaid he
  have hne : q'.bytes ≠ q.bytes := fun hsame => ha (by
    rw [h.byteAt?_patch hp hq hin, h'.byteAt?_patch hp' hq' (hsymbol ▸ hin), hsame, hsymbol])
  have hfound := h.get?_symbol hp hq
  rw [(Element.describes_of_laid hlaid).name] at hfound
  rcases e with header | r | k
  · exact absurd (htwin.bytes_eq hlaid hlaid' (by simp)) hne
  · by_cases hnamed : r.Named (splitTarget name) p.place.block
    · exact .inl ⟨p.container, p.place.block, r, q.symbol,
        ⟨hc, hb, Block.field_of_mem_elements he, hnamed⟩, hfound, hin⟩
    · rw [Element.override, Field.override, Parameter.override_of_not_named hnamed] at hlaid'
      exact absurd (htwin.bytes_eq hlaid hlaid' (by simp)) hne
  · exact .inr ⟨p.container, hc, p.place.block, hb, k, Block.field_of_mem_elements he, p.record,
      q.symbol, h.find_record hp, hfound, hin,
      htwin.exists_covered h h' hp hp' hlaid hlaid' hsymbol hne⟩

/-- **An override changes nothing it should not.** It compiles exactly if the new literal has bytes wherever
it is put, and then the layout is the same but for those bytes and the checksums over them. -/
theorem Declaration.compile_assign {d' : Declaration} {n : Nat} (h : d.compile = .ok l)
    (hassign : d.assign name value = (d', .ok n))
    (htypes : ∀ c b p, d.Changes name c b p → p.type.stored value = p.type.stored p.value) :
    ((∃ l', d'.compile = .ok l') ↔ ∀ c b p, d.Changes name c b p → p.Accepts b value) ∧
      ∀ l', d'.compile = .ok l' → l.Effect d name l' := by
  have hoverride : d' = d.override name value := by
    rw [← Declaration.override_of_assign (congrArg Prod.snd hassign), hassign]
  rw [hoverride]
  refine ⟨Declaration.compiles_override_iff h htypes, fun l' hl' => ?_⟩
  obtain ⟨hblocks, hsymbols⟩ := Declaration.outline_override h htypes hl'
  refine ⟨hblocks, hsymbols, fun a => ?_, fun a ha =>
    Declaration.differences_override h hl' hblocks hsymbols ha⟩
  rw [(d.consists_of_compile h).1.mem_bytes_iff,
    (Declaration.consists_of_compile hl').1.mem_bytes_iff, hblocks]

end

namespace Specimen

/-- The bytes of a parameter are exchanged, and one of the two checksums of its block covers them. -/
theorem declaration_compile_assign :
    ∃ d' l l', declaration.compile = .ok l ∧
      declaration.assign "calibration.gain" (.int 0x4321) = (d', .ok 1) ∧ d'.compile = .ok l' ∧
      l.image.byteAt? 0x1014 = some 0x12 ∧ l'.image.byteAt? 0x1014 = some 0x43 ∧
      l.Effect declaration "calibration.gain" l' := by
  have hbefore : declaration.compile.toOption.any
      (fun l => l.image.byteAt? 0x1014 = some 0x12) = true := by decide +kernel
  have hafter : (declaration.assign "calibration.gain" (.int 0x4321)).1.compile.toOption.any
      (fun l => l.image.byteAt? 0x1014 = some 0x43) = true := by decide +kernel
  have htypes : ∀ c b p, declaration.Changes "calibration.gain" c b p →
      p.type.stored (.int 0x4321) = p.type.stored p.value := by
    rintro c b p ⟨hc, hb, hp, -⟩
    rcases List.mem_pair.1 hc with rfl | rfl
    · cases List.mem_singleton.1 hb
      simp only [calibration, List.mem_cons, List.not_mem_nil, Field.parameter.injEq, reduceCtorEq,
        false_or, or_false] at hp
      rw [hp]
      rfl
    · cases List.mem_singleton.1 hb
      cases hp
  have hassign : declaration.assign "calibration.gain" (.int 0x4321) =
      ((declaration.assign "calibration.gain" (.int 0x4321)).1, .ok 1) := by rfl
  cases hl : declaration.compile with
  | error rejection =>
    rw [hl] at hbefore
    cases hbefore
  | ok l =>
    cases hl' : (declaration.assign "calibration.gain" (.int 0x4321)).1.compile with
    | error rejection =>
      rw [hl'] at hafter
      cases hafter
    | ok l' =>
      rw [hl] at hbefore
      rw [hl'] at hafter
      exact ⟨_, l, l', rfl, hassign, hl', of_decide_eq_true hbefore, of_decide_eq_true hafter,
        (Declaration.compile_assign hl hassign htypes).2 l' hl'⟩

end Specimen

end FlashParams
