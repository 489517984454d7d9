import FlashParams.Proofs.Output.Quoted

/-!
# Whether comments stay comments

What is left of the outputs of a declaration when their comments are taken out, for all declarations with
names of letters, digits and underscores. A linker script should leave one assignment for each symbol
(`Layout.LeavesAssignments`), a C source its include line and one definition for each symbol
(`Layout.LeavesDefinitions`). The writers put a blank and a star in front of every line of a comment but
look at nothing inside of it. So it is as it should be exactly when no line of a comment gets out by
itself (`Declaration.outputs_leave_iff`), for which it is enough that no comment has `*/` in it
(`Declaration.outputs_leave_of_plain`).

Definitions are compared with symbols regardless of their order. In the C source the header of a block
comes first, wherever its symbol stands in the table.
-/

set_option autoImplicit false

namespace FlashParams

open Output

/-! ## Definitions of the C source -/

namespace Output.CSource

/-- A text defines a symbol: it is the definition of the header of its block or of its value. -/
inductive Defines (l : Layout) (s : Symbol) : String → Prop
  | header {b : BlockRecord} {h : Header} : b ∈ l.blocks → b.header = some h → s.block = b.name →
      s.kind = .header → s.name = headerSymbolName b.name → Defines l s (headerDefinition b h)
  | value {type : StoredType} {value : Literal} : storedType? s.kind = some type →
      HasValue l s value → Defines l s (definition s type value)

/-- The symbols of a layout in the order of their definitions: in each block the header first. A source
writes the header from the record of its block, in front of all that it takes from symbols. -/
def defined (l : Layout) : List Symbol :=
  l.blocks.flatMap fun b =>
    (l.symbols.inBlock b.name).filter (·.kind = .header)
      ++ (l.symbols.inBlock b.name).filter (·.kind ≠ .header)

theorem perm_defined (l : Layout) : (defined l).Perm (visited l) := by
  refine List.Perm.flatMap_left _ fun b _ => ?_
  have h := List.filter_append_perm (fun s : Symbol => decide (s.kind = .header)) (l.symbols.inBlock b.name)
  simpa using h

theorem forall₂_symbolPieces {l : Layout} {value : Symbol → Literal} {symbols : List Symbol}
    (h : ∀ s ∈ symbols, HasValue l s (value s)) :
    List.Forall₂ (Defines l) (symbols.filter (·.kind ≠ .header))
      ((symbols.flatMap (symbolPieces value)).filterMap Piece.definition?) := by
  induction symbols with
  | nil => exact .nil
  | cons s rest ih =>
    obtain ⟨hvalue, hrest⟩ := List.forall_mem_cons.1 h
    rw [List.flatMap_cons, List.filterMap_append]
    unfold symbolPieces
    cases hkind : s.kind with
    | header =>
      rw [List.filter_cons_of_neg (by simpa using hkind)]
      exact ih hrest
    | parameter type | checksum type =>
      rw [List.filter_cons_of_pos (by simp [hkind])]
      exact .cons (.value (by rw [hkind]; rfl) hvalue) (ih hrest)

variable {value : Symbol → Literal} {l : Layout}

theorem sound_of_mem_pieces (hvalue : ∀ s ∈ l.symbols.entries, HasValue l s (value s))
    (hrecords : ∀ b ∈ l.blocks, IsName b.name ∧ IsName b.container)
    (hsymbols : ∀ s ∈ l.symbols.entries, IsName s.name) {p : Piece} (hp : p ∈ pieces value l) :
    p.Sound := by
  obtain ⟨b, hb, rfl | rfl | ⟨h, -, rfl⟩ | ⟨s, hs, type, htype, rfl⟩⟩ := mem_pieces.1 hp
  · exact hrecords b hb
  · exact (hrecords b hb).1
  · exact (hrecords b hb).1
  · obtain ⟨hmem, -⟩ := SymbolTable.mem_inBlock.1 hs
    obtain ⟨bytes, -, hdecode⟩ := hvalue s hmem type htype
    exact ⟨hsymbols s hmem, bytes, hdecode⟩

theorem confined_pieces_iff (hvisited : (visited l).Perm l.symbols.entries)
    (hheader : ∀ s ∈ l.symbols.entries, s.kind = .header → s.comment = none) :
    (∀ p ∈ pieces value l, Confined .c p.comment) ↔
      (∀ b ∈ l.blocks, Confined .c b.comment) ∧ ∀ s ∈ l.symbols.entries, Confined .c s.comment := by
  constructor
  · intro hall
    refine ⟨fun b hb => hall (.opening b) (mem_pieces.2 ⟨b, hb, .inl rfl⟩), fun s hs => ?_⟩
    cases htype : storedType? s.kind with
    | none =>
      have hkind : s.kind = .header := by
        revert htype
        cases s.kind <;> simp [storedType?]
      rw [hheader s hs hkind]
      exact confined_none .c
    | some type =>
      obtain ⟨b, hb, hin⟩ := List.mem_flatMap.1 (hvisited.mem_iff.2 hs)
      exact hall (.symbol s type (value s))
        (mem_pieces.2 ⟨b, hb, .inr (.inr (.inr ⟨s, hin, type, htype, rfl⟩))⟩)
  · rintro ⟨hblocks, hsymbols⟩ p hp
    obtain ⟨b, hb, rfl | rfl | ⟨h, -, rfl⟩ | ⟨s, hs, type, -, rfl⟩⟩ := mem_pieces.1 hp
    · exact hblocks b hb
    · exact confined_none .c
    · exact confined_none .c
    · exact hsymbols s (SymbolTable.mem_inBlock.1 hs).1

end Output.CSource

/-! ## Compiled layouts -/

def Element.isHeader : Element → Bool
  | header _ => true
  | field _ => false

theorem Block.filter_elements (b : Block) :
    b.elements.filter (·.isHeader) = b.header.toList.map .header := by
  have hfields : ∀ fields : List Field, (fields.map Element.field).filter (·.isHeader) = [] := by
    intro fields
    exact List.filter_eq_nil_iff.2 fun e he => by
      obtain ⟨f, -, rfl⟩ := List.mem_map.1 he
      exact Bool.false_ne_true
  have hheaders : (b.header.toList.map Element.header).filter (·.isHeader) =
      b.header.toList.map .header :=
    List.filter_eq_self.2 fun e he => by
      obtain ⟨h, -, rfl⟩ := List.mem_map.1 he
      rfl
  rw [Block.elements, List.filter_append, hheaders, hfields, List.append_nil]

theorem Element.Describes.isHeader_iff {c : Container} {b : Block} {e : Element} {s : Symbol}
    (h : e.Describes c b s) : e.isHeader = true ↔ s.kind = .header := by
  have hkind := h.kind
  match e with
  | .header _ => exact iff_of_true rfl hkind
  | .field (.parameter _) =>
    obtain ⟨type, -, hkind⟩ := hkind
    exact iff_of_false Bool.false_ne_true (by rw [hkind]; exact SymbolKind.noConfusion)
  | .field (.checksum _) =>
    have hkind : s.kind = _ := hkind
    exact iff_of_false Bool.false_ne_true (by rw [hkind]; exact SymbolKind.noConfusion)

section

variable {parts : List Part} {l : Layout} (h : Consists parts l.image l.symbols l.blocks)
include h

/-- **The header of a block has one symbol.** With more of them, or none, the definitions could not be
matched with the symbols one to one. -/
theorem Consists.headers_inBlock {p : Part} (hp : p ∈ parts) :
    List.Forall₂ (fun header s => Element.Describes p.container p.place.block (.header header) s)
      p.place.block.header.toList
      ((l.symbols.inBlock p.place.block.name).filter (·.kind = .header)) := by
  have hlaid := Part.laid (h.stops p hp) (h.clean p hp)
  have hsymbols : List.Forall₂ (Element.Describes p.container p.place.block) p.place.block.elements
      p.symbols := by
    rw [Part.symbols, List.forall₂_map_right_iff]
    exact hlaid.imp fun e q => Element.describes_of_laid
  have hheaders := List.rel_filter (R := Element.Describes p.container p.place.block)
    (p := Element.isHeader) (q := fun s => decide (s.kind = .header))
    (fun e s hes => hes.isHeader_iff.trans decide_eq_true_iff.symm) hsymbols
  rw [Block.filter_elements, List.forall₂_map_left_iff] at hheaders
  -- there is one header at most, so the order of addresses is the order of entries
  have hperm : ((l.symbols.inBlock p.place.block.name).filter (·.kind = .header)).Perm
      (p.symbols.filter (·.kind = .header)) := by
    have hblock := l.symbols.perm_inBlock p.place.block.name
    rw [h.filter_block hp] at hblock
    exact hblock.filter _
  have hlen := hheaders.length_eq
  generalize p.symbols.filter (·.kind = .header) = symbols at hheaders hperm hlen
  match symbols with
  | [] => rwa [hperm.eq_nil]
  | [s] => rwa [hperm.eq_singleton]
  | _ :: _ :: _ => exact absurd hlen (by cases p.place.block.header <;> simp)

theorem Consists.forall₂_headers {p : Part} (hp : p ∈ parts) :
    List.Forall₂ (CSource.Defines l) ((l.symbols.inBlock p.record.name).filter (·.kind = .header))
      ((p.record.header.toList.map (CSource.Piece.header p.record)).filterMap
        CSource.Piece.definition?) := by
  have hrecord : p.record ∈ l.blocks := h.blocks ▸ List.mem_map_of_mem hp
  have hheaders := (List.forall₂_and_left _ _).2 ⟨fun _ hheader => hheader, h.headers_inBlock hp⟩
  have hdefinitions : (p.record.header.toList.map (CSource.Piece.header p.record)).filterMap
      CSource.Piece.definition? = p.record.header.toList.map (CSource.headerDefinition p.record) := by
    cases p.record.header <;> rfl
  rw [hdefinitions, List.forall₂_map_right_iff]
  refine hheaders.flip.imp fun s header hs => ?_
  obtain ⟨hheader, hdescribed⟩ := hs
  exact .header hrecord (Option.mem_toList.1 hheader) hdescribed.block hdescribed.kind hdescribed.name

theorem Consists.defines_unique : Relator.RightUnique (CSource.Defines l) := by
  rintro s text text' (⟨hb, hheader, hblock, hkind, -⟩ | ⟨htype, hvalue⟩)
    (⟨hb', hheader', hblock', hkind', -⟩ | ⟨htype', hvalue'⟩)
  · have hrecords : (l.blocks.map (·.name)).Nodup := by
      rw [h.blocks, List.map_map]
      exact h.names
    obtain rfl := List.inj_on_of_nodup_map hrecords hb hb' (hblock.symm.trans hblock')
    cases hheader.symm.trans hheader'
    rfl
  · rw [hkind] at htype'
    cases htype'
  · rw [hkind'] at htype
    cases htype
  · cases htype.symm.trans htype'
    obtain ⟨bytes, hbytes, hdecode⟩ := hvalue _ htype
    obtain ⟨bytes', hbytes', hdecode'⟩ := hvalue' _ htype
    cases hbytes.symm.trans hbytes'
    cases hdecode.symm.trans hdecode'
    rfl

/-- What the C source defines are the symbols, in the order of `defined`. Values come from the image and
headers from the records, and here both are brought into the one list that the text follows. -/
theorem Consists.forall₂_defined {value : Symbol → Literal}
    (hvalue : ∀ s ∈ l.symbols.entries, CSource.HasValue l s (value s)) :
    List.Forall₂ (CSource.Defines l) (CSource.defined l)
      ((CSource.pieces value l).filterMap CSource.Piece.definition?) := by
  have hblock : ∀ b ∈ l.blocks, List.Forall₂ (CSource.Defines l)
      ((l.symbols.inBlock b.name).filter (·.kind = .header)
        ++ (l.symbols.inBlock b.name).filter (·.kind ≠ .header))
      ((CSource.blockPieces value l b).filterMap CSource.Piece.definition?) := by
    intro b hb
    have hrecords := h.blocks ▸ hb
    obtain ⟨p, hp, rfl⟩ := List.mem_map.1 hrecords
    have hvalues : ∀ s ∈ l.symbols.inBlock p.record.name, CSource.HasValue l s (value s) :=
      fun s hs => hvalue s (SymbolTable.mem_inBlock.1 hs).1
    have hclosing : [CSource.Piece.closing p.record].filterMap CSource.Piece.definition? = [] := rfl
    rw [CSource.blockPieces, List.filterMap_cons_none rfl, List.filterMap_append,
      List.filterMap_append, hclosing, List.append_nil]
    exact List.rel_append (h.forall₂_headers hp) (CSource.forall₂_symbolPieces hvalues)
  rw [CSource.pieces, flatMap_groups, List.filterMap_flatMap, CSource.defined, List.flatMap_def,
    List.flatMap_def]
  refine List.rel_flatten ?_
  rw [List.forall₂_map_left_iff, List.forall₂_map_right_iff]
  exact List.forall₂_same.2 hblock

end

/-! ## Names and comments -/

def Declaration.ConfinesFields (d : Declaration) (lang : Language) : Prop :=
  ∀ c ∈ d.containers, ∀ b ∈ c.blocks, ∀ f ∈ b.fields, Confined lang f.comment

def Declaration.ConfinesBlocks (d : Declaration) (lang : Language) : Prop :=
  ∀ c ∈ d.containers, ∀ b ∈ c.blocks, Confined lang b.comment

section

variable {d : Declaration} {l : Layout} (h : d.compile = .ok l)
include h

theorem Declaration.isName_record (hnames : d.Named) :
    ∀ b ∈ l.blocks, IsName b.name ∧ IsName b.container := by
  obtain ⟨hconsists, -⟩ := d.consists_of_compile h
  intro b hb
  rw [hconsists.blocks] at hb
  obtain ⟨p, hp, rfl⟩ := List.mem_map.1 hb
  obtain ⟨hc, hblock⟩ := Declaration.block_of_part h hp
  exact ⟨hnames.blocks _ hc _ hblock, hnames.containers _ hc⟩

theorem Declaration.isName_symbol (hnames : d.Named) : ∀ s ∈ l.symbols.entries, IsName s.name := by
  obtain ⟨hconsists, -⟩ := d.consists_of_compile h
  intro s hs
  obtain ⟨p, hp, q, hq, rfl⟩ := hconsists.mem_symbols.1 hs
  obtain ⟨hc, hblock⟩ := Declaration.block_of_part h hp
  obtain ⟨e, he, hlaid⟩ := hconsists.exists_element hp hq
  rw [(Element.describes_of_laid hlaid).name]
  cases e with
  | header _ => exact isName_headerSymbolName (hnames.blocks _ hc _ hblock)
  | field f =>
    exact isName_fieldSymbolName (hnames.blocks _ hc _ hblock)
      (hnames.fields _ hc _ hblock f (Block.field_of_mem_elements he))

theorem Declaration.confined_symbols_iff (lang : Language) :
    (∀ s ∈ l.symbols.entries, Confined lang s.comment) ↔
      d.ConfinesFields lang := by
  obtain ⟨hconsists, -⟩ := d.consists_of_compile h
  constructor
  · intro hall c hc b hb f hf
    obtain ⟨p, hp, rfl, rfl⟩ := Declaration.part_of_mem h hc hb
    obtain ⟨q, hq, hlaid⟩ := hconsists.exists_patch hp (Block.mem_elements_of_field hf)
    have hcomment : q.symbol.comment = f.comment := Element.comment_of_laid hlaid
    exact hcomment ▸ hall q.symbol (hconsists.mem_symbols.2 ⟨p, hp, q, hq, rfl⟩)
  · intro hall s hs
    obtain ⟨p, hp, q, hq, rfl⟩ := hconsists.mem_symbols.1 hs
    obtain ⟨hc, hblock⟩ := Declaration.block_of_part h hp
    obtain ⟨e, he, hlaid⟩ := hconsists.exists_element hp hq
    rw [Element.comment_of_laid hlaid]
    cases e with
    | header _ => exact List.forall_mem_nil _
    | field f => exact hall _ hc _ hblock f (Block.field_of_mem_elements he)

theorem Declaration.confined_records_iff (lang : Language) :
    (∀ b ∈ l.blocks, Confined lang b.comment) ↔
      d.ConfinesBlocks lang := by
  obtain ⟨hconsists, -⟩ := d.consists_of_compile h
  rw [hconsists.blocks, List.forall_mem_map]
  constructor
  · intro hall c hc b hb
    obtain ⟨p, hp, rfl, rfl⟩ := Declaration.part_of_mem h hc hb
    exact hall p hp
  · intro hall p hp
    obtain ⟨hc, hblock⟩ := Declaration.block_of_part h hp
    exact hall _ hc _ hblock

theorem Declaration.comment_of_header : ∀ s ∈ l.symbols.entries, s.kind = .header → s.comment = none := by
  obtain ⟨hconsists, -⟩ := d.consists_of_compile h
  intro s hs hkind
  obtain ⟨p, hp, q, hq, rfl⟩ := hconsists.mem_symbols.1 hs
  obtain ⟨e, -, hlaid⟩ := hconsists.exists_element hp hq
  rw [Element.comment_of_laid hlaid]
  cases e with
  | header _ => rfl
  | field f =>
    exact absurd ((Element.describes_of_laid hlaid).isHeader_iff.2 hkind) Bool.false_ne_true

end

def Declaration.PlainComments (d : Declaration) : Prop :=
  ∀ c ∈ d.containers, ∀ b ∈ c.blocks, (∀ text ∈ b.comment, IsPlain text) ∧
    ∀ f ∈ b.fields, ∀ text ∈ f.comment, IsPlain text

/-! ## What is left of the outputs -/

/-- Without its comments a linker script is one assignment for each symbol and white space. In which
order they come is of no matter to the linker and left open. -/
def Layout.LeavesAssignments (l : Layout) (script : String) : Prop :=
  ∃ symbols : List Symbol, symbols.Perm l.symbols.entries ∧
    Shows (Language.script.strip script) (symbols.map LinkerScript.assignment) 0

/-- Without its comments a C source is the include line, one definition for each symbol and white space. -/
def Layout.LeavesDefinitions (l : Layout) (ctx : Context) (source : String) : Prop :=
  ∃ (symbols : List Symbol) (definitions : List String), symbols.Perm l.symbols.entries ∧
    List.Forall₂ (CSource.Defines l) symbols definitions ∧
      Shows (Language.c.strip source) (CSource.includeLine ctx :: definitions) 0

section

variable {d : Declaration} {l : Layout} (h : d.compile = .ok l) (hnames : d.Named) {ctx : Context}
  (hctx : ctx.Plain)
include h hnames hctx

theorem Declaration.leavesAssignments_iff :
    l.LeavesAssignments (LinkerScript.write l ctx) ↔ d.ConfinesFields .script := by
  obtain ⟨hconsists, -⟩ := d.consists_of_compile h
  have hvisited := hconsists.perm_visited
  have hrecords := Declaration.isName_record h hnames
  have hsymbols := Declaration.isName_symbol h hnames
  have hpasses := LinkerScript.passes_write hctx (fun b hb => (hrecords b hb).2)
    fun s hs => hsymbols s (hvisited.mem_iff.1 hs)
  rw [← Declaration.confined_symbols_iff h]
  constructor
  · rintro ⟨symbols, hperm, hshows⟩ s hs
    have horder : (visited l).Perm symbols := hvisited.trans hperm.symm
    exact hpasses.clean_of_shows (horder.map _) hshows s (hvisited.mem_iff.2 hs)
  · intro hall
    exact ⟨visited l, hvisited, hpasses.shows_strip fun s hs => hall s (hvisited.mem_iff.1 hs)⟩

theorem Declaration.leavesDefinitions_iff : ∃ source, CSource.write l ctx = .ok source ∧
    (l.LeavesDefinitions ctx source ↔ Kept .c ((CSource.includeLine ctx).toList ++ ['\n']) ∧
      d.ConfinesBlocks .c ∧ d.ConfinesFields .c) := by
  obtain ⟨hconsists, -⟩ := d.consists_of_compile h
  have hvisited := hconsists.perm_visited
  have hrecords := Declaration.isName_record h hnames
  have hsymbols := Declaration.isName_symbol h hnames
  obtain ⟨value, hvalue⟩ := hconsists.exists_values
  have hpieces := CSource.passes_textOf fun p hp =>
    CSource.sound_of_mem_pieces hvalue hrecords hsymbols hp
  have hdefined := hconsists.forall₂_defined hvalue
  have horder : (CSource.defined l).Perm l.symbols.entries := (CSource.perm_defined l).trans hvisited
  refine ⟨_, CSource.write_eq hvalue ctx, ?_⟩
  rw [← Declaration.confined_records_iff h, ← Declaration.confined_symbols_iff h,
    ← @CSource.confined_pieces_iff value l hvisited (Declaration.comment_of_header h)]
  constructor
  · rintro ⟨symbols, definitions, hperm, hdefines, hshows⟩
    have hkept := CSource.kept_of_shows_source hctx hshows
    -- in the order of the pieces the symbols have the same definitions
    obtain ⟨others, hothers, hreordered⟩ :=
      List.perm_comp_forall₂ (horder.trans hperm.symm) hdefines
    obtain rfl := List.right_unique_forall₂' hconsists.defines_unique hothers hdefined
    exact ⟨hkept, (CSource.passes_source hctx hkept hpieces).clean_of_shows (hreordered.cons _) hshows⟩
  · rintro ⟨hkept, hclean⟩
    exact ⟨_, _, horder, hdefined, (CSource.passes_source hctx hkept hpieces).shows_strip hclean⟩

/-- **Comments stay comments exactly where no line of them gets out.** For the C source the include line
has to be read as it stands too, since it quotes the base name of the files outside of any comment. -/
theorem Declaration.outputs_leave_iff :
    (l.LeavesAssignments (LinkerScript.write l ctx) ↔ d.ConfinesFields .script) ∧
      ∃ source, CSource.write l ctx = .ok source ∧
        (l.LeavesDefinitions ctx source ↔ Kept .c ((CSource.includeLine ctx).toList ++ ['\n']) ∧
          d.ConfinesBlocks .c ∧ d.ConfinesFields .c) :=
  ⟨Declaration.leavesAssignments_iff h hnames hctx, Declaration.leavesDefinitions_iff h hnames hctx⟩

/-- **Comments without `*/` stay comments**, in all declarations. It is the condition a user can check by
looking, and it is stronger than needed. -/
theorem Declaration.outputs_leave_of_plain (hcomments : d.PlainComments)
    (hkept : Kept .c ((CSource.includeLine ctx).toList ++ ['\n'])) :
    l.LeavesAssignments (LinkerScript.write l ctx) ∧
      ∃ source, CSource.write l ctx = .ok source ∧ l.LeavesDefinitions ctx source := by
  have hfields : ∀ lang, d.ConfinesFields lang := fun lang c hc b hb f hf =>
    confined_of_plain ((hcomments c hc b hb).2 f hf) lang
  have hblocks : ∀ lang, d.ConfinesBlocks lang := fun lang c hc b hb =>
    confined_of_plain (hcomments c hc b hb).1 lang
  obtain ⟨source, hsource, hiff⟩ := Declaration.leavesDefinitions_iff h hnames hctx
  refine ⟨(Declaration.leavesAssignments_iff h hnames hctx).2 (hfields _), source, hsource, ?_⟩
  exact hiff.2 ⟨hkept, hblocks _, hfields _⟩

end

namespace Specimen

def context : Context :=
  ⟨"flashblock", "0.1.0", "in.toml", "out"⟩

theorem plain_context : context.Plain := by
  constructor <;> decide +kernel

theorem named_inscribed : inscribed.Named := by
  constructor <;> decide +kernel

theorem inscribed_outputs_leave_iff : ∃ l, inscribed.compile = .ok l ∧ inscribed.Named ∧
    (l.LeavesAssignments (LinkerScript.write l context) ↔ inscribed.ConfinesFields .script) ∧
      ∃ source, CSource.write l context = .ok source ∧
        (l.LeavesDefinitions context source ↔
          Kept .c ((CSource.includeLine context).toList ++ ['\n']) ∧
            inscribed.ConfinesBlocks .c ∧ inscribed.ConfinesFields .c) := by
  obtain ⟨l, hl⟩ := Declaration.exists_of_isOk_compile (d := inscribed) (by decide +kernel)
  exact ⟨l, hl, named_inscribed, Declaration.outputs_leave_iff hl named_inscribed plain_context⟩

def intruding : Declaration :=
  { name := "intruding"
    containers := [{
      name := "c"
      base := 0
      blocks := [{
        name := "b"
        length := 4
        fields := [.parameter
          ⟨"p", .next, .scalar .u8, 1, .int 1, none, some "*/ intruder = 0x0; /*"⟩] }] }] }

/-- What stands in the middle gets into the linker script and into the C source. -/
theorem intruding_gets_out : ∃ l, intruding.compile = .ok l ∧ intruding.Named ∧ context.Plain ∧
    ¬ l.LeavesAssignments (LinkerScript.write l context) ∧
      ∃ source, CSource.write l context = .ok source ∧ ¬ l.LeavesDefinitions context source := by
  obtain ⟨l, hl⟩ := Declaration.exists_of_isOk_compile (d := intruding) (by decide +kernel)
  have hnames : intruding.Named := by
    constructor <;> decide +kernel
  have hout : ∀ lang, ¬ intruding.ConfinesFields lang := by
    intro lang hall
    have hcomment := confined_some_iff.1 (hall _ List.mem_cons_self _ List.mem_cons_self _
      List.mem_cons_self)
    revert hcomment
    cases lang <;> decide +kernel
  obtain ⟨source, hwrite, hiff⟩ := Declaration.leavesDefinitions_iff hl hnames plain_context
  exact ⟨l, hl, hnames, plain_context,
    mt (Declaration.leavesAssignments_iff hl hnames plain_context).1 (hout _),
    source, hwrite, fun hleaves => hout _ (hiff.1 hleaves).2.2⟩

/-- A base name that closes the quotes of the include line and opens a comment. -/
def quoting : Context :=
  { context with basename := "out\"/*" }

/-- The include line is lost, whatever the comments of the declaration are. -/
theorem inscribed_quoting_gets_out : quoting.Plain ∧ ∃ l source, inscribed.compile = .ok l ∧
    CSource.write l quoting = .ok source ∧ ¬ l.LeavesDefinitions quoting source := by
  obtain ⟨l, hl⟩ := Declaration.exists_of_isOk_compile (d := inscribed) (by decide +kernel)
  have hplain : quoting.Plain := by
    constructor <;> decide +kernel
  have hline : ¬ Kept .c ((CSource.includeLine quoting).toList ++ ['\n']) := by
    simp only [CSource.includeLine, String.toList_append]
    decide +kernel
  obtain ⟨source, hwrite, hiff⟩ := Declaration.leavesDefinitions_iff hl named_inscribed hplain
  exact ⟨hplain, l, source, hl, hwrite, fun hleaves => hline (hiff.1 hleaves).1⟩

end Specimen

end FlashParams
