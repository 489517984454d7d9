import FlashParams.Proofs.Output.Comment
import FlashParams.Proofs.Output.Complete
import FlashParams.Proofs.Output.Initializer

/-!
# Generated texts, read without their comments

The pieces of a linker script and of a C source, each as a reader finds it who takes the comments out
(`Passes`): a banner and the lines about containers and blocks leave nothing, a symbol leaves its
assignment or its definition. Names of letters, digits and underscores open and close nothing (`Inert`),
and neither do numbers; text in an initializer stands in a literal. What is left open are the comments
that a user wrote, so whether a piece is clean comes down to whether its comment is `Confined`.

The include line of a C source quotes a name that nobody has checked, the one of the header file. A
source leaves that line if and only if the line by itself is read as it stands (`passes_source`,
`kept_of_shows_source`).
-/

set_option autoImplicit false

namespace FlashParams

/-- A name of ASCII letters, digits and underscores. Declarations are not held to such names by the code,
but a name that is none would not be one for the linker or the compiler either. -/
def IsName (s : String) : Prop :=
  ∀ c ∈ s.toList, c.isAlphanum = true ∨ c = '_'

instance (s : String) : Decidable (IsName s) :=
  List.decidableBAll _ s.toList

theorem IsName.append {s t : String} (hs : IsName s) (ht : IsName t) : IsName (s ++ t) := by
  unfold IsName
  rw [String.toList_append]
  exact List.forall_mem_append.2 ⟨hs, ht⟩

theorem isName_fieldSymbolName {block field : String} (hblock : IsName block) (hfield : IsName field) :
    IsName (fieldSymbolName block field) :=
  (hblock.append (by decide)).append hfield

theorem isName_headerSymbolName {block : String} (hblock : IsName block) :
    IsName (headerSymbolName block) :=
  isName_fieldSymbolName hblock (by decide +kernel)

structure Declaration.Named (d : Declaration) : Prop where
  containers : ∀ c ∈ d.containers, IsName c.name
  blocks : ∀ c ∈ d.containers, ∀ b ∈ c.blocks, IsName b.name
  fields : ∀ c ∈ d.containers, ∀ b ∈ c.blocks, ∀ f ∈ b.fields, IsName f.name

def Element.comment : Element → Option String
  | header _ => none
  | field f => f.comment

theorem Element.comment_of_laid {c : Container} {b : Block} {base : UInt32} {bytes : List UInt8}
    {e : Element} {q : Patch} (h : e.Laid c b base bytes q) : q.symbol.comment = e.comment := by
  match e with
  | .header _ =>
    rw [h]
    rfl
  | .field (.parameter p) =>
    obtain ⟨place, type, hocc, -, -, hsymbol⟩ := h
    rw [hsymbol, PlacedField.symbol, hocc]
    rfl
  | .field (.checksum k) =>
    obtain ⟨job, rfl, hsound, value, -, rfl⟩ := h
    rw [PlacedField.symbol, hsound.occupant]
    rfl

namespace Output

def commentLines (comment : Option String) : List String :=
  (comment.map Text.linesOf).getD []

/-- A comment that stays inside of comments when it is written there: each line of it does. Lines are
written one by one, each with a front of its own, so a `*/` cannot come about across them. -/
def Confined (lang : Language) (comment : Option String) : Prop :=
  ∀ line ∈ commentLines comment, Enclosed lang line.toList

theorem confined_some_iff {lang : Language} {text : String} :
    Confined lang (some text) ↔ ∀ line ∈ Text.lines text.toList, Enclosed lang line := by
  simp [Confined, commentLines, Text.linesOf]

def IsPlain (s : String) : Prop :=
  ¬ ['*', '/'] <:+: s.toList

instance (s : String) : Decidable (IsPlain s) :=
  inferInstanceAs (Decidable (¬ _))

structure Context.Plain (ctx : Context) : Prop where
  tool : IsPlain ctx.tool
  version : IsPlain ctx.version
  input : IsPlain ctx.input
  basename : IsPlain ctx.basename

section

variable {lang : Language}

theorem IsPlain.enclosed {s : String} (h : IsPlain s) (lang : Language) : Enclosed lang s.toList :=
  enclosed_of_not_infix h

theorem confined_of_plain {comment : Option String} (h : ∀ text ∈ comment, IsPlain text)
    (lang : Language) : Confined lang comment := by
  cases comment with
  | none => exact List.forall_mem_nil _
  | some text =>
    refine confined_some_iff.2 fun line hline => enclosed_of_not_infix fun hin => ?_
    exact h text rfl (hin.trans (Text.infix_of_mem_lines hline))

theorem Enclosed.prepend {front s : List Char} (hfront : lang.run .comment front = (.comment, []))
    (hs : Enclosed lang s) : Enclosed lang (front ++ s) := by
  rw [Enclosed, Language.run_append_of_eq hfront]
  exact hs

theorem enclosed_cons_blank {s : List Char} : Enclosed lang (' ' :: s) ↔ Enclosed lang s :=
  Iff.rfl

/-! ## Texts that open nothing -/

def Inert (s : String) : Prop :=
  ∀ c ∈ s.toList, IsInert c

instance (s : String) : Decidable (Inert s) :=
  List.decidableBAll _ s.toList

theorem Inert.append {s t : String} (hs : Inert s) (ht : Inert t) : Inert (s ++ t) := by
  unfold Inert
  rw [String.toList_append]
  exact List.forall_mem_append.2 ⟨hs, ht⟩

theorem Inert.kept {s : String} (h : Inert s) (lang : Language) : Kept lang s.toList :=
  kept_of_inert h

theorem isInert_of_isAlphanum {c : Char} (h : c.isAlphanum = true) : IsInert c := by
  refine ⟨?_, ?_, ?_⟩ <;> (rintro rfl; revert h; decide)

theorem inert_of_isNumeric {s : String} (h : ∀ c ∈ s.toList, IsNumeric c) : Inert s := by
  intro c hc
  rcases h c hc with h | rfl | rfl
  · exact isInert_of_isAlphanum h
  · decide
  · decide

theorem inert_of_isName {s : String} (h : IsName s) : Inert s := by
  intro c hc
  rcases h c hc with h | rfl
  · exact isInert_of_isAlphanum h
  · decide

theorem inert_decimal (n : Nat) : Inert (Numeral.decimal n) :=
  inert_of_isNumeric fun c hc => Numeral.isNumeric_write c (Numeral.toList_decimal n ▸ hc)

theorem inert_hexPadded (width n : Nat) : Inert (Numeral.hexPadded width n) := by
  refine inert_of_isNumeric fun c hc => ?_
  rw [Numeral.hexPadded, String.toList_ofList] at hc
  exact Numeral.isNumeric_padStart Numeral.isNumeric_write c hc

theorem inert_addressLower (a : UInt32) : Inert (Numeral.addressLower a) := by
  have hlower : ∀ d, IsInert (Numeral.digitChar d).toLower := by
    intro d
    unfold Numeral.digitChar
    split <;> decide
  have hdigits : Inert (Numeral.hexLower a.toNat) := by
    intro c hc
    rw [Numeral.hexLower, Numeral.write, String.toList_ofList, List.map_map] at hc
    obtain ⟨d, -, rfl⟩ := List.mem_map.1 hc
    exact hlower d
  exact Inert.append (by decide) hdigits

/-! ## Pieces of every text -/

theorem Inert.enclosed {s : String} (h : Inert s) (lang : Language) : Enclosed lang s.toList :=
  enclosed_of_not_infix fun hin => (h '/' (hin.subset (by simp))).1 rfl

theorem passes_remark {s : String} (h : Inert s) : Passes lang ("/*" ++ s ++ " */").toList [] True := by
  have hremark := Passes.remark (h.enclosed lang)
  rw [String.toList_append, String.toList_append, List.append_assoc]
  exact hremark

theorem passes_newline (lang : Language) : Passes lang "\n".toList [] True :=
  Passes.of_blank (by decide)

/-- The banner of a text is a comment. It quotes the program, the input and the file, whose names are no
names of the declaration and are asked about in the context. -/
theorem passes_banner {ctx : Context} (h : ctx.Plain) {remarks : List String}
    (hremarks : ∀ r ∈ remarks, Enclosed lang r.toList) :
    Passes lang (banner ctx remarks).toList [] True := by
  have hfirst : Enclosed lang (" AUTOGENERATED by " ++ ctx.tool ++ " " ++ ctx.version).toList := by
    have hversion : Enclosed lang (' ' :: ctx.version.toList) :=
      enclosed_cons_blank.2 (h.version.enclosed lang)
    have hopening : lang.run .comment " AUTOGENERATED by ".toList = (.comment, []) := by
      cases lang <;> decide
    simpa using Enclosed.prepend hopening ((h.tool.enclosed lang).append (by decide) hversion)
  have hinput : Enclosed lang ("input: " ++ ctx.input).toList := by
    have hopening : lang.run .comment "input: ".toList = (.comment, []) := by
      cases lang <;> decide
    simpa using Enclosed.prepend hopening (h.input.enclosed lang)
  have hnotice : Enclosed lang "!! DO NOT EDIT MANUALLY !!".toList := by
    cases lang <;> decide
  have hcomment := (Passes.block lang (" AUTOGENERATED by " ++ ctx.tool ++ " " ++ ctx.version)
    (remarks ++ ["input: " ++ ctx.input, "!! DO NOT EDIT MANUALLY !!"])).append
    (passes_newline lang)
  have htext : (banner ctx remarks).toList = ("/*" ++ (" AUTOGENERATED by " ++ ctx.tool ++ " "
      ++ ctx.version) ++ "\n" ++ String.join ((remarks ++ ["input: " ++ ctx.input,
        "!! DO NOT EDIT MANUALLY !!"]).map fun line => " * " ++ line ++ "\n") ++ " */\n").toList ++
      "\n".toList := by
    show ("/* AUTOGENERATED by " ++ ctx.tool ++ " " ++ ctx.version ++ "\n" ++ String.join (remarks.map
      fun r => " * " ++ r ++ "\n") ++ (" * input: " ++ ctx.input ++ "\n")
        ++ " * !! DO NOT EDIT MANUALLY !!\n */\n\n").toList = _
    simp [String.toList_join]
  rw [htext]
  refine hcomment.congr (iff_of_true ⟨⟨hfirst, List.forall_mem_append.2 ⟨hremarks, ?_⟩⟩, trivial⟩ trivial)
  exact List.forall_mem_cons.2 ⟨hinput, List.forall_mem_singleton.2 hnotice⟩

end

namespace LinkerScript

theorem inert_assignment {s : Symbol} (h : IsName s.name) : Inert (assignment s) := by
  have hblanks : Inert (String.ofList (List.replicate (nameWidth - s.name.length) ' ')) := by
    intro c hc
    rw [String.toList_ofList] at hc
    rw [List.eq_of_mem_replicate hc]
    decide
  exact ((((inert_of_isName h).append hblanks).append (by decide)).append
    (inert_addressLower s.address)).append (by decide)

/-- A symbol leaves its assignment, and beyond that what its comment lets out. All three forms of the
writer come to the same, though the comment stands behind the assignment in one and in front of it in
another. -/
theorem passes_symbolText {s : Symbol} (h : IsName s.name) :
    Passes .script (symbolText s).toList [assignment s] (Confined .script s.comment) := by
  have hassignment := Passes.of_kept ((inert_assignment h).kept .script)
  unfold symbolText Confined commentLines
  generalize (s.comment.map Text.linesOf).getD [] = lines
  match lines with
  | [] =>
    rw [String.toList_append]
    exact (hassignment.append (passes_newline .script)).congr (by simp)
  | [line] =>
    have hcomment := Passes.comment (' ' :: line.toList) (Closes.closing .script)
    have hblank : Passes .script [' '] [] True := Passes.of_blank (by decide)
    have hall := hassignment.append (hblank.append hcomment)
    rw [List.forall_mem_singleton]
    show Passes .script (assignment s ++ (" /* " ++ line ++ " */\n")).toList _ _
    simpa [enclosed_cons_blank] using hall
  | line :: next :: rest =>
    have hempty : Enclosed .script [] := by decide
    have hblock := (Passes.block .script "" (line :: next :: rest)).congr (and_iff_right hempty)
    have hall := hblock.append (hassignment.append (passes_newline .script))
    show Passes .script ("/*\n" ++ String.join ((line :: next :: rest).map
      fun line => " * " ++ line ++ "\n") ++ " */\n" ++ assignment s ++ "\n").toList _ _
    simpa using hall

def Piece.Named : Piece → Prop
  | opening container | closing container => IsName container
  | gap => True
  | symbol s => IsName s.name

theorem passes_piece {p : Piece} (h : p.Named) :
    Passes .script p.text.toList (p.symbol?.toList.map assignment)
      (∀ s ∈ p.symbol?, Confined .script s.comment) := by
  cases p with
  | opening container =>
    have hquoted : Inert (" Begin flash container " ++ container) :=
      Inert.append (by decide +kernel) (inert_of_isName h)
    exact (passes_remark hquoted).congr (by simp [Piece.symbol?])
  | gap => exact (passes_newline .script).congr (by simp [Piece.symbol?])
  | symbol s => exact (passes_symbolText h).congr (by simp [Piece.symbol?])
  | closing container =>
    have hquoted : Inert (" End flash container " ++ container) :=
      Inert.append (by decide +kernel) (inert_of_isName h)
    have hclosing := (passes_remark hquoted).append (passes_newline .script)
    show Passes .script ("/* End flash container " ++ container ++ " */\n").toList _ _
    simpa [Piece.symbol?] using hclosing

theorem container_of_mem_groups {l : Layout} {group : String × List BlockRecord}
    (h : group ∈ groups l) : ∃ b ∈ l.blocks, b.container = group.1 := by
  unfold groups at h
  revert h
  induction l.blocks with
  | nil => exact fun h => absurd h List.not_mem_nil
  | cons b rest ih =>
    intro h
    rw [List.foldr_cons] at h
    generalize rest.foldr consGroup [] = others at h ih
    -- the first of the other groups is kept or put behind a new one
    have hcases : group.1 = b.container ∨ group ∈ others := by
      unfold consGroup at h
      split at h
      · rename_i name blocks later
        split at h
        · rename_i hname
          exact (List.mem_cons.1 h).imp (fun e => (congrArg Prod.fst e).trans hname)
            (List.mem_cons_of_mem _)
        · exact (List.mem_cons.1 h).imp (congrArg Prod.fst) id
      · exact .inl (congrArg Prod.fst (List.mem_singleton.1 h))
    rcases hcases with hname | hmem
    · exact ⟨b, List.mem_cons_self, hname.symm⟩
    · obtain ⟨c, hc, hname⟩ := ih hmem
      exact ⟨c, List.mem_cons_of_mem _ hc, hname⟩

theorem named_of_mem_pieces {l : Layout} (hblocks : ∀ b ∈ l.blocks, IsName b.container)
    (hsymbols : ∀ s ∈ visited l, IsName s.name) {p : Piece} (h : p ∈ pieces l) : p.Named := by
  obtain ⟨group, hgroup, hp⟩ := List.mem_flatMap.1 h
  obtain ⟨b, hb, hcontainer⟩ := container_of_mem_groups hgroup
  have hname : IsName group.1 := hcontainer ▸ hblocks b hb
  rcases List.mem_cons.1 hp with rfl | hp
  · exact hname
  rcases List.mem_append.1 hp with hp | hp
  · obtain ⟨c, -, hp⟩ := List.mem_flatMap.1 hp
    rcases List.mem_cons.1 hp with rfl | hp
    · trivial
    · obtain ⟨s, -, rfl⟩ := List.mem_map.1 hp
      refine hsymbols s ?_
      rw [← symbols_pieces]
      exact List.mem_filterMap.2 ⟨.symbol s, h, rfl⟩
  · rw [List.mem_singleton.1 hp]
    exact hname

theorem toList_textOf (pieces : List Piece) :
    (textOf pieces).toList = pieces.flatMap fun p => p.text.toList := by
  rw [textOf, String.toList_join, List.flatMap_map]

theorem passes_preamble {ctx : Context} (h : ctx.Plain) :
    Passes .script (preamble ctx).toList [] True := by
  have hfile : Enclosed .script (ctx.basename.toList ++ '.' :: "ld'".toList) :=
    (h.basename.enclosed .script).append (by decide) (by decide)
  have hopening : Language.script.run .comment
      "GNU Linker script definitions - include to main script using 'INCLUDE ".toList = (.comment, []) := by
    decide +kernel
  have hremark : Enclosed .script ("GNU Linker script definitions - include to main script using 'INCLUDE "
      ++ (ctx.basename ++ "." ++ "ld") ++ "'").toList := by
    have happend := Enclosed.prepend hopening hfile
    simpa using happend
  exact passes_banner h (List.forall_mem_singleton.2 hremark)

/-- **A linker script leaves its assignments**, and nothing else if and only if no comment of a symbol
gets out. -/
theorem passes_write {l : Layout} {ctx : Context} (hctx : ctx.Plain)
    (hblocks : ∀ b ∈ l.blocks, IsName b.container) (hsymbols : ∀ s ∈ visited l, IsName s.name) :
    Passes .script (write l ctx).toList ((visited l).map assignment)
      (∀ s ∈ visited l, Confined .script s.comment) := by
  have hpieces := Passes.flatMap fun p hp => passes_piece (named_of_mem_pieces hblocks hsymbols hp)
  have hitems : (pieces l).flatMap (fun p => p.symbol?.toList.map assignment) =
      ((pieces l).filterMap Piece.symbol?).map assignment := by
    rw [List.filterMap_eq_flatMap_toList, List.map_flatMap]
  have hall := (passes_preamble hctx).append hpieces
  rw [hitems, symbols_pieces] at hall
  rw [write_eq, String.toList_append, toList_textOf]
  refine hall.congr ?_
  simp only [true_and, ← symbols_pieces, List.mem_filterMap, Option.mem_def]
  exact ⟨fun h s ⟨p, hp, hs⟩ => h p hp s hs, fun h p hp s hs => h s ⟨p, hp, hs⟩⟩

end LinkerScript

/-! ## C source -/

namespace CSource

theorem passes_commentText {front : String} (hfront : Inert front) (comment : Option String) :
    Passes .c ("/*" ++ front ++ "\n" ++ commentText comment).toList [] (Confined .c comment) := by
  cases comment with
  | none =>
    have hblock := (Passes.block .c front []).congr (and_iff_right (hfront.enclosed .c))
    simpa [commentText, Confined, commentLines] using hblock
  | some text =>
    have hfirst : Inert (front ++ "\n *") := hfront.append (by decide)
    have hblock := (Passes.block .c (front ++ "\n *") (Text.linesOf text)).congr
      (and_iff_right (hfirst.enclosed .c))
    show Passes .c ("/*" ++ front ++ "\n" ++ (" *\n" ++ String.join ((Text.linesOf text).map
      fun line => " * " ++ line ++ "\n") ++ " */\n")).toList [] (∀ line ∈ Text.linesOf text, _)
    simpa using hblock

/-! ### Definitions -/

theorem inert_scalar {item : Literal} (h : item.IsNumber) : Inert (scalar item) :=
  inert_of_isNumeric (isNumeric_scalar h)

theorem inert_values {items : List Literal} (h : ∀ item ∈ items, item.IsNumber) (index : Nat) :
    Inert (values index items) := by
  fun_induction values index items with
  | case1 => exact List.forall_mem_nil _
  | case2 index item => exact inert_scalar (h item List.mem_cons_self)
  | case3 index item rest hrest ih =>
    obtain ⟨hitem, hothers⟩ := List.forall_mem_cons.1 h
    refine (((inert_scalar hitem).append (by decide)).append ?_).append (ih hothers)
    split <;> decide

/-- An initializer is read as it stands. Numbers have no slash or quote in them, and the literal of a
text closes where it should; neither is looked at again afterwards. -/
theorem kept_initializerOf {type : StoredType} {order : ByteOrder} {bytes : List UInt8}
    {value : Literal} (h : type.decode order bytes = .ok value) :
    Kept .c (initializerOf value).toList := by
  cases type with
  | scalar t =>
    obtain ⟨-, rfl⟩ := StoredType.decode_scalar_eq_ok.1 h
    have hitem := t.isNumber_decode order bytes
    cases hvalue : t.decode order bytes with
    | int v => exact (@inert_scalar (.int v) trivial).kept .c
    | float x => exact (@inert_scalar (.float x) trivial).kept .c
    | str s | array items =>
      rw [hvalue] at hitem
      exact hitem.elim
  | array t n =>
    obtain ⟨-, rfl⟩ := StoredType.decode_array_eq_ok.1 h
    exact ((Inert.append (by decide) (inert_values Scalar.isNumber_decodeAll 0)).append
      (by decide)).kept .c
  | text n =>
    obtain ⟨-, s, rfl, -⟩ := StoredType.decode_text_eq_ok.1 h
    have hline : '\n' ∉ bodyText (Text.utf8Bytes s) := fun hmem =>
      absurd (isPrintable_bodyText _ hmem) (by decide)
    have htext : (initializerOf (.str s)).toList =
        '"' :: (bodyText (Text.utf8Bytes s) ++ ['"']) := by
      rw [initializerOf, String.toList_append, String.toList_append, toList_join_charText]
      rfl
    rw [htext]
    exact kept_literal (body_bodyText _) hline

theorem inert_declaration {s : Symbol} (hname : IsName s.name) (type : StoredType) :
    Inert (declaration s type) := by
  have hsymbol := inert_of_isName hname
  have htype : ∀ t : Scalar, Inert ("volatile const " ++ t.cName ++ " ") := by
    intro t
    cases t <;> decide +kernel
  cases type with
  | scalar t => exact (htype t).append hsymbol
  | array t n =>
    exact ((((htype t).append hsymbol).append (by decide)).append (inert_decimal n)).append (by decide)
  | text n =>
    have hopening : Inert "volatile const char " := by decide +kernel
    exact (((hopening.append hsymbol).append (by decide)).append (inert_decimal n)).append (by decide)

def definition (s : Symbol) (type : StoredType) (value : Literal) : String :=
  declaration s type ++ " = " ++ initializerOf value ++ ";"

theorem kept_definition {s : Symbol} (hname : IsName s.name) {type : StoredType} {order : ByteOrder}
    {bytes : List UInt8} {value : Literal} (h : type.decode order bytes = .ok value) :
    Kept .c (definition s type value).toList := by
  have hequals : Inert " = " := by decide
  have hend : Inert ";" := by decide
  unfold definition
  rw [String.toList_append, String.toList_append]
  exact ((((inert_declaration hname type).append hequals).kept .c).append (kept_initializerOf h)).append
    (hend.kept .c)

def headerDefinition (b : BlockRecord) (h : Header) : String :=
  let word (w : UInt16) : String := "    0x" ++ Numeral.hexPadded 4 w.toNat ++ ",\n"
  "volatile const pargen_header_type_t " ++ headerSymbolName b.name ++ " =\n\x7b\n" ++ word h.id
    ++ word h.major ++ word h.minor ++ word h.dataVersion ++ "    0x00000000,\n    0x"
    ++ Numeral.hexPadded 8 b.length.toNat ++ "\n\x7d;"

theorem headerText_eq (b : BlockRecord) (h : Header) :
    headerText .source b h = headerDefinition b h ++ "\n\n" := by
  have hend : "\n\x7d;\n\n" = "\n\x7d;" ++ "\n\n" := by decide
  unfold headerText headerDefinition
  dsimp only
  rw [hend]
  exact String.append_assoc.symm

theorem inert_headerDefinition {b : BlockRecord} (hname : IsName b.name) (h : Header) :
    Inert (headerDefinition b h) := by
  have hopening : Inert "volatile const pargen_header_type_t " := by decide +kernel
  have hsymbol := inert_of_isName (isName_headerSymbolName hname)
  have hword : ∀ w : UInt16, Inert ("    0x" ++ Numeral.hexPadded 4 w.toNat ++ ",\n") := fun w =>
    (Inert.append (by decide) (inert_hexPadded 4 w.toNat)).append (by decide)
  have hreserved : Inert "    0x00000000,\n    0x" := by decide +kernel
  exact ((((((((hopening.append hsymbol).append (by decide)).append (hword h.id)).append
    (hword h.major)).append (hword h.minor)).append (hword h.dataVersion)).append hreserved).append
      (inert_hexPadded 8 b.length.toNat)).append (by decide)

/-! ### Pieces -/

namespace Piece

def Sound : Piece → Prop
  | opening b => IsName b.name ∧ IsName b.container
  | header b _ | closing b => IsName b.name
  | symbol s type value =>
    IsName s.name ∧ ∃ bytes, type.decode s.byteOrder bytes = .ok value

def definition? : Piece → Option String
  | header b h => some (headerDefinition b h)
  | symbol s type value => some (definition s type value)
  | opening _ | closing _ => none

def comment : Piece → Option String
  | opening b => b.comment
  | symbol s _ _ => s.comment
  | header _ _ | closing _ => none

end Piece

theorem confined_none (lang : Language) : Confined lang none :=
  List.forall_mem_nil _

theorem passes_gap : Passes .c "\n\n".toList [] True :=
  Passes.of_blank (by decide)

theorem passes_piece {p : Piece} (h : p.Sound) :
    Passes .c (p.text .source).toList p.definition?.toList (Confined .c p.comment) := by
  cases p with
  | opening b =>
    have hquoted : Inert (" BEGIN Block " ++ b.name ++ " in container " ++ b.container ++ " @ "
        ++ Numeral.addressLower b.address) :=
      (((((Inert.append (by decide +kernel) (inert_of_isName h.1)).append (by decide +kernel)).append
        (inert_of_isName h.2)).append (by decide)).append (inert_addressLower b.address))
    have hcomment := passes_commentText hquoted b.comment
    show Passes .c ("/* BEGIN Block " ++ b.name ++ " in container " ++ b.container ++ " @ "
      ++ Numeral.addressLower b.address ++ "\n" ++ commentText b.comment).toList []
        (Confined .c b.comment)
    simpa using hcomment
  | header b header =>
    have hdefinition := Passes.of_kept ((inert_headerDefinition h header).kept .c)
    show Passes .c (headerText .source b header).toList [headerDefinition b header] _
    rw [headerText_eq, String.toList_append]
    exact (hdefinition.append passes_gap).congr (iff_of_true ⟨trivial, trivial⟩ (confined_none .c))
  | symbol s type value =>
    obtain ⟨hname, bytes, hdecode⟩ := h
    have hquoted : Inert (" Parameter " ++ s.name ++ " @ " ++ Numeral.addressLower s.address) :=
      ((Inert.append (by decide +kernel) (inert_of_isName hname)).append (by decide)).append
        (inert_addressLower s.address)
    have hcomment := passes_commentText hquoted s.comment
    have hdefinition := (Passes.of_kept (kept_definition hname hdecode)).append passes_gap
    have hall := hcomment.append hdefinition
    show Passes .c (("/* Parameter " ++ s.name ++ " @ " ++ Numeral.addressLower s.address ++ "\n"
      ++ commentText s.comment) ++ declaration s type ++ " = " ++ initializerOf value
        ++ ";\n\n").toList [definition s type value] (Confined .c s.comment)
    simpa [definition] using hall
  | closing b =>
    have hquoted : Inert (" END Block " ++ b.name ++ "\n") :=
      (Inert.append (by decide +kernel) (inert_of_isName h)).append (by decide)
    have hremark := ((passes_remark hquoted).append passes_gap).congr
      (iff_of_true ⟨trivial, trivial⟩ (confined_none .c))
    show Passes .c ("/* END Block " ++ b.name ++ "\n */\n\n").toList [] (Confined .c none)
    simpa using hremark

theorem passes_textOf {pieces : List Piece} (h : ∀ p ∈ pieces, p.Sound) :
    Passes .c (textOf .source pieces).toList (pieces.filterMap Piece.definition?)
      (∀ p ∈ pieces, Confined .c p.comment) := by
  rw [textOf, String.toList_join, List.flatMap_map, List.filterMap_eq_flatMap_toList]
  exact Passes.flatMap fun p hp => passes_piece (h p hp)

/-! ### The include line -/

/-- The only line of a C source that is not of its pieces. It quotes a file name, and nothing that is
written around that keeps it from opening a comment. -/
def includeLine (ctx : Context) : String :=
  "#include \"" ++ (ctx.basename ++ ".h") ++ "\""

theorem toList_preamble (ctx : Context) : (preamble ctx).toList =
    (banner ctx []).toList ++ (((includeLine ctx).toList ++ ['\n']) ++ ['\n']) := by
  show (banner ctx [] ++ ("#include \"" ++ (ctx.basename ++ "." ++ "h") ++ "\"\n\n")).toList = _
  simp [includeLine]

theorem append_cons_inj {front front' : List Char} (h : ink front = 0) (h' : ink front' = 0) {x : Char}
    (hx : x.isWhitespace = false) {rest rest' : List Char}
    (heq : front ++ x :: rest = front' ++ x :: rest') : rest = rest' := by
  have htake : ∀ {s t : List Char}, ink s = 0 → (s ++ x :: t).takeWhile Char.isWhitespace = s := by
    intro s t hs
    rw [List.takeWhile_append_of_pos (ink_eq_zero_iff.1 hs), List.takeWhile_cons_of_neg (by simp [hx]),
      List.append_nil]
  have hfront : front = front' := by
    rw [← htake (t := rest) h, heq, htake h']
  subst hfront
  exact (List.cons.inj (List.append_cancel_left heq)).2

/-- Where the line opens a comment it is not found in what is left. A comment leaves a blank where it
opens, and the line has a slash there. -/
theorem kept_of_shows {ctx : Context} {front after : List Char} {items : List String}
    (hfront : ink front = 0)
    (h : Shows (front ++ ((Language.c.run .code ((includeLine ctx).toList ++ ['\n'])).2 ++ after))
      (includeLine ctx :: items) 0) :
    Kept .c ((includeLine ctx).toList ++ ['\n']) := by
  obtain ⟨name, hname⟩ : ∃ name, (includeLine ctx).toList = name ++ ['"'] :=
    ⟨"#include \"".toList ++ (ctx.basename ++ ".h").toList, by simp [includeLine]⟩
  obtain ⟨tail, htail⟩ : ∃ tail, (includeLine ctx).toList = '#' :: tail := by
    refine ⟨"include \"".toList ++ (ctx.basename ++ ".h\"").toList, ?_⟩
    simp [includeLine]
  rcases run_code_cases ((includeLine ctx).toList ++ ['\n']) with ⟨hmode, hleft⟩ | ⟨a, b, more, hopen, hout⟩
  -- a line that ends with a quote ends outside of literals
  · have hends : ∀ m, (Language.c.run m ['"', '\n']).1 = .code ∨
        (Language.c.run m ['"', '\n']).1.inComment = true := by
      decide
    have hcode : (Language.c.run .code ((includeLine ctx).toList ++ ['\n'])).1 = .code := by
      rw [hname, List.append_assoc, Language.run_append] at hmode ⊢
      refine (hends _).resolve_right fun hcomment => ?_
      exact Bool.false_ne_true (hmode.symm.trans hcomment)
    rw [hcode] at hleft
    exact Prod.ext hcode ((List.append_nil _).symm.trans hleft)
  -- what is left has a blank where the line has the slash
  · exfalso
    obtain ⟨front', rest, hfront', heq⟩ := h.exists_of_cons
    rw [hout, htail] at heq
    rw [htail] at hopen
    cases a with
    | nil => exact absurd (List.cons.inj hopen).1 (by decide)
    | cons x a =>
      obtain ⟨hx, htext⟩ := List.cons.inj hopen
      subst hx
      have hrest : a ++ ' ' :: more ++ after = tail ++ rest :=
        append_cons_inj hfront hfront' (by decide) heq
      have hslash : (tail ++ ['\n'])[a.length]? = some '/' := by
        rw [show tail ++ ['\n'] = a ++ '/' :: '*' :: b from htext]
        simp
      have hblank : (tail ++ rest)[a.length]? = some ' ' := by
        rw [← hrest]
        simp
      have hinside : a.length < tail.length := by
        by_contra hle
        rw [List.getElem?_append_right (by omega)] at hslash
        have hlast := List.mem_singleton.1 (List.mem_of_getElem? hslash)
        exact absurd hlast (by decide)
      rw [List.getElem?_append_left hinside] at hslash hblank
      exact absurd (hslash.symm.trans hblank) (by decide)

theorem toList_source (ctx : Context) (body : String) : (preamble ctx ++ body).toList =
    (banner ctx []).toList ++ (((includeLine ctx).toList ++ ['\n']) ++ (['\n'] ++ body.toList)) := by
  rw [String.toList_append, toList_preamble]
  simp only [List.append_assoc]

/-- **A source leaves its include line and what its pieces define**, if the line is read as it stands. -/
theorem passes_source {ctx : Context} (hctx : ctx.Plain)
    (hkept : Kept .c ((includeLine ctx).toList ++ ['\n'])) {body : String} {items : List String}
    {clean : Prop} (hbody : Passes .c body.toList items clean) :
    Passes .c (preamble ctx ++ body).toList (includeLine ctx :: items) clean := by
  have hbanner : Passes .c (banner ctx []).toList [] True := passes_banner hctx (List.forall_mem_nil _)
  have hline : Passes .c ((includeLine ctx).toList ++ ['\n']) [includeLine ctx] True :=
    ⟨_, 0, hkept, @Shows.item [] (includeLine ctx) ['\n'] [] 0 (.rest ['\n']), iff_of_true rfl trivial⟩
  rw [toList_source]
  exact (hbanner.append (hline.append ((passes_newline .c).append hbody))).congr (by simp)

theorem kept_of_shows_source {ctx : Context} (hctx : ctx.Plain) {body : String} {items : List String}
    (h : Shows (Language.c.strip (preamble ctx ++ body)) (includeLine ctx :: items) 0) :
    Kept .c ((includeLine ctx).toList ++ ['\n']) := by
  have hbanner : Passes .c (banner ctx []).toList [] True := passes_banner hctx (List.forall_mem_nil _)
  obtain ⟨out, others, hrun, hshows, hothers⟩ := hbanner
  have hout : ink out = 0 := hshows.ink_eq.trans (by simpa using hothers.2 trivial)
  rw [Language.strip, toList_source, Language.run_append_of_eq hrun, Language.run_append] at h
  exact kept_of_shows hout (by simpa only [List.append_assoc] using h)

end CSource

end Output

end FlashParams
