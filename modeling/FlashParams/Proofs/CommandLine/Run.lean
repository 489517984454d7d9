import FlashParams.CommandLine.Run
import FlashParams.Proofs.Assembly.Measured
import FlashParams.Proofs.Assembly.Run
import FlashParams.Proofs.CommandLine.Job
import FlashParams.Proofs.Hex.RoundTrip

/-!
# From arguments to files

A run reads, decides, and only then writes. On a disk in memory the first two are functions of the tree
the run starts from: whatever only looks gives a value and leaves the tree as it is
(`expandArguments_tree`, `Options.prepare_tree`), and reports no file. So what a run has written is what
a job has written, and the job is that of the layout which the manifest and the overrides compile to
(`job_of_wrote`). With what is known of jobs and of the text of an image, this says what the files of a
run hold (`run_writes_compiled`).
-/

set_option autoImplicit false

namespace FlashParams

open Disk (Tree)
open Output (File Format)

/-- A declaration with an override applied, if that is possible. What `assign` has changed before it
failed is dropped: a run that cannot apply an override stops there, and no one sees the half of it. -/
def Declaration.assigned (d : Declaration) (o : Override) : Except Fault Declaration :=
  match d.assign o.name o.value with
  | (changed, .ok _) => .ok changed
  | (_, .error fault) => .error fault

namespace CommandLine

/-! ## Lines that report no file -/

/-- Lines of which none reports a file. Log entries and messages may be among them. What a run prints
before it writes depends on the log filter and is of no interest here; that it claims no file is. -/
def Quiet (lines : List Line) : Prop :=
  ∀ p, .wrote p ∉ lines

namespace Quiet

variable {lines more : List Line}

theorem nil : Quiet [] :=
  fun _ => List.not_mem_nil

theorem append (h : Quiet lines) (h' : Quiet more) : Quiet (lines ++ more) :=
  fun p hp => (List.mem_append.1 hp).elim (h p) (h' p)

theorem log (level : Log.Level) (message : String) (source : Log.Source) :
    Quiet [.log level message source] :=
  fun _ hp => Line.noConfusion (List.mem_singleton.1 hp)

theorem report (text : String) : Quiet [.report text] :=
  fun _ hp => Line.noConfusion (List.mem_singleton.1 hp)

theorem entries (journal : List Log.Entry) : Quiet (journal.map Line.entry) := fun _ hp => by
  obtain ⟨e, -, he⟩ := List.mem_map.1 hp
  cases he

end Quiet

/-! ## From a manifest to a layout -/

theorem applyOverrides_spec (overrides : List Override) (d : Declaration) :
    Quiet (applyOverrides overrides d).1 ∧
      (applyOverrides overrides d).2 = overrides.foldlM Declaration.assigned d := by
  induction overrides generalizing d with
  | nil => exact ⟨.nil, rfl⟩
  | cons o rest ih =>
    rw [applyOverrides, List.foldlM_cons, Declaration.assigned]
    obtain ⟨⟨changed, outcome⟩, hassign⟩ : ∃ out, d.assign o.name o.value = out := ⟨_, rfl⟩
    rw [hassign]
    cases outcome with
    | error fault => exact ⟨.nil, rfl⟩
    | ok count =>
      obtain ⟨hquiet, hresult⟩ := ih changed
      refine ⟨Quiet.append ?_ hquiet, hresult⟩
      dsimp only
      split
      · exact .log _ _ _
      · exact .nil

theorem layoutOf_spec (shown : String) (d : Declaration) :
    Quiet (layoutOf shown d).1 ∧ ∀ l, (layoutOf shown d).2 = .ok l → d.compile? = some (.ok l) := by
  unfold layoutOf Declaration.compile?
  cases d.assembly? with
  | none => exact ⟨.nil, fun l h => nomatch h⟩
  | some assembly =>
    dsimp only
    rw [Option.map_some]
    cases assembly.finish with
    | ok l =>
      refine ⟨.entries _, fun l' h => ?_⟩
      cases h
      rfl
    | error rejection =>
      refine ⟨Quiet.append (Quiet.append (.entries _) fun p hp => ?_) (.report _),
        fun l h => nomatch h⟩
      obtain ⟨diagnostic, -, he⟩ := List.mem_map.1 hp
      cases he

/-- **A layout that is built is the one its manifest and the overrides compile to.** Overrides are
applied one after the other; the first that fails ends the run with no layout. -/
theorem build_spec (readers : Readers) (shown : String) (overrides : List Override)
    (manifest : Manifest) :
    Quiet (build readers shown overrides manifest).1 ∧
      ∀ l, (build readers shown overrides manifest).2 = .ok l →
        ∃ d d', manifest.lower = .ok d ∧
          overrides.foldlM Declaration.assigned d = .ok d' ∧ d'.compile? = some (.ok l) := by
  unfold build
  cases manifest.lower with
  | error fault =>
    dsimp only
    split
    · exact ⟨.entries _, fun l h => nomatch h⟩
    · exact ⟨Quiet.append (.entries _) (.log _ _ _), fun l h => nomatch h⟩
    · contradiction
  | ok d =>
    obtain ⟨hnotes, happlied⟩ := applyOverrides_spec overrides d
    obtain ⟨⟨notes, outcome⟩, hout⟩ : ∃ out, applyOverrides overrides d = out := ⟨_, rfl⟩
    dsimp only
    rw [hout] at hnotes happlied ⊢
    cases outcome with
    | error fault =>
      exact ⟨((Quiet.entries _).append hnotes).append (.log _ _ _), fun l h => nomatch h⟩
    | ok d' =>
      obtain ⟨hlines, hcompile⟩ := layoutOf_spec shown d'
      exact ⟨((Quiet.entries _).append hnotes).append hlines,
        fun l h => ⟨d, d', rfl, happlied.symm, hcompile l h⟩⟩

/-! ## Reading -/

def Options.manifestText (o : Options) (t : Tree) : Except Disk.Fault String :=
  if o.fromInput then Tree.decode t.input else t.readText o.input

theorem readManifest_tree (o : Options) (t : Tree) :
    (o.readManifest : StateM Tree _) t = (o.manifestText t, t) := by
  unfold Options.readManifest Options.manifestText
  split <;> rfl

def Options.isPresent (o : Options) (t : Tree) : Bool :=
  o.fromInput || t.isFile o.input

theorem Options.bind_isPresent {α : Type} (o : Options) (t : Tree) (rest : Bool → StateM Tree α) :
    (if o.fromInput then pure true >>= rest else ReadableDisk.isFile o.input >>= rest) t =
      rest (o.isPresent t) t := by
  unfold Options.isPresent
  cases o.fromInput <;> rfl

theorem bind_id {α β : Type} (x : Id α) (f : α → Id β) : (x >>= f) = f x :=
  rfl

/-- A computation that only looks gives its value to what follows. Reading a run as a chain of such steps
is what lets the disk stay `t` all the way up to the first write. -/
theorem bind_of_looks {α β : Type} {x : StateM Tree α} {a : α} {t : Tree} (h : x t = (a, t))
    (f : α → StateM Tree β) : (x >>= f) t = f a t := by
  rw [bind_tree, h]

theorem expandEach_tree {expand : Argument → StateM Tree (Except ArgumentFault (List Argument))}
    {value : Argument → Id (Except ArgumentFault (List Argument))} {t : Tree}
    (h : ∀ word, expand word t = (value word, t)) (words : List Argument) :
    expandEach expand words t = (expandEach value words, t) := by
  induction words with
  | nil => rfl
  | cons word rest ih =>
    rw [expandEach, expandEach, bind_id, bind_of_looks (h word)]
    cases value word with
    | error fault => rfl
    | ok words =>
      dsimp only
      rw [bind_id, bind_of_looks ih]
      cases expandEach value rest with
      | error fault => rfl
      | ok others => rfl

def fileText (t : Tree) (path : String) : Except Disk.Fault String :=
  t.readText (Path.ofText path)

theorem expandWord_tree (t : Tree) (levels : Nat) (word : Argument) :
    (expandWord (fun path => ReadableDisk.readText (Path.ofText path)) levels word :
        StateM Tree _) t =
      (expandWord (m := Id) (fileText t) levels word, t) := by
  induction levels generalizing word with
  | zero =>
    rw [expandWord, expandWord]
    cases argumentFile? word with
    | none => rfl
    | some path => rfl
  | succ levels ih =>
    rw [expandWord, expandWord]
    cases argumentFile? word with
    | none => rfl
    | some path =>
      dsimp only
      have hread : (ReadableDisk.readText (Path.ofText path) : StateM Tree _) t =
          (fileText t path, t) := rfl
      rw [bind_of_looks hread, bind_id]
      cases fileText t path with
      | error cause => rfl
      | ok text => exact expandEach_tree ih _

/-- The words of an invocation, on the disk a run starts from. Nothing is written while arguments are
expanded, so the expansion can be taken with the disk as a function and outside the state monad. -/
def invocation (arguments : List Argument) (t : Tree) : Except ArgumentFault (List Argument) :=
  expandArguments (m := Id) (fileText t) arguments

theorem expandArguments_tree (arguments : List Argument) (t : Tree) :
    (expandArguments (fun path => ReadableDisk.readText (Path.ofText path)) arguments :
        StateM Tree _) t =
      (invocation arguments t, t) :=
  expandEach_tree (expandWord_tree t nestingLimit) arguments

/-! ## Deciding -/

section

variable (readers : Readers)

/-- What a run is to compile, on the disk it starts from: the declaration that its manifest is lowered to,
with all its overrides applied, in the order in which they are given. What is a manifest, and which
values the overrides have, the readers say. -/
def Options.Declares (o : Options) (t : Tree) (d : Declaration) : Prop :=
  ∃ text overrides manifest written, o.manifestText t = .ok text ∧
    o.overrides.mapM (Override.read readers.table?) = .ok overrides ∧
      readers.manifest text = .ok manifest ∧ manifest.lower = .ok written ∧
        overrides.foldlM Declaration.assigned written = .ok d

/-- What a run is to write, on the disk it starts from: the layout its declaration compiles to. -/
def Options.Compiles (o : Options) (t : Tree) (l : Layout) : Prop :=
  ∃ d, o.Declares readers t d ∧ d.compile? = some (.ok l)

end

variable {readers : Readers}

theorem exists_of_map_eq_ok {ε α β : Type} {x : Except ε α} {f : α → β} {b : β}
    (h : x.map f = .ok b) : ∃ a, x = .ok a ∧ b = f a := by
  cases x with
  | error e => cases h
  | ok a => exact ⟨a, rfl, (Except.ok.inj h).symm⟩

/-- **Deciding changes nothing, reports no file and decides for a layout of the manifest.** Everything a
run does before its first write is in `prepare`, so that this one statement covers all ways of being
rejected. -/
theorem Options.prepare_tree (readers : Readers) (o : Options) (t : Tree) :
    ∃ lines result, (o.prepare readers : StateM Tree _) t = ((lines, result), t) ∧ Quiet lines ∧
      ∀ job, result = .ok job → ∃ l, o.Compiles readers t l ∧ job = o.job l := by
  unfold Options.prepare
  rw [o.bind_isPresent]
  beta_reduce
  cases o.isPresent t with
  | false => exact ⟨_, _, rfl, .log _ _ _, fun job h => nomatch h⟩
  | true =>
    rw [Bool.not_true, if_neg Bool.false_ne_true]
    cases hoverrides : o.overrides.mapM (Override.read readers.table?) with
    | error fault => exact ⟨_, _, rfl, .log _ _ _, fun job h => nomatch h⟩
    | ok overrides =>
      dsimp only
      have hannounced : Quiet (if o.fromInput then
          [Line.log .info s!"reading manifest from {o.shownInput}"] else []) := by
        split
        · exact .log _ _ _
        · exact .nil
      rw [bind_of_looks (readManifest_tree o t)]
      cases htext : o.manifestText t with
      | error fault => exact ⟨_, _, rfl, hannounced.append (.log _ _ _), fun job h => nomatch h⟩
      | ok text =>
        dsimp only
        cases hmanifest : readers.manifest text with
        | error message =>
          exact ⟨_, _, rfl, hannounced.append (.log _ _ _), fun job h => nomatch h⟩
        | ok manifest =>
          obtain ⟨hlines, hbuilt⟩ := build_spec readers o.shownInput overrides manifest
          refine ⟨_, _, rfl, hannounced.append hlines, fun job hjob => ?_⟩
          obtain ⟨l, hresult, hl⟩ := exists_of_map_eq_ok hjob
          obtain ⟨written, d, hlower, hassigned, hcompile⟩ := hbuilt l hresult
          have hdeclares : o.Declares readers t d :=
            ⟨text, overrides, manifest, written, htext, hoverrides, hmanifest, hlower, hassigned⟩
          exact ⟨l, ⟨d, hdeclares, hcompile⟩, hl⟩

/-! ## The run -/

variable {requested : Option String} {arguments : List Argument} {t : Tree} {p : Path}

theorem Options.job_of_wrote {o : Options}
    (h : .wrote p ∈ ((o.perform readers : StateM Tree _) t).1.transcript) :
    ∃ l, o.Compiles readers t l ∧
      (∀ q, .wrote q ∈ ((o.perform readers : StateM Tree _) t).1.transcript →
        .wrote q ∈ (((o.job l).carryOut : StateM Tree _) t).1.transcript) ∧
        ((o.perform readers : StateM Tree _) t).2 = (((o.job l).carryOut : StateM Tree _) t).2 := by
  obtain ⟨lines, result, hprepare, hquiet, hjob⟩ := o.prepare_tree readers t
  unfold Options.perform at h ⊢
  rw [bind_of_looks hprepare] at h ⊢
  cases result with
  | error status => exact absurd h (hquiet p)
  | ok job =>
    obtain ⟨l, hl, rfl⟩ := hjob job rfl
    refine ⟨l, hl, fun q hq => ?_, rfl⟩
    rcases List.mem_append.1 hq with hq | hq
    · exact absurd hq (hquiet q)
    · exact hq

/-- A run has the disk it was given and reports no file. Both halves are needed: a report without a file
would mislead whoever calls the program as much as a file without a report. -/
def LeavesNoTrace (ended : Outcome × Tree) (t : Tree) : Prop :=
  ended.2 = t ∧ Quiet ended.1.transcript

theorem Stop.quiet_outcome (stop : Stop) : Quiet stop.outcome.transcript :=
  fun _ h => Line.noConfusion (List.mem_singleton.1 h)

theorem leavesNoTrace_or_options (readers : Readers) (requested : Option String)
    (arguments : List Argument) (t : Tree) :
    LeavesNoTrace ((run readers requested arguments : StateM Tree _) t) t ∨
      ∃ words o, invocation arguments t = .ok words ∧ readers.options words = .ok o := by
  cases hwords : invocation arguments t with
  | error fault =>
    unfold run
    rw [bind_of_looks (expandArguments_tree arguments t), hwords]
    exact .inl ⟨rfl, Quiet.report _⟩
  | ok words =>
    cases hread : readers.options words with
    | error stop =>
      unfold run
      rw [bind_of_looks (expandArguments_tree arguments t), hwords]
      dsimp only
      rw [hread]
      exact .inl ⟨rfl, stop.quiet_outcome⟩
    | ok o => exact .inr ⟨words, o, rfl, hread⟩

/-- A run that has got to its options is that of the options, but for the log entries it shows. Filtering
takes lines away and leaves the disk, the status and the reports, which is all that is asked about
afterwards. -/
theorem run_of_options {words : List Argument} {o : Options}
    (hwords : invocation arguments t = .ok words) (hread : readers.options words = .ok o) :
    (run readers requested arguments : StateM Tree _) t =
      (((o.perform readers : StateM Tree _) t).1.filtered (readers.shows (o.filter requested)),
        ((o.perform readers : StateM Tree _) t).2) := by
  unfold run
  rw [bind_of_looks (expandArguments_tree arguments t), hwords]
  dsimp only
  rw [hread]
  rfl

/-- **A run that reports a file has carried out the job of a layout of its manifest**, and every file
it reports is one that the job reports. -/
theorem job_of_wrote (h : .wrote p ∈ ((run readers requested arguments : StateM Tree _) t).1.transcript) :
    ∃ words o l, invocation arguments t = .ok words ∧ readers.options words = .ok o ∧
      o.Compiles readers t l ∧
        (∀ q, .wrote q ∈ ((run readers requested arguments : StateM Tree _) t).1.transcript →
          .wrote q ∈ (((o.job l).carryOut : StateM Tree _) t).1.transcript) ∧
          ((run readers requested arguments : StateM Tree _) t).2 =
            (((o.job l).carryOut : StateM Tree _) t).2 := by
  obtain ⟨-, hquiet⟩ | ⟨words, o, hwords, hread⟩ := leavesNoTrace_or_options readers requested arguments t
  · exact absurd h (hquiet p)
  · rw [run_of_options hwords hread] at h ⊢
    obtain ⟨l, hl, hwrote, hdisk⟩ := o.job_of_wrote (List.mem_filter.1 h).1
    exact ⟨words, o, l, hwords, hread, hl, fun q hq => hwrote q (List.mem_filter.1 hq).1, hdisk⟩

/-! ## What the files hold -/

/-- The text of an image that is compiled is read back to its bytes. The image of a layout is well
formed, and that is all the round trip of the format asks for. -/
theorem Options.Compiles.exists_read {o : Options} {l : Layout} (h : o.Compiles readers t l) :
    ∃ f, Hex.readBytes (Text.utf8Bytes (Hex.write l.image)) = .ok f ∧
      f.image.bytes = l.image.bytes := by
  obtain ⟨d, -, hcompile⟩ := h
  obtain ⟨pieces, hread, hordered, hbytes⟩ :=
    Hex.exists_pieces (d.consists_of_compile (Declaration.compile?_eq_some hcompile).symm).1.wellFormed
  exact ⟨_, hread, (Image.bytes_ofPieces hordered).trans hbytes⟩

/-- **What a run writes is what was compiled**, whatever code reads its options, its manifest and the values
of its overrides. If a run reports an image and its checksum, its arguments, its manifest and its overrides
have come to a layout. In the end the one file is read back to the bytes of that layout, address by address,
and the other shows their checksum; and no other format that was asked for touches either file. -/
theorem run_writes_compiled {outcome : Outcome} {final : Tree} {path : Path}
    (hrun : (run readers requested arguments : StateM Tree Outcome) t = (outcome, final))
    (hhex : .wrote (path ++ Path.ofText ".hex") ∈ outcome.transcript)
    (hcrc : .wrote (path ++ Path.ofText ".crc") ∈ outcome.transcript) :
    ∃ words o l, invocation arguments t = .ok words ∧ readers.options words = .ok o ∧
      o.Compiles readers t l ∧ path = Path.join o.destination (Path.ofText o.filesName) ∧
        (∃ bytes f, final.content? (path ++ Path.ofText ".hex") = some bytes ∧
          Hex.readBytes bytes = .ok f ∧ f.image.bytes = l.image.bytes) ∧
        final.content? (path ++ Path.ofText ".crc") =
          some (Text.utf8Bytes ("0x" ++ Numeral.hex (Hex.imageCheck l.image) ++ "\n")) ∧
        ∀ format ∈ o.formats, format ≠ .hex → ∀ before lines after,
          ((o.job l).writeFiles (format.files l (o.job l).context) : StateM Tree _) before =
              (lines, after) →
            after.content? (path ++ Path.ofText ".hex") =
                before.content? (path ++ Path.ofText ".hex") ∧
              after.content? (path ++ Path.ofText ".crc") =
                before.content? (path ++ Path.ofText ".crc") := by
  have houtcome : ((run readers requested arguments : StateM Tree Outcome) t).1 = outcome := by
    rw [hrun]
  have hfinal : ((run readers requested arguments : StateM Tree Outcome) t).2 = final := by
    rw [hrun]
  have hhexPath : path ++ Path.ofText ".hex" = Path.withExtension path "hex" := by
    rw [show ".hex" = "." ++ "hex" from rfl, Path.ofText_append]
    rfl
  have hcrcPath : path ++ Path.ofText ".crc" = Path.withExtension path "crc" := by
    rw [show ".crc" = "." ++ "crc" from rfl, Path.ofText_append]
    rfl
  rw [hhexPath, ← houtcome] at hhex
  rw [hcrcPath, ← houtcome] at hcrc
  rw [hhexPath, hcrcPath]
  obtain ⟨words, o, l, hwords, hread, hl, hwrote, hdisk⟩ := job_of_wrote hhex
  rw [hfinal] at hdisk
  obtain ⟨hbase, himage⟩ := Job.content_of_wrote (Format.image_mem_files l _) (hwrote _ hhex)
  obtain ⟨-, hcheck⟩ := Job.content_of_wrote (Format.check_mem_files l _) (hwrote _ hcrc)
  rw [← hdisk] at himage hcheck
  obtain ⟨f, hf, hbytes⟩ := hl.exists_read
  refine ⟨words, o, l, hwords, hread, hl, hbase, ⟨_, f, himage, hf, hbytes⟩, hcheck,
    fun format _ hne before lines after hwrites => ?_⟩
  have hafter : (((o.job l).writeFiles (format.files (o.job l).layout (o.job l).context) :
      StateM Tree _) before).2 = after := congrArg Prod.snd hwrites
  have himageKept :=
    Job.content?_writeFormat hne.symm (Format.image_mem_files (o.job l).layout _) before
  have hcheckKept :=
    Job.content?_writeFormat hne.symm (Format.check_mem_files (o.job l).layout _) before
  rw [← hafter, hbase]
  exact ⟨himageKept, hcheckKept⟩

end CommandLine

namespace Specimen

open CommandLine

def singleText : String :=
  "[[container]]\nname=\"c\"\nat=0x80000000\n"
    ++ "[[container.block]]\nname=\"b\"\nlength=2\n"
    ++ "[[container.block.data]]\nkind=\"param\"\nname=\"p\"\ntype=\"uint16\"\nvalue=7\n"

def single : Manifest :=
  { containers :=
      [{ name := "c"
         base := .plain 0x80000000
         blocks :=
          [{ name := "b"
             length := .plain 2
             fields := [.parameter { name := "p", type := "uint16", value := .integer 7 }] }] }] }

def disk : Tree where
  entries :=
    [([Path.ofText "m.toml"], .file (Text.utf8Bytes singleText)),
      ([Path.ofText "args"], .file (Text.utf8Bytes "--gld -mp=8 -mb.p=9"))]

def call : List Argument :=
  ["flashblock", "--ihex", "@args", "-o", "out", "m.toml"].map Text.utf8Bytes

/-- The readers as far as the call goes: the options that its words are, the manifest, and the documents
that give the overrides their values. On anything else they refuse, which the run below never comes to. -/
def callReaders : Readers where
  options words :=
    if words = ["flashblock", "--ihex", "--gld", "-mp=8", "-mb.p=9", "-o", "out", "m.toml"].map
        Text.utf8Bytes then
      .ok
        { hex := true
          linkerScript := true
          destination := Path.ofText "out"
          overrides := ["p=8", "b.p=9"]
          input := Path.ofText "m.toml" }
    else .error ⟨true, "unknown arguments"⟩
  manifest text := if text = singleText then .ok single else .error "unknown text"
  table? text :=
    if text = "v = 8" then some [("v", .integer 8)]
    else if text = "v = 9" then some [("v", .integer 9)]
    else none
  shown _ := ""
  shows filter entry := filter = "warn" && entry.level.rank ≤ Log.Level.warn.rank

/-- A run with two overrides of one parameter and two formats, its words partly from a file of arguments.
The later override wins, and the linker script that is written beside the image leaves it as it is. -/
theorem call_writes_compiled : ∃ words o l, invocation call disk = .ok words ∧
    callReaders.options words = .ok o ∧ o.Compiles callReaders disk l ∧
      Path.ofText "out/m" = Path.join o.destination (Path.ofText o.filesName) ∧
        (∃ bytes f, ((run callReaders none call : StateM Tree Outcome) disk).2.content?
            (Path.ofText "out/m" ++ Path.ofText ".hex") = some bytes ∧
          Hex.readBytes bytes = .ok f ∧ f.image.bytes = l.image.bytes) := by
  have hwrote : ∀ e ∈ [".hex", ".crc"], .wrote (Path.ofText "out/m" ++ Path.ofText e) ∈
      ((run callReaders none call : StateM Tree Outcome) disk).1.transcript := by
    decide +kernel
  obtain ⟨words, o, l, hwords, hread, hl, hpath, himage, -⟩ :=
    CommandLine.run_writes_compiled (Prod.eta _).symm (hwrote ".hex" List.mem_cons_self)
      (hwrote ".crc" (List.mem_cons_of_mem _ List.mem_cons_self))
  exact ⟨words, o, l, hwords, hread, hl, hpath, himage⟩

end Specimen

end FlashParams
