import FlashParams.CommandLine.Job
import FlashParams.Proofs.Disk.Tree
import Mathlib.Data.List.Nodup

/-!
# What is reported is what is on the disk

A job writes several files, and later ones, or one that cannot be written, could undo earlier ones.
They do not: the files of a job have one path with different extensions, and an extension says which
file it is (`Format.eq_of_extension`). So a file that has been written keeps its content, whatever else
the job writes or fails to write (`Job.Has.writeFormats`), and every file reported at the end is there
with the text of its format (`Job.has_of_wrote`).

All this is about a disk in memory, on which a computation is a function of the tree.
-/

set_option autoImplicit false

namespace FlashParams

open Disk (Tree)

/-! ## Extensions -/

namespace Output.Format

def extensions : Format → List String
  | hex => ["hex", "crc"]
  | cSource => ["h", "c"]
  | linkerScript => ["ld"]
  | dumpConfig => ["pyhexdump"]

variable {l : Layout} {ctx : Context} {format : Format} {file : File}

theorem mem_all (format : Format) : format ∈ all := by
  cases format <;> decide

theorem extensions_files (l : Layout) (ctx : Context) (format : Format) :
    (format.files l ctx).map (·.extension) = format.extensions := by
  cases format <;> rfl

theorem mem_extensions (h : file ∈ format.files l ctx) : file.extension ∈ format.extensions := by
  rw [← extensions_files l ctx]
  exact List.mem_map_of_mem h

theorem isExtension (h : file ∈ format.files l ctx) : Path.IsExtension file.extension := by
  have hall : ∀ e ∈ format.extensions, Path.IsExtension e := by
    cases format <;> decide +kernel
  exact hall _ (mem_extensions h)

theorem image_mem_files (l : Layout) (ctx : Context) :
    (⟨"hex", .ok (Hex.write l.image)⟩ : File) ∈ hex.files l ctx :=
  List.mem_cons_self

theorem check_mem_files (l : Layout) (ctx : Context) :
    (⟨"crc", .ok ("0x" ++ Numeral.hex (Hex.imageCheck l.image) ++ "\n")⟩ : File) ∈
      hex.files l ctx :=
  List.mem_cons_of_mem _ List.mem_cons_self

theorem not_mem_extensions {e : String} {format' : Format} (hne : format ≠ format')
    (he : e ∈ format.extensions) : e ∉ format'.extensions := by
  have hapart : ∀ f ∈ all, ∀ f' ∈ all, f ≠ f' → ∀ e ∈ f.extensions, e ∉ f'.extensions := by
    decide
  exact hapart format (mem_all format) format' (mem_all format') hne e he

/-- **An extension belongs to one file**, among the files of all formats. A format may ask for several
files, so it is not enough that formats differ; this is what makes the name of a reported file say which
file it is. -/
theorem eq_of_extension {other : File} {format' : Format} (h : file ∈ format.files l ctx)
    (h' : other ∈ format'.files l ctx) (he : file.extension = other.extension) : file = other := by
  have hmap : (all.flatMap (files l ctx)).map (·.extension) = all.flatMap extensions := by
    rw [List.map_flatMap]
    exact List.flatMap_congr fun f _ => extensions_files l ctx f
  have hnodup : ((all.flatMap (files l ctx)).map (·.extension)).Nodup := by
    rw [hmap]
    decide
  exact List.inj_on_of_nodup_map hnodup (List.mem_flatMap.2 ⟨format, mem_all format, h⟩)
    (List.mem_flatMap.2 ⟨format', mem_all format', h'⟩) he

end Output.Format

namespace CommandLine

open Output (File Format)

/-! ## Computations on a tree -/

theorem bind_tree {α β : Type} (x : StateM Tree α) (f : α → StateM Tree β) (t : Tree) :
    (x >>= f) t = f (x t).1 (x t).2 :=
  rfl

namespace Job

/-- The path of the files of a job, their extensions aside. All of them are this path with something
behind it, so whether two files collide is a question about extensions alone. -/
def base (job : Job) : Path :=
  Path.join job.destination (Path.ofText job.context.basename)

theorem path_eq (job : Job) (file : File) :
    job.path file = Path.withExtension job.base file.extension := by
  have hname : Path.ofText (job.context.file file.extension) =
      Path.withExtension (Path.ofText job.context.basename) file.extension :=
    Path.ofText_withExtension _ _
  rw [path, hname, Path.join_withExtension]
  rfl

/-- A file is on the disk with its text. It is stated through `content?`, as someone would read it
afterwards, and not through what the write returned: a later file of the same job could have replaced it. -/
def Has (job : Job) (t : Tree) (file : File) : Prop :=
  ∃ text, file.content = .ok text ∧ t.content? (job.path file) = some (Text.utf8Bytes text)

variable {job : Job} {t : Tree} {file : File} {format : Format}

/-! ## One file -/

theorem writeFile_cases (job : Job) (file : File) (t : Tree) :
    (∃ text t', file.content = .ok text ∧ t.writeText (job.path file) text = .ok t' ∧
        (job.writeFile file : StateM Tree _) t = (.ok (), t')) ∨
      ∃ fault, (job.writeFile file : StateM Tree _) t = (.error fault, t) := by
  unfold writeFile
  cases file.content with
  | error cause => exact .inr ⟨_, rfl⟩
  | ok text =>
    dsimp only
    rw [bind_tree]
    have hrun : (WritableDisk.writeText (job.path file) text : StateM Tree _) t =
        Tree.change (·.writeText (job.path file) text) t := rfl
    rw [hrun, Tree.change]
    cases hwrite : t.writeText (job.path file) text with
    | error fault => exact .inr ⟨_, rfl⟩
    | ok t' => exact .inl ⟨text, t', rfl, hwrite, rfl⟩

theorem has_of_writeText (h : file ∈ format.files job.layout job.context) {text : String}
    {t' : Tree} (htext : file.content = .ok text)
    (hwrite : t.writeText (job.path file) text = .ok t') : job.Has t' file := by
  refine ⟨text, htext, Tree.content?_writeText ?_ hwrite⟩
  rw [path_eq]
  exact Path.namesDirectory_withExtension (Format.isExtension h)

theorem content?_writeFile {e : String} (he : Path.IsExtension e)
    (h : file ∈ format.files job.layout job.context) (hne : e ≠ file.extension) (t : Tree) :
    ((job.writeFile file : StateM Tree _) t).2.content? (Path.withExtension job.base e) =
      t.content? (Path.withExtension job.base e) := by
  rcases job.writeFile_cases file t with ⟨text, t', -, hwrite, hrun⟩ | ⟨fault, hrun⟩
  · rw [hrun]
    rw [path_eq] at hwrite
    unfold Tree.content?
    rw [Tree.find_writeText_of_ne he (Format.isExtension h) hne hwrite]
  · rw [hrun]

theorem has_writeFile (h : file ∈ format.files job.layout job.context)
    (hok : ((job.writeFile file : StateM Tree _) t).1 = .ok ()) :
    job.Has ((job.writeFile file : StateM Tree _) t).2 file := by
  rcases job.writeFile_cases file t with ⟨text, t', htext, hwrite, hrun⟩ | ⟨fault, hrun⟩
  · rw [hrun]
    exact has_of_writeText h htext hwrite
  · rw [hrun] at hok
    cases hok

/-- **What has been written stays**, whichever file of the job comes next. It may be the same file again,
in which case it is written with the same text. -/
theorem Has.writeFile (hhas : job.Has t file) (h : file ∈ format.files job.layout job.context)
    {other : File} {format' : Format} (h' : other ∈ format'.files job.layout job.context) :
    job.Has ((job.writeFile other : StateM Tree _) t).2 file := by
  by_cases he : file.extension = other.extension
  · cases Format.eq_of_extension h h' he
    rcases job.writeFile_cases file t with ⟨text, t', htext, hwrite, hrun⟩ | ⟨fault, hrun⟩
    · rw [hrun]
      exact has_of_writeText h htext hwrite
    · rwa [hrun]
  · obtain ⟨text, htext, hcontent⟩ := hhas
    refine ⟨text, htext, ?_⟩
    rw [path_eq] at hcontent ⊢
    rw [content?_writeFile (Format.isExtension h) h' he, hcontent]

/-! ## The files of a format -/

/-- The first file, and either the others after it or nothing. Every induction over the files of a format
opens the loop with this one equation; the line in front is a log entry at most, never the report of a
file. -/
theorem writeFiles_cons (job : Job) (file : File) (rest : List File) (t : Tree) :
    ∃ note : Line, (∀ p, note ≠ .wrote p) ∧
      ((∃ t', (job.writeFile file : StateM Tree _) t = (.ok (), t') ∧
          (job.writeFiles (file :: rest) : StateM Tree _) t =
            ((note :: ((job.writeFiles rest : StateM Tree _) t').1.1,
              ((job.writeFiles rest : StateM Tree _) t').1.2),
              ((job.writeFiles rest : StateM Tree _) t').2)) ∨
        ∃ fault, (job.writeFiles (file :: rest) : StateM Tree _) t = (([note], .error fault), t)) := by
  refine ⟨Line.log .info s!"writing {Text.shown (job.path file)}" .output, fun p => Line.noConfusion, ?_⟩
  rw [writeFiles, bind_tree]
  rcases job.writeFile_cases file t with ⟨text, t', -, -, hrun⟩ | ⟨fault, hrun⟩
  · rw [hrun]
    exact .inl ⟨t', rfl, rfl⟩
  · rw [hrun]
    exact .inr ⟨fault, rfl⟩

theorem not_wrote_writeFiles (job : Job) (p : Path) : ∀ (files : List File) (t : Tree),
    .wrote p ∉ ((job.writeFiles files : StateM Tree _) t).1.1
  | [], _ => List.not_mem_nil
  | file :: rest, t => by
    obtain ⟨note, hnote, ⟨t', -, hrun⟩ | ⟨fault, hrun⟩⟩ := job.writeFiles_cons file rest t
    · rw [hrun]
      exact List.not_mem_cons_of_ne_of_not_mem (hnote p).symm (job.not_wrote_writeFiles p rest t')
    · rw [hrun]
      exact List.not_mem_cons_of_ne_of_not_mem (hnote p).symm List.not_mem_nil

theorem content?_writeFiles {e : String} (he : Path.IsExtension e) :
    ∀ {files : List File} (t : Tree), (∀ file ∈ files,
        file ∈ format.files job.layout job.context ∧ e ≠ file.extension) →
      ((job.writeFiles files : StateM Tree _) t).2.content? (Path.withExtension job.base e) =
        t.content? (Path.withExtension job.base e)
  | [], _, _ => rfl
  | file :: rest, t, h => by
    obtain ⟨hfile, hne⟩ := h file List.mem_cons_self
    obtain ⟨note, -, ⟨t', hfirst, hrun⟩ | ⟨fault, hrun⟩⟩ := job.writeFiles_cons file rest t
    · have hkept := content?_writeFile he hfile hne t
      rw [hfirst] at hkept
      rw [hrun, ← hkept]
      exact content?_writeFiles he t' fun other hother => h other (List.mem_cons_of_mem _ hother)
    · rw [hrun]

theorem content?_writeFormat {format' : Format} (hne : format ≠ format')
    (h : file ∈ format.files job.layout job.context) (t : Tree) :
    ((job.writeFiles (format'.files job.layout job.context) : StateM Tree _) t).2.content?
        (Path.withExtension job.base file.extension) =
      t.content? (Path.withExtension job.base file.extension) := by
  refine content?_writeFiles (Format.isExtension h) t fun other hother => ⟨hother, fun he => ?_⟩
  refine Format.not_mem_extensions hne (Format.mem_extensions h) ?_
  rw [he]
  exact Format.mem_extensions hother

theorem Has.writeFiles (h : file ∈ format.files job.layout job.context) {format' : Format} :
    ∀ {files : List File} {t : Tree},
      (∀ other ∈ files, other ∈ format'.files job.layout job.context) → job.Has t file →
        job.Has ((job.writeFiles files : StateM Tree _) t).2 file
  | [], _, _, hhas => hhas
  | other :: rest, t, hfiles, hhas => by
    have hkept := hhas.writeFile h (hfiles other List.mem_cons_self)
    obtain ⟨note, -, ⟨t', hfirst, hrun⟩ | ⟨fault, hrun⟩⟩ := job.writeFiles_cons other rest t
    · rw [hfirst] at hkept
      rw [hrun]
      exact hkept.writeFiles h fun f hf => hfiles f (List.mem_cons_of_mem _ hf)
    · rwa [hrun]

/-- When the last file of a format is written, all of them are there. A format is reported only after its
loop has run to the end, which is why the result of the whole loop is assumed and not that of each file. -/
theorem has_writeFiles : ∀ {files : List File} {t : Tree},
    (∀ file ∈ files, file ∈ format.files job.layout job.context) →
      ((job.writeFiles files : StateM Tree _) t).1.2 = .ok () →
        ∀ file ∈ files, job.Has ((job.writeFiles files : StateM Tree _) t).2 file
  | [], _, _, _ => List.forall_mem_nil _
  | first :: rest, t, hfiles, hok => by
    have hfirst := hfiles first List.mem_cons_self
    have hrest : ∀ file ∈ rest, file ∈ format.files job.layout job.context :=
      fun file hfile => hfiles file (List.mem_cons_of_mem _ hfile)
    obtain ⟨note, -, ⟨t', hwrite, hrun⟩ | ⟨fault, hrun⟩⟩ := job.writeFiles_cons first rest t
    · have hhas := has_writeFile (t := t) hfirst (by rw [hwrite])
      rw [hwrite] at hhas
      rw [hrun] at hok ⊢
      exact List.forall_mem_cons.2 ⟨hhas.writeFiles hfirst hrest, has_writeFiles hrest hok⟩
    · rw [hrun] at hok
      cases hok

/-! ## All formats -/

/-- The first format, and either the others after it or nothing. The reports of a format stand behind its
own lines and in front of those of the next, in the order in which a reader of the transcript sees them. -/
theorem writeFormats_cons (job : Job) (format : Format) (rest : List Format) (t : Tree) :
    ∃ lines result t', (job.writeFiles (format.files job.layout job.context) : StateM Tree _) t =
        ((lines, result), t') ∧
      ((result = .ok () ∧ (job.writeFormats (format :: rest) : StateM Tree _) t =
          (((job.writeFormats rest : StateM Tree _) t').1.after (lines ++
              (format.files job.layout job.context).map fun file => Line.wrote (job.path file)),
            ((job.writeFormats rest : StateM Tree _) t').2)) ∨
        ∃ line : Line, (∀ p, line ≠ .wrote p) ∧
          (job.writeFormats (format :: rest) : StateM Tree _) t =
            (⟨.writeFailed, lines ++ [line]⟩, t')) := by
  obtain ⟨⟨lines, result⟩, t', hfirst⟩ : ∃ out t',
      (job.writeFiles (format.files job.layout job.context) : StateM Tree _) t = (out, t') :=
    ⟨_, _, rfl⟩
  refine ⟨lines, result, t', hfirst, ?_⟩
  rw [writeFormats]
  dsimp only
  rw [bind_tree, hfirst]
  cases result with
  | ok done => exact .inl ⟨rfl, rfl⟩
  | error fault => exact .inr ⟨_, fun p => Line.noConfusion, rfl⟩

theorem Has.writeFormats (h : file ∈ format.files job.layout job.context) :
    ∀ (formats : List Format) {t : Tree}, job.Has t file →
      job.Has ((job.writeFormats formats : StateM Tree _) t).2 file
  | [], _, hhas => hhas
  | first :: rest, t, hhas => by
    have hkept : job.Has ((job.writeFiles (first.files job.layout job.context) : StateM Tree _) t).2
        file := hhas.writeFiles h fun _ hf => hf
    obtain ⟨lines, result, t', hfirst, ⟨-, hrun⟩ | ⟨line, -, hrun⟩⟩ :=
      job.writeFormats_cons first rest t
    · rw [hfirst] at hkept
      rw [hrun]
      exact hkept.writeFormats h rest
    · rw [hfirst] at hkept
      rwa [hrun]

/-- **Every file reported is there in the end**, and it is a file of a format that was to be written. -/
theorem has_of_wrote {p : Path} : ∀ {formats : List Format} {t : Tree},
    .wrote p ∈ ((job.writeFormats formats : StateM Tree _) t).1.transcript →
      ∃ format ∈ formats, ∃ file ∈ format.files job.layout job.context,
        p = job.path file ∧ job.Has ((job.writeFormats formats : StateM Tree _) t).2 file
  | [], _, h => absurd h List.not_mem_nil
  | first :: rest, t, h => by
    have hquiet := job.not_wrote_writeFiles p (first.files job.layout job.context) t
    obtain ⟨lines, result, t', hfirst, ⟨hok, hrun⟩ | ⟨line, hline, hrun⟩⟩ :=
      job.writeFormats_cons first rest t
    · rw [hfirst] at hquiet
      rw [hrun] at h ⊢
      rcases List.mem_append.1 h with h | h
      -- reported for the first format, whose files are kept by the others
      · rcases List.mem_append.1 h with h | h
        · exact absurd h hquiet
        · obtain ⟨file, hfile, hpath⟩ := List.mem_map.1 h
          cases hpath
          have hhas := has_writeFiles (t := t) (fun _ hf => hf) (by rw [hfirst]; exact hok) file hfile
          rw [hfirst] at hhas
          exact ⟨first, List.mem_cons_self, file, hfile, rfl, hhas.writeFormats hfile rest⟩
      · obtain ⟨format, hformat, file, hfile, hpath, hhas⟩ := has_of_wrote h
        exact ⟨format, List.mem_cons_of_mem _ hformat, file, hfile, hpath, hhas⟩
    · rw [hfirst] at hquiet
      rw [hrun] at h
      rcases List.mem_append.1 h with h | h
      · exact absurd h hquiet
      · exact absurd (List.mem_singleton.1 h).symm (hline p)

/-- The same for the whole of a job, which makes the directory of its files first. If that fails nothing
has been reported, so there is nothing to show for it. -/
theorem has_of_wrote_carryOut {p : Path}
    (h : .wrote p ∈ ((job.carryOut : StateM Tree _) t).1.transcript) :
    ∃ format ∈ job.formats, ∃ file ∈ format.files job.layout job.context,
      p = job.path file ∧ job.Has ((job.carryOut : StateM Tree _) t).2 file := by
  unfold carryOut at h ⊢
  split at h
  · exact absurd (List.mem_singleton.1 h) Line.noConfusion
  · rename_i hformats
    obtain ⟨result, t', hmake⟩ : ∃ result t',
        (WritableDisk.makeDirectories job.destination : StateM Tree _) t = (result, t') := ⟨_, _, rfl⟩
    rw [if_neg hformats, bind_tree, hmake]
    rw [bind_tree, hmake] at h
    cases result with
    | error fault => exact absurd (List.mem_singleton.1 h) Line.noConfusion
    | ok done => exact has_of_wrote h

/-- A reported file is known by its extension, so it has the text of that file. The path is not assumed
to be that of the job: it is read off the report, with `Path.withExtension_inj`. -/
theorem content_of_wrote {path : Path} {e text : String}
    (h : (⟨e, .ok text⟩ : File) ∈ format.files job.layout job.context)
    (hwrote : .wrote (Path.withExtension path e) ∈
      ((job.carryOut : StateM Tree _) t).1.transcript) :
    path = job.base ∧ ((job.carryOut : StateM Tree _) t).2.content? (Path.withExtension path e) =
      some (Text.utf8Bytes text) := by
  obtain ⟨format', -, other, hother, hpath, text', htext, hcontent⟩ := has_of_wrote_carryOut hwrote
  rw [path_eq] at hpath
  obtain ⟨hbase, he⟩ :=
    Path.withExtension_inj (Format.isExtension h) (Format.isExtension hother) hpath
  cases Format.eq_of_extension h hother he
  cases htext
  rw [path_eq, ← hbase] at hcontent
  exact ⟨hbase, hcontent⟩

end Job

end CommandLine

end FlashParams
