import FlashParams.Proofs.CommandLine.Run

/-!
# A rejected run leaves no trace

The statuses of a run fall into two groups. Once there is a job, the run ends in success or in a failed
write (`Job.status_carryOut`), whatever is on the disk; every other status comes from a step before it,
and those steps look at the disk without changing it. So the status alone says whether anything can have
been touched (`rejected_changes_nothing`).

The same theorem takes up the declarations that come to no layout. Those with diagnostics are rejected as
such, and compiling those that leave the machine word breaks the run off, so none of the formats asked
for is begun (`Options.prepare_of_declares`).
-/

set_option autoImplicit false

namespace FlashParams

open Disk (Tree)
open Output (Format)

theorem Disk.Tree.isFile_of_readText {t : Tree} {path : Path} {text : String}
    (h : t.readText path = .ok text) : t.isFile path = true := by
  unfold Disk.Tree.readText at h
  unfold Disk.Tree.isFile
  split at h
  · cases h
  · cases h
  · rename_i hfind
    simp [hfind]

namespace CommandLine

variable {readers : Readers} {t : Tree}

/-! ## Runs that have come to a job -/

theorem Job.status_writeFormats (job : Job) (formats : List Format) (t : Tree) :
    ((job.writeFormats formats : StateM Tree _) t).1.status = .success ∨
      ((job.writeFormats formats : StateM Tree _) t).1.status = .writeFailed := by
  induction formats generalizing t with
  | nil => exact .inl rfl
  | cons first rest ih =>
    obtain ⟨lines, result, t', -, ⟨-, hrun⟩ | ⟨line, -, hrun⟩⟩ := job.writeFormats_cons first rest t
    · rw [hrun]
      exact ih t'
    · rw [hrun]
      exact .inr rfl

theorem Job.status_carryOut (job : Job) (t : Tree) :
    ((job.carryOut : StateM Tree _) t).1.status = .success ∨
      ((job.carryOut : StateM Tree _) t).1.status = .writeFailed := by
  unfold Job.carryOut
  split
  · exact .inl rfl
  · obtain ⟨result, t', hmake⟩ : ∃ result t',
        (WritableDisk.makeDirectories job.destination : StateM Tree _) t = (result, t') := ⟨_, _, rfl⟩
    rw [bind_tree, hmake]
    cases result with
    | error fault => exact .inr rfl
    | ok done => exact job.status_writeFormats job.formats t'

/-! ## Runs that end before -/

theorem Quiet.filtered {o : Outcome} (h : Quiet o.transcript) (shows : Log.Entry → Bool) :
    Quiet (o.filtered shows).transcript :=
  fun p hp => h p (List.mem_filter.1 hp).1

/-- What stops before there is a job leaves no trace, and a job ends in one of two statuses. The two
statuses are therefore the only ones under which a disk can have changed. -/
theorem Options.perform_cases (readers : Readers) (o : Options) (t : Tree) :
    LeavesNoTrace ((o.perform readers : StateM Tree _) t) t ∨
      ((o.perform readers : StateM Tree _) t).1.status = .success ∨
        ((o.perform readers : StateM Tree _) t).1.status = .writeFailed := by
  obtain ⟨lines, result, hprepare, hquiet, -⟩ := o.prepare_tree readers t
  unfold Options.perform
  rw [bind_of_looks hprepare]
  cases result with
  | error status => exact .inl ⟨rfl, hquiet⟩
  | ok job => exact .inr (job.status_carryOut t)

theorem run_cases (readers : Readers) (requested : Option String) (arguments : List Argument)
    (t : Tree) :
    LeavesNoTrace ((run readers requested arguments : StateM Tree _) t) t ∨
      ((run readers requested arguments : StateM Tree _) t).1.status = .success ∨
        ((run readers requested arguments : StateM Tree _) t).1.status = .writeFailed := by
  obtain htrace | ⟨words, o, hwords, hread⟩ :=
    leavesNoTrace_or_options readers requested arguments t
  · exact .inl htrace
  · rw [run_of_options hwords hread]
    rcases o.perform_cases readers t with ⟨hdisk, hquiet⟩ | hstatus
    · exact .inl ⟨hdisk, hquiet.filtered _⟩
    · exact .inr hstatus

/-! ## Declarations without a layout -/

/-- The status that a run ends with over a declaration: that of its rejection, or of a process that broke
off. A declaration with a layout has none. It is an outcome of `compile?`, so that a declaration whose
sizes leave the machine word is not taken for one with diagnostics. -/
def failureOf? (d : Declaration) : Option Status :=
  match d.compile? with
  | none => some .brokenOff
  | some (.error _) => some .validationFailed
  | some (.ok _) => none

theorem layoutOf_of_failure (shown : String) {d : Declaration} {status : Status}
    (h : failureOf? d = some status) : (layoutOf shown d).2 = .error status := by
  unfold failureOf? Declaration.compile? at h
  unfold layoutOf
  cases hassembly : d.assembly? with
  | none =>
    rw [hassembly] at h
    cases h
    rfl
  | some assembly =>
    rw [hassembly, Option.map_some] at h
    dsimp only at h ⊢
    cases hfinish : assembly.finish with
    | ok l =>
      rw [hfinish] at h
      cases h
    | error rejection =>
      rw [hfinish] at h
      cases h
      rfl

theorem build_of_declared (shown : String) {overrides : List Override} {manifest : Manifest}
    {written d : Declaration} (hwritten : manifest.lower = .ok written)
    (hassigned : overrides.foldlM Declaration.assigned written = .ok d) :
    (build readers shown overrides manifest).2 = (layoutOf shown d).2 := by
  unfold build
  dsimp only
  rw [hwritten]
  obtain ⟨-, happlied⟩ := applyOverrides_spec overrides written
  obtain ⟨⟨notes, outcome⟩, hout⟩ : ∃ out, applyOverrides overrides written = out := ⟨_, rfl⟩
  rw [hout, hassigned] at happlied
  dsimp only at happlied ⊢
  rw [hout, happlied]

/-- What is decided for a declaration is decided by compiling it. Its logs may differ with the overrides
that led there, so only the second component, the job or the reason to stop, is determined. -/
theorem Options.prepare_of_declares {o : Options} {d : Declaration} (h : o.Declares readers t d) :
    ((o.prepare readers : StateM Tree _) t).1.2 = (layoutOf o.shownInput d).2.map o.job := by
  obtain ⟨text, overrides, manifest, written, htext, hoverrides, hmanifest, hwritten, hassigned⟩ := h
  have hpresent : o.isPresent t = true := by
    unfold Options.isPresent
    cases hinput : o.fromInput with
    | true => rfl
    | false =>
      -- a manifest that has been read is there
      rw [Options.manifestText, hinput] at htext
      exact Disk.Tree.isFile_of_readText htext
  unfold Options.prepare
  rw [o.bind_isPresent, hpresent]
  beta_reduce
  rw [Bool.not_true, if_neg Bool.false_ne_true, hoverrides]
  dsimp only
  rw [bind_of_looks (readManifest_tree o t), htext]
  dsimp only
  rw [hmanifest]
  show ((build readers o.shownInput overrides manifest).2.map o.job) = _
  rw [build_of_declared o.shownInput hwritten hassigned]

theorem run_of_failure (requested : Option String) {arguments words : List Argument} {o : Options}
    {d : Declaration} {status : Status} (hwords : invocation arguments t = .ok words)
    (hread : readers.options words = .ok o) (hdeclares : o.Declares readers t d)
    (hfailure : failureOf? d = some status) :
    ((run readers requested arguments : StateM Tree _) t).1.status = status ∧
      LeavesNoTrace ((run readers requested arguments : StateM Tree _) t) t := by
  have hrejected : ((o.prepare readers : StateM Tree _) t).1.2 = .error status := by
    rw [Options.prepare_of_declares hdeclares, layoutOf_of_failure o.shownInput hfailure]
    rfl
  obtain ⟨lines, result, hprepare, hquiet, -⟩ := o.prepare_tree readers t
  rw [hprepare] at hrejected
  cases hrejected
  rw [run_of_options hwords hread]
  unfold Options.perform
  rw [bind_of_looks hprepare]
  exact ⟨rfl, rfl, Quiet.filtered hquiet _⟩

/-! ## The run -/

/-- **A rejected run leaves no trace**, whatever code reads its options, its manifest and the values of its
overrides. Unless a run ends in success or while writing, the disk is what it was and no file is reported;
that goes for a run that breaks off, too. A declaration that is compiled to diagnostics is always rejected,
and one that has no outcome breaks the run off, whichever formats are asked for. -/
theorem rejected_changes_nothing {requested : Option String} {arguments : List Argument}
    {outcome : Outcome} {final : Tree}
    (hrun : (run readers requested arguments : StateM Tree Outcome) t = (outcome, final)) :
    (outcome.status.code ∈ [1, 2, 3, 5, 101] → final = t ∧ Quiet outcome.transcript) ∧
      ∀ words o d, invocation arguments t = .ok words → readers.options words = .ok o →
        o.Declares readers t d →
          (∀ rejection, d.compile? = some (.error rejection) →
            outcome.status.code = 3 ∧ final = t ∧ Quiet outcome.transcript) ∧
          (d.compile? = none → outcome.status.code = 101 ∧ final = t ∧ Quiet outcome.transcript) := by
  have houtcome : ((run readers requested arguments : StateM Tree Outcome) t).1 = outcome := by
    rw [hrun]
  have hfinal : ((run readers requested arguments : StateM Tree Outcome) t).2 = final := by
    rw [hrun]
  constructor
  · intro hcode
    rcases run_cases readers requested arguments t with htrace | hdone | hfailed
    · rwa [LeavesNoTrace, hfinal, houtcome] at htrace
    · rw [← houtcome, hdone] at hcode
      exact absurd hcode (by decide)
    · rw [← houtcome, hfailed] at hcode
      exact absurd hcode (by decide)
  · intro words o d hwords hread hdeclares
    constructor
    · intro rejection hcompile
      have hfailure : failureOf? d = some .validationFailed := by rw [failureOf?, hcompile]
      obtain ⟨hstatus, htrace⟩ := run_of_failure requested hwords hread hdeclares hfailure
      rw [houtcome] at hstatus
      rw [LeavesNoTrace, hfinal, houtcome] at htrace
      exact ⟨congrArg Status.code hstatus, htrace⟩
    · intro hcompile
      have hfailure : failureOf? d = some .brokenOff := by rw [failureOf?, hcompile]
      obtain ⟨hstatus, htrace⟩ := run_of_failure requested hwords hread hdeclares hfailure
      rw [houtcome] at hstatus
      rw [LeavesNoTrace, hfinal, houtcome] at htrace
      exact ⟨congrArg Status.code hstatus, htrace⟩

end CommandLine

namespace Specimen

open CommandLine

/-- The text of a manifest that gives a value its type does not hold, and the manifest that it is. The
first of its two blocks is in order, so that there would be something to write. -/
def misfitText : String :=
  "[[container]]\nname=\"c\"\nat=0x80000000\n"
    ++ "[[container.block]]\nname=\"a\"\nlength=4\n"
    ++ "[[container.block]]\nname=\"b\"\nlength=2\n"
    ++ "[[container.block.data]]\nkind=\"param\"\nname=\"p\"\ntype=\"uint16\"\nvalue=70000\n"

def misfit : Manifest :=
  { containers :=
      [{ name := "c"
         base := .plain 0x80000000
         blocks :=
          [{ name := "a", length := .plain 4 },
            { name := "b"
              length := .plain 2
              fields := [.parameter { name := "p", type := "uint16", value := .integer 70000 }] }] }] }

def misfitDisk : Tree where
  entries :=
    [([Path.ofText "m.toml"], .file (Text.utf8Bytes misfitText)),
      ([Path.ofText "args"], .file (Text.utf8Bytes "--gld --csrc --pyhexdump"))]

def misfitReaders : Readers where
  options words :=
    if words = ["flashblock", "--ihex", "--gld", "--csrc", "--pyhexdump", "-o", "out", "m.toml"].map
        Text.utf8Bytes then
      .ok
        { hex := true
          cSource := true
          linkerScript := true
          dumpConfig := true
          destination := Path.ofText "out"
          input := Path.ofText "m.toml" }
    else .error ⟨true, "unknown arguments"⟩
  manifest text := if text = misfitText then .ok misfit else .error "unknown text"
  table? _ := none
  shown _ := ""
  shows filter entry := filter = "warn" && entry.level.rank ≤ Log.Level.warn.rank

/-- One block of two is in order, all formats are asked for, and still nothing is made: the readers are
applied, the manifest is lowered, and the run ends with the status of a rejected declaration. -/
theorem misfit_changes_nothing :
    ((run misfitReaders none call : StateM Tree Outcome) misfitDisk).1.status.code = 3 ∧
      ((run misfitReaders none call : StateM Tree Outcome) misfitDisk).2 = misfitDisk := by
  have hcode : ((run misfitReaders none call : StateM Tree Outcome) misfitDisk).1.status.code = 3 := by
    decide +kernel
  refine ⟨hcode, ((CommandLine.rejected_changes_nothing (Prod.eta _).symm).1 ?_).1⟩
  rw [hcode]
  decide

end Specimen

end FlashParams
