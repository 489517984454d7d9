import FlashParams.CommandLine.Outcome
import FlashParams.Disk.Basic
import FlashParams.Output.Format

/-!
# Writing the files

A `Job` is all that is left to do once a layout exists: the formats to be written, and where to. It
is carried out format by format, and within a format file by file; the first file that cannot be
written ends the run, and the files written before stay. A format's files are reported together once
its last one is written.
-/

set_option autoImplicit false

namespace FlashParams.CommandLine

/-- What is left of a run once all decisions are made: a layout and where its files go. Everything that
can be rejected has been rejected before there is a job. -/
structure Job where
  layout : Layout
  context : Output.Context
  /-- The directory of the files. -/
  destination : Path
  formats : List Output.Format

inductive WriteFault where
  | refused (cause : Disk.Fault)
  | unavailable (cause : Output.Fault)

def WriteFault.message : WriteFault → String
  | refused cause => "IO error: " ++ cause.message
  | unavailable cause => cause.message

namespace Job

def path (job : Job) (file : Output.File) : Path :=
  Path.join job.destination (Path.ofText (job.context.file file.extension))

section

variable {m : Type → Type} [Monad m] [WritableDisk m]

def writeFile (job : Job) (file : Output.File) : m (Except WriteFault Unit) :=
  match file.content with
  | .error cause => pure (.error (.unavailable cause))
  | .ok text => do
    match ← WritableDisk.writeText (job.path file) text with
    | .error cause => pure (.error (.refused cause))
    | .ok () => pure (.ok ())

/-- Writes files up to the first that cannot be written. Lines about files are only reported with their
format as a whole, so this gives what was logged and how it ended. -/
def writeFiles (job : Job) : List Output.File → m (List Line × Except WriteFault Unit)
  | [] => pure ([], .ok ())
  | file :: rest => do
    let note := Line.log .info s!"writing {Text.shown (job.path file)}" .output
    match ← job.writeFile file with
    | .error fault => pure ([note], .error fault)
    | .ok () =>
      let (lines, result) ← job.writeFiles rest
      pure (note :: lines, result)

/-- Writes formats up to the first that cannot be written. Files written before stay where they are, and
a format is reported as written only when all its files are. -/
def writeFormats (job : Job) : List Output.Format → m Outcome
  | [] => pure ⟨.success, []⟩
  | format :: rest => do
    let files := format.files job.layout job.context
    let (lines, result) ← job.writeFiles files
    match result with
    | .error fault =>
      let failed := Line.log .error s!"{format.name} writer failed: {fault.message}"
      pure ⟨.writeFailed, lines ++ [failed]⟩
    | .ok () =>
      let wrote := files.map fun file => Line.wrote (job.path file)
      let outcome ← job.writeFormats rest
      pure (outcome.after (lines ++ wrote))

def carryOut (job : Job) : m Outcome :=
  if job.formats.isEmpty then
    pure ⟨.success, [.log .warn "no output format selected, nothing written"]⟩
  else do
    match ← WritableDisk.makeDirectories job.destination with
    | .error fault =>
      pure ⟨.writeFailed, [.log .error s!"{Text.shown job.destination}: {fault.message}"]⟩
    | .ok () => job.writeFormats job.formats

end

end Job

end FlashParams.CommandLine
