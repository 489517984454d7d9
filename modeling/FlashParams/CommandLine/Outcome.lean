import FlashParams.Disk.Path
import FlashParams.Log.Basic

/-!
# The outcome of a run

A run ends with a status and leaves a transcript: log entries, the report of a layout that failed,
the files that were written. The transcript is a value, in the order in which it came about;
printing it is left to the outermost layer. Which log entries are shown is decided at the very end,
so what a run does cannot depend on how much of it is shown.

A run in which a computation breaks off ends there, with a status that is none of the program's own.
-/

set_option autoImplicit false

namespace FlashParams.CommandLine

inductive Status where
  | success
  | fileNotFound
  | invalidFormat
  | validationFailed
  | writeFailed
  | invalidOption
  /-- A computation broke off; the process ends with the status of a panic. -/
  | brokenOff
  deriving DecidableEq, Repr

def Status.code : Status → UInt8
  | success => 0
  | fileNotFound => 1
  | invalidFormat => 2
  | validationFailed => 3
  | writeFailed => 4
  | invalidOption => 5
  | brokenOff => 101

/-- One item of a transcript: what a run says, in the order in which it says it. Files are items of their
own, because what has been written is what the theorems about runs ask a transcript for. -/
inductive Line where
  | entry (e : Log.Entry)
  /-- A line of the report of a layout that failed, or of a bad argument file. -/
  | report (text : String)
  /-- A file that was written. -/
  | wrote (path : Path)
  /-- Text about the program itself, or about how it was called. -/
  | usage (text : String)
  deriving DecidableEq, Repr

namespace Line

def log (level : Log.Level) (message : String) (source : Log.Source := .program) : Line :=
  .entry ⟨level, source, message⟩

def shownBy (shows : Log.Entry → Bool) : Line → Bool
  | entry e => shows e
  | _ => true

def text : Line → String
  | entry e => e.line
  | report text => text
  | wrote path => s!"wrote {Text.shown path}"
  | usage text => text

end Line

structure Outcome where
  status : Status
  transcript : List Line
  deriving Repr

def Outcome.after (lines : List Line) (o : Outcome) : Outcome :=
  { o with transcript := lines ++ o.transcript }

def Outcome.filtered (shows : Log.Entry → Bool) (o : Outcome) : Outcome :=
  { o with transcript := o.transcript.filter (Line.shownBy shows) }

end FlashParams.CommandLine
