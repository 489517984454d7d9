import FlashParams.CommandLine.Job
import FlashParams.CommandLine.Options
import FlashParams.Declaration.Assign
import FlashParams.Manifest.Override

/-!
# A run of the command line

A run goes through fixed steps, each of which can end it:

1. argument files are expanded and options read;
2. the input has to be a file, and every override has to make sense;
3. the manifest is read and lowered to a declaration;
4. the overrides are applied, in the order in which they were given;
5. the declaration is compiled;
6. the files are written.

Steps 1 to 5 are `prepare`, which looks at the disk and ends in a `Job` or in the status of the step
that failed. Only step 6 changes anything. Lowering and compiling can also break off, and the run with
them; of what they had logged by then nothing is kept.

Options, TOML documents and log filters are read by code that is not part of the tool. A run takes it as
it is given (`Readers`) and asks nothing of it, so whatever is shown of runs holds of them all.
-/

set_option autoImplicit false

namespace FlashParams.CommandLine

/-- The code that a run is given: what reads arguments, manifests and the tables in overrides, and what a
log shows. The run is the same for all of it, so that nothing said about runs depends on how a manifest
is written down. -/
structure Readers where
  /-- The options that arguments ask for; the first argument is the name of the program. -/
  options : List Argument → Except Stop Options
  /-- The manifest that a text is, or what is wrong with it. -/
  manifest : String → Except String Manifest
  /-- The table that a text is, if it is a document. -/
  table? : String → Option Toml.Table
  /-- The text of a value in a message. -/
  shown : Toml.Value → String
  /-- Whether a log with this filter shows an entry. -/
  shows : String → Log.Entry → Bool

/-! ## From a manifest to a layout -/

/-- Applies overrides one after the other. One that names nothing is only noted, one that fails is the
last, and the declaration of a later one is what the earlier ones have left. -/
def applyOverrides : List Override → Declaration → List Line × Except Fault Declaration
  | [], d => ([], .ok d)
  | o :: rest, d =>
    match d.assign o.name o.value with
    | (_, .error fault) => ([], .error fault)
    | (changed, .ok count) =>
      let notes :=
        if count = 0 then
          let message := s!"unable to modify parameter '{o.name}': name is not defined"
          [Line.log .warn message .declaration]
        else []
      let (later, result) := applyOverrides rest changed
      (notes ++ later, result)

def badOverride (message : String) : Line :=
  .log .error s!"invalid --modify option: {message}"

/-- The layout of a declaration, with what is said about it. Where the computation breaks off nothing is
said at all, and the process ends with a status of its own. -/
def layoutOf (shownInput : String) (d : Declaration) : List Line × Except Status Layout :=
  match d.assembly? with
  | none => ([], .error .brokenOff)
  | some assembly =>
    let journal := assembly.journal.map Line.entry
    match assembly.finish with
    | .ok layout => (journal, .ok layout)
    | .error rejection =>
      let errors := rejection.diagnostics.map fun d => Line.log .error d.message
      let report := s!"{shownInput}: {rejection.message}"
      (journal ++ errors ++ [.report report], .error .validationFailed)

/-- The layout that a manifest and overrides come to, with what is said about it. Lowering comes first,
then the overrides, then the layout; each can end it, and all are over before anything is written. -/
def build (readers : Readers) (shownInput : String) (overrides : List Override)
    (manifest : Manifest) : List Line × Except Status Layout :=
  let loading := manifest.journal.map Line.entry
  match manifest.lower with
  | .error .leavesWord => (loading, .error .brokenOff)
  | .error fault =>
    (loading ++ [.log .error s!"{shownInput}: {fault.message readers.shown}"],
      .error .invalidFormat)
  | .ok declaration =>
    match applyOverrides overrides declaration with
    | (notes, .error fault) =>
      (loading ++ notes ++ [badOverride fault.message], .error .invalidOption)
    | (notes, .ok declaration) =>
      let (lines, result) := layoutOf shownInput declaration
      (loading ++ notes ++ lines, result)

def Options.job (o : Options) (layout : Layout) : Job where
  layout
  context :=
    { tool := toolName
      version := toolVersion
      input := o.shownInput
      basename := o.filesName }
  destination := o.destination
  formats := o.formats

def Stop.outcome (stop : Stop) : Outcome :=
  ⟨if stop.complaint then .invalidOption else .success, [.usage stop.message]⟩

/-! ## The run -/

section

variable {m : Type → Type} [Monad m]

def Options.readManifest [ReadableDisk m] (o : Options) : m (Except Disk.Fault String) :=
  if o.fromInput then ReadableDisk.readInput else ReadableDisk.readText o.input

/-- Decides what a run with these options is to write. It only looks at the disk, as its type says:
whatever is rejected is rejected here. -/
def Options.prepare [ReadableDisk m] (readers : Readers) (o : Options) :
    m (List Line × Except Status Job) := do
  let present ← if o.fromInput then pure true else ReadableDisk.isFile o.input
  if !present then
    pure ([.log .error s!"file not found: {o.shownInput}"], .error .fileNotFound)
  else
    match o.overrides.mapM (Override.read readers.table?) with
    | .error fault => pure ([badOverride (fault.message readers.shown)], .error .invalidOption)
    | .ok overrides =>
      let announced :=
        if o.fromInput then [Line.log .info s!"reading manifest from {o.shownInput}"] else []
      match ← o.readManifest with
      | .error fault =>
        pure (announced ++ [.log .error s!"{o.shownInput}: {fault.message}"],
          .error .fileNotFound)
      | .ok text =>
        match readers.manifest text with
        | .error message =>
          let fault := Manifest.Fault.malformed message
          pure (announced ++ [.log .error s!"{o.shownInput}: {fault.message readers.shown}"],
            .error .invalidFormat)
        | .ok manifest =>
          let (lines, result) := build readers o.shownInput overrides manifest
          pure (announced ++ lines, result.map o.job)

def Options.perform [ReadableDisk m] [WritableDisk m] (readers : Readers) (o : Options) :
    m Outcome := do
  match ← o.prepare readers with
  | (lines, .error status) => pure ⟨status, lines⟩
  | (lines, .ok job) =>
    let outcome ← job.carryOut
    pure (outcome.after lines)

/-- The filter of the log of a run with these options: the one that is asked for, or warnings and
errors, and progress in a verbose run. -/
def Options.filter (o : Options) (requested : Option String) : String :=
  requested.getD (if o.verbose then "info" else "warn")

/-- Runs the program with arguments, the first of which is its name, and a requested log filter. The
filter is for the whole transcript, so it takes effect at the end, when the options are known. -/
def run [ReadableDisk m] [WritableDisk m] (readers : Readers) (requested : Option String)
    (arguments : List Argument) : m Outcome := do
  match ← expandArguments (fun path => ReadableDisk.readText (Path.ofText path)) arguments with
  | .error fault => pure ⟨.invalidOption, [.report s!"error: {fault.message}"]⟩
  | .ok words =>
    match readers.options words with
    | .error stop => pure stop.outcome
    | .ok options =>
      let outcome ← options.perform readers
      pure (outcome.filtered (readers.shows (options.filter requested)))

end

end FlashParams.CommandLine
