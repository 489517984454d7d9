import FlashParams.CommandLine.Readers

/-!
# The program

The outermost layer: the disk of the machine, the environment and the streams, and the readers that a
run is given. It decides nothing. The variable `RUST_LOG` holds the requested log filter.
-/

set_option autoImplicit false

namespace FlashParams

def Disk.Fault.ofError : IO.Error → Disk.Fault
  | .noFileOrDirectory .. => .notFound
  | .alreadyExists .. => .alreadyExists
  | .inappropriateType _ code details =>
    if code = 21 then .isADirectory else if code = 20 then .notADirectory else .other details
  | .invalidArgument _ code details =>
    if code = 36 then .nameTooLong else .other details
  | error => .other (toString error)

def catching {α : Type} (action : IO α) : IO (Except Disk.Fault α) := do
  try
    return .ok (← action)
  catch error =>
    return .error (.ofError error)

def decodeBytes (bytes : ByteArray) : Except Disk.Fault String :=
  match String.fromUTF8? bytes with
  | some text => .ok text
  | none => .error .notText

/-- Runs a disk operation at a path. Only paths that are text can be reached here, because that is all
the operations of the system library take. -/
def reaching {α : Type} (path : Path) (action : String → IO α) : IO (Except Disk.Fault α) :=
  match Text.ofUtf8? path with
  | some name => catching (action name)
  | none => return .error (.other "path is not UTF-8")

instance : ReadableDisk IO where
  isFile path := do
    match ← reaching path fun name => do return (← (← IO.FS.realPath name).metadata).type == .file with
    | .ok plain => return plain
    | .error _ => return false
  readText path := do
    return (← reaching path fun name => IO.FS.readBinFile name).bind decodeBytes
  readInput := do
    return (← catching ((← IO.getStdin).readBinToEnd)).bind decodeBytes

instance : WritableDisk IO where
  makeDirectories path := reaching path fun name => IO.FS.createDirAll name
  writeText path text := reaching path fun name => IO.FS.writeFile name text

end FlashParams

open FlashParams.CommandLine in
def main (arguments : List String) : IO UInt32 := do
  let words := (toolName :: arguments).map FlashParams.Text.utf8Bytes
  let outcome ← run standardReaders (← IO.getEnv "RUST_LOG") words
  for line in outcome.transcript do
    match line with
    | .usage _ => if outcome.status = .success then IO.println line.text else IO.eprintln line.text
    | _ => IO.eprintln line.text
  return outcome.status.code.toUInt32
