import FlashParams.Disk.Path

/-!
# Disks

The command line looks at files and makes files. Which disk it does that on is left open:
`ReadableDisk` is what it may look at and `WritableDisk` what it may change, and both are classes of
a monad. The program runs on the disk of the machine; a tree of files in memory
(`FlashParams.Disk.Tree`) is another, about which things can be proved.

The two classes are kept apart because a run has two halves. The first decides what to write and is
given a readable disk only, so by its type it cannot change anything.
-/

set_option autoImplicit false

namespace FlashParams

inductive Disk.Fault where
  | notFound
  | alreadyExists
  | notADirectory
  | isADirectory
  /-- A path, or a component of one, has more bytes than a disk takes. -/
  | nameTooLong
  /-- A path has a zero character, which ends every path. -/
  | zeroInPath
  /-- The content of a file is not UTF-8. -/
  | notText
  | other (text : String)
  deriving DecidableEq, Repr

def Disk.Fault.message : Disk.Fault → String
  | notFound => "No such file or directory (os error 2)"
  | alreadyExists => "File exists (os error 17)"
  | notADirectory => "Not a directory (os error 20)"
  | isADirectory => "Is a directory (os error 21)"
  | nameTooLong => "File name too long (os error 36)"
  | zeroInPath => "file name contained an unexpected NUL byte"
  | notText => "stream did not contain valid UTF-8"
  | other text => text

/-- A disk that can be looked at. Apart from `WritableDisk`, so that the type of a computation says
whether it can change anything. -/
class ReadableDisk (m : Type → Type) where
  /-- Whether a path leads to a file. -/
  isFile : Path → m Bool
  /-- The text of a file. -/
  readText : Path → m (Except Disk.Fault String)
  /-- The text of the standard input. -/
  readInput : m (Except Disk.Fault String)

class WritableDisk (m : Type → Type) where
  /-- Makes a directory and those it is in; one that is there already is no fault. -/
  makeDirectories : Path → m (Except Disk.Fault Unit)
  /-- Makes a file with a text, or replaces the content of the file that is there. -/
  writeText : Path → String → m (Except Disk.Fault Unit)

end FlashParams
