import FlashParams.Disk.Basic
import FlashParams.Text.Blank

/-!
# Argument files

An argument is bytes, as the system hands them over. If they are text and the text has the form
`@path`, the argument stands for the words of the file at `path`. Those may name argument files in
turn, so the words of an invocation are the leaves of a tree, from left to right. A file may name
itself; the tree is kept finite by a limit on its depth, and an argument file below the limit is a
fault, as is one that cannot be read. The first fault from the left is the answer.

Bytes that are no text name no file, whatever the first of them is; such an argument is kept as it
is.

How a file is read is a parameter of the expansion, so that it can be stated what it gives for any
assignment of contents to paths.
-/

set_option autoImplicit false

namespace FlashParams.CommandLine

/-- An argument as the system hands it over: bytes, and not always those of a text. What is no text can
still be a path or stand where nobody reads it. -/
abbrev Argument := List UInt8

/-- How many argument files may lie one inside the other. Files can name themselves, so without a limit
the expansion would not end. -/
def nestingLimit : Nat := 8

inductive ArgumentFault where
  | nestedTooDeeply (path : String)
  | unreadable (path : String) (cause : Disk.Fault)
  deriving DecidableEq, Repr

def ArgumentFault.message : ArgumentFault → String
  | nestedTooDeeply path => s!"@{path}: argument files nested too deeply"
  | unreadable path cause => s!"@{path}: {cause.message}"

/-- The path of the file that an argument stands for. Only a text can stand for one, so bytes that are no
text are never looked into, even if the first of them is that of `@`. -/
def argumentFile? (word : Argument) : Option String :=
  match Text.ofUtf8? word with
  | none => none
  | some text => (Text.dropFront? ['@'] text.toList).map String.ofList

def wordsOf (text : String) : List Argument :=
  (Text.words text.toList).map fun word => Text.utf8Bytes (String.ofList word)

section

variable {m : Type → Type} [Monad m]

/-- Words are expanded one after the other, and the first fault ends the list: files named behind it are
not read any more. -/
def expandEach (expandWord : Argument → m (Except ArgumentFault (List Argument))) :
    List Argument → m (Except ArgumentFault (List Argument))
  | [] => pure (.ok [])
  | word :: rest => do
    match ← expandWord word with
    | .error fault => pure (.error fault)
    | .ok words =>
      match ← expandEach expandWord rest with
      | .error fault => pure (.error fault)
      | .ok others => pure (.ok (words ++ others))

/-- The expansion of a word where so many levels of argument files are left. The limit counts down to
zero, so that the recursion is on it although the words come from files. -/
def expandWord (read : String → m (Except Disk.Fault String)) :
    Nat → Argument → m (Except ArgumentFault (List Argument))
  | levels, word =>
    match argumentFile? word with
    | none => pure (.ok [word])
    | some path =>
      match levels with
      | 0 => pure (.error (.nestedTooDeeply path))
      | levels + 1 => do
        match ← read path with
        | .error cause => pure (.error (.unreadable path cause))
        | .ok text => expandEach (expandWord read levels) (wordsOf text)

def expandArguments (read : String → m (Except Disk.Fault String)) (arguments : List Argument) :
    m (Except ArgumentFault (List Argument)) :=
  expandEach (expandWord read nestingLimit) arguments

end

end FlashParams.CommandLine
