import FlashParams.Disk.Basic

/-!
# A disk in memory

A tree holds the files and directories below a working directory, each under the list of components
that leads to it; the working directory itself is the empty list and needs no entry. It comes with
the text of a standard input, so that a run of the command line is a function of a tree.

Following a path goes through its components from the left, and every one but the last has to lead
to a directory. What lies above the working directory, or at the root of an absolute path, is not
part of a tree: such places count as directories in which nothing is known.
-/

set_option autoImplicit false

namespace FlashParams.Disk

inductive Node where
  | directory
  | file (content : List UInt8)
  deriving DecidableEq, Repr

/-- A disk in memory, with a standard input: what the theorems about runs are about. A place that is not
among the entries has nothing on it. -/
structure Tree where
  entries : List (List Path × Node) := []
  input : List UInt8 := []

namespace Tree

/-- Whether a place lies outside every tree, or is the working directory. Those are there without an
entry and are directories. -/
def isGiven (place : List Path) : Bool :=
  place.all (· = Path.above) || place = [Path.root]

def node? (t : Tree) (place : List Path) : Option Node :=
  if isGiven place then some .directory else t.entries.lookup place

def put (t : Tree) (place : List Path) (node : Node) : Tree :=
  { t with entries := (place, node) :: t.entries.filter (·.1 ≠ place) }

def step (place : List Path) (component : Path) : Except Fault (List Path) :=
  if Path.componentLimit < component.length then .error .nameTooLong
  else if component = Path.above ∧ !isGiven place then .ok place.dropLast
  else .ok (place ++ [component])

/-- The place components lead to from a place, all of them but the last through directories. What is at
the last place is not asked, because writing a file starts from a place with nothing on it. -/
def follow (t : Tree) (place : List Path) : List Path → Except Fault (List Path)
  | [] => .ok place
  | component :: rest =>
    match t.node? place with
    | some .directory =>
      match step place component with
      | .error fault => .error fault
      | .ok next => t.follow next rest
    | some (.file _) => .error .notADirectory
    | none => .error .notFound

def pathFault? (path : Path) : Option Fault :=
  if path.contains 0 then some .zeroInPath
  else if path = [] then some .notFound
  else if Path.limit < path.length then some .nameTooLong
  else none

def locate (t : Tree) (path : Path) : Except Fault (List Path) :=
  match pathFault? path with
  | some fault => .error fault
  | none => t.follow [] (Path.components path)

def find (t : Tree) (path : Path) : Except Fault (List Path × Node) :=
  match t.locate path with
  | .error fault => .error fault
  | .ok place =>
    match t.node? place with
    | none => .error .notFound
    | some (.file content) =>
      if Path.namesDirectory path then .error .notADirectory else .ok (place, .file content)
    | some .directory => .ok (place, .directory)

def isFile (t : Tree) (path : Path) : Bool :=
  match t.find path with
  | .ok (_, .file _) => true
  | _ => false

def decode (content : List UInt8) : Except Fault String :=
  match Text.ofUtf8? content with
  | some text => .ok text
  | none => .error .notText

def readText (t : Tree) (path : Path) : Except Fault String :=
  match t.find path with
  | .error fault => .error fault
  | .ok (_, .directory) => .error .isADirectory
  | .ok (_, .file content) => decode content

/-- Makes the directories that components lead through from a place. The first of them that is a file
ends it; those made before remain only if the whole succeeds, since the tree is the result. -/
def makeAlong (t : Tree) (place : List Path) : List Path → Except Fault Tree
  | [] => .ok t
  | component :: rest =>
    match step place component with
    | .error fault => .error fault
    | .ok next =>
      match t.node? next with
      | some .directory => t.makeAlong next rest
      | some (.file _) => .error (if rest.isEmpty then .alreadyExists else .notADirectory)
      | none => (t.put next .directory).makeAlong next rest

/-- Makes the directory of a path and those it is in. A path that ends in a dot has to lead to a
directory that is there. -/
def makeDirectories (t : Tree) (path : Path) : Except Fault Tree :=
  match pathFault? path with
  | some fault => .error fault
  | none =>
    if (Path.pieces path).getLast? = some Path.here then (t.find path).map fun _ => t
    else t.makeAlong [] (Path.components path)

def writeText (t : Tree) (path : Path) (text : String) : Except Fault Tree :=
  match t.locate path with
  | .error fault => .error fault
  | .ok place =>
    match t.node? place with
    | some .directory => .error .isADirectory
    | _ => .ok (t.put place (.file (Text.utf8Bytes text)))

/-- A change as a step of a computation on a tree. A refused change leaves the tree as it is, which is
why a fault needs no account of what was done before it. -/
def change (f : Tree → Except Fault Tree) : StateM Tree (Except Fault Unit) := fun t =>
  match f t with
  | .ok changed => (.ok (), changed)
  | .error fault => (.error fault, t)

end Tree

instance : ReadableDisk (StateM Tree) where
  isFile path := fun t => (t.isFile path, t)
  readText path := fun t => (t.readText path, t)
  readInput := fun t => (Tree.decode t.input, t)

instance : WritableDisk (StateM Tree) where
  makeDirectories path := Tree.change (·.makeDirectories path)
  writeText path text := Tree.change (·.writeText path text)

end FlashParams.Disk
