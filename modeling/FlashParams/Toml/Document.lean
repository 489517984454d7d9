import FlashParams.Toml.Atom
import FlashParams.Toml.Tree

/-!
# TOML documents

The structure above the atoms: arrays and inline tables, which nest; statements, one to a line; and
the document, which is its statements applied to an empty root table.

Reading takes a fuel that every step lowers by one. The document's length is enough, since every
step also consumes a character; values nested deeper than `depthLimit` allows are refused, whatever
the fuel. A byte-order mark in front of a document is passed over.
-/

set_option autoImplicit false

namespace FlashParams.Toml

/-! ## Values -/

def skipLines : Nat → List Char → Option (List Char)
  | 0, _ => none
  | fuel + 1, s =>
    match skipSpace s with
    | '#' :: rest => (lineBreak? (skipComment ('#' :: rest))).bind (skipLines fuel)
    | '\n' :: rest => skipLines fuel rest
    | '\r' :: '\n' :: rest => skipLines fuel rest
    | '\r' :: _ => none
    | rest => some rest

mutual

/-- A value, `depth` levels below the statement it belongs to. Values nest, so the readers of values,
items and members call each other and share one fuel, of which every call takes a part. -/
def value? : Nat → Nat → Reader Value
  | 0, _, _ => none
  | fuel + 1, depth, s =>
    match s with
    | '[' :: rest =>
      if depthLimit ≤ depth + 1 then none
      else (items? fuel (depth + 1) rest).map fun (items, rest) => (.array items, rest)
    | '\x7b' :: rest =>
      if depthLimit ≤ depth + 1 then none
      else
        match skipSpace rest with
        | '\x7d' :: rest => some (.table [], rest)
        | rest =>
          (members? fuel (depth + 1) [] rest).map fun (members, rest) =>
            (.table (memberValues members), rest)
    | s => atom? s

def items? : Nat → Nat → Reader (List Value)
  | 0, _, _ => none
  | fuel + 1, depth, s =>
    match skipLines (s.length + 1) s with
    | none => none
    | some (']' :: rest) => some ([], rest)
    | some s =>
      match value? fuel depth s with
      | none => none
      | some (item, rest) =>
        match skipLines (rest.length + 1) rest with
        | some (']' :: rest) => some ([item], rest)
        | some (',' :: rest) =>
          (items? fuel depth rest).map fun (items, rest) => (item :: items, rest)
        | _ => none

/-- The members of an inline table up to its closing brace, added to those read before. No comma may
follow the last, and no line break may stand between them. -/
def members? : Nat → Nat → Members → Reader Members
  | 0, _, _, _ => none
  | fuel + 1, depth, members, s =>
    match key? s with
    | none => none
    | some ((path, key), rest) =>
      match rest with
      | '=' :: rest =>
        match value? fuel depth (skipSpace rest) with
        | none => none
        | some (v, rest) =>
          match assign path key v .declared members with
          | none => none
          | some members =>
            match skipSpace rest with
            | '\x7d' :: rest => some (members, rest)
            | ',' :: rest => members? fuel depth members rest
            | _ => none
      | _ => none

end

/-! ## Statements -/

/-- One statement of a document. -/
inductive Statement where
  /-- A table header. -/
  | table (path : List String) (key : String)
  /-- A header that adds a table to an array. -/
  | arrayTable (path : List String) (key : String)
  /-- A key with its value. -/
  | assign (path : List String) (key : String) (v : Value)

def header? (closing : List Char) (s : List Char) :
    Option ((List String × String) × List Char) :=
  match key? s with
  | none => none
  | some (target, rest) => (Text.dropFront? closing rest).map fun rest => (target, rest)

def statement? (s : List Char) : Option (Statement × List Char) :=
  match s with
  | '[' :: '[' :: rest =>
    (header? [']', ']'] rest).map fun ((path, key), rest) => (.arrayTable path key, rest)
  | '[' :: rest =>
    (header? [']'] rest).map fun ((path, key), rest) => (.table path key, rest)
  | s =>
    match key? s with
    | some ((path, key), '=' :: rest) =>
      (value? (rest.length + 1) 0 (skipSpace rest)).map fun (v, rest) =>
        (.assign path key v, rest)
    | _ => none

def statements? : Nat → List Statement → List Char → Option (List Statement)
  | 0, _, _ => none
  | fuel + 1, read, s =>
    match skipSpace s with
    | [] => some read.reverse
    | '#' :: rest => (lineEnd? ('#' :: rest)).bind (statements? fuel read)
    | '\n' :: rest => statements? fuel read rest
    | '\r' :: '\n' :: rest => statements? fuel read rest
    | s =>
      match statement? s with
      | none => none
      | some (statement, rest) => (lineEnd? rest).bind (statements? fuel (statement :: read))

/-! ## The document -/

structure State where
  root : Members := []
  header : List String := []

def State.apply? (state : State) : Statement → Option State
  | .table path key => do
    let root ← update .implied (declare key) path .declared state.root
    return { root, header := path ++ [key] }
  | .arrayTable path key => do
    let root ← update .implied (append key) path .declared state.root
    return { root, header := path ++ [key] }
  | .assign path key v => do
    let root ← update .implied (assign path key v) state.header .declared state.root
    return { state with root }

/-- The table of a document, or nothing when the text is no document. What is wrong with it is not told:
whoever asks only says that it is none. -/
def read? (text : String) : Option Table := do
  let s := text.toList
  -- a byte-order mark says nothing in UTF-8
  let s := if s.head? = some '\ufeff' then s.tail else s
  let statements ← statements? (s.length + 1) [] s
  let state ← statements.foldlM State.apply? {}
  return memberValues state.root

end FlashParams.Toml
