import FlashParams.Toml.Value

/-!
# Building tables from keys

A document does not give its tables in one piece. A header opens a table anywhere below the root,
and names the tables on the way if they do not exist yet; a dotted key does the same below the table
it is in; an array of tables grows by one with each of its headers. `Node` is a table under
construction, which remembers of every table how it came to be, because that decides who may still
add to it:

* a table that a header *declared* may not be declared again, nor be reached by a dotted key;
* one that was only *implied* by a header further down may be declared once;
* one that a *dotted* key made may be extended by dotted keys of the same table, not by a header;
* what is inside a value, such as an inline table, is closed.

A key is given once. All of this is `update`, which walks down a path and applies a change to the
table at its end, and the three changes `declare`, `append` and `set`.
-/

set_option autoImplicit false

namespace FlashParams.Toml

/-- How a table came to be. It decides what may still be added to it: a table that has been declared
cannot be declared again, and one made by dotted keys cannot be declared at all. -/
inductive Origin where
  | declared
  | implied
  | dotted
  deriving DecidableEq, Repr

inductive Node where
  | value (v : Value)
  | table (origin : Origin) (members : List (String × Node))
  /-- An array of tables; it is never empty. -/
  | tables (items : List (List (String × Node)))
  deriving Inhabited

abbrev Members := List (String × Node)

def replaceMember (key : String) (node : Node) (members : Members) : Members :=
  members.map fun m => if m.1 = key then (key, node) else m

abbrev Change := Origin → Members → Option Members

/-- Applies a change to the table at the end of a path. Tables on the way that do not exist are
made, with origin `made`; of an array of tables the last is entered. A dotted path may not enter a
declared table. -/
def update (made : Origin) (change : Change) : List String → Change
  | [], origin, members => change origin members
  | key :: path, _, members =>
    match members.lookup key with
    | none => do
      let inner ← update made change path made []
      return members ++ [(key, .table made inner)]
    -- what is inside a value is closed
    | some (.value _) => none
    | some (.table origin inner) =>
      if made = .dotted ∧ origin = .declared then none
      else do
        let inner ← update made change path origin inner
        return replaceMember key (.table origin inner) members
    | some (.tables items) =>
      match items.getLast? with
      | none => none
      | some last => do
        let last ← update made change path .declared last
        return replaceMember key (.tables (items.dropLast ++ [last])) members

def declare (key : String) : Change := fun _ members =>
  match members.lookup key with
  | none => some (members ++ [(key, .table .declared [])])
  | some (.table .implied inner) => some (replaceMember key (.table .declared inner) members)
  | some _ => none

def append (key : String) : Change := fun _ members =>
  match members.lookup key with
  | none => some (members ++ [(key, .tables [[]])])
  | some (.tables items) => some (replaceMember key (.tables (items ++ [[]])) members)
  | some _ => none

def set (behindPoints : Bool) (key : String) (v : Value) : Change := fun origin members =>
  if behindPoints ∧ origin ≠ .dotted then none
  else
    match members.lookup key with
    | none => some (members ++ [(key, .value v)])
    | some _ => none

def assign (path : List String) (key : String) (v : Value) : Change :=
  update .dotted (set (!path.isEmpty) key v) path

mutual

def Node.toValue : Node → Value
  | .value v => v
  | .table _ members => .table (memberValues members)
  | .tables items => .array (tableValues items)

def memberValues : List (String × Node) → Table
  | [] => []
  | (key, node) :: rest => (key, node.toValue) :: memberValues rest

def tableValues : List (List (String × Node)) → List Value
  | [] => []
  | members :: rest => .table (memberValues members) :: tableValues rest

end

end FlashParams.Toml
