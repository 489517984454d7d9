/-!
# Splitting text

Every reader of this library starts from a list of characters and cuts it: into lines, at the first
occurrence of a separator, or at each character of a class. The cuts are written here once, because
what a reader accepts is decided by where the pieces end:

* `splitWhere` keeps empty pieces, so joining the pieces gives the text back;
* `lines` follows the line rule of text files: a line feed ends a line, a carriage return right in
  front of it belongs to the line end, and a text that ends with a line feed has no empty last line;
* `splitOnce` cuts at the *first* separator and leaves later ones in the second half.
-/

set_option autoImplicit false

namespace FlashParams.Text

def consPiece {α : Type} (p : α → Bool) (x : α) (pieces : List (List α)) : List (List α) :=
  if p x then [] :: pieces
  else
    match pieces with
    | [] => [[x]]
    | piece :: rest => (x :: piece) :: rest

/-- The pieces of a list between the items that satisfy `p`. Empty pieces are kept; there is one piece
more than there are such items. -/
def splitWhere {α : Type} (p : α → Bool) (s : List α) : List (List α) :=
  s.foldr (consPiece p) [[]]

def splitOnce {α : Type} [DecidableEq α] (sep : α) : List α → Option (List α × List α)
  | [] => none
  | c :: rest =>
    if c = sep then some ([], rest)
    else (splitOnce sep rest).map fun (before, after) => (c :: before, after)

def dropCarriageReturn (line : List Char) : List Char :=
  if line.getLast? = some '\r' then line.dropLast else line

/-- The lines of a text. The last piece counts only if it is not empty, and keeps a carriage return,
since no line feed follows it. -/
def lines (s : List Char) : List (List Char) :=
  let pieces := splitWhere (· == '\n') s
  let closed := pieces.dropLast.map dropCarriageReturn
  match pieces.getLast? with
  | some [] | none => closed
  | some last => closed ++ [last]

def linesOf (s : String) : List String :=
  (lines s.toList).map String.ofList

/-- ASCII letters in lower case; every other character is left alone. The words that are compared without
regard to case are all ASCII, so no letter outside it can stand for one of theirs. -/
def foldCase (s : List Char) : List Char :=
  s.map Char.toLower

def dropFront? : List Char → List Char → Option (List Char)
  | [], s => some s
  | _ :: _, [] => none
  | p :: pre, c :: s => if p = c then dropFront? pre s else none

theorem consPiece_ne_nil {α : Type} (p : α → Bool) (x : α) (pieces : List (List α)) :
    consPiece p x pieces ≠ [] := by
  unfold consPiece
  split
  · simp
  · split <;> simp

theorem splitWhere_ne_nil {α : Type} (p : α → Bool) (s : List α) : splitWhere p s ≠ [] := by
  cases s with
  | nil => simp [splitWhere]
  | cons x rest => exact consPiece_ne_nil p x _

end FlashParams.Text
