import FlashParams.Image.Basic

/-!
# Images from pieces

An image can be given as pieces of bytes that are put down one after the other, so that where two
pieces overlap the later one counts. Pieces usually come in ascending order, each where the one
before it ends. Such neighbours are joined first: putting the joined piece down has the same effect,
and the image is not taken apart once for every piece.
-/

set_option autoImplicit false

namespace FlashParams

def Segment.cons (s : Segment) : List Segment → List Segment
  | [] => [s]
  | next :: rest =>
    if next.base.toNat = s.stop then ⟨s.base, s.bytes ++ next.bytes⟩ :: rest
    else s :: next :: rest

namespace Image

/-- Pieces with neighbours joined, in the same order. Only neighbours in the list are looked at, so
pieces that meet again later stay apart here and are put down one over the other. -/
def joined (pieces : List Segment) : List Segment :=
  pieces.foldr Segment.cons []

def overlay (m : Image) (s : Segment) : Image :=
  (m.extend? s.base s.bytes).getD m

/-- The image of pieces put down one after the other. A later piece counts where two overlap, which is
how a reader of records sees them. -/
def ofPieces (pieces : List Segment) : Image :=
  (joined pieces).foldl overlay empty

end Image

end FlashParams
