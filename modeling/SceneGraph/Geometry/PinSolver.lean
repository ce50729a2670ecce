import SceneGraph.Geometry.Matrix

/-!
The affine map that carries pinned points to their targets.

Three pins determine the map.  Two leave one point free: a third is put beside the first on
either side, so that the direction of the segment and the ratio of its lengths are kept.
How that point is found is a parameter, because it is the only step that needs angles.
-/

namespace SceneGraph

/-- A point of a part's own space, and where it has to land. -/
structure PinPair (α : Type) where
  origin : Point α
  target : Point α
  deriving DecidableEq

namespace PinPair

variable {α : Type}

/-- The map of the unit square that sends the corners of a rectangle of the given size to
three points: the corner `(width, 0)` to the second, `(0, height)` to the third.  An extent
of zero has no direction, and its column is zero. -/
def basis [Zero α] [Sub α] [Div α] [BEq α] (size : Size α) (p q r : Point α) : Matrix α :=
  let column (extent : α) (s : Point α) : Point α :=
    if extent == 0 then ⟨0, 0⟩ else ⟨(s.x - p.x) / extent, (s.y - p.y) / extent⟩
  let u := column size.width q
  let v := column size.height r
  ⟨u.x, u.y, v.x, v.y, p.x, p.y⟩

variable [Zero α] [One α] [Add α] [Sub α] [Neg α] [Mul α] [Div α] [BEq α]

/-- The map from the origins of three pins to their targets, by way of the rectangle. -/
def carry (size : Size α) (p q r : PinPair α) : Matrix α :=
  (basis size p.origin q.origin r.origin).inverse.concat
    (basis size p.target q.target r.target)

/-- The map that a list of pins asks for: the identity for none, a shift for one, and no pin
after the third counts. -/
def solve (beside : Point α → Point α → Point α) (size : Size α) :
    List (PinPair α) → Matrix α
  | [] => Matrix.identity
  | [p] => Matrix.identity.translate (p.target.x - p.origin.x) (p.target.y - p.origin.y)
  | [p, q] =>
    carry size p q ⟨beside p.origin q.origin, beside p.target q.target⟩
  | p :: q :: r :: _ => carry size p q r

end PinPair

end SceneGraph
