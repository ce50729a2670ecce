/-!
Affine maps of the plane, written as six coefficients.

Coefficients come from any type with the field operations and a test for equality, so one
definition serves floating-point frames and exact arithmetic alike.  Every edit appends a
map: what was there is applied first.
-/

namespace SceneGraph

/-- A point of the plane. -/
structure Point (α : Type) where
  x : α
  y : α
  deriving DecidableEq

/-- The extent of a rectangle whose corner is the origin. -/
structure Size (α : Type) where
  width : α
  height : α
  deriving DecidableEq

/-- Sine and cosine of an angle; a rotation needs nothing else of it. -/
structure Turn (α : Type) where
  sin : α
  cos : α
  deriving DecidableEq

/-- The map sending `(px, py)` to `(a px + c py + x, b px + d py + y)`. -/
structure Matrix (α : Type) where
  a : α
  b : α
  c : α
  d : α
  x : α
  y : α
  deriving DecidableEq

namespace Matrix

variable {α : Type}

/-- Leaves every point where it is. -/
def identity [Zero α] [One α] : Matrix α :=
  ⟨1, 0, 0, 1, 0, 0⟩

instance [Zero α] [One α] : Inhabited (Matrix α) :=
  ⟨identity⟩

/-- Coefficients are compared as numbers, one by one. -/
def same [BEq α] (m n : Matrix α) : Bool :=
  m.a == n.a && m.b == n.b && m.c == n.c && m.d == n.d && m.x == n.x && m.y == n.y

def isIdentity [Zero α] [One α] [BEq α] (m : Matrix α) : Bool :=
  m.same identity

/-- Neither rotated nor skewed. -/
def isAxisAligned [Zero α] [BEq α] (m : Matrix α) : Bool :=
  m.b == 0 && m.c == 0

/-- Takes over where another matrix puts the origin. -/
def withOffsetOf (m source : Matrix α) : Matrix α :=
  { m with x := source.x, y := source.y }

/-- Takes over everything but where another matrix puts the origin. -/
def withLinearOf (m source : Matrix α) : Matrix α :=
  { source with x := m.x, y := m.y }

section Motion

variable [Add α] [Sub α] [Mul α]

/-- Turns the image of the first basis vector. -/
def rotateXAxis (m : Matrix α) (t : Turn α) : Matrix α :=
  { m with a := t.cos * m.a - t.sin * m.b, b := t.sin * m.a + t.cos * m.b }

/-- Turns the image of the second basis vector. -/
def rotateYAxis (m : Matrix α) (t : Turn α) : Matrix α :=
  { m with c := t.cos * m.c - t.sin * m.d, d := t.sin * m.c + t.cos * m.d }

/-- Turns the image of the origin. -/
def rotateOffset (m : Matrix α) (t : Turn α) : Matrix α :=
  { m with x := t.cos * m.x - t.sin * m.y, y := t.sin * m.x + t.cos * m.y }

/-- Turns both basis vectors and leaves the image of the origin. -/
def rotateLinear (m : Matrix α) (t : Turn α) : Matrix α :=
  (m.rotateXAxis t).rotateYAxis t

/-- Appends a rotation about the origin. -/
def rotate (m : Matrix α) (t : Turn α) : Matrix α :=
  (m.rotateLinear t).rotateOffset t

/-- Appends a shift. -/
def translate (m : Matrix α) (tx ty : α) : Matrix α :=
  { m with x := m.x + tx, y := m.y + ty }

def translateX (m : Matrix α) (tx : α) : Matrix α :=
  { m with x := m.x + tx }

def translateY (m : Matrix α) (ty : α) : Matrix α :=
  { m with y := m.y + ty }

def scaleX (m : Matrix α) (sx : α) : Matrix α :=
  { m with a := m.a * sx, c := m.c * sx, x := m.x * sx }

def scaleY (m : Matrix α) (sy : α) : Matrix α :=
  { m with b := m.b * sy, d := m.d * sy, y := m.y * sy }

/-- Appends a scaling of the two axes. -/
def scale (m : Matrix α) (sx sy : α) : Matrix α :=
  (m.scaleX sx).scaleY sy

end Motion

section Product

variable [Zero α] [Add α] [Mul α] [BEq α]

/-- Appends another map.  Two axis-aligned maps have an axis-aligned product, which is
formed without the terms that vanish. -/
def concat (m n : Matrix α) : Matrix α :=
  let x := m.x * n.a + n.x
  let y := m.y * n.d + n.y
  if m.isAxisAligned && n.isAxisAligned then
    ⟨m.a * n.a, 0, 0, m.d * n.d, x, y⟩
  else
    ⟨m.a * n.a + m.b * n.c, m.a * n.b + m.b * n.d,
     m.c * n.a + m.d * n.c, m.d * n.d + m.c * n.b,
     x + m.y * n.c, y + m.x * n.b⟩

/-- Appends another map to the basis vectors alone. -/
def concatLinear (m n : Matrix α) : Matrix α :=
  if m.isAxisAligned && n.isAxisAligned then
    { m with a := m.a * n.a, d := m.d * n.d }
  else
    { m with
      a := m.a * n.a + m.b * n.c
      b := m.a * n.b + m.b * n.d
      c := m.c * n.a + m.d * n.c
      d := m.d * n.d + m.c * n.b }

/-- Appends another map to the image of the origin alone. -/
def concatOffset (m n : Matrix α) : Matrix α :=
  { m with x := n.x + m.x * n.a + m.y * n.c, y := n.y + m.y * n.d + m.x * n.b }

end Product

section Inverse

variable [Zero α] [One α] [Add α] [Sub α] [Neg α] [Mul α] [Div α] [BEq α]

/-- The map that undoes this one.  A singular map has none and gives the identity. -/
def inverse (m : Matrix α) : Matrix α :=
  if m.isAxisAligned && m.a != 0 && m.d != 0 then
    let a := 1 / m.a
    let d := 1 / m.d
    { m with a, d, x := m.x * -a, y := m.y * -d }
  else
    let determinant := m.a * m.d - m.b * m.c
    if determinant == 0 then
      identity
    else
      let inv := 1 / determinant
      let a := m.d * inv
      let b := -m.b * inv
      let c := -m.c * inv
      let d := m.a * inv
      ⟨a, b, c, d, -(a * m.x + c * m.y), -(b * m.x + d * m.y)⟩

end Inverse

section Images

variable [Add α] [Mul α]

def imageX (m : Matrix α) (px py : α) : α :=
  m.x + m.a * px + m.c * py

def imageY (m : Matrix α) (px py : α) : α :=
  m.y + m.d * py + m.b * px

/-- Where the map sends a point. -/
def image (m : Matrix α) (p : Point α) : Point α :=
  ⟨m.imageX p.x p.y, m.imageY p.x p.y⟩

/-- Whether a point lies in the image of the rectangle of the given size, its edges
included. -/
def contains [Zero α] [One α] [Sub α] [Neg α] [Div α] [BEq α] [LE α] [DecidableLE α]
    (m : Matrix α) (p : Point α) (size : Size α) : Bool :=
  let q := m.inverse.image p
  decide (0 ≤ q.x) && decide (q.x ≤ size.width) &&
    decide (0 ≤ q.y) && decide (q.y ≤ size.height)

end Images

end Matrix

end SceneGraph
