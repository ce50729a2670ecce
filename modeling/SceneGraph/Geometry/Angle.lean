import SceneGraph.Geometry.PinSolver

/-!
Angles: what the plane needs of them once coefficients are floating-point numbers.
-/

namespace SceneGraph

namespace Angle

/-- Radians in one degree. -/
def radiansPerDegree : Float := 0.017453292519943295

/-- Degrees in one radian. -/
def degreesPerRadian : Float := 57.29577951308232

/-- A quarter turn, in radians. -/
def quarter : Float := 1.5707963267948966

def ofDegrees (degrees : Float) : Float :=
  degrees * radiansPerDegree

def toDegrees (radians : Float) : Float :=
  radians * degreesPerRadian

/-- The same angle in degrees, from zero up to a full turn. -/
def toBearing (radians : Float) : Float :=
  let degrees := toDegrees radians
  if degrees < 0.0 then degrees + 360.0 else degrees

end Angle

/-- The turn by an angle given in radians. -/
def Turn.ofRadians (radians : Float) : Turn Float :=
  ⟨radians.sin, radians.cos⟩

namespace Matrix

/-- Length of the image of the first basis vector. -/
def xScale (m : Matrix Float) : Float :=
  (m.a * m.a + m.b * m.b).sqrt

/-- Length of the image of the second basis vector. -/
def yScale (m : Matrix Float) : Float :=
  (m.c * m.c + m.d * m.d).sqrt

/-- Direction of the image of the first basis vector, in radians. -/
def xRotation (m : Matrix Float) : Float :=
  m.b.atan2 m.a

/-- Direction of the image of the second basis vector, measured from the vertical. -/
def yRotation (m : Matrix Float) : Float :=
  (-m.c).atan2 m.d

end Matrix

/-- The point one unit from the first, a quarter turn counter-clockwise from the direction of
the second. -/
def Point.beside (p q : Point Float) : Point Float :=
  let angle := (q.y - p.y).atan2 (q.x - p.x) + Angle.quarter
  ⟨p.x + angle.cos, p.y + angle.sin⟩

/-- The map that a list of pins asks for, in floating point. -/
def solvePins (pins : List (PinPair Float)) (size : Size Float) : Matrix Float :=
  PinPair.solve Point.beside size pins

/-- One motion of the plane whose amount is a single number. -/
inductive Motion where
  | translateX
  | translateY
  | scaleX
  | scaleY
  /-- The amount is in degrees. -/
  | rotate
  deriving DecidableEq

/-- Appends the motion by the given amount. -/
def Motion.append (motion : Motion) (m : Matrix Float) (amount : Float) : Matrix Float :=
  match motion with
  | .translateX => m.translateX amount
  | .translateY => m.translateY amount
  | .scaleX => m.scaleX amount
  | .scaleY => m.scaleY amount
  | .rotate => m.rotate (Turn.ofRadians (Angle.ofDegrees amount))

end SceneGraph
