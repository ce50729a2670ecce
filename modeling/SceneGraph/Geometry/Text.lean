import SceneGraph.Geometry.Matrix
import SceneGraph.Number.Text

/-!
The text of a matrix, as style sheets write it.
-/

namespace SceneGraph

/-- The six coefficients in order, written out in full. -/
def Matrix.cssText (m : Matrix Float) : String :=
  "matrix(" ++
    ",".intercalate ([m.a, m.b, m.c, m.d, m.x, m.y].map NumberStyle.plain.write) ++ ")"

end SceneGraph
