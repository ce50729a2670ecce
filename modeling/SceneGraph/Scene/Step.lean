import SceneGraph.Geometry.Angle
import SceneGraph.RenderGraph.CommandList
import SceneGraph.Scene.Modifier

/-!
The commands of a scene.

A command names the nodes that it reads and writes, so that executing it needs no look at how
the scene is built.
-/

namespace SceneGraph

/-- Position of a node in its scene. -/
abbrev NodeId := Nat

/-- The cells a part's own placement is composed from. -/
structure PlacementCells where
  x : NodeId
  y : NodeId
  scaleX : NodeId
  scaleY : NodeId
  rotation : NodeId
  deriving DecidableEq

/-- The cells of a pin that takes part in a solve. -/
structure PinCells where
  originX : NodeId
  originY : NodeId
  targetX : NodeId
  targetY : NodeId
  deriving DecidableEq

/-- A command that stands alone. -/
inductive Step where
  /-- One link of a chain; without an operand it computes with zero. -/
  | modify (dest : NodeId) (op : Modifier) (target : NodeId) (operand : Option NodeId)
  | assign (dest source : NodeId)
  /-- Starts a working matrix afresh: scale, then rotate, then translate. -/
  | compose (part : NodeId) (cells : PlacementCells)
  /-- Appends an extra motion to a working matrix. -/
  | transform (owner : NodeId) (motion : Motion) (amount : NodeId)
  /-- Appends the parent's working matrix. -/
  | concatParent (part parent : NodeId)
  /-- Puts the content's origin where the working matrix has its own. -/
  | placeContent (part originX originY : NodeId)
  /-- Starts a working matrix afresh from pins. -/
  | solvePins (part : NodeId) (pins : List PinCells) (width height : NodeId)
  /-- Refreshes the node's read-backs and shows it. -/
  | showPart (part : NodeId)
  | showPin (pin : NodeId)
  | showPinnedPart (part : NodeId)
  deriving DecidableEq

/-- A command of a compiled list. -/
inductive Command where
  | step (s : Step)
  /-- Replays a model's own list with the model's own inputs. -/
  | replayModel (model : NodeId) (list : CommandList NodeId Command)

/-- A list compiled from a scene. -/
abbrev SceneList := CommandList NodeId Command

end SceneGraph
