import SceneGraph.Scene.Chain

/-!
Parts, pins and pinned parts, and the cells that are made for them on first access.
-/

namespace SceneGraph

namespace PartAttribute

/-- The shared cell that is read while the attribute has none of its own. -/
def sharedCell : PartAttribute → NodeId
  | .scaleX | .scaleY => Scene.oneCell
  | .width | .height => Scene.sizeCell
  | _ => Scene.zeroCell

/-- The base value that the attribute's own cell starts from. -/
def initial (defaultSize : Float) : PartAttribute → Float
  | .scaleX | .scaleY => 1.0
  | .width | .height => defaultSize
  | _ => 0.0

end PartAttribute

/-- The cell to read for an attribute. -/
def Part.cell (p : Part) (a : PartAttribute) : NodeId :=
  (p.attributes a).getD a.sharedCell

namespace Scene

/-- A detached part with no attributes set. -/
def part (s : Scene) : NodeId × Scene :=
  s.create (.part {})

/-- A detached part that compiles its own subtree. -/
def model (s : Scene) : NodeId × Scene :=
  s.create (.part { model := some {} })

/-- A detached pin. -/
def pin (s : Scene) : NodeId × Scene :=
  s.create (.pin {})

/-- A detached pinned part with no pins. -/
def pinnedPart (s : Scene) : NodeId × Scene :=
  s.create (.pinnedPart {})

/-- The cell in a node's slot.  An empty slot is filled with a new calculated value; a node
without such a slot gets a new one each time. -/
def materialize (s : Scene) (owner : NodeId) (slot : Node → Option NodeId)
    (fill : NodeId → Node → Node) (base : Float) : Except OutOfRange (NodeId × Scene) := do
  match slot (← s.node owner) with
  | some cell => pure (cell, s)
  | none =>
    let (cell, s) := s.calculated base
    let s ← s.update owner (fill cell)
    pure (cell, s)

/-- Sets the base value of the cell that an access yields. -/
def setBaseOf (access : Except OutOfRange (NodeId × Scene)) (v : Float) :
    Except OutOfRange (NodeId × Scene) := do
  let (cell, s) ← access
  let s ← s.setBaseValue cell v
  pure (cell, s)

/-- The calculated value behind an attribute. -/
def partAttribute (s : Scene) (part : NodeId) (a : PartAttribute) :
    Except OutOfRange (NodeId × Scene) :=
  s.materialize part (Node.attribute? a) (Node.fillAttribute a) (a.initial s.defaultSize)

def setPartAttribute (s : Scene) (part : NodeId) (a : PartAttribute) (v : Float) :
    Except OutOfRange (NodeId × Scene) :=
  setBaseOf (s.partAttribute part a) v

/-- The calculated value behind a pin's coordinate. -/
def pinCoordinate (s : Scene) (pin : NodeId) (axis : Axis) :
    Except OutOfRange (NodeId × Scene) :=
  s.materialize pin (Node.coordinate? axis) (Node.fillCoordinate axis) 0.0

def setPinCoordinate (s : Scene) (pin : NodeId) (axis : Axis) (v : Float) :
    Except OutOfRange (NodeId × Scene) :=
  setBaseOf (s.pinCoordinate pin axis) v

/-- The calculated value behind a dimension of a pinned part. -/
def pinnedPartDimension (s : Scene) (part : NodeId) (d : Dimension) :
    Except OutOfRange (NodeId × Scene) :=
  s.materialize part (Node.dimension? d) (Node.fillDimension d) s.defaultSize

def setPinnedPartDimension (s : Scene) (part : NodeId) (d : Dimension) (v : Float) :
    Except OutOfRange (NodeId × Scene) :=
  setBaseOf (s.pinnedPartDimension part d) v

/-- Appends an extra motion to a container's working matrix, and yields the calculated value
that drives it. -/
def addTransformation (s : Scene) (owner : NodeId) (motion : Motion) :
    Except OutOfRange (NodeId × Scene) := do
  let (amount, s) := s.calculated 0.0
  let (step, s) := s.create (.transformation ⟨owner, motion, amount⟩)
  let s ← s.update owner (Node.appendTransformation step)
  pure (amount, s)

/-- Attaches a pin to a pinned part at a point of the part's own space, unless the slot is
taken. -/
def attachPin (s : Scene) (part : NodeId) (slot : PinSlot) (origin : Point Float) :
    Except OutOfRange Scene := do
  match (← s.node part).attachment? slot with
  | some _ => pure s
  | none =>
    let (originX, s) := s.calculated origin.x
    let (originY, s) := s.calculated origin.y
    s.update part (Node.attach slot { originX, originY })

/-- The calculated value behind the origin of an attached pin. -/
def pinOrigin? (s : Scene) (part : NodeId) (slot : PinSlot) (axis : Axis) :
    Except OutOfRange (Option NodeId) := do
  return ((← s.node part).attachment? slot).map fun a => a.origin axis

/-- The calculated value behind the target of an attached pin.  Once one of its targets was
asked for, the pin takes part in the solve. -/
def pinTarget? (s : Scene) (part : NodeId) (slot : PinSlot) (axis : Axis) :
    Except OutOfRange (Option NodeId × Scene) := do
  match (← s.node part).attachment? slot with
  | some _ =>
    let (cell, s) ← s.materialize part (Node.target? slot axis) (Node.fillTarget slot axis) 0.0
    pure (some cell, s)
  | none => pure (none, s)

/-- Sets the base value behind one target coordinate of an attached pin. -/
def setPinTargetAxis (s : Scene) (part : NodeId) (slot : PinSlot) (axis : Axis) (v : Float) :
    Except OutOfRange Scene := do
  match ← s.pinTarget? part slot axis with
  | (some cell, s) => s.setBaseValue cell v
  | (none, s) => pure s

/-- Sets the target of an attached pin. -/
def setPinTarget (s : Scene) (part : NodeId) (slot : PinSlot) (target : Point Float) :
    Except OutOfRange Scene := do
  let s ← s.setPinTargetAxis part slot .x target.x
  s.setPinTargetAxis part slot .y target.y

end Scene

end SceneGraph
