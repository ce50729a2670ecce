import SceneGraph.Scene.Slot

/-!
Reading placed nodes back: cells that follow a matrix, or a pin's place in the world.
-/

namespace SceneGraph

namespace Scene

/-- The cell behind a declared dimension of a part or pinned part. -/
def sizeCellOf (n : Node) (d : Dimension) : NodeId :=
  match n, d with
  | .part p, .width => p.cell .width
  | .part p, .height => p.cell .height
  | .pinnedPart p, d => (p.size d).getD sizeCell
  | _, _ => sizeCell

/-- What a read-back of a node would show now. -/
def readbackValue (s : Scene) (owner : NodeId) (r : Readback) : Except OutOfRange Float := do
  let n ← s.node owner
  match n.placement? with
  | none => pure 0.0
  | some m =>
    match r with
    | .x => pure m.x
    | .y => pure m.y
    | .scaleX => pure m.xScale
    | .scaleY => pure m.yScale
    | .rotation => pure (Angle.toBearing m.xRotation)
    | .width => return (← s.value (sizeCellOf n .width)) * m.xScale
    | .height => return (← s.value (sizeCellOf n .height)) * m.yScale

/-- The cell that reads a container back.  A new one shows the present matrix. -/
def readback (s : Scene) (owner : NodeId) (r : Readback) :
    Except OutOfRange (NodeId × Scene) := do
  match (← s.node owner).readback? r with
  | some cell => pure (cell, s)
  | none =>
    let v ← s.readbackValue owner r
    let (cell, s) := s.create (.scalar v (some owner))
    let s ← s.update owner (Node.fillReadback r cell)
    pure (cell, s)

/-- Refreshes one read-back, if it has a cell. -/
def refreshReadback (owner : NodeId) (slots : Slots Readback) (s : Scene) (r : Readback) :
    Except OutOfRange Scene := do
  match slots r with
  | some cell => s.setValue cell (← s.readbackValue owner r)
  | none => pure s

/-- Refreshes every read-back of a part or pinned part. -/
def refreshReadbacks (s : Scene) (owner : NodeId) : Except OutOfRange Scene := do
  match (← s.node owner).readbacks? with
  | some slots => Readback.all.foldlM (refreshReadback owner slots) s
  | none => pure s

/-- The number in a slot, or zero while the slot is empty. -/
def slotValue (s : Scene) : Option NodeId → Except OutOfRange Float
  | some cell => s.value cell
  | none => pure 0.0

/-- Where a pin is in the world; nowhere while it has no parent. -/
def pinPosition? (s : Scene) (pin : NodeId) : Except OutOfRange (Option (Point Float)) := do
  match ← s.node pin with
  | .pin p =>
    match p.parent with
    | none => pure none
    | some parent =>
      match (← s.node parent).placement? with
      | none => pure none
      | some m => do
        let x ← s.slotValue (p.coordinates .x)
        let y ← s.slotValue (p.coordinates .y)
        pure (some (m.image ⟨x, y⟩))
  | _ => pure none

/-- Overwrites the cell in a slot, if there is one. -/
def setSlotValue (s : Scene) (slot : Option NodeId) (v : Float) : Except OutOfRange Scene :=
  match slot with
  | some cell => s.setValue cell v
  | none => pure s

/-- Refreshes the read-backs of a pin that is somewhere. -/
def refreshPin (s : Scene) (pin : NodeId) : Except OutOfRange Scene := do
  match ← s.pinPosition? pin with
  | none => pure s
  | some world => do
    let n ← s.node pin
    let s ← s.setSlotValue (n.pinReadback? .x) world.x
    s.setSlotValue (n.pinReadback? .y) world.y

/-- The cell that reads a pin's place back.  A new one is refreshed together with the other
axis. -/
def pinReadback (s : Scene) (pin : NodeId) (axis : Axis) :
    Except OutOfRange (NodeId × Scene) := do
  match (← s.node pin).pinReadback? axis with
  | some cell => pure (cell, s)
  | none =>
    let (cell, s) := s.create (.scalar 0.0 (some pin))
    let s ← s.update pin (Node.fillPinReadback axis cell)
    let s ← s.refreshPin pin
    pure (cell, s)

end Scene

end SceneGraph
