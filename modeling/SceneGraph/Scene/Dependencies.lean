import SceneGraph.RenderGraph.Compile
import SceneGraph.Scene.Slot

/-!
A scene as a render graph.

A part needs its parent, then the cells it is composed from, and its matrix is put together
while these are gathered; only then it is shown.  A model does the same and then replays a
list of its own.  While that list is compiled the model is isolated: it needs and contributes
nothing, and its children are resolved.
-/

namespace SceneGraph

/-- The cells that place a part within its parent. -/
def Part.placementCells (p : Part) : PlacementCells where
  x := p.cell .x
  y := p.cell .y
  scaleX := p.cell .scaleX
  scaleY := p.cell .scaleY
  rotation := p.cell .rotation

def PlacementCells.toList (c : PlacementCells) : List NodeId :=
  [c.x, c.y, c.scaleX, c.scaleY, c.rotation]

def PinCells.toList (c : PinCells) : List NodeId :=
  [c.originX, c.originY, c.targetX, c.targetY]

/-- The cells of a pin that takes part in the solve.  It does so from the moment that one of
its target coordinates has a cell. -/
def Attachment.cells? (a : Attachment) : Option PinCells :=
  match a.target .x, a.target .y with
  | none, none => none
  | x, y => some ⟨a.originX, a.originY, x.getD Scene.zeroCell, y.getD Scene.zeroCell⟩

/-- The cells of every pin that takes part in the solve. -/
def PinnedPart.pinCells (p : PinnedPart) : List PinCells :=
  PinSlot.all.filterMap fun slot => (p.pins slot).bind Attachment.cells?

/-- The cell to read for a dimension. -/
def PinnedPart.sizeCell (p : PinnedPart) (d : Dimension) : NodeId :=
  (p.size d).getD Scene.sizeCell

namespace Scene

/-- One entry of what has to come before a node of a scene. -/
abbrev Need := Requirement NodeId Command

/-- A command emitted where it stands. -/
def emit (s : Step) : Need :=
  .command (.step s)

def partNeeds (id : NodeId) (p : Part) : List Need :=
  [.ofOption p.container.parent] ++
  p.placementCells.toList.map .node ++
  [emit (.compose id p.placementCells)] ++
  p.container.transformations.map .node ++
  (p.container.parent.map fun parent => emit (.concatParent id parent)).toList ++
  [.node (p.cell .originX), .node (p.cell .originY),
   emit (.placeContent id (p.cell .originX) (p.cell .originY)),
   .ofOption (p.attributes .width), .ofOption (p.attributes .height)]

def pinnedPartNeeds (id : NodeId) (p : PinnedPart) : List Need :=
  (p.pinCells.flatMap PinCells.toList).map .node ++
  [.node (p.sizeCell .width), .node (p.sizeCell .height),
   emit (.solvePins id p.pinCells (p.sizeCell .width) (p.sizeCell .height))] ++
  p.container.transformations.map .node

/-- What has to come before a node. -/
def needs (isolated : List NodeId) (id : NodeId) : Node → List Need
  | .scalar _ requirement => [.ofOption requirement]
  | .input .. => []
  | .calculated c => (c.modifiers.getLast?.map Requirement.node).toList
  | .modified m => [.node m.target, .ofOption m.operand]
  | .transformation t => [.node t.amount]
  | .part p => if p.model.isSome ∧ id ∈ isolated then [] else partNeeds id p
  | .pin p =>
    [.ofOption p.parent, .ofOption (p.coordinates .x), .ofOption (p.coordinates .y)]
  | .pinnedPart p => pinnedPartNeeds id p

/-- What a node contributes. -/
def contributions (isolated : List NodeId) (id : NodeId) :
    Node → List (Contribution NodeId Command)
  | .scalar .. | .input .. => []
  | .calculated c =>
    (c.modifiers.getLast?.map fun tail => .command (.step (.assign id tail))).toList
  | .modified m => [.command (.step (.modify id m.op m.target m.operand))]
  | .transformation t => [.command (.step (.transform t.owner t.motion t.amount))]
  | .part p =>
    if p.model.isNone then
      [.command (.step (.showPart id))]
    else if id ∈ isolated then
      []
    else
      [.command (.step (.showPart id)), .embed id]
  | .pin _ => [.command (.step (.showPin id))]
  | .pinnedPart _ => [.command (.step (.showPinnedPart id))]

/-- What is resolved after a node.  The subtree of a model belongs to the model's own list. -/
def resolvedAfter (isolated : List NodeId) (id : NodeId) : Node → List NodeId
  | .part p => if p.model.isSome ∧ id ∉ isolated then [] else p.container.children
  | .pinnedPart p => p.container.children
  | _ => []

/-- The input a node is bound to. -/
def boundInput : Node → Option InputIndex
  | .input _ index => some index
  | _ => none

/-- The render graph of a scene. -/
def graph (s : Scene) : RenderGraph NodeId Command where
  nodes := List.range s.count
  requirements isolated id := (s.nodes[id]?.map (needs isolated id)).getD []
  contributions isolated id := (s.nodes[id]?.map (contributions isolated id)).getD []
  children isolated id := (s.nodes[id]?.map (resolvedAfter isolated id)).getD []
  inputIndex id := s.nodes[id]?.bind boundInput
  embed list := .replayModel list.root list

end Scene

end SceneGraph
