import SceneGraph.Scene.SourceTable

/-!
The nodes of a scene.

A node is either a cell that carries a number, a step that changes a matrix, or something
that is placed in the plane.  Links between nodes are positions in the scene.
-/

namespace SceneGraph

/-- The numbers that a part is placed by. -/
inductive PartAttribute where
  | x
  | y
  | originX
  | originY
  | scaleX
  | scaleY
  | rotation
  | width
  | height
  deriving DecidableEq

/-- The numbers that can be read back from a placed part. -/
inductive Readback where
  | x
  | y
  | scaleX
  | scaleY
  | rotation
  | width
  | height
  deriving DecidableEq

/-- Every read-back, in the order in which they are refreshed. -/
def Readback.all : List Readback :=
  [.x, .y, .scaleX, .scaleY, .rotation, .width, .height]

inductive Axis where
  | x
  | y
  deriving DecidableEq

inductive Dimension where
  | width
  | height
  deriving DecidableEq

/-- The pins of a pinned part, in the order in which they count. -/
inductive PinSlot where
  | a
  | b
  | c
  deriving DecidableEq

def PinSlot.all : List PinSlot :=
  [.a, .b, .c]

/-- Places for cells that are made only when they are asked for. -/
abbrev Slots (ι : Type) := ι → Option NodeId

namespace Slots

variable {ι : Type}

def empty : Slots ι :=
  fun _ => none

/-- Puts a cell into one slot. -/
def fill [DecidableEq ι] (slots : Slots ι) (i : ι) (cell : NodeId) : Slots ι :=
  fun j => if j = i then some cell else slots j

@[simp] theorem empty_apply (i : ι) : (empty : Slots ι) i = none :=
  rfl

@[simp] theorem fill_self [DecidableEq ι] (slots : Slots ι) (i : ι) (cell : NodeId) :
    slots.fill i cell i = some cell := by
  simp [fill]

theorem fill_of_ne [DecidableEq ι] (slots : Slots ι) {i j : ι} (h : j ≠ i) (cell : NodeId) :
    slots.fill i cell j = slots j := by
  simp [fill, h]

end Slots

/-- A token of the host's; the scene only hands it back. -/
abbrev DisplayHandle := UInt64

/-- A base value and a chain of modifiers on it. -/
structure Calculated where
  /-- The cell that holds the base value. -/
  base : NodeId
  value : Float
  /-- The links of the chain, oldest first; each one works on the one before. -/
  modifiers : List NodeId

/-- The node whose value the chain ends with. -/
def Calculated.tail (c : Calculated) : NodeId :=
  c.modifiers.getLast?.getD c.base

/-- One link of a chain. -/
structure Modified where
  op : Modifier
  target : NodeId
  operand : Option NodeId
  value : Float

/-- An extra motion of a container's working matrix. -/
structure Transformation where
  owner : NodeId
  motion : Motion
  amount : NodeId

/-- What parts and pinned parts have in common. -/
structure Container where
  parent : Option NodeId := none
  children : List NodeId := []
  /-- The extra motions, in the order in which they apply. -/
  transformations : List NodeId := []
  /-- The matrix that children build on. -/
  working : Matrix Float := Matrix.identity
  /-- The working matrix with the content's origin taken into account. -/
  content : Matrix Float := Matrix.identity

/-- A compiled list, and the generation of the scene it was compiled from. -/
structure CachedList where
  generation : UInt64
  list : SceneList

/-- What makes a part a model. -/
structure ModelState where
  sources : SourceTable := []
  cached : Option CachedList := none

structure Part where
  container : Container := {}
  attributes : Slots PartAttribute := Slots.empty
  readbacks : Slots Readback := Slots.empty
  display : Option DisplayHandle := none
  model : Option ModelState := none

/-- A point in the space of its parent. -/
structure Pin where
  parent : Option NodeId := none
  coordinates : Slots Axis := Slots.empty
  readbacks : Slots Axis := Slots.empty
  display : Option DisplayHandle := none

/-- A pin that holds a pinned part. -/
structure Attachment where
  originX : NodeId
  originY : NodeId
  target : Slots Axis := Slots.empty

/-- The cell of one origin coordinate. -/
def Attachment.origin (a : Attachment) : Axis → NodeId
  | .x => a.originX
  | .y => a.originY

/-- A part whose matrix is solved from its pins. -/
structure PinnedPart where
  container : Container := {}
  size : Slots Dimension := Slots.empty
  pins : PinSlot → Option Attachment := fun _ => none
  readbacks : Slots Readback := Slots.empty
  display : Option DisplayHandle := none

inductive Node where
  /-- A number; a read-back also names the node it is read back from. -/
  | scalar (value : Float) (requirement : Option NodeId)
  /-- A number that is supplied from outside. -/
  | input (value : Float) (index : InputIndex)
  | calculated (c : Calculated)
  | modified (m : Modified)
  | transformation (t : Transformation)
  | part (p : Part)
  | pin (p : Pin)
  | pinnedPart (p : PinnedPart)

inductive NodeKind where
  | scalar
  | input
  | calculated
  | modified
  | transformation
  | part
  | model
  | pin
  | pinnedPart
  deriving DecidableEq

namespace Node

def kind : Node → NodeKind
  | .scalar .. => .scalar
  | .input .. => .input
  | .calculated _ => .calculated
  | .modified _ => .modified
  | .transformation _ => .transformation
  | .part p => if p.model.isSome then .model else .part
  | .pin _ => .pin
  | .pinnedPart _ => .pinnedPart

/-- The number a node carries; a node that carries none reads as zero. -/
def value : Node → Float
  | .scalar v _ => v
  | .input v _ => v
  | .calculated c => c.value
  | .modified m => m.value
  | .transformation _ | .part _ | .pin _ | .pinnedPart _ => 0.0

/-- Overwrites the number of a node that carries one. -/
def setValue (v : Float) : Node → Node
  | .scalar _ requirement => .scalar v requirement
  | .input _ index => .input v index
  | .calculated c => .calculated { c with value := v }
  | .modified m => .modified { m with value := v }
  | n => n

def container? : Node → Option Container
  | .part p => some p.container
  | .pinnedPart p => some p.container
  | _ => none

/-- Changes a container and leaves any other node as it is. -/
def mapContainer (f : Container → Container) : Node → Node
  | .part p => .part { p with container := f p.container }
  | .pinnedPart p => .pinnedPart { p with container := f p.container }
  | n => n

def parent? : Node → Option NodeId
  | .pin p => p.parent
  | n => n.container?.bind Container.parent

def setParent (parent : Option NodeId) : Node → Node
  | .pin p => .pin { p with parent }
  | n => n.mapContainer fun c => { c with parent }

/-- The matrix that places what belongs to a node: for a part its content, for a pinned part
everything. -/
def placement? : Node → Option (Matrix Float)
  | .part p => some p.container.content
  | .pinnedPart p => some p.container.working
  | _ => none

def display? : Node → Option DisplayHandle
  | .part p => p.display
  | .pin p => p.display
  | .pinnedPart p => p.display
  | _ => none

def setDisplay (handle : DisplayHandle) : Node → Node
  | .part p => .part { p with display := some handle }
  | .pin p => .pin { p with display := some handle }
  | .pinnedPart p => .pinnedPart { p with display := some handle }
  | n => n

def model? : Node → Option ModelState
  | .part p => p.model
  | _ => none

/-- Changes the state of a model and leaves any other node as it is. -/
def mapModel (f : ModelState → ModelState) : Node → Node
  | .part p => .part { p with model := p.model.map f }
  | n => n

/-- The cell of a part's attribute, once it has one. -/
def attribute? (a : PartAttribute) : Node → Option NodeId
  | .part p => p.attributes a
  | _ => none

def fillAttribute (a : PartAttribute) (cell : NodeId) : Node → Node
  | .part p => .part { p with attributes := p.attributes.fill a cell }
  | n => n

/-- The cell of a pin's coordinate, once it has one. -/
def coordinate? (axis : Axis) : Node → Option NodeId
  | .pin p => p.coordinates axis
  | _ => none

def fillCoordinate (axis : Axis) (cell : NodeId) : Node → Node
  | .pin p => .pin { p with coordinates := p.coordinates.fill axis cell }
  | n => n

/-- The cell of a pinned part's dimension, once it has one. -/
def dimension? (d : Dimension) : Node → Option NodeId
  | .pinnedPart p => p.size d
  | _ => none

def fillDimension (d : Dimension) (cell : NodeId) : Node → Node
  | .pinnedPart p => .pinnedPart { p with size := p.size.fill d cell }
  | n => n

/-- The pin in a slot of a pinned part, once it is attached. -/
def attachment? (slot : PinSlot) : Node → Option Attachment
  | .pinnedPart p => p.pins slot
  | _ => none

/-- Puts a pin into a slot of a pinned part. -/
def attach (slot : PinSlot) (a : Attachment) : Node → Node
  | .pinnedPart p =>
    .pinnedPart { p with pins := fun i => if i = slot then some a else p.pins i }
  | n => n

/-- The cell of a target coordinate of an attached pin, once it has one. -/
def target? (slot : PinSlot) (axis : Axis) (n : Node) : Option NodeId :=
  (n.attachment? slot).bind fun a => a.target axis

def fillTarget (slot : PinSlot) (axis : Axis) (cell : NodeId) (n : Node) : Node :=
  match n.attachment? slot with
  | some a => n.attach slot { a with target := a.target.fill axis cell }
  | none => n

/-- The read-back cells of a part or pinned part. -/
def readbacks? : Node → Option (Slots Readback)
  | .part p => some p.readbacks
  | .pinnedPart p => some p.readbacks
  | _ => none

def readback? (r : Readback) (n : Node) : Option NodeId :=
  n.readbacks?.bind fun slots => slots r

def fillReadback (r : Readback) (cell : NodeId) : Node → Node
  | .part p => .part { p with readbacks := p.readbacks.fill r cell }
  | .pinnedPart p => .pinnedPart { p with readbacks := p.readbacks.fill r cell }
  | n => n

/-- The read-back cell of a pin, once it has one. -/
def pinReadback? (axis : Axis) : Node → Option NodeId
  | .pin p => p.readbacks axis
  | _ => none

def fillPinReadback (axis : Axis) (cell : NodeId) : Node → Node
  | .pin p => .pin { p with readbacks := p.readbacks.fill axis cell }
  | n => n

/-- Appends a link to the chain of a calculated value. -/
def appendLink (link : NodeId) : Node → Node
  | .calculated c => .calculated { c with modifiers := c.modifiers ++ [link] }
  | n => n

/-- Appends an extra motion to a container. -/
def appendTransformation (step : NodeId) : Node → Node :=
  mapContainer fun c => { c with transformations := c.transformations ++ [step] }

end Node

end SceneGraph
