import SceneGraph.Scene.Node

/-!
Scenes: an arena of nodes that only grows.

A new node takes the next position, so its position is the number of nodes before.  The
generation counts structural changes, in a machine word.  An operation on a position that
the scene does not have fails; one on a node of another kind than it is meant for does
nothing there.
-/

namespace SceneGraph

structure Scene where
  nodes : Array Node
  /-- Width and height of what never declared one. -/
  defaultSize : Float
  generation : UInt64

namespace Scene

/-- The shared cell that unset positions, origins and rotations read. -/
def zeroCell : NodeId := 0

/-- The shared cell that unset scales read. -/
def oneCell : NodeId := 1

/-- The shared cell that unset widths and heights read. -/
def sizeCell : NodeId := 2

/-- The default size of a scene that is not told another. -/
def usualSize : Float := 100.0

/-- A scene with nothing but its shared cells. -/
def empty (defaultSize : Float) : Scene where
  nodes := #[.scalar 0.0 none, .scalar 1.0 none, .scalar defaultSize none]
  defaultSize
  generation := 0

/-- The number of nodes, which is also the position of the next one. -/
def count (s : Scene) : Nat :=
  s.nodes.size

def node (s : Scene) (id : NodeId) : Except OutOfRange Node :=
  match s.nodes[id]? with
  | some n => .ok n
  | none => .error ⟨s.count, id⟩

/-- Changes one node. -/
def update (s : Scene) (id : NodeId) (f : Node → Node) : Except OutOfRange Scene :=
  if id < s.count then
    .ok { s with nodes := s.nodes.modify id f }
  else
    .error ⟨s.count, id⟩

/-- Notes a structural change. -/
def touch (s : Scene) : Scene :=
  { s with generation := s.generation + 1 }

/-- Adds a node. -/
def push (s : Scene) (n : Node) : Scene :=
  { s with nodes := s.nodes.push n }.touch

/-- Adds a node and names it. -/
def create (s : Scene) (n : Node) : NodeId × Scene :=
  (s.count, s.push n)

def kind (s : Scene) (id : NodeId) : Except OutOfRange NodeKind := do
  return (← s.node id).kind

/-- The number a node carries, as of the last time it was computed. -/
def value (s : Scene) (id : NodeId) : Except OutOfRange Float := do
  return (← s.node id).value

/-- Overwrites the number a node carries. -/
def setValue (s : Scene) (id : NodeId) (v : Float) : Except OutOfRange Scene :=
  s.update id (Node.setValue v)

@[simp] theorem count_empty (size : Float) : (empty size).count = 3 :=
  rfl

@[simp] theorem count_push (s : Scene) (n : Node) : (s.push n).count = s.count + 1 := by
  simp [count, push, touch]

@[simp] theorem node_push_self (s : Scene) (n : Node) : (s.push n).node s.count = .ok n := by
  simp [node, count, push, touch]

theorem node_push_of_lt {s : Scene} {id : NodeId} (h : id < s.count) (n : Node) :
    (s.push n).node id = s.node id := by
  have h : id < s.nodes.size := h
  simp [node, push, touch, Array.getElem_push, h, Nat.lt_succ_of_lt h]

theorem count_update {s t : Scene} {id : NodeId} {f : Node → Node}
    (h : s.update id f = .ok t) : t.count = s.count := by
  unfold update at h
  split at h <;> cases h
  simp [count]

/-- Only the node itself changes. -/
theorem node_update_of_ne {s t : Scene} {id other : NodeId} {f : Node → Node}
    (h : s.update id f = .ok t) (ne : other ≠ id) : t.node other = s.node other := by
  unfold update at h
  split at h <;> cases h
  simp [node, count, Array.getElem?_modify, ne.symm]

theorem node_update_self {s t : Scene} {id : NodeId} {f : Node → Node}
    (h : s.update id f = .ok t) : t.node id = (s.node id).map f := by
  unfold update at h
  split at h
  · next inRange =>
    have inRange : id < s.nodes.size := inRange
    cases h
    simp [node, inRange, Array.getElem_modify_self, Except.map]
  · cases h

end Scene

end SceneGraph
