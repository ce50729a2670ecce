import SceneGraph.Scene.Basic

/-!
Parents and children, and what the host attaches to them.
-/

namespace SceneGraph

namespace Scene

/-- The children of a container, in render order. -/
def children (s : Scene) (parent : NodeId) : Except OutOfRange (List NodeId) := do
  return ((← s.node parent).container?.map Container.children).getD []

def child? (s : Scene) (parent : NodeId) (index : Nat) : Except OutOfRange (Option NodeId) := do
  return (← s.children parent)[index]?

/-- The container a node is attached to. -/
def parent? (s : Scene) (child : NodeId) : Except OutOfRange (Option NodeId) := do
  return (← s.node child).parent?

/-- Takes a child away from a container, if it is there. -/
def unlink (s : Scene) (parent child : NodeId) : Except OutOfRange (Bool × Scene) := do
  if child ∈ (← s.children parent) then
    let s ← s.update parent
      (Node.mapContainer fun c => { c with children := c.children.erase child })
    let s ← s.update child (Node.setParent none)
    pure (true, s)
  else
    pure (false, s)

/-- Takes a node away from the container it is attached to. -/
def detach (s : Scene) (child : NodeId) : Except OutOfRange Scene := do
  match ← s.parent? child with
  | some old => return (← s.unlink old child).2
  | none => pure s

/-- Attaches a node as the last child of a container. -/
def addChild (s : Scene) (parent child : NodeId) : Except OutOfRange Scene := do
  let s ← s.detach child
  let s ← s.update child (Node.setParent (some parent))
  let s ← s.update parent
    (Node.mapContainer fun c => { c with children := c.children ++ [child] })
  pure s.touch

/-- Attaches nodes in order. -/
def addChildren (s : Scene) (parent : NodeId) (children : List NodeId) :
    Except OutOfRange Scene :=
  children.foldlM (fun s child => s.addChild parent child) s

/-- Detaches a child from a container, and says whether it was one of its children. -/
def removeChild (s : Scene) (parent child : NodeId) : Except OutOfRange (Bool × Scene) := do
  let r ← s.unlink parent child
  pure (r.1, if r.1 then r.2.touch else r.2)

/-- Names the host's object that draws a node. -/
def setDisplay (s : Scene) (id : NodeId) (handle : DisplayHandle) : Except OutOfRange Scene :=
  s.update id (Node.setDisplay handle)

def display? (s : Scene) (id : NodeId) : Except OutOfRange (Option DisplayHandle) := do
  return (← s.node id).display?

/-- The matrix that places a node's content in the world. -/
def placement (s : Scene) (id : NodeId) : Except OutOfRange (Matrix Float) := do
  return (← s.node id).placement?.getD Matrix.identity

/-- The matrix that a node's children build on. -/
def working (s : Scene) (id : NodeId) : Except OutOfRange (Matrix Float) := do
  return ((← s.node id).container?.map Container.working).getD Matrix.identity

end Scene

end SceneGraph
