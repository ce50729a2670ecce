import SceneGraph.RenderGraph.CommandList

/-!
Render graphs: what a compiler may ask about a node.

Every question is answered for a stack of *isolated* nodes, outermost first.  These are the
nodes whose own list is being compiled, and a graph may answer for them with less.
-/

namespace SceneGraph

/-- One entry of what has to come before a node. -/
inductive Requirement (ν κ : Type) where
  /-- An edge that is not there. -/
  | gap
  | node (n : ν)
  /-- A command without a node of its own, emitted where it stands. -/
  | command (c : κ)
  deriving DecidableEq

namespace Requirement

variable {ν κ : Type}

def ofOption : Option ν → Requirement ν κ
  | some n => .node n
  | none => .gap

/-- The nodes among some requirements, in order. -/
def nodes (rs : List (Requirement ν κ)) : List ν :=
  rs.filterMap fun
    | .node n => some n
    | _ => none

end Requirement

/-- One entry of what a node contributes. -/
inductive Contribution (ν κ : Type) where
  | command (c : κ)
  /-- The list of a node, compiled on its own, as one command. -/
  | embed (n : ν)
  deriving DecidableEq

structure RenderGraph (ν κ : Type) where
  /-- Every node there is. -/
  nodes : List ν
  /-- What has to be resolved, in order, before the node's own contributions. -/
  requirements : List ν → ν → List (Requirement ν κ)
  contributions : List ν → ν → List (Contribution ν κ)
  /-- What is resolved after the node. -/
  children : List ν → ν → List ν
  inputIndex : ν → Option InputIndex
  /-- The command that replays an embedded list. -/
  embed : CommandList ν κ → κ

end SceneGraph
