import SceneGraph.RenderGraph.Basic
import SceneGraph.Traced

/-!
What a compile reports: why it fails, and what happens on the way.
-/

namespace SceneGraph

/-- A node that was required while it was itself still waiting. -/
structure Cycle (ν : Type) where
  node : ν
  /-- The waiting nodes that close the cycle, outermost first, from the node to itself. -/
  path : List ν
  deriving DecidableEq

/-- The cycle that requiring a waiting node closes. -/
def Cycle.closing {ν : Type} [DecidableEq ν] (pending : List ν) (n : ν) : Cycle ν :=
  ⟨n, pending.dropWhile (fun m => decide (m ≠ n)) ++ [n]⟩

/-- Why a compile yields no list. -/
inductive CompileFailure (ν : Type) where
  | cycle (c : Cycle ν)
  /-- A node that the graph does not have. -/
  | missing (n : ν)
  /-- The search went deeper than a graph of its size allows. -/
  | tooDeep
  deriving DecidableEq

/-- What happens during a compile. -/
inductive CompileEvent (ν κ : Type) where
  | started (root : ν) (isolated : List ν)
  | contributed (n : ν) (commands : List κ)
  | foundCycle (root : ν) (path : List ν)
  | finished (list : CommandList ν κ)

/-- A compile, or a part of one. -/
abbrev Compiling (ν κ : Type) :=
  Traced (CompileEvent ν κ) (CompileFailure ν)

end SceneGraph
