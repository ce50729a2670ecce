import SceneGraph.Scene.Replay

/-!
Compiling scenes, and models that keep the list of their subtree.

A kept list is used as long as the scene's generation has not moved on.
-/

namespace SceneGraph

/-- Why an operation that compiles does not come to its end. -/
inductive SceneFailure where
  | outOfRange (e : OutOfRange)
  | cycle (c : Cycle NodeId)
  | tooDeep
  deriving DecidableEq

/-- What is noted during an operation that compiles. -/
inductive SceneEvent where
  | compile (e : CompileEvent NodeId Command)
  /-- A model has no list for this generation. -/
  | stale (model : NodeId) (generation : UInt64)
  | cached (model : NodeId) (generation : UInt64) (commands : Nat)

/-- An operation that compiles. -/
abbrev Rendering := Traced SceneEvent SceneFailure

namespace Scene

/-- A node that the graph does not have is out of the scene's range. -/
def failure (s : Scene) : CompileFailure NodeId → SceneFailure
  | .cycle c => .cycle c
  | .missing id => .outOfRange ⟨s.count, id⟩
  | .tooDeep => .tooDeep

/-- The list that brings a root up to date. -/
def compile (s : Scene) (root : NodeId) : Rendering SceneList :=
  (s.graph.compile root).rename .compile s.failure

/-- Access to the scene, as part of an operation that compiles. -/
def reach {α : Type} (x : Except OutOfRange α) : Rendering α :=
  Traced.ofExcept (x.mapError .outOfRange)

/-- Feeds an input of a model's subtree from a cell. -/
def setSource (s : Scene) (model : NodeId) (index : InputIndex) (source : NodeId) :
    Except RegisterFailure Scene := do
  match (← (s.node model).mapError .outOfRange).model? with
  | some state => do
    let sources ← state.sources.register index source
    let change (state : ModelState) : ModelState := { state with sources }
    (s.update model (Node.mapModel change)).mapError .outOfRange
  | none => pure s

/-- The cell that feeds an input of a model's subtree. -/
def source? (s : Scene) (model : NodeId) (index : InputIndex) :
    Except OutOfRange (Option NodeId) := do
  return (← s.node model).model?.bind fun state => state.sources.source? index

/-- The list a model keeps, if it is of the present generation. -/
def keptList? (s : Scene) (model : NodeId) : Except OutOfRange (Option SceneList) := do
  let kept := (← s.node model).model?.bind ModelState.cached
  return (kept.filter fun kept => kept.generation = s.generation).map CachedList.list

/-- Compiles a model and lets it keep the list. -/
def compileModel (s : Scene) (model : NodeId) : Rendering (SceneList × Scene) := do
  let list ← s.compile model
  Traced.report (.cached model s.generation list.commands.length)
  let s ← reach (s.update model
    (Node.mapModel fun state => { state with cached := some ⟨s.generation, list⟩ }))
  pure (list, s)

/-- The list to replay for a model: the one it keeps, or a new one. -/
def currentList (s : Scene) (model : NodeId) : Rendering (SceneList × Scene) := do
  match ← reach (s.keptList? model) with
  | some list => pure (list, s)
  | none =>
    Traced.report (.stale model s.generation)
    s.compileModel model

/-- Renders a model and its subtree. -/
def renderModel (s : Scene) (model : NodeId) : Rendering Frame := do
  let (list, s) ← s.currentList model
  let inputs ← reach (s.suppliedInputs model)
  reach (s.replay list fun index => inputs.lookup index)

end Scene

end SceneGraph
