import SceneGraph.RenderGraph.Failure

/-!
Compiling a render graph into a command list.

*Requiring* a node brings everything it needs into the list first and then adds the node
itself, once, however many paths lead to it.  A node that is required again while it is
still waiting closes a cycle.  *Resolving* a node requires it and then resolves its children,
so that a child may require its parent.  Isolated nodes are compiled afresh, into a list that
becomes a single command of the list around it.

Waiting nodes are pairwise distinct, so no chain of them is longer than the graph has nodes;
the same holds of nodes whose children are being resolved.  The depth bounds below only say
this to the recursion.
-/

namespace SceneGraph

/-- Something that entered the list, and the node it belongs to. -/
inductive Emission (ν κ : Type) where
  /-- A command that stands among the requirements of its owner. -/
  | inline (owner : ν) (c : κ)
  /-- All that the owner contributes itself. -/
  | own (owner : ν) (commands : List κ)
  deriving DecidableEq

def Emission.commands {ν κ : Type} : Emission ν κ → List κ
  | .inline _ c => [c]
  | .own _ commands => commands

/-- A compile so far. -/
structure CompileState (ν κ : Type) where
  /-- The nodes already in the list, latest first. -/
  added : List ν := []
  /-- The nodes whose children are in hand, latest first. -/
  expanded : List ν := []
  /-- What is in the list, in order. -/
  emissions : List (Emission ν κ) := []

/-- Appends to the list. -/
def CompileState.emit {ν κ : Type} (s : CompileState ν κ) (e : Emission ν κ) :
    CompileState ν κ :=
  { s with emissions := s.emissions ++ [e] }

namespace RenderGraph

variable {ν κ : Type} [DecidableEq ν]

/-- How the list of an isolated node is made, given the stack that ends in it. -/
abbrev Nested (ν κ : Type) := List ν → ν → Compiling ν κ (CommandList ν κ)

/-- The command that a contribution stands for. -/
def contribute (g : RenderGraph ν κ) (nested : Nested ν κ) (isolated : List ν) :
    Contribution ν κ → Compiling ν κ κ
  | .command c => pure c
  | .embed n => do
    let list ← nested (isolated ++ [n]) n
    pure (g.embed list)

/-- Appends a node's own commands. -/
def add (g : RenderGraph ν κ) (nested : Nested ν κ) (isolated : List ν)
    (s : CompileState ν κ) (n : ν) : Compiling ν κ (CompileState ν κ) := do
  let own ← (g.contributions isolated n).mapM (g.contribute nested isolated)
  if !own.isEmpty then
    Traced.report (.contributed n own)
  pure { s.emit (.own n own) with added := n :: s.added }

/-- Takes one entry of a waiting node's requirements, given how a node is required. -/
def meet (require : CompileState ν κ → ν → Compiling ν κ (CompileState ν κ)) (n : ν)
    (s : CompileState ν κ) : Requirement ν κ → Compiling ν κ (CompileState ν κ)
  | .gap => pure s
  | .command c => pure (s.emit (.inline n c))
  | .node m => require s m

/-- Brings a node and all that it needs into the list.  `pending` are the waiting nodes,
outermost first. -/
def require (g : RenderGraph ν κ) (nested : Nested ν κ) (isolated : List ν) (root : ν) :
    (depth : Nat) → (pending : List ν) → CompileState ν κ → ν →
      Compiling ν κ (CompileState ν κ)
  | 0, _, _, _ => Traced.fail .tooDeep
  | depth + 1, pending, s, n =>
    if n ∈ s.added then
      pure s
    else if n ∈ pending then do
      let cycle := Cycle.closing pending n
      Traced.report (.foundCycle root cycle.path)
      Traced.fail (.cycle cycle)
    else if n ∈ g.nodes then do
      let s ← (g.requirements isolated n).foldlM
        (meet (require g nested isolated root depth (pending ++ [n])) n) s
      g.add nested isolated s n
    else
      Traced.fail (.missing n)

/-- Requires a node and then resolves its children, unless they are already in hand. -/
def resolve (g : RenderGraph ν κ) (nested : Nested ν κ) (isolated : List ν) (root : ν) :
    (depth : Nat) → CompileState ν κ → ν → Compiling ν κ (CompileState ν κ)
  | 0, _, _ => Traced.fail .tooDeep
  | depth + 1, s, n => do
    let s ← g.require nested isolated root (g.nodes.length + 1) [] s n
    if n ∈ s.expanded then
      pure s
    else
      (g.children isolated n).foldlM (resolve g nested isolated root depth)
        { s with expanded := n :: s.expanded }

/-- The nodes that take a value from outside, in the order in which they were added. -/
def bindings (g : RenderGraph ν κ) (s : CompileState ν κ) : List (InputBinding ν) :=
  s.added.reverse.filterMap fun n => (g.inputIndex n).map (InputBinding.mk n)

/-- The list that a finished state amounts to. -/
def finish (g : RenderGraph ν κ) (root : ν) (s : CompileState ν κ) : CommandList ν κ :=
  ⟨root, s.emissions.flatMap Emission.commands, g.bindings s⟩

/-- One list: the root resolved from an empty state. -/
def compileWith (g : RenderGraph ν κ) (nested : Nested ν κ) (isolated : List ν) (root : ν) :
    Compiling ν κ (CommandList ν κ) := do
  Traced.report (.started root isolated)
  let s ← g.resolve nested isolated root (g.nodes.length + 1) {} root
  let list := g.finish root s
  Traced.report (.finished list)
  pure list

/-- Lists nested at most `nesting` deep. -/
def compileNested (g : RenderGraph ν κ) : (nesting : Nat) → Nested ν κ
  | 0 => fun _ _ => Traced.fail .tooDeep
  | nesting + 1 => g.compileWith (compileNested g nesting)

/-- A list is made for a node and a set of isolated nodes, and sets only grow on the way in;
nesting deeper than this would come back to a list that is still being made. -/
def nestingBound (g : RenderGraph ν κ) : Nat :=
  (g.nodes.length + 1) * (g.nodes.length + 1)

/-- The list of a root with nothing isolated. -/
def compile (g : RenderGraph ν κ) (root : ν) : Compiling ν κ (CommandList ν κ) :=
  g.compileNested g.nestingBound [] root

end RenderGraph

end SceneGraph
