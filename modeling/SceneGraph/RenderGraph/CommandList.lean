/-!
Compiled command lists and their replay.
-/

namespace SceneGraph

/-- Position of a value among those that are supplied from outside. -/
abbrev InputIndex := UInt64

/-- A node that takes its value from outside. -/
structure InputBinding (ν : Type) where
  node : ν
  index : InputIndex
  deriving DecidableEq

/-- The commands that bring one root up to date, in order of execution. -/
structure CommandList (ν κ : Type) where
  root : ν
  commands : List κ
  /-- The nodes that take a value from outside, in the order they were added. -/
  inputs : List (InputBinding ν)

namespace CommandList

variable {ν κ σ ε : Type}

/-- The values that a replay writes: a binding whose index is not supplied writes none. -/
def writes (inputs : InputIndex → Option Float) (bindings : List (InputBinding ν)) :
    List (ν × Float) :=
  bindings.filterMap fun b => (inputs b.index).map fun v => (b.node, v)

/-- Writes the supplied values, then executes every command. -/
def replay (write : σ → ν × Float → Except ε σ) (execute : σ → κ → Except ε σ)
    (list : CommandList ν κ) (inputs : InputIndex → Option Float) (s : σ) : Except ε σ := do
  let s ← (writes inputs list.inputs).foldlM write s
  list.commands.foldlM execute s

end CommandList

/-- External values by position; an entry may be missing. -/
def suppliedBy (values : List (Option Float)) (index : InputIndex) : Option Float :=
  (values[index.toNat]?).join

end SceneGraph
