import SceneGraph.Scene.Basic

/-!
Cells, and values computed by chains of modifiers.
-/

namespace SceneGraph

/-- What a modifier computes with. -/
inductive Operand where
  | constant (v : Float)
  | cell (id : NodeId)
  deriving DecidableEq

/-- A modifier to append: an operation, with an operand exactly if it takes one. -/
structure ChainLink where
  op : Modifier
  operand : Option Operand
  isNone_operand : operand.isNone = op.isUnary

/-- The link with the given operation and operand, if they fit. -/
def ChainLink.of? (op : Modifier) (operand : Option Operand) : Option ChainLink :=
  if h : operand.isNone = op.isUnary then some ⟨op, operand, h⟩ else none

namespace Scene

/-- A cell for the host to write. -/
def scalar (s : Scene) (v : Float) : NodeId × Scene :=
  s.create (.scalar v none)

/-- A cell that takes its number from outside whenever a list that holds it is replayed. -/
def input (s : Scene) (index : InputIndex) : NodeId × Scene :=
  s.create (.input 0.0 index)

/-- A value with a base and no modifiers yet.  The base has a cell of its own. -/
def calculated (s : Scene) (base : Float) : NodeId × Scene :=
  (s.scalar base).2.create (.calculated ⟨s.count, base, []⟩)

/-- The base value of a calculated value. -/
def baseValue (s : Scene) (id : NodeId) : Except OutOfRange Float := do
  match ← s.node id with
  | .calculated c => s.value c.base
  | _ => pure 0.0

/-- Sets the base value of a calculated value, and its present value with it. -/
def setBaseValue (s : Scene) (id : NodeId) (v : Float) : Except OutOfRange Scene := do
  match ← s.node id with
  | .calculated c => do
    let s ← s.setValue id v
    s.setValue c.base v
  | _ => pure s

/-- The length of a calculated value's chain. -/
def modifierCount (s : Scene) (id : NodeId) : Except OutOfRange Nat := do
  match ← s.node id with
  | .calculated c => pure c.modifiers.length
  | _ => pure 0

/-- The cell of an operand; a constant gets a new one. -/
def operandCell (s : Scene) : Option Operand → Option NodeId × Scene
  | none => (none, s)
  | some (.cell id) => (some id, s)
  | some (.constant v) => (some s.count, s.push (.scalar v none))

/-- Appends a link to the chain of a calculated value. -/
def appendModifier (s : Scene) (id : NodeId) (link : ChainLink) : Except OutOfRange Scene := do
  let cell := (s.operandCell link.operand).1
  let s := (s.operandCell link.operand).2
  match ← s.node id with
  | .calculated c =>
    (s.push (.modified ⟨link.op, c.tail, cell, 0.0⟩)).update id (Node.appendLink s.count)
  | _ => pure s

/-- Appends links in order. -/
def modify (s : Scene) (id : NodeId) (links : List ChainLink) : Except OutOfRange Scene :=
  links.foldlM (fun s link => s.appendModifier id link) s

end Scene

end SceneGraph
