import SceneGraph.Number.Remainder

/-!
The arithmetic of modifier chains.
-/

namespace SceneGraph

/-- The operation of one link of a chain. -/
inductive Modifier where
  | add
  | subtract
  | multiply
  | pow
  | divide
  | remainder
  /-- Forgets the running value and takes the operand. -/
  | assign
  | floor
  | ceil
  /-- Takes the nearest integer, and the larger one half way between two. -/
  | round
  deriving DecidableEq

namespace Modifier

/-- Whether the operation ignores its operand. -/
def isUnary : Modifier → Bool
  | .floor | .ceil | .round => true
  | _ => false

/-- The running value after one link.  Dividing by zero, or by no number, gives zero. -/
def apply (op : Modifier) (running operand : Float) : Float :=
  match op with
  | .add => running + operand
  | .subtract => running - operand
  | .multiply => running * operand
  | .pow => running.pow operand
  | .divide => if operand == 0.0 || operand.isNaN then 0.0 else running / operand
  | .remainder => SceneGraph.remainder running operand
  | .assign => operand
  | .floor => running.floor
  | .ceil => running.ceil
  | .round =>
    let floor := running.floor
    if 0.5 ≤ running - floor then floor + 1.0 else floor

end Modifier

end SceneGraph
