import SceneGraph.Number.Binary64

/-!
The truncating remainder of floating-point numbers.  It is always exact: both operands are
brought to the smaller of their two exponents, and the remainder of the significands is
taken there.
-/

namespace SceneGraph

namespace Binary64

/-- What is left of the first magnitude after taking out the second as often as it fits.  The
sign is that of the first. -/
def remainder (x y : Binary64) : Binary64 :=
  let exponent := min x.exponent y.exponent
  let align (b : Binary64) : Nat := b.significand * Nat.pow 2 (b.exponent - exponent).toNat
  ⟨x.negative, align x % align y, exponent⟩

end Binary64

/-- The truncating remainder of `x` by `y`, with the sign of `x`.  There is none by zero and
none of an infinity; an infinite `y` leaves `x` as it is. -/
def remainder (x y : Float) : Float :=
  match Binary64.ofFloat? x, Binary64.ofFloat? y with
  | some p, some q => if q.significand = 0 then 0.0 / 0.0 else (p.remainder q).toFloat
  | some _, none => if y.isNaN then y else x
  | none, _ => 0.0 / 0.0

end SceneGraph
