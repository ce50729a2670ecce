import SceneGraph.Number.Binary64

/-!
The shortest decimal that reads back as a given floating-point number.

A number stands for the interval of reals that round to it.  Among the grids of multiples of
a power of ten, the coarsest one that meets the interval gives the fewest digits.  Only the
two neighbours of the number on a grid have to be looked at: if some point of the grid lies
in the interval, so does one of them.
-/

namespace SceneGraph

/-- The number `digits * 10 ^ exponent`. -/
structure Decimal where
  digits : Nat
  exponent : Int
  deriving DecidableEq

namespace Decimal

/-- The reals that round to a number, in quarters of its last place: from `low` to `high`
around `mid`, the ends belonging to it or not. -/
structure Basin where
  low : Nat
  mid : Nat
  high : Nat
  closed : Bool
  /-- A quarter of the last place is two to this power. -/
  exponent : Int
  deriving DecidableEq

/-- Below a power of two the steps are half as wide.  A tie in reading goes to the even
significand, which therefore owns its ends. -/
def Basin.of (b : Binary64) : Basin :=
  let m := b.significand
  let narrow := m = Binary64.hiddenBit ∧ Binary64.minExponent < b.exponent
  { low := 4 * m - (if narrow then 1 else 2)
    mid := 4 * m
    high := 4 * m + 2
    closed := m % 2 = 0
    exponent := b.exponent - 2 }

/-- A basin and a decimal grid on one scale of natural numbers: `unit` is the width of a
quarter of the last place, `step` the distance of two grid points. -/
structure Scale where
  unit : Nat
  step : Nat
  deriving DecidableEq

/-- The common scale of quarters `2 ^ binary` and grid steps `10 ^ decimal`. -/
def Scale.of (binary decimal : Int) : Scale where
  unit := Nat.pow 2 binary.toNat * Nat.pow 10 (-decimal).toNat
  step := Nat.pow 10 decimal.toNat * Nat.pow 2 (-binary).toNat

/-- Whether the `n`-th grid point reads back. -/
def Basin.holds (b : Basin) (s : Scale) (n : Nat) : Bool :=
  let point := n * s.step
  if b.closed then
    decide (b.low * s.unit ≤ point) && decide (point ≤ b.high * s.unit)
  else
    decide (b.low * s.unit < point) && decide (point < b.high * s.unit)

/-- The grid point nearest to the number among its two neighbours that read back.  Half way
between them, the larger one is taken. -/
def Basin.nearest? (b : Basin) (decimal : Int) : Option Nat :=
  let s := Scale.of b.exponent decimal
  let value := b.mid * s.unit
  let below := value / s.step
  let above := below + 1
  match b.holds s below, b.holds s above with
  | true, true => if 2 * value < (below + above) * s.step then some below else some above
  | true, false => some below
  | false, true => some above
  | false, false => none

/-- Tries the grids from the coarsest down, at most `count` of them. -/
def search (b : Basin) : (count : Nat) → (decimal : Int) → Option Decimal
  | 0, _ => none
  | count + 1, decimal =>
    match b.nearest? decimal with
    | some n => some ⟨n, decimal⟩
    | none => search b count (decimal - 1)

/-- A power of ten above every number of the given binary order of magnitude, and at most
three places above it. -/
def ceiling (order : Int) : Int :=
  (order + 1) * 30103 / 100000 + 2

/-- The number itself, with all its digits: halving appends a five. -/
def exact (b : Binary64) : Decimal :=
  ⟨b.significand * Nat.pow 2 b.exponent.toNat * Nat.pow 5 (-b.exponent).toNat, min 0 b.exponent⟩

/-- Seventeen digits always suffice, and three grids are coarser than the number itself. -/
def gridCount : Nat := 20

/-- The shortest decimal that reads back, and the nearest of those; zero is itself. -/
def shortest (b : Binary64) : Decimal :=
  if b.significand = 0 then
    ⟨0, 0⟩
  else
    let top := ceiling (b.significand.log2 + b.exponent)
    (search (Basin.of b) gridCount top).getD (exact b)

end Decimal

end SceneGraph
