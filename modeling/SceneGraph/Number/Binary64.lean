/-!
Floating-point numbers taken apart: a finite one is a sign and a natural number times a
power of two.  Exact arithmetic on floating-point numbers goes through this form.
-/

namespace SceneGraph

/-- A finite number, `significand * 2 ^ exponent` with a sign. -/
structure Binary64 where
  negative : Bool
  significand : Nat
  exponent : Int
  deriving DecidableEq

namespace Binary64

/-- The exponent of the smallest steps. -/
def minExponent : Int := -1074

/-- The significand of a number that is not among the smallest lies between this and its
double. -/
def hiddenBit : Nat := Nat.pow 2 52

/-- The bit that tells negative numbers. -/
def signBit : Nat := Nat.pow 2 63

/-- The parts of a finite number; infinities and NaN have none. -/
def ofFloat? (v : Float) : Option Binary64 :=
  let bits := v.toBits.toNat
  let negative := decide (signBit ≤ bits)
  let biased := bits / hiddenBit % 2048
  let fraction := bits % hiddenBit
  if biased = 2047 then
    none
  else if biased = 0 then
    some ⟨negative, fraction, minExponent⟩
  else
    some ⟨negative, hiddenBit + fraction, (biased : Int) + minExponent - 1⟩

/-- The number with the given parts, when it has at most 53 significant bits and an exponent
in range.  The significand is shifted up to the hidden bit as far as the exponent allows. -/
def toFloat (b : Binary64) : Float :=
  let room := (b.exponent - minExponent).toNat
  let shift := min (52 - b.significand.log2) room
  let significand := b.significand * Nat.pow 2 shift
  let biased := if significand < hiddenBit then 0 else room - shift + 1
  let sign := if b.negative then signBit else 0
  Float.ofBits (sign + biased * hiddenBit + significand % hiddenBit).toUInt64

end Binary64

end SceneGraph
