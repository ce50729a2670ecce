import SceneGraph.Number.Shortest

/-!
How numbers are written.  The digits are the shortest that read back; a style decides where
the point goes and when an exponent is used.
-/

namespace SceneGraph

/-- The decisions that are left once the digits are known. -/
structure NumberStyle where
  /-- Which powers of ten of the leading digit are written out in full. -/
  isPositional : Int → Bool
  /-- Whether a whole number written in full still shows a fractional digit. -/
  showsFraction : Bool

namespace NumberStyle

/-- Always written out in full, whole numbers without a fraction. -/
def plain : NumberStyle :=
  ⟨fun _ => true, false⟩

/-- Written out in full from `1e-4` up to below `1e16`, and then never without a fraction. -/
def precise : NumberStyle :=
  ⟨fun power => decide (-4 ≤ power) && decide (power < 16), true⟩

/-- Puts the point into the digits, with the zeros that are needed to reach it. -/
def writePositional (style : NumberStyle) (digits : String) (exponent : Int) : String :=
  let whole := (digits.length : Int) + exponent
  if 0 ≤ exponent then
    digits ++ "".pushn '0' exponent.toNat ++ (if style.showsFraction then ".0" else "")
  else if 0 < whole then
    String.ofList (digits.toList.take whole.toNat) ++ "." ++
      String.ofList (digits.toList.drop whole.toNat)
  else
    "0." ++ "".pushn '0' (-whole).toNat ++ digits

/-- One digit before the point, and the power of ten after an `e`. -/
def writeScientific (digits : String) (power : Int) : String :=
  let rest := String.ofList (digits.toList.drop 1)
  String.ofList (digits.toList.take 1) ++ (if rest.isEmpty then "" else "." ++ rest) ++
    "e" ++ toString power

/-- The text of a magnitude. -/
def writeDecimal (style : NumberStyle) (d : Decimal) : String :=
  let digits := toString d.digits
  let power := (digits.length : Int) + d.exponent - 1
  if style.isPositional power then
    style.writePositional digits d.exponent
  else
    writeScientific digits power

/-- The text of a number.  The sign of zero is kept. -/
def write (style : NumberStyle) (v : Float) : String :=
  match Binary64.ofFloat? v with
  | some b => (if b.negative then "-" else "") ++ style.writeDecimal (Decimal.shortest b)
  | none => if v.isNaN then "NaN" else if v < 0.0 then "-inf" else "inf"

end NumberStyle

end SceneGraph
