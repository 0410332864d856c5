import Isomesh.Decimal.Shortest

/-!
# Positional notation

Numbers in messages are written out in full, never with an exponent: `100000`, `0.0000001`, `-2.5`.
A whole number has no point, and zero keeps its sign.

Models how the messages of `validate`, `GridSpacer`, `WeldVertices`, `EliminateCoplanar` and `Blur` write
the numbers in them.
-/

set_option autoImplicit false

namespace Isomesh.Decimal

/-- The words for numbers that are not finite, and the signs and marks of all others. -/
structure NumberStyle where
  minus : String
  point : String
  undefined : String
  infinite : String

/-- How numbers are written in messages. -/
def messageStyle : NumberStyle := ⟨"-", ".", "NaN", "inf"⟩

/-- Writes a decimal in full. -/
def positional (style : NumberStyle) (d : Decimal) : String :=
  let digits := Nat.toDigits 10 d.digits
  if 0 ≤ d.exponent then
    String.ofList (digits ++ List.replicate d.exponent.toNat '0')
  else
    let places := (-d.exponent).toNat
    let padded := List.replicate (places + 1 - digits.length) '0' ++ digits
    let (whole, fraction) := padded.splitAt (padded.length - places)
    String.ofList whole ++ style.point ++ String.ofList fraction

/-- Writes a double in full, with the fewest digits that read back as it. -/
def write (style : NumberStyle) (x : Float) : String :=
  match Binary64.parts x with
  | .undefined => style.undefined
  | .infinite negative => (if negative then style.minus else "") ++ style.infinite
  | .finite negative mantissa exponent =>
    (if negative then style.minus else "") ++
      if mantissa = 0 then "0" else (shortest mantissa exponent).positional style

end Isomesh.Decimal
