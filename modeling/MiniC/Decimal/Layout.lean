import MiniC.Decimal.Shortest

/-!
# Written forms of doubles

The texts of doubles, over their digits: positional, or with an exponent.
-/

namespace MiniC

namespace Digits

/-- All digits in place, with at least one on each side of the point. -/
def positional (d : Digits) : List Char :=
  let ds := d.chars
  let whole := ds.take d.point.toNat
  let padding := List.replicate (d.point.toNat - d.count) '0'
  let zeros := List.replicate (-d.point).toNat '0'
  let fraction := zeros ++ ds.drop d.point.toNat
  (if d.point ≤ 0 then ['0'] else whole ++ padding) ++ '.' ::
    (if fraction.isEmpty then ['0'] else fraction)

/-- One digit before the point, then the exponent, which has no plus sign and no padding. -/
def scientific (d : Digits) : List Char :=
  let fraction := d.chars.drop 1
  d.chars.take 1 ++ (if fraction.isEmpty then [] else '.' :: fraction) ++
    'e' :: (toString (d.point - 1)).toList

end Digits

namespace Binary64

/-- The sign, then `finite` for the magnitude of a finite number. -/
def signed (x : Binary64) (finite : List Char) : String :=
  let body := if x.isFinite then finite else if x.isInfinite then "inf".toList else "NaN".toList
  String.ofList (if x.isNegative then '-' :: body else body)

/-- Which points between the digits are written positionally. -/
structure Layout where
  leastPoint : Int
  greatestPoint : Int

/-- The fewest digits that read back, positionally in the range of the layout and with an exponent
elsewhere. -/
def shortestText (layout : Layout) (x : Binary64) : String :=
  if x.isZero then x.signed "0.0".toList
  else
    let d := x.shortest
    x.signed (if layout.leastPoint ≤ d.point ∧ d.point ≤ layout.greatestPoint then d.positional
      else d.scientific)

/-- Exactly `places` digits after the point and an exponent, from the exact value of the number. -/
def scientificText (places : Nat) (x : Binary64) : String :=
  if x.isZero then x.signed (Digits.mk 0 (places + 1) 1).scientific
  else x.signed (Digits.rounded x.ratio.1 x.ratio.2 (places + 1)).scientific

end Binary64

end MiniC
