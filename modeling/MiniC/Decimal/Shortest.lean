import MiniC.Decimal.Binary64

/-!
# Decimal digits

The fewest digits that read back, and a fixed number of digits. Both are computed in exact integer
arithmetic.
-/

namespace MiniC

/-- A positive decimal `0.d₁d₂… * 10 ^ point`, its digits given as the integer `d₁d₂…`. -/
structure Digits where
  value : Nat
  count : Nat
  point : Int
  deriving DecidableEq

namespace Digits

/-- The digits from the left, padded with zeros to the count. -/
def chars (d : Digits) : List Char :=
  let ds := Nat.toDigits 10 d.value
  List.replicate (d.count - ds.length) '0' ++ ds

/-- The number of decimal digits before the point of `n / d`, negative for leading zeros after
it: the least `k` with `n / d < 10 ^ k`, for `n` and `d` positive. -/
def pointOf (n d : Nat) : Int :=
  if d ≤ n then ((Nat.toDigits 10 (n / d)).length : Int)
  else
    -- `n / d < 10 ^ -j` holds exactly for `10 ^ j ≤ (d - 1) / n`.
    1 - ((Nat.toDigits 10 ((d - 1) / n)).length : Int)

/-- The fraction `n / d` times `10 ^ k`, as a fraction. -/
def shift (n d : Nat) (k : Int) : Nat × Nat :=
  (n * Nat.pow 10 k.toNat, d * Nat.pow 10 (-k).toNat)

/-- Carries a value that rounded up to a power of ten into the point. -/
def normalize (value count : Nat) (point : Int) : Digits :=
  if value = Nat.pow 10 count then ⟨Nat.pow 10 (count - 1), count, point + 1⟩
  else ⟨value, count, point⟩

/-- The positive fraction `n / d` to `count` significant digits, a tie to the even neighbour. -/
def rounded (n d count : Nat) : Digits :=
  let point := pointOf n d
  let (sn, sd) := shift n d (count - point)
  normalize (Binary64.roundDiv sn sd) count point

end Digits

namespace Binary64

/-- The fractions over the common denominator that bound the decimals reading back as `x`: the
midpoints to the two neighbouring numbers, and whether these themselves read back. Below a power
of two the spacing halves. -/
structure Interval where
  low : Nat
  value : Nat
  high : Nat
  denominator : Nat
  closed : Bool

def interval (x : Binary64) : Interval :=
  let m := x.significand
  let q := x.exponent - 2
  let below := if m = hiddenBit then 1 else 2
  let up := Nat.pow 2 q.toNat
  ⟨(4 * m - below) * up, 4 * m * up, (4 * m + 2) * up, Nat.pow 2 (-q).toNat, m % 2 = 0⟩

/-- Whether the fraction `n / d` reads back as the number of the interval. -/
def Interval.contains (i : Interval) (n d : Nat) : Bool :=
  let a := n * i.denominator
  if i.closed then i.low * d ≤ a && a ≤ i.high * d else i.low * d < a && a < i.high * d

/-- The decimal with `count` digits that reads back and is nearest to the number, an exact tie to
the greater one. Only the two neighbours on the grid of that many digits can read back first. -/
def Interval.digits? (i : Interval) (count : Nat) : Option Digits :=
  let point := Digits.pointOf i.value i.denominator
  let (sn, sd) := Digits.shift i.value i.denominator (count - point)
  let floor := sn / sd
  let onGrid (v : Nat) : Nat × Nat := Digits.shift v 1 (point - count)
  let reads (v : Nat) : Bool := i.contains (onGrid v).1 (onGrid v).2
  let lowNearer := decide (2 * (sn % sd) < sd)
  if reads floor && (lowNearer || !reads (floor + 1)) then some (Digits.normalize floor count point)
  else if reads (floor + 1) then some (Digits.normalize (floor + 1) count point)
  else none

/-- The fewest digits that read back as the positive finite number `x`; seventeen always do. -/
def shortest (x : Binary64) : Digits :=
  ((List.range 17).findSome? fun k => x.interval.digits? (k + 1)).getD
    (Digits.rounded x.interval.value x.interval.denominator 17)

end Binary64

end MiniC
