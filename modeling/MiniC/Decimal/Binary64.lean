/-!
# Double precision numbers

Doubles as 64-bit words, with exact rational arithmetic behind every operation.
-/

namespace MiniC

/-- A double precision number, given by its interchange word: sign, 11 exponent bits, 52 fraction
bits. -/
structure Binary64 where
  bits : UInt64
  deriving DecidableEq

namespace Binary64

/-- The bit above the fraction, `2 ^ 52`, which normal numbers have and do not write. -/
def hiddenBit : Nat := 0x10000000000000

/-- The bit of the sign, `2 ^ 63`. -/
def signBit : Nat := 0x8000000000000000

/-- The word of positive infinity. -/
def infinityWord : Nat := 2047 * hiddenBit

/-- The word without its sign bit. Magnitudes are ordered like the numbers they stand for. -/
def magnitude (x : Binary64) : Nat := x.bits.toNat % signBit

def isNegative (x : Binary64) : Bool := decide (signBit ≤ x.bits.toNat)

def isFinite (x : Binary64) : Bool := decide (x.magnitude < infinityWord)

def isInfinite (x : Binary64) : Bool := x.magnitude == infinityWord

def isZero (x : Binary64) : Bool := x.magnitude == 0

/-- Assembles a word. -/
def ofParts (negative : Bool) (magnitude : Nat) : Binary64 :=
  ⟨UInt64.ofNat ((if negative then signBit else 0) + magnitude)⟩

/-- The integer `m` in the value `m * 2 ^ q` of a finite number. -/
def significand (x : Binary64) : Nat :=
  if x.magnitude < hiddenBit then x.magnitude else hiddenBit + x.magnitude % hiddenBit

/-- The exponent `q` in the value `m * 2 ^ q` of a finite number. -/
def exponent (x : Binary64) : Int :=
  if x.magnitude < hiddenBit then -1074 else (x.magnitude / hiddenBit : Nat) - 1075

/-- The quotient `n / d` rounded to the nearest integer, a tie to the even one. -/
def roundDiv (n d : Nat) : Nat :=
  let q := n / d
  let twice := 2 * (n % d)
  if twice < d then q
  else if d < twice then q + 1
  else if q % 2 = 0 then q else q + 1

/-- The fraction `n / d` times `2 ^ -e`, as a fraction. -/
def scale (n d : Nat) (e : Int) : Nat × Nat :=
  (n * Nat.pow 2 (-e).toNat, d * Nat.pow 2 e.toNat)

/-- The magnitude nearest to `n / d`, a tie to the even word. The unit in the last place is the
power of two that leaves 53 significant bits, and at least the smallest subnormal number; the sum
carries a significand that rounds up to `2 ^ 53` into the next exponent. -/
def nearest (n d : Nat) : Nat :=
  if n = 0 then 0 else
    let guess : Int := (n.log2 : Int) - d.log2 - 52
    let (sn, sd) := scale n d guess
    let tight := if sn < hiddenBit * sd then guess - 1 else guess
    let e := max tight (-1074)
    let (rn, rd) := scale n d e
    min infinityWord ((e + 1074).toNat * hiddenBit + roundDiv rn rd)

/-- The number nearest to the fraction `n / d` with the given sign. -/
def ofRatio (negative : Bool) (n d : Nat) : Binary64 := ofParts negative (nearest n d)

/-- The number nearest to an integer. -/
def ofInt (i : Int) : Binary64 := ofRatio (decide (i < 0)) i.natAbs 1

/-- The magnitude of a finite number as a fraction. -/
def ratio (x : Binary64) : Nat × Nat :=
  (x.significand * Nat.pow 2 x.exponent.toNat, Nat.pow 2 (-x.exponent).toNat)

/-- The rounded product of the magnitudes of two finite numbers. -/
def mul (x y : Binary64) : Binary64 :=
  ofRatio false (x.ratio.1 * y.ratio.1) (x.ratio.2 * y.ratio.2)

/-- The rounded quotient of the magnitudes of two finite numbers, the second one not zero. -/
def div (x y : Binary64) : Binary64 :=
  ofRatio false (x.ratio.1 * y.ratio.2) (x.ratio.2 * y.ratio.1)

/-- The same magnitude with the given sign. -/
def withSign (x : Binary64) (negative : Bool) : Binary64 := ofParts negative x.magnitude

/-- The number nearest to `10 ^ k`. -/
def powerOfTen (k : Nat) : Binary64 := ofRatio false (Nat.pow 10 k) 1

/-- The sixteen hexadecimal digits of the word. -/
def hex (x : Binary64) : String :=
  let digits := Nat.toDigits 16 x.bits.toNat
  String.ofList (List.replicate (16 - digits.length) '0' ++ digits)

end Binary64

end MiniC
