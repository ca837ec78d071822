import MiniC.Decimal.Binary64

/-!
# Reading decimal numerals
-/

namespace MiniC

/-- The value of a decimal digit. -/
def digitValue (c : Char) : Nat := c.toNat - '0'.toNat

/-- The natural number that decimal digits write. -/
def natOfDigits (ds : List Char) : Nat := ds.foldl (fun n c => n * 10 + digitValue c) 0

/-- The double nearest to the decimal `whole.fraction`. -/
def Binary64.ofDecimal (whole fraction : List Char) : Binary64 :=
  .ofRatio false (natOfDigits (whole ++ fraction)) (Nat.pow 10 fraction.length)

end MiniC
