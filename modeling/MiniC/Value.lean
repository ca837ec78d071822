import MiniC.Decimal.Layout
import MiniC.Ty

/-!
# Values of emitted code
-/

namespace MiniC

/-- An operand or result: a numbered temporary, a numbered stack slot with the type of what it
holds, or a literal. -/
inductive Value where
  | temp (id : Nat) (ty : Ty)
  | slot (id : Nat) (ty : Ty)
  | int (value : Int) (ty : Ty)
  | float (value : Binary64) (ty : Ty)
  deriving DecidableEq

namespace Value

def ty : Value → Ty
  | .temp _ ty | .slot _ ty | .int _ ty | .float _ ty => ty

/-- The number of a temporary or slot. -/
def id? : Value → Option Nat
  | .temp id _ | .slot id _ => some id
  | _ => none

def isLiteral : Value → Bool
  | .int .. | .float .. => true
  | _ => false

/-- Float literals have six decimal places. -/
def floatPlaces : Nat := 6

def text : Value → String
  | .temp id _ | .slot id _ => "%" ++ toString id
  | .int value _ => toString value
  | .float value _ => value.scientificText floatPlaces

/-- The value behind its type. -/
def typedText (v : Value) : String := v.ty.text ++ " " ++ v.text

end Value

end MiniC
