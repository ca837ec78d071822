import MiniC.Ty
import MiniC.Decimal.Binary64

/-!
# Expressions

The trees of expressions, and the part of their typing that needs no scope.
-/

namespace MiniC

inductive ArithOp where
  | add
  | sub
  | mul
  | div
  | rem
  deriving DecidableEq

inductive CompareOp where
  | less
  | lessEqual
  | greater
  | greaterEqual
  | equal
  | notEqual
  deriving DecidableEq

/-- An expression. An increment adds `delta` to a variable; before the variable it yields the new
value and after it the old one. `boolCast` tests for a value other than zero. -/
inductive Expr where
  | int (value : Int)
  | float (value : Binary64)
  | var (name : String)
  | preIncrement (name : String) (delta : Int)
  | postIncrement (name : String) (delta : Int)
  | arith (op : ArithOp) (left right : Expr)
  | compare (op : CompareOp) (left right : Expr)
  | logicalAnd (left right : Expr)
  | logicalOr (left right : Expr)
  | boolCast (operand : Expr)
  | conditional (condition onTrue onFalse : Expr)
  | assign (target : String) (value : Expr)
  | call (callee : String) (arguments : List Expr)

namespace Expr

/-- The type of the expression, if its form alone tells it. -/
def staticTy? : Expr → Option Ty
  | .int _ => some .i32
  | .float _ => some .double
  | .compare .. | .logicalAnd .. | .logicalOr .. | .boolCast _ => some .bool
  | _ => none

def isBoolean (e : Expr) : Bool := e.staticTy? == some .bool

/-- The expression as a condition: cast to a boolean unless it is one already. -/
def toCondition (e : Expr) : Expr := if e.isBoolean then e else .boolCast e

end Expr

end MiniC
