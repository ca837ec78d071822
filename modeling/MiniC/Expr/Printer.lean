import MiniC.Decimal.Layout
import MiniC.Expr

/-!
# Text of expressions

Every compound expression stands in parentheses of its own.
-/

namespace MiniC

def ArithOp.text : ArithOp → String
  | .add => "+"
  | .sub => "-"
  | .mul => "*"
  | .div => "/"
  | .rem => "%"

def CompareOp.text : CompareOp → String
  | .less => "<"
  | .lessEqual => "<="
  | .greater => ">"
  | .greaterEqual => ">="
  | .equal => "=="
  | .notEqual => "!="

namespace Expr

/-- Float constants are written positionally from `0.0001` up to `10 ^ 16`. -/
def floatLayout : Binary64.Layout := ⟨-3, 16⟩

/-- The operator of an increment. -/
def incrementText (delta : Int) : String := if 0 < delta then "++" else "--"

mutual

def text : Expr → String
  | .int value => toString value
  | .float value => value.shortestText floatLayout
  | .var name => name
  | .preIncrement name delta => incrementText delta ++ name
  | .postIncrement name delta => name ++ incrementText delta
  | .arith op left right => "( " ++ left.text ++ " " ++ op.text ++ " " ++ right.text ++ " )"
  | .compare op left right => "( " ++ left.text ++ " " ++ op.text ++ " " ++ right.text ++ " )"
  | .logicalAnd left right => "( " ++ left.text ++ " && " ++ right.text ++ " )"
  | .logicalOr left right => "( " ++ left.text ++ " || " ++ right.text ++ " )"
  | .boolCast operand => "(bool) " ++ operand.text
  | .conditional condition onTrue onFalse =>
    "( " ++ condition.text ++ " ? " ++ onTrue.text ++ " : " ++ onFalse.text ++ " )"
  | .assign target value => "( " ++ target ++ " = " ++ value.text ++ " )"
  | .call callee arguments => callee ++ "(" ++ listText arguments ++ ")"

/-- The texts of arguments, with commas between them. -/
def listText : List Expr → String
  | [] => ""
  | [e] => e.text
  | e :: rest => e.text ++ ", " ++ listText rest

end

end Expr

end MiniC
