import MiniC.Definition
import MiniC.Form.Code

/-!
# Trees as documents

Expressions, statements and definitions. Their decoders nest as deep as the document does.
-/

namespace MiniC

open Decoder Member

/-- Integer constants and increments of trees have 32 bits. -/
def Decoder.int32 : Decoder Int := intIn (-0x80000000) 0x80000000

namespace ArithOp

def all : List ArithOp := [.add, .sub, .mul, .div, .rem]

def tag : ArithOp → String
  | .add => "Add"
  | .sub => "Sub"
  | .mul => "Mul"
  | .div => "Div"
  | .rem => "Rem"

def toJson (op : ArithOp) : Json := .str op.tag

def decode : Decoder ArithOp := enumeration all tag

end ArithOp

namespace CompareOp

def all : List CompareOp := [.less, .lessEqual, .greater, .greaterEqual, .equal, .notEqual]

def tag : CompareOp → String
  | .less => "Less"
  | .lessEqual => "LessEqual"
  | .greater => "Greater"
  | .greaterEqual => "GreaterEqual"
  | .equal => "Equal"
  | .notEqual => "NotEqual"

def toJson (op : CompareOp) : Json := .str op.tag

def decode : Decoder CompareOp := enumeration all tag

end CompareOp

namespace Expr

mutual

def toJson : Expr → Json
  | .int value => .tagged "I32Constant" (.int value)
  | .float value => .tagged "FloatConstant" value.toJson
  | .var name => .tagged "VariableRef" (.str name)
  | .preIncrement name delta =>
    .tagged "PreIncrement" (.obj [("name", .str name), ("delta", .int delta)])
  | .postIncrement name delta =>
    .tagged "PostIncrement" (.obj [("name", .str name), ("delta", .int delta)])
  | .arith op left right =>
    .tagged "Binary" (.obj [("op", op.toJson), ("left", left.toJson), ("right", right.toJson)])
  | .compare op left right =>
    .tagged "Compare" (.obj [("op", op.toJson), ("left", left.toJson), ("right", right.toJson)])
  | .logicalAnd left right =>
    .tagged "LogicalAnd" (.obj [("left", left.toJson), ("right", right.toJson)])
  | .logicalOr left right =>
    .tagged "LogicalOr" (.obj [("left", left.toJson), ("right", right.toJson)])
  | .boolCast operand => .tagged "BooleanCast" operand.toJson
  | .conditional condition onTrue onFalse =>
    .tagged "Conditional" (.obj [("condition", condition.toJson), ("then_expr", onTrue.toJson),
      ("else_expr", onFalse.toJson)])
  | .assign target value =>
    .tagged "Assignment" (.obj [("target", .str target), ("value", value.toJson)])
  | .call callee arguments =>
    .tagged "Call" (.obj [("callee", .str callee), ("arguments", .arr (listToJson arguments))])

def listToJson : List Expr → List Json
  | [] => []
  | e :: rest => e.toJson :: listToJson rest

end

/-- One level of an expression, over the decoder of its parts. -/
def decodeWith (nested : Decoder Expr) : Decoder Expr :=
  let part (name : String) := required name nested
  let name := required "name" string
  let delta := required "delta" int32
  union []
    [("I32Constant", int32.map .int),
      ("FloatConstant", real.map .float),
      ("VariableRef", string.map .var),
      ("PreIncrement", body (record2 name delta .preIncrement)),
      ("PostIncrement", body (record2 name delta .postIncrement)),
      ("Binary", body (record3 (required "op" ArithOp.decode) (part "left") (part "right") .arith)),
      ("Compare", body (record3 (required "op" CompareOp.decode) (part "left") (part "right")
        .compare)),
      ("LogicalAnd", body (record2 (part "left") (part "right") .logicalAnd)),
      ("LogicalOr", body (record2 (part "left") (part "right") .logicalOr)),
      ("BooleanCast", nested.map .boolCast),
      ("Conditional", body (record3 (part "condition") (part "then_expr") (part "else_expr")
        .conditional)),
      ("Assignment", body (record2 (required "target" string) (part "value") .assign)),
      ("Call", body (record2 (required "callee" string) (required "arguments" nested.list) .call))]

/-- An expression of at most `levels` levels. -/
def decodeIn : (levels : Nat) → Decoder Expr
  | 0 => fun _ _ => none
  | levels + 1 => decodeWith (decodeIn levels)

/-- Every level of an expression opens an object, so the depth bounds their number. -/
def decode : Decoder Expr := fun here j => decodeIn here.depth here j

end Expr

namespace Declarator

def toJson (d : Declarator) : Json :=
  .obj [("name", .str d.name), ("ty", d.ty.toJson),
    ("initializer", Json.option Expr.toJson d.initializer)]

def decode : Decoder Declarator :=
  record3 (required "name" string) (required "ty" Ty.decode)
    (optional "initializer" Expr.decode) .mk

end Declarator

namespace Stmt

mutual

def toJson : Stmt → Json
  | .expression e => .tagged "Expression" e.toJson
  | .declaration ds => .tagged "Declaration" (.arr (ds.map Declarator.toJson))
  | .compound body => .tagged "Compound" (.arr (listToJson body))
  | .ifElse condition onTrue onFalse =>
    .tagged "If" (.obj [("condition", condition.toJson), ("then_stmt", onTrue.toJson),
      ("else_stmt", optionToJson onFalse)])
  | .whileLoop condition body =>
    .tagged "While" (.obj [("condition", condition.toJson), ("body", body.toJson)])
  | .forLoop init condition step body =>
    .tagged "For" (.obj [("init", optionToJson init),
      ("condition", Json.option Expr.toJson condition), ("step", Json.option Expr.toJson step),
      ("body", body.toJson)])
  | .ret value => .tagged "Return" (Json.option Expr.toJson value)
  | .brk => .str "Break"
  | .cont => .str "Continue"

def listToJson : List Stmt → List Json
  | [] => []
  | s :: rest => s.toJson :: listToJson rest

def optionToJson : Option Stmt → Json
  | none => .null
  | some s => s.toJson

end

/-- One level of a statement, over the decoder of its parts. -/
def decodeWith (nested : Decoder Stmt) : Decoder Stmt :=
  let condition := required "condition" Expr.decode
  let loopBody := required "body" nested
  union [("Break", .brk), ("Continue", .cont)]
    [("Expression", Expr.decode.map .expression),
      ("Declaration", Declarator.decode.list.map .declaration),
      ("Compound", nested.list.map .compound),
      ("If", body (record3 condition (required "then_stmt" nested) (optional "else_stmt" nested)
        .ifElse)),
      ("While", body (record2 condition loopBody .whileLoop)),
      ("For", body (record4 (optional "init" nested) (optional "condition" Expr.decode)
        (optional "step" Expr.decode) loopBody .forLoop)),
      ("Return", Expr.decode.option.map .ret)]

/-- A statement of at most `levels` levels. -/
def decodeIn : (levels : Nat) → Decoder Stmt
  | 0 => fun _ _ => none
  | levels + 1 => decodeWith (decodeIn levels)

/-- Every level of a statement but the last opens an object, so the depth bounds their number. -/
def decode : Decoder Stmt := fun here j => decodeIn (here.depth + 1) here j

end Stmt

namespace Param

def toJson (p : Param) : Json := .obj [("name", .str p.name), ("ty", p.ty.toJson)]

def decode : Decoder Param := record2 (required "name" string) (required "ty" Ty.decode) .mk

end Param

namespace Definition

def toJson (d : Definition) : Json :=
  .obj [("name", .str d.name), ("return_type", d.returnTy.toJson),
    ("params", .arr (d.params.map Param.toJson)), ("body", .arr (Stmt.listToJson d.body))]

def decode : Decoder Definition :=
  record4 (required "name" string) (required "return_type" Ty.decode)
    (required "params" Param.decode.list) (required "body" Stmt.decode.list) .mk

end Definition

end MiniC
