import MiniC.Event
import MiniC.Form.Decoder
import MiniC.Options
import MiniC.Segment

/-!
# Tokens and code as documents

For each type a function to documents and a decoder that reads them back.
-/

namespace MiniC

open Decoder Member

/-- Numbers of values, labels and places have 32 bits. -/
def wordLimit : Nat := 0x100000000

def Decoder.word : Decoder Nat := natBelow wordLimit

def Decoder.align : Decoder Nat := natBelow alignLimit

/-- Integer literals of code have 64 bits. -/
def Decoder.int64 : Decoder Int := intIn (-0x8000000000000000) 0x8000000000000000

/-- A double; an infinite one has no number and is written as `null`. -/
def Binary64.toJson (x : Binary64) : Json := if x.isFinite then .num (.real x) else .null

def Ty.tag : Ty → String
  | .void => "Void"
  | .bool => "Bool"
  | .i8 => "I8"
  | .i16 => "I16"
  | .i32 => "I32"
  | .i64 => "I64"
  | .float => "Float"
  | .double => "Double"

def Ty.toJson (t : Ty) : Json := .str t.tag

def Ty.decode : Decoder Ty := enumeration Ty.all Ty.tag

def Location.toJson (l : Location) : Json :=
  .obj [("line", .nat l.line), ("column", .nat l.column)]

def Location.decode : Decoder Location :=
  record2 (required "line" word) (required "column" word) .mk

namespace TokenKind

def toJson : TokenKind → Json
  | .unknown c => .tagged "Unknown" (.str (String.singleton c))
  | kind => .str kind.tag

/-- All kinds but the unknown characters. -/
def known : List TokenKind :=
  [.intLiteral, .floatLiteral, .identifier, .endOfFile] ++ Keyword.all.map .keyword ++
    Symbol.all.map .symbol

def decode : Decoder TokenKind :=
  union (known.map fun kind => (kind.tag, kind)) [("Unknown", char.map .unknown)]

end TokenKind

def Token.toJson (t : Token) : Json :=
  .obj [("kind", t.kind.toJson), ("lexeme", .str t.lexeme), ("location", t.location.toJson)]

def Token.decode : Decoder Token :=
  record3 (required "kind" TokenKind.decode) (required "lexeme" string)
    (required "location" Location.decode) .mk

def Signature.toJson (s : Signature) : Json :=
  .obj [("return_type", s.returnTy.toJson), ("params", .arr (s.params.map Ty.toJson))]

def Signature.decode : Decoder Signature :=
  record2 (required "return_type" Ty.decode) (required "params" Ty.decode.list) .mk

namespace Value

/-- A value whose number or literal is called `key`. -/
def typedBody (key : String) (content : Json) (ty : Ty) : Json :=
  .obj [(key, content), ("ty", ty.toJson)]

def toJson : Value → Json
  | .temp id ty => .tagged "Temp" (typedBody "id" (.nat id) ty)
  | .slot id ty => .tagged "Slot" (typedBody "id" (.nat id) ty)
  | .int value ty => .tagged "Int" (typedBody "value" (.int value) ty)
  | .float value ty => .tagged "Float" (typedBody "value" value.toJson ty)

def decode : Decoder Value :=
  let ty := required "ty" Ty.decode
  union []
    [("Temp", body (record2 (required "id" word) ty .temp)),
      ("Slot", body (record2 (required "id" word) ty .slot)),
      ("Int", body (record2 (required "value" int64) ty .int)),
      ("Float", body (record2 (required "value" real) ty .float))]

end Value

namespace Label

def toJson : Label → Json
  | .pending id => .tagged "Pending" (.nat id)
  | .fixed id name => .tagged "Fixed" (.obj [("id", .nat id), ("name", .nat name)])

def decode : Decoder Label :=
  union []
    [("Pending", word.map .pending),
      ("Fixed", body (record2 (required "id" word) (required "name" word) .fixed))]

end Label

namespace BinaryOp

def all : List BinaryOp := [.add, .sub, .mul, .sdiv, .srem, .and, .or]

def tag : BinaryOp → String
  | .add => "Add"
  | .sub => "Sub"
  | .mul => "Mul"
  | .sdiv => "SDiv"
  | .srem => "SRem"
  | .and => "And"
  | .or => "Or"

def toJson (op : BinaryOp) : Json := .str op.tag

def decode : Decoder BinaryOp := enumeration all tag

end BinaryOp

namespace Relation

def all : List Relation := [.eq, .ne, .slt, .sle, .sgt, .sge]

def tag : Relation → String
  | .eq => "Eq"
  | .ne => "Ne"
  | .slt => "Slt"
  | .sle => "Sle"
  | .sgt => "Sgt"
  | .sge => "Sge"

def toJson (r : Relation) : Json := .str r.tag

def decode : Decoder Relation := enumeration all tag

end Relation

namespace Instr

def incomingToJson : Value × Label → Json
  | (value, l) => .arr [value.toJson, l.toJson]

def toJson : Instr → Json
  | .alloca slot align => .tagged "Alloca" (.obj [("slot", slot.toJson), ("align", .nat align)])
  | .store value slot align =>
    .tagged "Store" (.obj [("value", value.toJson), ("slot", slot.toJson), ("align", .nat align)])
  | .load result slot align =>
    .tagged "Load" (.obj [("result", result.toJson), ("slot", slot.toJson), ("align", .nat align)])
  | .binary result op lhs rhs =>
    .tagged "Binary" (.obj [("result", result.toJson), ("op", op.toJson), ("lhs", lhs.toJson),
      ("rhs", rhs.toJson)])
  | .icmp result relation lhs rhs =>
    .tagged "ICmp" (.obj [("result", result.toJson), ("relation", relation.toJson),
      ("lhs", lhs.toJson), ("rhs", rhs.toJson)])
  | .jump target => .tagged "Jump" (.obj [("target", target.toJson)])
  | .branch condition onTrue onFalse =>
    .tagged "Branch" (.obj [("condition", condition.toJson), ("on_true", onTrue.toJson),
      ("on_false", onFalse.toJson)])
  | .label l => .tagged "Label" l.toJson
  | .phi result incoming =>
    .tagged "Phi" (.obj [("result", result.toJson),
      ("incoming", .arr (incoming.map incomingToJson))])
  | .zext result value =>
    .tagged "ZExt" (.obj [("result", result.toJson), ("value", value.toJson)])
  | .call result callee returnTy arguments =>
    .tagged "Call" (.obj [("result", Json.option Value.toJson result), ("callee", .str callee),
      ("return_type", returnTy.toJson), ("arguments", .arr (arguments.map Value.toJson))])
  | .functionBegin name returnTy params =>
    .tagged "FunctionBegin" (.obj [("name", .str name), ("return_type", returnTy.toJson),
      ("params", .arr (params.map Value.toJson))])
  | .functionEnd => .str "FunctionEnd"
  | .ret value => .tagged "Return" (.obj [("value", Json.option Value.toJson value)])

def decode : Decoder Instr :=
  let operand (name : String) := required name Value.decode
  let target (name : String) := required name Label.decode
  let alignment := required "align" align
  let returnTy := required "return_type" Ty.decode
  union [("FunctionEnd", .functionEnd)]
    [("Alloca", body (record2 (operand "slot") alignment .alloca)),
      ("Store", body (record3 (operand "value") (operand "slot") alignment .store)),
      ("Load", body (record3 (operand "result") (operand "slot") alignment .load)),
      ("Binary", body (record4 (operand "result") (required "op" BinaryOp.decode) (operand "lhs")
        (operand "rhs") .binary)),
      ("ICmp", body (record4 (operand "result") (required "relation" Relation.decode)
        (operand "lhs") (operand "rhs") .icmp)),
      ("Jump", body (record1 (target "target") .jump)),
      ("Branch", body (record3 (operand "condition") (target "on_true") (target "on_false")
        .branch)),
      ("Label", Label.decode.map .label),
      ("Phi", body (record2 (operand "result")
        (required "incoming" (list (pair Value.decode Label.decode))) .phi)),
      ("ZExt", body (record2 (operand "result") (operand "value") .zext)),
      ("Call", body (record4 (optional "result" Value.decode) (required "callee" string) returnTy
        (required "arguments" Value.decode.list) .call)),
      ("FunctionBegin", body (record3 (required "name" string) returnTy
        (required "params" Value.decode.list) .functionBegin)),
      ("Return", body (record1 (optional "value" Value.decode) .ret))]

end Instr

def Segment.toJson (s : Segment) : Json :=
  .obj [("instructions", .arr (s.instructions.map Instr.toJson)),
    ("result", Json.option Value.toJson s.result)]

def Segment.decode : Decoder Segment :=
  record2 (required "instructions" Instr.decode.list) (optional "result" Value.decode) .mk

end MiniC
