import MiniC.Expr
import MiniC.Lowering

/-!
# Code of expressions

One step per form of expression, over the lowerings of its parts, from left to right.
-/

namespace MiniC

def ArithOp.toBinaryOp : ArithOp → BinaryOp
  | .add => .add
  | .sub => .sub
  | .mul => .mul
  | .div => .sdiv
  | .rem => .srem

def CompareOp.toRelation : CompareOp → Relation
  | .less => .slt
  | .lessEqual => .sle
  | .greater => .sgt
  | .greaterEqual => .sge
  | .equal => .eq
  | .notEqual => .ne

namespace Lower

def readVariable (env : LowerEnv) (scope : ScopeId) (name : String) : Lower Segment := do
  let slot ← lookup scope name
  let (code, v) ← load env slot
  return ⟨code, some v⟩

/-- Adds `delta` to a variable. The value is the new one if `before`, and else the old one. -/
def increment (env : LowerEnv) (scope : ScopeId) (name : String) (delta : Int) (before : Bool) :
    Lower Segment := do
  let slot ← lookup scope name
  let (loading, old) ← load env slot
  let new ← newTemp slot.ty
  let sum ← ofLowering (Instr.mkBinary new .add old (.int delta slot.ty))
  let storing ← store env new slot
  return ⟨loading ++ sum :: storing, some (if before then new else old)⟩

/-- An operation on two operands of type `ty` with a result of that type. -/
def binary (op : BinaryOp) (ty : Ty) (left right : Lower Segment) : Lower Segment := do
  let (leftCode, lhs) ← operandAs left ty op.text
  let (rightCode, rhs) ← operandAs right ty op.text
  let result ← newTemp ty
  let i ← ofLowering (Instr.mkBinary result op lhs rhs)
  return ⟨leftCode ++ rightCode ++ [i], some result⟩

/-- The type in which two values are compared. A computed boolean adapts to the other side, then a
literal does. -/
def commonTy (lhs rhs : Value) : Except LoweringError Ty := do
  let ty ←
    if lhs.ty = rhs.ty then pure lhs.ty
    else if lhs.ty = .bool ∧ ¬lhs.isLiteral then pure rhs.ty
    else if rhs.ty = .bool ∧ ¬rhs.isLiteral then pure lhs.ty
    else if lhs.isLiteral then pure rhs.ty
    else if rhs.isLiteral then pure lhs.ty
    else throw (.typeMismatch lhs.ty rhs.ty "icmp")
  if ty.isInteger then return ty else throw (.unsupportedType ty "icmp")

def comparison (relation : Relation) (left right : Lower Segment) : Lower Segment := do
  let (leftCode, lhs) ← operand left "icmp"
  let (rightCode, rhs) ← operand right "icmp"
  let ty ← ofLowering (commonTy lhs rhs)
  let (leftConversion, lhs) ← coerce lhs ty "icmp"
  let (rightConversion, rhs) ← coerce rhs ty "icmp"
  let result ← newTemp .bool
  let i ← ofLowering (Instr.mkIcmp result relation lhs rhs)
  return ⟨leftCode ++ rightCode ++ leftConversion ++ rightConversion ++ [i], some result⟩

/-- Whether a value differs from zero. A boolean is taken as it is. -/
def booleanCast (inner : Lower Segment) : Lower Segment := do
  let (code, v) ← operand inner "boolean cast"
  if v.ty = .bool then return ⟨code, some v⟩
  else if v.ty.isInteger then
    let result ← newTemp .bool
    let i ← ofLowering (Instr.mkIcmp result .ne v (.int 0 v.ty))
    return ⟨code ++ [i], some result⟩
  else throw (.lowering (.unsupportedType v.ty "boolean cast"))

/-- An arm of a conditional. A boolean becomes an integer unless both arms are boolean. -/
def arm (keepBoolean : Bool) (lowered : Lower Segment) : Lower (Code × Value) := do
  let (code, v) ← operand lowered "conditional"
  if !keepBoolean && v.ty == .bool then
    let (conversion, v) ← coerce v .i32 "conditional"
    return (code ++ conversion, v)
  else return (code, v)

/-- Both arms run in blocks of their own and meet in a `phi`. -/
def conditional (env : LowerEnv) (keepBoolean : Bool) (condition onTrue onFalse : Lower Segment) :
    Lower Segment := do
  let (test, condition) ← operandAs condition .bool "conditional"
  let trueLabel ← newLabel
  let falseLabel ← newLabel
  let joinLabel ← newLabel
  let branch ← ofLowering (Instr.mkBranch condition trueLabel falseLabel)
  let trueMark ← placeLabel trueLabel
  let (trueCode, trueValue) ← arm keepBoolean onTrue
  let trueBlock ← currentBlock
  let code := test ++ branch :: trueMark :: trueCode
  let trueJump ← jumpAfter env code joinLabel
  let falseMark ← placeLabel falseLabel
  let (falseCode, falseValue) ← arm keepBoolean onFalse
  let falseBlock ← currentBlock
  let code := code ++ trueJump ++ falseMark :: falseCode
  let falseJump ← jumpAfter env code joinLabel
  let joinMark ← placeLabel joinLabel
  let ty := if trueValue.isLiteral then falseValue.ty else trueValue.ty
  let trueValue ← ofLowering (retypeLiteral trueValue ty "conditional")
  let falseValue ← ofLowering (retypeLiteral falseValue ty "conditional")
  let result ← newTemp ty
  let phi ← ofLowering (Instr.mkPhi result [(trueValue, trueBlock), (falseValue, falseBlock)])
  return ⟨code ++ falseJump ++ [joinMark, phi], some result⟩

/-- The value of an assignment is the one that was stored. -/
def assignment (env : LowerEnv) (scope : ScopeId) (target : String) (value : Lower Segment) :
    Lower Segment := do
  let slot ← lookup scope target
  let (code, v) ← operandAs value slot.ty "assignment"
  let storing ← store env v slot
  return ⟨code ++ storing, some v⟩

/-- Arguments, each converted to the type of its parameter. -/
def arguments : List (Lower Segment) → List Ty → Lower (Code × List Value)
  | argument :: rest, ty :: tys => do
    let (code, v) ← operandAs argument ty "argument"
    let (more, vs) ← arguments rest tys
    return (code ++ more, v :: vs)
  | _, _ => return ([], [])

def call (env : LowerEnv) (callee : String) (args : List (Lower Segment)) : Lower Segment := do
  let signature ← ofScope (env.functions.lookup callee)
  if signature.params.length = args.length then
    let (code, values) ← arguments args signature.params
    let result ←
      if signature.returnTy.isVoid then pure none
      else
        let v ← newTemp signature.returnTy
        pure (some v)
    let i ← ofLowering (Instr.mkCall result callee signature.returnTy values)
    return ⟨code ++ [i], result⟩
  else throw (.lowering (.arityMismatch callee signature.params.length args.length))

end Lower

namespace Expr

mutual

/-- The code of an expression in a scope. -/
def lower (env : LowerEnv) (scope : ScopeId) : Expr → Lower Segment
  | .int value => return .ofValue (.int value .i32)
  | .float value => return .ofValue (.float value .double)
  | .var name => Lower.readVariable env scope name
  | .preIncrement name delta => Lower.increment env scope name delta true
  | .postIncrement name delta => Lower.increment env scope name delta false
  | .arith op left right =>
    Lower.binary op.toBinaryOp .i32 (left.lower env scope) (right.lower env scope)
  | .compare op left right =>
    Lower.comparison op.toRelation (left.lower env scope) (right.lower env scope)
  | .logicalAnd left right =>
    Lower.binary .and .bool (left.lower env scope) (right.lower env scope)
  | .logicalOr left right =>
    Lower.binary .or .bool (left.lower env scope) (right.lower env scope)
  | .boolCast operand => Lower.booleanCast (operand.lower env scope)
  | .conditional condition onTrue onFalse =>
    Lower.conditional env (onTrue.isBoolean && onFalse.isBoolean) (condition.lower env scope)
      (onTrue.lower env scope) (onFalse.lower env scope)
  | .assign target value => Lower.assignment env scope target (value.lower env scope)
  | .call callee arguments => Lower.call env callee (lowerAll env scope arguments)

/-- The lowerings of a list of expressions, not run yet. -/
def lowerAll (env : LowerEnv) (scope : ScopeId) : List Expr → List (Lower Segment)
  | [] => []
  | e :: rest => e.lower env scope :: lowerAll env scope rest

end

end Expr

end MiniC
