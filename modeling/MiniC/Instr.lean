import MiniC.Label
import MiniC.Value

/-!
# Instructions

The instructions of emitted code, constructors that check the types of operands, and their text.
-/

namespace MiniC

inductive BinaryOp where
  | add
  | sub
  | mul
  | sdiv
  | srem
  | and
  | or
  deriving DecidableEq

inductive Relation where
  | eq
  | ne
  | slt
  | sle
  | sgt
  | sge
  deriving DecidableEq

/-- An instruction. `label` marks the start of a block, and a `phi` takes the value that stands
beside the block from which control came. -/
inductive Instr where
  | alloca (slot : Value) (align : Nat)
  | store (value slot : Value) (align : Nat)
  | load (result slot : Value) (align : Nat)
  | binary (result : Value) (op : BinaryOp) (lhs rhs : Value)
  | icmp (result : Value) (relation : Relation) (lhs rhs : Value)
  | jump (target : Label)
  | branch (condition : Value) (onTrue onFalse : Label)
  | label (l : Label)
  | phi (result : Value) (incoming : List (Value × Label))
  | zext (result value : Value)
  | call (result : Option Value) (callee : String) (returnTy : Ty) (arguments : List Value)
  | functionBegin (name : String) (returnTy : Ty) (params : List Value)
  | functionEnd
  | ret (value : Option Value)
  deriving DecidableEq

def BinaryOp.text : BinaryOp → String
  | .add => "add"
  | .sub => "sub"
  | .mul => "mul"
  | .sdiv => "sdiv"
  | .srem => "srem"
  | .and => "and"
  | .or => "or"

def Relation.text : Relation → String
  | .eq => "eq"
  | .ne => "ne"
  | .slt => "slt"
  | .sle => "sle"
  | .sgt => "sgt"
  | .sge => "sge"

namespace Instr

def expectTy (found expected : Ty) (context : String) : Except LoweringError Unit :=
  if found = expected then .ok () else .error (.typeMismatch expected found context)

def expectInteger (ty : Ty) (context : String) : Except LoweringError Unit :=
  if ty.isInteger then .ok () else .error (.unsupportedType ty context)

/-- Only a slot that holds something can be used as memory. -/
def expectSlot (slot : Value) (context : String) : Except LoweringError Unit :=
  match slot with
  | .slot _ ty => if ty.size?.isSome then .ok () else .error (.unsupportedType ty context)
  | other => .error (.unsupportedType other.ty context)

def mkAlloca (slot : Value) (align : Nat) : Except LoweringError Instr := do
  expectSlot slot "alloca"
  return .alloca slot align

def mkStore (value slot : Value) (align : Nat) : Except LoweringError Instr := do
  expectSlot slot "store"
  expectTy value.ty slot.ty "store"
  return .store value slot align

def mkLoad (result slot : Value) (align : Nat) : Except LoweringError Instr := do
  expectSlot slot "load"
  expectTy result.ty slot.ty "load"
  return .load result slot align

def mkBinary (result : Value) (op : BinaryOp) (lhs rhs : Value) : Except LoweringError Instr := do
  expectInteger result.ty op.text
  expectTy lhs.ty result.ty op.text
  expectTy rhs.ty result.ty op.text
  return .binary result op lhs rhs

def mkIcmp (result : Value) (relation : Relation) (lhs rhs : Value) :
    Except LoweringError Instr := do
  expectTy result.ty .bool "icmp"
  expectInteger lhs.ty "icmp"
  expectTy rhs.ty lhs.ty "icmp"
  return .icmp result relation lhs rhs

def mkBranch (condition : Value) (onTrue onFalse : Label) : Except LoweringError Instr := do
  expectTy condition.ty .bool "branch condition"
  return .branch condition onTrue onFalse

def mkPhi (result : Value) (incoming : List (Value × Label)) : Except LoweringError Instr := do
  if incoming.length < 2 then throw (.incompletePhi incoming.length)
  else
    incoming.forM fun (value, _) => expectTy value.ty result.ty "phi"
    return .phi result incoming

/-- An extension goes to a strictly wider integer type. -/
def mkZext (result value : Value) : Except LoweringError Instr := do
  expectInteger value.ty "zext"
  expectInteger result.ty "zext"
  if value.ty.bitWidth?.getD 0 < result.ty.bitWidth?.getD 0 then return .zext result value
  else throw (.typeMismatch result.ty value.ty "zext")

/-- A call has a result of the function's return type, and none for `void`. -/
def mkCall (result : Option Value) (callee : String) (returnTy : Ty) (arguments : List Value) :
    Except LoweringError Instr := do
  expectTy ((result.map Value.ty).getD .void) returnTy "call result"
  return .call result callee returnTy arguments

/-- Whether control never goes on to the next instruction. -/
def isTerminator : Instr → Bool
  | .ret _ | .jump _ | .branch .. => true
  | _ => false

/-- The labels of the instruction, in order. -/
def labels : Instr → List Label
  | .jump target => [target]
  | .branch _ onTrue onFalse => [onTrue, onFalse]
  | .label l => [l]
  | .phi _ incoming => incoming.map Prod.snd
  | _ => []

/-- The instruction with other labels in the places of its own. -/
def withLabels : Instr → List Label → Instr
  | .jump _, [target] => .jump target
  | .branch condition _ _, [onTrue, onFalse] => .branch condition onTrue onFalse
  | .label _, [l] => .label l
  | .phi result incoming, ls => .phi result ((incoming.map Prod.fst).zip ls)
  | i, _ => i

/-- Values with their types, and commas between them. -/
def argumentsText (values : List Value) : String :=
  String.intercalate ", " (values.map Value.typedText)

def incomingText : Value × Label → String
  | (value, l) => " [ " ++ value.text ++ ", %" ++ l.text ++ " ]"

def text : Instr → String
  | .alloca slot align => slot.text ++ " = alloca " ++ slot.ty.text ++ ", align " ++ toString align
  | .store value slot align =>
    "store " ++ value.typedText ++ ", ptr " ++ slot.text ++ ", align " ++ toString align
  | .load result slot align =>
    result.text ++ " = load " ++ result.ty.text ++ ", ptr " ++ slot.text ++ ", align " ++
      toString align
  | .binary result op lhs rhs =>
    result.text ++ " = " ++ op.text ++ " " ++ result.ty.text ++ " " ++ lhs.text ++ ", " ++ rhs.text
  | .icmp result relation lhs rhs =>
    result.text ++ " = icmp " ++ relation.text ++ " " ++ lhs.typedText ++ ", " ++ rhs.text
  | .jump target => "br label %" ++ target.text
  | .branch condition onTrue onFalse =>
    "br i1 " ++ condition.text ++ ", label %" ++ onTrue.text ++ ", label %" ++ onFalse.text
  | .label l => l.text ++ ":"
  | .phi result incoming =>
    result.text ++ " = phi " ++ result.ty.text ++ String.intercalate "," (incoming.map incomingText)
  | .zext result value =>
    result.text ++ " = zext " ++ value.typedText ++ " to " ++ result.ty.text
  | .call result callee returnTy arguments =>
    (result.map fun r => r.text ++ " = ").getD "" ++ "call " ++ returnTy.text ++ " @" ++ callee ++
      "(" ++ argumentsText arguments ++ ")"
  | .functionBegin name returnTy params =>
    "define " ++ returnTy.text ++ " @" ++ name ++ "(" ++ argumentsText params ++ ") \x7b"
  | .functionEnd => "\x7d"
  | .ret (some value) => "ret " ++ value.typedText
  | .ret none => "ret void"

end Instr

end MiniC
