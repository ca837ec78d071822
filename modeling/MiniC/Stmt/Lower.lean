import MiniC.Expr.Lower
import MiniC.Stmt

/-!
# Code of statements

One step per form of statement, over the lowerings of its parts.
-/

namespace MiniC

namespace Lower

def declarator (env : LowerEnv) (scope : ScopeId) (d : Declarator) : Lower Code := do
  let (allocation, slot) ← declareSlot env scope d.name d.ty
  match d.initializer with
  | none => return allocation
  | some e =>
    let (code, v) ← operandAs (e.lower env scope) d.ty "initializer"
    let storing ← store env v slot
    return allocation ++ code ++ storing

def declaration (env : LowerEnv) (scope : ScopeId) : List Declarator → Lower Code
  | [] => return []
  | d :: rest => do
    let code ← declarator env scope d
    return code ++ (← declaration env scope rest)

/-- Evaluates a condition and branches on it. -/
def branchOn (condition : Lower Segment) (onTrue onFalse : Label) : Lower Code := do
  let (code, v) ← operandAs condition .bool "condition"
  return code ++ [← ofLowering (Instr.mkBranch v onTrue onFalse)]

def ifElse (env : LowerEnv) (condition : Lower Segment) (onTrue : Lower Code)
    (onFalse : Option (Lower Code)) : Lower Code := do
  let trueLabel ← newLabel
  let falseLabel ← newLabel
  let test ← branchOn condition trueLabel falseLabel
  let trueMark ← placeLabel trueLabel
  let trueCode ← onTrue
  let code := test ++ trueMark :: trueCode
  match onFalse with
  | none =>
    let jump ← jumpAfter env code falseLabel
    let falseMark ← placeLabel falseLabel
    return code ++ jump ++ [falseMark]
  | some onFalse =>
    let endLabel ← newLabel
    let trueJump ← jumpAfter env code endLabel
    let falseMark ← placeLabel falseLabel
    let falseCode ← onFalse
    let code := code ++ trueJump ++ falseMark :: falseCode
    let falseJump ← jumpAfter env code endLabel
    let endMark ← placeLabel endLabel
    return code ++ falseJump ++ [endMark]

def whileLoop (env : LowerEnv) (ctx : Context) (condition : Lower Segment)
    (body : Context → Lower Code) : Lower Code := do
  let checkLabel ← newLabel
  let bodyLabel ← newLabel
  let exitLabel ← newLabel
  let entering ← jumpAfter env [] checkLabel
  let checkMark ← placeLabel checkLabel
  let test ← branchOn condition bodyLabel exitLabel
  let bodyMark ← placeLabel bodyLabel
  let bodyCode ← body { ctx with loop := some (exitLabel, checkLabel) }
  let code := entering ++ checkMark :: test ++ bodyMark :: bodyCode
  let back ← jumpAfter env code checkLabel
  let exitMark ← placeLabel exitLabel
  return code ++ back ++ [exitMark]

/-- The step of a loop runs behind its body, in a block of its own if control does not arrive. -/
def stepAfter (code : Code) (step : Option (Lower Segment)) : Lower Code := do
  match step with
  | none => return code
  | some step =>
    let opened ← openBlockAfter code
    let s ← step
    return code ++ opened ++ s.instructions

/-- The header of the loop has a scope of its own, in which the body stands too. `continue` goes to
the check and leaves out the step. -/
def forLoop (env : LowerEnv) (ctx : Context) (init : Option (Context → Lower Code))
    (condition step : Option (ScopeId → Lower Segment)) (body : Context → Lower Code) :
    Lower Code := do
  let scope ← openScope ctx.scope
  let ctx := { ctx with scope }
  let initCode ← match init with
    | some init => init ctx
    | none => pure []
  let checkLabel ← newLabel
  let bodyLabel ← newLabel
  let exitLabel ← newLabel
  let entering ← jumpAfter env initCode checkLabel
  let checkMark ← placeLabel checkLabel
  let code := initCode ++ entering ++ [checkMark]
  let test ← match condition with
    | some condition => branchOn (condition scope) bodyLabel exitLabel
    | none => jumpAfter env code bodyLabel
  let bodyMark ← placeLabel bodyLabel
  let bodyCode ← body { ctx with loop := some (exitLabel, checkLabel) }
  let code ← stepAfter (code ++ test ++ bodyMark :: bodyCode) (step.map (· scope))
  let back ← jumpAfter env code checkLabel
  let exitMark ← placeLabel exitLabel
  return code ++ back ++ [exitMark]

def ret (env : LowerEnv) (value : Option (Lower Segment)) : Lower Code := do
  match value with
  | none =>
    if env.returnTy.isVoid then return [.ret none]
    else throw (.lowering (.typeMismatch env.returnTy .void "return"))
  | some value =>
    let (code, v) ← operand value "return"
    if env.returnTy.isVoid then throw (.lowering (.typeMismatch .void v.ty "return"))
    else
      let (conversion, v) ← coerce v env.returnTy "return"
      return code ++ conversion ++ [.ret (some v)]

/-- A jump out of the body of the loop around the statement. -/
def leave (target : Option Label) (outside : LoweringError) : Lower Code :=
  match target with
  | some l => return [.jump l]
  | none => throw (.lowering outside)

end Lower

namespace Stmt

mutual

/-- The code of a statement. -/
def lower (env : LowerEnv) : Stmt → Context → Lower Code
  | .expression e, ctx => do return (← e.lower env ctx.scope).instructions
  | .declaration ds, ctx => Lower.declaration env ctx.scope ds
  | .compound body, ctx => do
    let scope ← Lower.openScope ctx.scope
    lowerAll env body { ctx with scope } []
  | .ifElse condition onTrue none, ctx =>
    Lower.ifElse env (condition.lower env ctx.scope) (onTrue.lower env ctx) none
  | .ifElse condition onTrue (some onFalse), ctx =>
    Lower.ifElse env (condition.lower env ctx.scope) (onTrue.lower env ctx)
      (some (onFalse.lower env ctx))
  | .whileLoop condition body, ctx =>
    Lower.whileLoop env ctx (condition.lower env ctx.scope) (body.lower env)
  | .forLoop none condition step body, ctx =>
    Lower.forLoop env ctx none (condition.map fun e scope => e.lower env scope)
      (step.map fun e scope => e.lower env scope) (body.lower env)
  | .forLoop (some init) condition step body, ctx =>
    Lower.forLoop env ctx (some (init.lower env)) (condition.map fun e scope => e.lower env scope)
      (step.map fun e scope => e.lower env scope) (body.lower env)
  | .ret value, ctx => Lower.ret env (value.map fun e => e.lower env ctx.scope)
  | .brk, ctx => Lower.leave (ctx.loop.map Prod.fst) .breakOutsideLoop
  | .cont, ctx => Lower.leave (ctx.loop.map Prod.snd) .continueOutsideLoop

/-- The code of statements behind `code`. A statement that control does not reach opens a block. -/
def lowerAll (env : LowerEnv) : List Stmt → Context → Code → Lower Code
  | [], _, code => return code
  | s :: rest, ctx, code => do
    let opened ← Lower.openBlockAfter code
    let added ← s.lower env ctx
    lowerAll env rest ctx (code ++ opened ++ added)

end

/-- The code of the statements of a block. -/
def lowerBlock (env : LowerEnv) (body : List Stmt) (ctx : Context) : Lower Code :=
  lowerAll env body ctx []

end Stmt

end MiniC
