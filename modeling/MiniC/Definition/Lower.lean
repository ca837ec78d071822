import MiniC.Definition
import MiniC.Stmt.Lower

/-!
# Code of definitions
-/

namespace MiniC

namespace Lower

/-- Every parameter gets a slot, which takes the argument. -/
def paramSlots (env : LowerEnv) : List (Param × Value) → Lower Code
  | [] => return []
  | (p, argument) :: rest => do
    let (allocation, slot) ← declareSlot env Scopes.root p.name p.ty
    let storing ← store env argument slot
    return allocation ++ storing ++ (← paramSlots env rest)

/-- What ends a function behind `code`: a `void` function returns, and any other one that control
can leave this way is reported. -/
def endingAfter (env : LowerEnv) (function : String) (code : Code) : Lower Code := do
  if Code.endsWithTerminator code then return []
  else if env.returnTy.isVoid then return [.ret none]
  else
    emit (.fallsOffEnd function)
    return []

/-- Gives every label in the code its name. -/
def resolve (code : Code) : Lower Code := do
  let labels := (← get).labels
  ofLowering labels.checkAllFixed
  match labels.resolveCode code with
  | (code, none) => return code
  | (_, some e) => throw (.lowering e)

end Lower

namespace Definition

/-- The code of a function in the state in which its code begins. -/
def lowerIn (env : LowerEnv) (d : Definition) : Lower Segment := do
  let paramCode ← Lower.paramSlots env (d.params.zip env.params)
  let scope ← Lower.openScope Scopes.root
  let body ← Stmt.lowerBlock env d.body { scope }
  let code := .functionBegin d.name d.returnTy env.params :: .label env.entry :: paramCode ++ body
  let ending ← Lower.endingAfter env d.name code
  let code ← Lower.resolve (code ++ ending ++ [.functionEnd])
  Lower.emit (.lowered d.name code.length (← get).labels.size)
  return { instructions := code }

/-- The code of a function, and what was reported on the way. -/
def lower (functions : FunctionTable) (options : Options) (d : Definition) :
    Except CompileError Segment × List Event :=
  let env := LowerEnv.ofSignature functions options d.signature
  match d.lowerIn env env.start with
  | .ok s state => (.ok s, state.log.reverse)
  | .error e state => (.error e, state.log.reverse)

end Definition

end MiniC
