import MiniC.Definition
import MiniC.Stmt.Parser

/-!
# Parsing definitions and whole programs
-/

namespace MiniC

namespace Parser

def param : Parser Param := do
  let ty ← typeName "parameter list"
  return ⟨← variableName ty "parameter list", ty⟩

def paramList : Parser (List Param) := do
  let _ ← expect (.symbol .leftParen) "parameter list"
  let params ← if (← peek).kind = .symbol .rightParen then pure [] else commaSeparated param
  let _ ← expect (.symbol .rightParen) "parameter list"
  return params

def definition : Parser Definition := do
  let returnTy ← typeName "function definition"
  let name ← expect .identifier "function definition"
  let params ← paramList
  let body ← block
  return ⟨name.lexeme, returnTy, params, body⟩

/-- Definitions up to the end of the file; `n` bounds their number. -/
def definitionsFrom : (n : Nat) → Parser (List Definition)
  | 0 => return []
  | n + 1 => do
    if ← atEnd then return []
    else
      let d ← definition
      return d :: (← definitionsFrom n)

/-- All definitions of a source text. -/
def translationUnit : Parser (List Definition) := do definitionsFrom (← remaining)

end Parser

/-- The definitions of a source text. -/
def parseSource (source : String) : Except ParseError (List Definition) :=
  match Parser.translationUnit (.ofText source) with
  | .ok definitions _ => .ok definitions
  | .error e _ => .error e

end MiniC
