import MiniC.Expr.Parser
import MiniC.Stmt

/-!
# Parsing statements

As for expressions, each form is a parser over the parser `nested` for the statements inside it.
-/

namespace MiniC.Parser

/-- A variable of a declaration, with its initial value if there is one. -/
def declarator (ty : Ty) : Parser Declarator := do
  let name ← variableName ty "declaration"
  if ← accept (.symbol .equal) then return ⟨name, ty, some (← expression)⟩
  else return ⟨name, ty, none⟩

def declaration : Parser Stmt := do
  let ty ← typeName "declaration"
  let declarators ← commaSeparated (declarator ty)
  let _ ← expect (.symbol .semicolon) "declaration"
  return .declaration declarators

def expressionStatement : Parser Stmt := do
  let e ← expression
  let _ ← expect (.symbol .semicolon) "expression statement"
  return .expression e

/-- Statements up to a closing brace; `n` bounds their number. -/
def statementsFrom (nested : Parser Stmt) : (n : Nat) → Parser (List Stmt)
  | 0 => unexpected "'\x7d' in compound statement"
  | n + 1 => do
    let t ← peek
    if t.kind = .symbol .rightBrace then return []
    else if t.isEof then unexpected "'\x7d' in compound statement"
    else
      let s ← nested
      return s :: (← statementsFrom nested n)

def blockWith (nested : Parser Stmt) : Parser (List Stmt) := do
  let _ ← expect (.symbol .leftBrace) "compound statement"
  let body ← statementsFrom nested (← remaining)
  let _ ← expect (.symbol .rightBrace) "compound statement"
  return body

/-- A condition in parentheses. -/
def parenthesizedCondition (context : String) : Parser Expr := do
  let _ ← expect (.symbol .leftParen) context
  let e ← expression
  let _ ← expect (.symbol .rightParen) context
  return e.toCondition

def ifStatement (nested : Parser Stmt) : Parser Stmt := do
  let _ ← advance
  let condition ← parenthesizedCondition "if statement"
  let onTrue ← nested
  if ← accept (.keyword .elseKw) then return .ifElse condition onTrue (some (← nested))
  else return .ifElse condition onTrue none

def whileStatement (nested : Parser Stmt) : Parser Stmt := do
  let _ ← advance
  let condition ← parenthesizedCondition "while statement"
  return .whileLoop condition (← nested)

/-- The first part of a loop header with its semicolon. -/
def forInit : Parser (Option Stmt) := do
  if ← accept (.symbol .semicolon) then return none
  else if (← peek).kind.toTy?.isSome then return some (← declaration)
  else return some (← expressionStatement)

/-- An expression, unless the current token is `stop`. -/
def expressionUnless (stop : TokenKind) : Parser (Option Expr) := do
  if (← peek).kind = stop then return none
  else return some (← expression)

def forStatement (nested : Parser Stmt) : Parser Stmt := do
  let _ ← advance
  let _ ← expect (.symbol .leftParen) "for statement"
  let init ← forInit
  let condition ← expressionUnless (.symbol .semicolon)
  let _ ← expect (.symbol .semicolon) "for statement"
  let step ← expressionUnless (.symbol .rightParen)
  let _ ← expect (.symbol .rightParen) "for statement"
  return .forLoop init (condition.map Expr.toCondition) step (← nested)

def returnStatement : Parser Stmt := do
  let _ ← advance
  if ← accept (.symbol .semicolon) then return .ret none
  else
    let e ← expression
    let _ ← expect (.symbol .semicolon) "return statement"
    return .ret (some e)

/-- A statement of one keyword. -/
def keywordStatement (s : Stmt) (context : String) : Parser Stmt := do
  let _ ← advance
  let _ ← expect (.symbol .semicolon) context
  return s

def statementWith (nested : Parser Stmt) : Parser Stmt := do
  let t ← peek
  if t.kind.toTy?.isSome then declaration
  else
    match t.kind with
    | .symbol .leftBrace => return .compound (← blockWith nested)
    | .keyword .ifKw => ifStatement nested
    | .keyword .whileKw => whileStatement nested
    | .keyword .forKw => forStatement nested
    | .keyword .returnKw => returnStatement
    | .keyword .breakKw => keywordStatement .brk "break statement"
    | .keyword .continueKw => keywordStatement .cont "continue statement"
    | _ => expressionStatement

/-- A statement of at most `n` tokens. -/
def statementIn : (n : Nat) → Parser Stmt
  | 0 => unexpected "primary expression"
  | n + 1 => statementWith (statementIn n)

def statement : Parser Stmt := do statementIn (← remaining)

def block : Parser (List Stmt) := do blockWith (statementIn (← remaining))

end MiniC.Parser
