import MiniC.Decimal.Numeral
import MiniC.Expr.Printer
import MiniC.Token.Stream

/-!
# Parsing expressions

One parser per level of precedence, each over the parser `nested` for the expressions inside it.
`expressionIn` ties the knot, with the number of tokens left as fuel: without a token left every
level fails alike, for want of a primary expression.
-/

namespace MiniC.Parser

/-- The kinds of token that may stand behind an operand. -/
def endsOperand : TokenKind → Bool
  | .symbol .semicolon | .symbol .rightParen | .symbol .comma | .symbol .question
  | .symbol .colon => true
  | kind => kind.isBinary || kind.isAssignment

def expectOperandEnd (level : String) : Parser Unit := do
  if endsOperand (← peek).kind then return ()
  else unexpected ("operator or end of expression in " ++ level)

/-- The value of an integer literal, which fits in 32 bits with a sign. -/
def intLiteral? (lexeme : String) : Option Int :=
  let n := natOfDigits lexeme.toList
  if n ≤ 2147483647 then some n else none

/-- The value of a float literal, a numeral with one point in it. -/
def floatLiteral (lexeme : String) : Binary64 :=
  let cs := lexeme.toList
  .ofDecimal (cs.takeWhile Char.isDigit) (cs.dropWhile Char.isDigit).tail

/-- A call, at the name of the function. -/
def call (nested : Parser Expr) : Parser Expr := do
  let callee ← advance
  let _ ← expect (.symbol .leftParen) "function call"
  let arguments ←
    if (← peek).kind = .symbol .rightParen then pure [] else commaSeparated nested
  let _ ← expect (.symbol .rightParen) "function call"
  return .call callee.lexeme arguments

def primaryWith (nested : Parser Expr) : Parser Expr := do
  match (← peek).kind with
  | .intLiteral =>
    let t ← advance
    match intLiteral? t.lexeme with
    | some value => return .int value
    | none => throw (.invalidLiteral t.lexeme t.location)
  | .floatLiteral =>
    let t ← advance
    return .float (floatLiteral t.lexeme)
  | .identifier =>
    if (← peekNext).kind = .symbol .leftParen then call nested
    else
      let t ← advance
      return .var t.lexeme
  | .symbol .leftParen =>
    let _ ← advance
    let e ← nested
    let _ ← expect (.symbol .rightParen) "parenthesized expression"
    return e
  | _ => unexpected "primary expression"

/-- What an increment operator adds. -/
def delta? : TokenKind → Option Int
  | .symbol .plusPlus => some 1
  | .symbol .minusMinus => some (-1)
  | _ => none

def incrementWith (nested : Parser Expr) : Parser Expr := do
  let t ← peek
  match delta? t.kind with
  | some delta =>
    let _ ← advance
    let name ← expect .identifier "increment"
    return .preIncrement name.lexeme delta
  | none =>
    match t.kind, delta? (← peekNext).kind with
    | .identifier, some delta =>
      let _ ← advance
      let _ ← advance
      return .postIncrement t.lexeme delta
    | _, _ => primaryWith nested

/-- Operands joined from the left by operators of one level; `n` bounds the operators. -/
def chainFrom (operator? : TokenKind → Option (Expr → Expr → Expr)) (operand : Parser Expr) :
    (n : Nat) → Expr → Parser Expr
  | 0, left => return left
  | n + 1, left => do
    match operator? (← peek).kind with
    | none => return left
    | some build =>
      let _ ← advance
      let right ← operand
      chainFrom operator? operand n (build left right)

/-- A level of left-associative operators. -/
def chain (level : String) (operator? : TokenKind → Option (Expr → Expr → Expr))
    (operand : Parser Expr) : Parser Expr := do
  let left ← operand
  let e ← chainFrom operator? operand (← remaining) left
  expectOperandEnd level
  return e

def multiplicative? : TokenKind → Option (Expr → Expr → Expr)
  | .symbol .star => some (.arith .mul)
  | .symbol .slash => some (.arith .div)
  | .symbol .percent => some (.arith .rem)
  | _ => none

def additive? : TokenKind → Option (Expr → Expr → Expr)
  | .symbol .plus => some (.arith .add)
  | .symbol .minus => some (.arith .sub)
  | _ => none

def comparison? : TokenKind → Option (Expr → Expr → Expr)
  | .symbol .less => some (.compare .less)
  | .symbol .lessEqual => some (.compare .lessEqual)
  | .symbol .greater => some (.compare .greater)
  | .symbol .greaterEqual => some (.compare .greaterEqual)
  | .symbol .equalEqual => some (.compare .equal)
  | .symbol .bangEqual => some (.compare .notEqual)
  | _ => none

def conjunction? : TokenKind → Option (Expr → Expr → Expr)
  | .symbol .ampAmp => some fun left right => .logicalAnd left.toCondition right.toCondition
  | _ => none

def disjunction? : TokenKind → Option (Expr → Expr → Expr)
  | .symbol .pipePipe => some fun left right => .logicalOr left.toCondition right.toCondition
  | _ => none

def multiplicativeWith (nested : Parser Expr) : Parser Expr :=
  chain "multiplicative expression" multiplicative? (incrementWith nested)

def additiveWith (nested : Parser Expr) : Parser Expr :=
  chain "additive expression" additive? (multiplicativeWith nested)

def comparisonWith (nested : Parser Expr) : Parser Expr :=
  chain "comparison" comparison? (additiveWith nested)

def logicalAndWith (nested : Parser Expr) : Parser Expr :=
  chain "logical and" conjunction? (comparisonWith nested)

def logicalOrWith (nested : Parser Expr) : Parser Expr :=
  chain "logical or" disjunction? (logicalAndWith nested)

/-- A conditional, whose last part is a conditional again. -/
def conditionalWith (nested nestedConditional : Parser Expr) : Parser Expr := do
  let condition ← logicalOrWith nested
  if ← accept (.symbol .question) then
    let onTrue ← nested
    let _ ← expect (.symbol .colon) "conditional expression"
    let onFalse ← nestedConditional
    return .conditional condition.toCondition onTrue onFalse
  else return condition

/-- The value that an assignment operator stores in `target`. -/
def assignedValue (target : String) (rhs : Expr) : TokenKind → Expr
  | .symbol .plusEqual => .arith .add (.var target) rhs
  | .symbol .minusEqual => .arith .sub (.var target) rhs
  | .symbol .starEqual => .arith .mul (.var target) rhs
  | .symbol .slashEqual => .arith .div (.var target) rhs
  | _ => rhs

/-- An assignment to a variable, or a conditional with no assignment operator behind it. -/
def assignmentWith (nested nestedConditional : Parser Expr) : Parser Expr := do
  let t ← peek
  if t.kind = .identifier ∧ (← peekNext).kind.isAssignment then
    let target ← advance
    let operator ← advance
    let rhs ← nested
    return .assign target.lexeme (assignedValue target.lexeme rhs operator.kind)
  else
    let e ← conditionalWith nested nestedConditional
    if (← peek).kind.isAssignment then throw (.invalidAssignmentTarget e.text t.location)
    else return e

mutual

/-- An expression of at most `n` tokens. -/
def expressionIn : (n : Nat) → Parser Expr
  | 0 => unexpected "primary expression"
  | n + 1 => assignmentWith (expressionIn n) (conditionalIn n)

/-- A conditional of at most `n` tokens. -/
def conditionalIn : (n : Nat) → Parser Expr
  | 0 => unexpected "primary expression"
  | n + 1 => conditionalWith (expressionIn n) (conditionalIn n)

end

def expression : Parser Expr := do expressionIn (← remaining)

def assignment : Parser Expr := expression

def conditional : Parser Expr := do conditionalIn (← remaining)

def logicalOr : Parser Expr := do logicalOrWith (expressionIn (← remaining))

def logicalAnd : Parser Expr := do logicalAndWith (expressionIn (← remaining))

def comparison : Parser Expr := do comparisonWith (expressionIn (← remaining))

def additive : Parser Expr := do additiveWith (expressionIn (← remaining))

def multiplicative : Parser Expr := do multiplicativeWith (expressionIn (← remaining))

def increment : Parser Expr := do incrementWith (expressionIn (← remaining))

def primary : Parser Expr := do primaryWith (expressionIn (← remaining))

end MiniC.Parser
