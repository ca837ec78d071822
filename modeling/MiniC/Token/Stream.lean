import MiniC.Error
import MiniC.Token.Lexer

/-!
# Token streams and parsers

A parser works on the tokens not yet consumed. It keeps its place when it fails, so that parsing can
go on from there.
-/

namespace MiniC

/-- The tokens not yet consumed, and the end-of-file token that stands behind them. -/
structure TokenStream where
  pending : List Token
  eof : Token

namespace TokenStream

/-- The stream over tokens whose last one is the end of the file. -/
def ofTokens (ts : List Token) : TokenStream :=
  ⟨ts.dropLast, ts.getLastD ⟨.endOfFile, "", .start⟩⟩

def ofText (source : String) : TokenStream := ofTokens (tokenize source)

def current (s : TokenStream) : Token := s.pending.headD s.eof

def next (s : TokenStream) : Token := s.pending.tail.headD s.eof

def advance (s : TokenStream) : TokenStream := { s with pending := s.pending.tail }

def atEnd (s : TokenStream) : Bool := s.pending.isEmpty

/-- The tokens read ahead before anything is consumed: the first two of the stream. -/
def window (s : TokenStream) : List Token := (s.pending ++ [s.eof, s.eof]).take 2

/-- The tokens read ahead while the next `n` are consumed: those two places further on. The end of
the file is read again each time. -/
def readAhead (s : TokenStream) (n : Nat) : List Token :=
  (s.pending.drop 2 ++ List.replicate n s.eof).take n

end TokenStream

abbrev Parser := EStateM ParseError TokenStream

namespace Parser

def peek : Parser Token := return (← get).current

def peekNext : Parser Token := return (← get).next

/-- Consumes the current token. -/
def advance : Parser Token := modifyGet fun s => (s.current, s.advance)

/-- How many tokens are left. Every parser consumes a token before it calls itself, so this number
is fuel enough for it. -/
def remaining : Parser Nat := return (← get).pending.length

def atEnd : Parser Bool := return (← get).atEnd

/-- Fails at the current token. -/
def unexpected {α : Type} (expected : String) : Parser α := do
  let t ← peek
  if t.isEof then throw (.unexpectedEof expected t.location)
  else throw (.unexpectedToken expected t.lexeme t.location)

/-- Consumes a token of the given kind. -/
def expect (kind : TokenKind) (context : String) : Parser Token := do
  if (← peek).kind = kind then advance
  else unexpected ("'" ++ kind.text ++ "' in " ++ context)

/-- Consumes a token of the given kind if it is the current one. -/
def accept (kind : TokenKind) : Parser Bool := do
  if (← peek).kind = kind then
    let _ ← advance
    return true
  else return false

/-- Items with commas between them; `n` bounds the commas. -/
def commaSeparatedFrom {α : Type} (item : Parser α) : (n : Nat) → Parser (List α)
  | 0 => return [← item]
  | n + 1 => do
    let a ← item
    if ← accept (.symbol .comma) then return a :: (← commaSeparatedFrom item n)
    else return [a]

/-- One or more items with commas between them. -/
def commaSeparated {α : Type} (item : Parser α) : Parser (List α) := do
  commaSeparatedFrom item (← remaining)

/-- A type name. -/
def typeName (context : String) : Parser Ty := do
  match (← peek).kind.toTy? with
  | some ty =>
    let _ ← advance
    return ty
  | none => unexpected ("type name in " ++ context)

/-- The name of a variable of type `ty`, which is not `void`. -/
def variableName (ty : Ty) (context : String) : Parser String := do
  let t ← expect .identifier context
  if ty.isVoid then throw (.voidVariable t.lexeme t.location)
  else return t.lexeme

end Parser

end MiniC
