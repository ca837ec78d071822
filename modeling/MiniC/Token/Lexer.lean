import MiniC.Token

/-!
# Splitting text into tokens

`Cursor.scan` reads one token, `Lexer` is a window of two tokens that moves over the text, and
`Lexer.toList` is the list of tokens that it will show.
-/

namespace MiniC

/-- Text not read yet, and the place where it starts. -/
structure Cursor where
  rest : List Char
  location : Location
  deriving DecidableEq

namespace Cursor

def ofText (source : String) : Cursor := ⟨source.toList, .start⟩

def isBlank (c : Char) : Bool := c == ' ' || c == '\t' || c == '\r' || c == '\n'

def isWordChar (c : Char) : Bool := c.isAlpha || c == '_'

/-- Splits off blanks and comments. A comment runs from `//` up to the end of the line. -/
def splitTrivia : (inComment : Bool) → List Char → List Char × List Char
  | _, [] => ([], [])
  | inComment, c :: rest =>
    if inComment && c != '\n' || c == '/' && rest.head? == some '/' then
      let (skipped, left) := splitTrivia true rest
      (c :: skipped, left)
    else if isBlank c then
      let (skipped, left) := splitTrivia false rest
      (c :: skipped, left)
    else ([], c :: rest)

/-- Splits off a numeral: digits, then perhaps a point and more digits. -/
def splitNumeral (cs : List Char) : TokenKind × List Char × List Char :=
  let whole := cs.takeWhile Char.isDigit
  match cs.dropWhile Char.isDigit with
  | '.' :: rest =>
    (.floatLiteral, whole ++ '.' :: rest.takeWhile Char.isDigit, rest.dropWhile Char.isDigit)
  | rest => (.intLiteral, whole, rest)

/-- Splits off a symbol, of two characters if possible. -/
def splitSymbol (c : Char) (rest : List Char) : TokenKind × List Char × List Char :=
  let single : TokenKind × List Char × List Char :=
    match Symbol.ofChars? [c] with
    | some s => (.symbol s, [c], rest)
    | none => (.unknown c, [c], rest)
  match rest with
  | d :: rest' =>
    match Symbol.ofChars? [c, d] with
    | some s => (.symbol s, [c, d], rest')
    | none => single
  | [] => single

/-- Splits off the lexeme at the start of the text. -/
def splitLexeme : List Char → TokenKind × List Char × List Char
  | [] => (.endOfFile, [], [])
  | c :: rest =>
    if isWordChar c then
      let word := (c :: rest).takeWhile isWordChar
      (.ofWord (String.ofList word), word, (c :: rest).dropWhile isWordChar)
    else if c.isDigit then splitNumeral (c :: rest)
    else splitSymbol c rest

/-- Reads the next token. At the end of the text this is the end-of-file token, every time. -/
def scan (c : Cursor) : Token × Cursor :=
  let (skipped, rest) := splitTrivia false c.rest
  let start := c.location.afterAll skipped
  let (kind, lexeme, rest) := splitLexeme rest
  (⟨kind, String.ofList lexeme, start⟩, ⟨rest, start.afterAll lexeme⟩)

end Cursor

/-- A window of two tokens on the source, and the text behind it. -/
structure Lexer where
  current : Token
  next : Token
  unread : Cursor
  deriving DecidableEq

namespace Lexer

def ofText (source : String) : Lexer :=
  let (current, unread) := (Cursor.ofText source).scan
  let (next, unread) := unread.scan
  ⟨current, next, unread⟩

/-- Moves the window by one token and gives the one that left it. -/
def bump (l : Lexer) : Token × Lexer :=
  let (scanned, unread) := l.unread.scan
  (l.current, ⟨l.next, scanned, unread⟩)

def isEof (l : Lexer) : Bool := l.current.isEof

/-- A bound on the tokens before the end of the file. Moving the window lowers it. -/
def remaining (l : Lexer) : Nat :=
  l.unread.rest.length + (if l.next.isEof then 0 else 1) + (if l.current.isEof then 0 else 1)

/-- The next `n` tokens, and the end-of-file token. -/
def drain : Nat → Lexer → List Token
  | 0, l => [l.current]
  | n + 1, l => if l.isEof then [l.current] else l.current :: drain n l.bump.2

/-- All tokens from the current one to the end-of-file token, which comes once. -/
def toList (l : Lexer) : List Token := l.drain l.remaining

end Lexer

/-- The tokens of a source text. -/
def tokenize (source : String) : List Token := (Lexer.ofText source).toList

end MiniC
