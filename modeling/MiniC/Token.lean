import MiniC.Ty
import MiniC.Location

/-!
# Tokens

Keywords, symbols and the kinds of the rest, with their spellings.
-/

namespace MiniC

/-- A reserved word. -/
inductive Keyword where
  | void
  | char
  | int
  | float
  | double
  | long
  | short
  | enum
  | struct
  | ifKw
  | elseKw
  | whileKw
  | doKw
  | forKw
  | gotoKw
  | returnKw
  | switchKw
  | caseKw
  | breakKw
  | continueKw
  deriving DecidableEq

namespace Keyword

def all : List Keyword :=
  [.void, .char, .int, .float, .double, .long, .short,
    .enum, .struct, .ifKw, .elseKw, .whileKw, .doKw, .forKw,
    .gotoKw, .returnKw, .switchKw, .caseKw, .breakKw, .continueKw]

def spelling : Keyword → String
  | .void => "void"
  | .char => "char"
  | .int => "int"
  | .float => "float"
  | .double => "double"
  | .long => "long"
  | .short => "short"
  | .enum => "enum"
  | .struct => "struct"
  | .ifKw => "if"
  | .elseKw => "else"
  | .whileKw => "while"
  | .doKw => "do"
  | .forKw => "for"
  | .gotoKw => "goto"
  | .returnKw => "return"
  | .switchKw => "switch"
  | .caseKw => "case"
  | .breakKw => "break"
  | .continueKw => "continue"

/-- The name of the keyword in structured output: its spelling with a capital. -/
def tag (k : Keyword) : String := k.spelling.capitalize

/-- The keyword that a word spells. -/
def ofWord? (word : String) : Option Keyword := all.find? fun k => k.spelling == word

/-- The type that a keyword names. -/
def toTy? : Keyword → Option Ty
  | .void => some .void
  | .char => some .i8
  | .short => some .i16
  | .int => some .i32
  | .long => some .i64
  | .float => some .float
  | .double => some .double
  | _ => none

end Keyword

/-- A punctuation mark or operator. -/
inductive Symbol where
  | leftParen
  | rightParen
  | leftBrace
  | rightBrace
  | semicolon
  | comma
  | question
  | colon
  | equal
  | plus
  | minus
  | star
  | slash
  | percent
  | less
  | greater
  | bang
  | plusPlus
  | minusMinus
  | equalEqual
  | bangEqual
  | lessEqual
  | greaterEqual
  | plusEqual
  | minusEqual
  | starEqual
  | slashEqual
  | ampAmp
  | pipePipe
  deriving DecidableEq

namespace Symbol

def all : List Symbol :=
  [.leftParen, .rightParen, .leftBrace, .rightBrace, .semicolon, .comma,
    .question, .colon, .equal, .plus, .minus, .star,
    .slash, .percent, .less, .greater, .bang, .plusPlus,
    .minusMinus, .equalEqual, .bangEqual, .lessEqual, .greaterEqual, .plusEqual,
    .minusEqual, .starEqual, .slashEqual, .ampAmp, .pipePipe]

def spelling : Symbol → String
  | .leftParen => "("
  | .rightParen => ")"
  | .leftBrace => "\x7b"
  | .rightBrace => "\x7d"
  | .semicolon => ";"
  | .comma => ","
  | .question => "?"
  | .colon => ":"
  | .equal => "="
  | .plus => "+"
  | .minus => "-"
  | .star => "*"
  | .slash => "/"
  | .percent => "%"
  | .less => "<"
  | .greater => ">"
  | .bang => "!"
  | .plusPlus => "++"
  | .minusMinus => "--"
  | .equalEqual => "=="
  | .bangEqual => "!="
  | .lessEqual => "<="
  | .greaterEqual => ">="
  | .plusEqual => "+="
  | .minusEqual => "-="
  | .starEqual => "*="
  | .slashEqual => "/="
  | .ampAmp => "&&"
  | .pipePipe => "||"

/-- The name of the symbol in structured output. -/
def tag : Symbol → String
  | .leftParen => "LeftParen"
  | .rightParen => "RightParen"
  | .leftBrace => "LeftBrace"
  | .rightBrace => "RightBrace"
  | .semicolon => "Semicolon"
  | .comma => "Comma"
  | .question => "Question"
  | .colon => "Colon"
  | .equal => "Equal"
  | .plus => "Plus"
  | .minus => "Minus"
  | .star => "Star"
  | .slash => "Slash"
  | .percent => "Percent"
  | .less => "Less"
  | .greater => "Greater"
  | .bang => "Bang"
  | .plusPlus => "PlusPlus"
  | .minusMinus => "MinusMinus"
  | .equalEqual => "EqualEqual"
  | .bangEqual => "BangEqual"
  | .lessEqual => "LessEqual"
  | .greaterEqual => "GreaterEqual"
  | .plusEqual => "PlusEqual"
  | .minusEqual => "MinusEqual"
  | .starEqual => "StarEqual"
  | .slashEqual => "SlashEqual"
  | .ampAmp => "AmpAmp"
  | .pipePipe => "PipePipe"

/-- The symbol with the given characters. -/
def ofChars? (cs : List Char) : Option Symbol := all.find? fun s => s.spelling.toList == cs

def isAssignment : Symbol → Bool
  | .equal | .plusEqual | .minusEqual | .starEqual | .slashEqual => true
  | _ => false

def isBinary : Symbol → Bool
  | .star | .slash | .percent | .plus | .minus | .less | .lessEqual | .greater | .greaterEqual
  | .equalEqual | .bangEqual | .ampAmp | .pipePipe => true
  | _ => false

end Symbol

/-- What a token is. Characters that begin nothing else are `unknown`. -/
inductive TokenKind where
  | intLiteral
  | floatLiteral
  | identifier
  | keyword (k : Keyword)
  | symbol (s : Symbol)
  | endOfFile
  | unknown (c : Char)
  deriving DecidableEq

namespace TokenKind

/-- A word is a keyword or an identifier. -/
def ofWord (word : String) : TokenKind :=
  match Keyword.ofWord? word with
  | some k => .keyword k
  | none => .identifier

def toTy? : TokenKind → Option Ty
  | .keyword k => k.toTy?
  | _ => none

def isAssignment : TokenKind → Bool
  | .symbol s => s.isAssignment
  | _ => false

def isBinary : TokenKind → Bool
  | .symbol s => s.isBinary
  | _ => false

/-- How messages name the kind. -/
def text : TokenKind → String
  | .intLiteral => "integer literal"
  | .floatLiteral => "float literal"
  | .identifier => "identifier"
  | .keyword k => k.spelling
  | .symbol s => s.spelling
  | .endOfFile => "end of file"
  | .unknown c => c.toString

end TokenKind

/-- A token of the source with its text and the place of its first character. -/
structure Token where
  kind : TokenKind
  lexeme : String
  location : Location
  deriving DecidableEq

namespace Token

def isEof (t : Token) : Bool := t.kind == .endOfFile

/-- How messages show the token. -/
def text (t : Token) : String := if t.isEof then "end of file" else t.lexeme

end Token

end MiniC
