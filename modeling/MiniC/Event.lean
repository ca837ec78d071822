import MiniC.Signature
import MiniC.Text.Printable
import MiniC.Token

/-!
# Log events

What the compiler reports while it works, apart from errors.
-/

namespace MiniC

inductive Level where
  | trace
  | debug
  | warn
  deriving DecidableEq

def Level.text : Level → String
  | .trace => "TRACE"
  | .debug => "DEBUG"
  | .warn => "WARN"

inductive Event where
  /-- A token was read from the source. -/
  | token (t : Token)
  | parsed (function : String) (params : Nat)
  | lowering (function : String) (signature : Signature)
  | labelFixed (id name : Nat)
  | jumpDropped (target : Nat)
  | unreachable
  | fallsOffEnd (function : String)
  | lowered (function : String) (instructions labels : Nat)
  deriving DecidableEq

/-- The name of a kind of token in structured output, and the quoted character of an unknown one. -/
def TokenKind.tag : TokenKind → String
  | .intLiteral => "IntLiteral"
  | .floatLiteral => "FloatLiteral"
  | .identifier => "Identifier"
  | .keyword k => k.tag
  | .symbol s => s.tag
  | .endOfFile => "EndOfFile"
  | .unknown c => "Unknown(" ++ Text.quotedChar c ++ ")"

namespace Event

def level : Event → Level
  | .token _ | .labelFixed .. | .jumpDropped _ => .trace
  | .parsed .. | .lowering .. | .lowered .. => .debug
  | .unreachable | .fallsOffEnd _ => .warn

def text : Event → String
  | .token t => "token " ++ t.kind.tag ++ " '" ++ t.lexeme ++ "' at " ++ t.location.text
  | .parsed function params =>
    "parsed definition '" ++ function ++ "' with " ++ toString params ++ " parameter(s)"
  | .lowering function signature => "lowering '" ++ function ++ "' " ++ signature.text
  | .labelFixed id name => "fixed label " ++ toString id ++ " as %" ++ toString name
  | .jumpDropped target => "dropping unreachable jump to label " ++ toString target
  | .unreachable => "unreachable code after a terminator"
  | .fallsOffEnd function => "control reaches the end of non-void function '" ++ function ++ "'"
  | .lowered function instructions labels =>
    "lowered '" ++ function ++ "': " ++ toString instructions ++ " instruction(s), " ++
      toString labels ++ " label(s)"

end Event

end MiniC
