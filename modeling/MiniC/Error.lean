import MiniC.Ty
import MiniC.Location

/-!
# Errors

Everything that can go wrong, as causes, and the one wording of each.
-/

namespace MiniC

/-- Why source text is not a program. -/
inductive ParseError where
  | unexpectedToken (expected found : String) (location : Location)
  | unexpectedEof (expected : String) (location : Location)
  | invalidLiteral (lexeme : String) (location : Location)
  | invalidAssignmentTarget (found : String) (location : Location)
  | voidVariable (name : String) (location : Location)
  deriving DecidableEq

/-- Why a name cannot be bound or found. -/
inductive ScopeError where
  | redeclared (name : String)
  | undeclaredVariable (name : String)
  | undeclaredFunction (name : String)
  | functionRedefined (name : String)
  deriving DecidableEq

/-- Why a tree has no code, or an instruction is ill formed. -/
inductive LoweringError where
  | breakOutsideLoop
  | continueOutsideLoop
  | incompletePhi (incoming : Nat)
  | unfixedLabel (label : Nat)
  | labelRefixed (label : Nat)
  | unknownLabel (label : Nat)
  | typeMismatch (expected found : Ty) (context : String)
  | arityMismatch (function : String) (expected found : Nat)
  | voidValue (context : String)
  | literalOutOfRange (value : Int) (ty : Ty)
  | unsupportedType (ty : Ty) (context : String)
  deriving DecidableEq

/-- An error of any phase. -/
inductive CompileError where
  | parse (cause : ParseError)
  | scope (cause : ScopeError)
  | lowering (cause : LoweringError)
  deriving DecidableEq

def ParseError.message : ParseError → String
  | .unexpectedToken expected found l =>
    "expected " ++ expected ++ " at " ++ l.text ++ ", found '" ++ found ++ "'"
  | .unexpectedEof expected l =>
    "expected " ++ expected ++ " at " ++ l.text ++ ", reached end of file"
  | .invalidLiteral lexeme l => "invalid literal '" ++ lexeme ++ "' at " ++ l.text
  | .invalidAssignmentTarget found l =>
    "only a variable can be assigned to, found '" ++ found ++ "' at " ++ l.text
  | .voidVariable name l => "variable '" ++ name ++ "' declared void at " ++ l.text

def ScopeError.message : ScopeError → String
  | .redeclared name => "variable '" ++ name ++ "' redeclared in the same scope"
  | .undeclaredVariable name => "reference to undeclared variable '" ++ name ++ "'"
  | .undeclaredFunction name => "call to undeclared function '" ++ name ++ "'"
  | .functionRedefined name => "function '" ++ name ++ "' defined more than once"

def LoweringError.message : LoweringError → String
  | .breakOutsideLoop => "break outside a loop"
  | .continueOutsideLoop => "continue outside a loop"
  | .incompletePhi incoming => "phi needs at least two incoming branches, got " ++ toString incoming
  | .unfixedLabel label => "label " ++ toString label ++ " read before it was fixed"
  | .labelRefixed label => "label " ++ toString label ++ " fixed more than once"
  | .unknownLabel label => "label " ++ toString label ++ " does not belong to this function"
  | .typeMismatch expected found context =>
    "type mismatch in " ++ context ++ ": expected " ++ expected.text ++ ", found " ++ found.text
  | .arityMismatch function expected found =>
    "function '" ++ function ++ "' takes " ++ toString expected ++ " argument(s), " ++
      toString found ++ " given"
  | .voidValue context => "void value used in " ++ context
  | .literalOutOfRange value ty => "literal " ++ toString value ++ " does not fit in " ++ ty.text
  | .unsupportedType ty context => "type " ++ ty.text ++ " is not supported in " ++ context

/-- The phase's message behind the name of the phase. -/
def CompileError.message : CompileError → String
  | .parse cause => "Parse error: " ++ cause.message
  | .scope cause => "Scope error: " ++ cause.message
  | .lowering cause => "Lowering error: " ++ cause.message

end MiniC
