/-!
# Source locations

Places in source text, and how reading moves them.
-/

namespace MiniC

/-- A place in source text. Lines and columns count from one, columns in characters. -/
structure Location where
  line : Nat
  column : Nat
  deriving DecidableEq

namespace Location

def start : Location := ⟨1, 1⟩

/-- The place after reading `c`. -/
def after (l : Location) (c : Char) : Location :=
  if c = '\n' then ⟨l.line + 1, 1⟩ else ⟨l.line, l.column + 1⟩

/-- The place after reading all of `cs`. -/
def afterAll (l : Location) (cs : List Char) : Location := cs.foldl after l

def text (l : Location) : String := toString l.line ++ ":" ++ toString l.column

end Location

end MiniC
