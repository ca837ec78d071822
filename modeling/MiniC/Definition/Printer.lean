import MiniC.Definition
import MiniC.Stmt.Printer

/-!
# Text of definitions
-/

namespace MiniC

def Param.text (p : Param) : String := p.ty.sourceName ++ " " ++ p.name

def Definition.text (d : Definition) : String :=
  d.returnTy.sourceName ++ " " ++ d.name ++ "(" ++
    String.intercalate ", " (d.params.map Param.text) ++ ") " ++ (Stmt.compound d.body).text

end MiniC
