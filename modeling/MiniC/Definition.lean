import MiniC.Signature
import MiniC.Stmt

/-!
# Function definitions
-/

namespace MiniC

structure Param where
  name : String
  ty : Ty
  deriving DecidableEq

structure Definition where
  name : String
  returnTy : Ty
  params : List Param
  body : List Stmt

namespace Definition

def paramTys (d : Definition) : List Ty := d.params.map Param.ty

def signature (d : Definition) : Signature := ⟨d.returnTy, d.paramTys⟩

end Definition

end MiniC
