import MiniC.Error

/-!
# Function signatures and the table of functions
-/

namespace MiniC

structure Signature where
  returnTy : Ty
  params : List Ty
  deriving DecidableEq

def Signature.text (s : Signature) : String :=
  "(" ++ String.intercalate ", " (s.params.map Ty.text) ++ ")->" ++ s.returnTy.text

/-- The functions known so far, each under one name. -/
structure FunctionTable where
  entries : List (String × Signature) := []
  deriving DecidableEq

namespace FunctionTable

/-- The signature of a function. -/
def find? (t : FunctionTable) (name : String) : Option Signature := t.entries.lookup name

/-- Adds a function. A name that is known already stays as it is. -/
def register (t : FunctionTable) (name : String) (s : Signature) :
    Except ScopeError FunctionTable :=
  if (t.find? name).isSome then .error (.functionRedefined name)
  else .ok ⟨(name, s) :: t.entries⟩

def lookup (t : FunctionTable) (name : String) : Except ScopeError Signature :=
  match t.find? name with
  | some s => .ok s
  | none => .error (.undeclaredFunction name)

def size (t : FunctionTable) : Nat := t.entries.length

def isEmpty (t : FunctionTable) : Bool := t.entries.isEmpty

end FunctionTable

end MiniC
