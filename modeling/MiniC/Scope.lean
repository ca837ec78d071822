import MiniC.Error
import MiniC.Value

/-!
# Scopes

The nested scopes of a function and the counter that numbers its values. Scopes are numbered in
order of creation, so a parent has a smaller number than its children.
-/

namespace MiniC

abbrev ScopeId := Nat

/-- The variables declared in one scope, with their slots. -/
structure Scope where
  parent : Option ScopeId
  bindings : List (String × Value)
  deriving DecidableEq

def Scope.bind (s : Scope) (name : String) (slot : Value) : Scope :=
  { s with bindings := (name, slot) :: s.bindings }

structure Scopes where
  scopes : List Scope := [⟨none, []⟩]
  nextNumber : Nat := 0
  deriving DecidableEq

namespace Scopes

/-- The outermost scope. -/
def root : ScopeId := 0

def openChild (s : Scopes) (parent : ScopeId) : ScopeId × Scopes :=
  (s.scopes.length, { s with scopes := s.scopes ++ [⟨some parent, []⟩] })

def parent? (s : Scopes) (id : ScopeId) : Option ScopeId := s.scopes[id]?.bind Scope.parent

/-- The slot that a name is bound to in the scope itself. -/
def binding? (s : Scopes) (id : ScopeId) (name : String) : Option Value :=
  s.scopes[id]?.bind fun scope => scope.bindings.lookup name

/-- Binds a name that the scope itself does not bind yet. -/
def declare (s : Scopes) (id : ScopeId) (name : String) (slot : Value) :
    Except ScopeError Scopes :=
  if (s.binding? id name).isSome then .error (.redeclared name)
  else .ok { s with scopes := s.scopes.modify id (Scope.bind · name slot) }

/-- The scope and its ancestors, innermost first; `n` bounds their number. -/
def chainFrom (s : Scopes) : (n : Nat) → ScopeId → List ScopeId
  | 0, _ => []
  | n + 1, id =>
    match s.parent? id with
    | some parent => id :: s.chainFrom n parent
    | none => [id]

/-- The scope and its ancestors, innermost first. -/
def chain (s : Scopes) (id : ScopeId) : List ScopeId := s.chainFrom (id + 1) id

/-- The slot of a name in the innermost scope that binds it. -/
def lookup (s : Scopes) (id : ScopeId) (name : String) : Except ScopeError Value :=
  match (s.chain id).findSome? fun id => s.binding? id name with
  | some slot => .ok slot
  | none => .error (.undeclaredVariable name)

/-- The next number that was not drawn yet. -/
def freshNumber (s : Scopes) : Nat × Scopes :=
  (s.nextNumber, { s with nextNumber := s.nextNumber + 1 })

end Scopes

end MiniC
