import MiniC.Error

/-!
# Labels

A label is allocated first and gets its name, a number of the function's code, when it is placed.
-/

namespace MiniC

/-- A label of a function, before or after it got its name. -/
inductive Label where
  | pending (id : Nat)
  | fixed (id : Nat) (name : Nat)
  deriving DecidableEq

namespace Label

def id : Label → Nat
  | .pending id | .fixed id _ => id

def name : Label → Except LoweringError Nat
  | .fixed _ name => .ok name
  | .pending id => .error (.unfixedLabel id)

def isFixed : Label → Bool
  | .fixed .. => true
  | .pending _ => false

def text : Label → String
  | .fixed _ name => toString name
  | .pending id => "<pending " ++ toString id ++ ">"

end Label

/-- The labels allocated so far, by number, with the names of those that have one. -/
structure LabelTable where
  names : List (Option Nat) := []
  deriving DecidableEq

namespace LabelTable

def size (t : LabelTable) : Nat := t.names.length

def isEmpty (t : LabelTable) : Bool := t.names.isEmpty

def allocate (t : LabelTable) : Label × LabelTable := (.pending t.size, ⟨t.names ++ [none]⟩)

/-- Gives a label its name, once. -/
def fix (t : LabelTable) (l : Label) (name : Nat) : Except LoweringError (Label × LabelTable) :=
  match t.names[l.id]? with
  | none => .error (.unknownLabel l.id)
  | some state =>
    if state.isSome || l.isFixed then .error (.labelRefixed l.id)
    else .ok (.fixed l.id name, ⟨t.names.set l.id (some name)⟩)

/-- The label with the name that the table has for it. -/
def resolve (t : LabelTable) (l : Label) : Except LoweringError Label :=
  match t.names[l.id]? with
  | none => .error (.unknownLabel l.id)
  | some none => .error (.unfixedLabel l.id)
  | some (some name) => .ok (.fixed l.id name)

/-- Fails with the first label that has no name. -/
def checkAllFixed (t : LabelTable) : Except LoweringError Unit :=
  match t.names.findIdx? Option.isNone with
  | some id => .error (.unfixedLabel id)
  | none => .ok ()

/-- Resolves labels up to the first that fails; it and those behind it stay as they are. -/
def resolveList (t : LabelTable) : List Label → List Label × Option LoweringError
  | [] => ([], none)
  | l :: rest =>
    match t.resolve l with
    | .error e => (l :: rest, some e)
    | .ok l' =>
      let (rest', e) := t.resolveList rest
      (l' :: rest', e)

end LabelTable

end MiniC
