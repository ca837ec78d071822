import MiniC.Json.Reader

/-!
# Documents held in memory

A text that is read as a whole, rather than for one type of data, must have a value in every part
and is limited in depth. Of members with one name the last one counts.
-/

namespace MiniC.Json

/-- How deep a text may be nested where it is read. -/
def maxDepth : Nat := 127

/-- Adds a member in front of others, unless one of them has its name. -/
def addMember (name : String) (value : Json) (members : List (String × Json)) :
    List (String × Json) :=
  if members.any fun m => m.1 == name then members else (name, value) :: members

mutual

/-- The document with distinct names in every object, if all its parts have a value. -/
def held? : Json → Option Json
  | .broken => none
  | .num (.real x) => if x.isFinite then some (.num (.real x)) else none
  | .arr items => (heldItems items).map .arr
  | .obj members => (heldMembers members).map .obj
  | j => some j

def heldItems : List Json → Option (List Json)
  | [] => some []
  | item :: rest => do return (← item.held?) :: (← heldItems rest)

def heldMembers : List (String × Json) → Option (List (String × Json))
  | [] => some []
  | (name, value) :: rest => do return addMember name (← value.held?) (← heldMembers rest)

end

/-- Reads a text as a whole. -/
def ofText? (text : String) : Option Json := do
  let j ← parse? text
  if j.depth ≤ maxDepth then j.held? else none

end MiniC.Json
