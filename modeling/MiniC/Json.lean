import MiniC.Decimal.Binary64

/-!
# JSON documents

Documents as trees.
-/

namespace MiniC

/-- A JSON number. Integers that fit in 64 bits stay exact, all others are doubles. -/
inductive Json.Number where
  | int (value : Int)
  | real (value : Binary64)
  deriving DecidableEq

/-- A JSON document. Objects keep their members in order, repetitions included. `broken` stands for
a part whose text is well formed but holds a string with an unpaired surrogate: it may be skipped
but has no value. -/
inductive Json where
  | null
  | bool (value : Bool)
  | num (value : Json.Number)
  | str (value : String)
  | arr (items : List Json)
  | obj (members : List (String × Json))
  | broken

namespace Json

def int (i : Int) : Json := .num (.int i)

def nat (n : Nat) : Json := .num (.int n)

/-- `null` for a missing value. -/
def option {α : Type} (encode : α → Json) : Option α → Json
  | none => .null
  | some a => encode a

/-- An object with one member, the form of a tagged value. -/
def tagged (tag : String) (body : Json) : Json := .obj [(tag, body)]

mutual

/-- The greatest number of arrays and objects that stand inside each other. -/
def depth : Json → Nat
  | .arr items => depthOfItems items + 1
  | .obj members => depthOfMembers members + 1
  | _ => 0

def depthOfItems : List Json → Nat
  | [] => 0
  | item :: rest => max item.depth (depthOfItems rest)

def depthOfMembers : List (String × Json) → Nat
  | [] => 0
  | (_, value) :: rest => max value.depth (depthOfMembers rest)

end

/-- The value of the last member with the given name. -/
def member? (name : String) : Json → Option Json
  | .obj members => (members.reverse.lookup name)
  | _ => none

end Json

end MiniC
