import MiniC.Json.Document

/-!
# Decoding structured data

The rules by which documents are read as data: a record is an object, whose unknown members are
skipped, or an array of all its fields in order; a value of a union is its tag, or an object with
the tag as its one member.
-/

namespace MiniC

/-- What a place in a document allows: how many more arrays and objects may be opened inside each
other, and whether the body behind a tag may list its fields in an array. -/
structure Allowance where
  depth : Nat
  listedBodies : Bool

/-- What is allowed inside an array or object, if one may be opened. -/
def Allowance.inner? (a : Allowance) : Option Allowance :=
  match a.depth with
  | 0 => none
  | depth + 1 => some { a with depth }

/-- Reads a value out of a document. -/
abbrev Decoder (α : Type) := Allowance → Json → Option α

/-- A member of a record: its name, and how to read it when present or missing. -/
structure Member (α : Type) where
  name : String
  read : Allowance → Option Json → Option α

namespace Decoder

variable {α β γ δ ε : Type}

def bool : Decoder Bool
  | _, .bool b => some b
  | _, _ => none

def string : Decoder String
  | _, .str s => some s
  | _, _ => none

/-- A string of one character. -/
def char : Decoder Char
  | _, .str s =>
    match s.toList with
    | [c] => some c
    | _ => none
  | _, _ => none

/-- An integer from `low` up to, but not including, `high`. -/
def intIn (low high : Int) : Decoder Int
  | _, .num (.int i) => if low ≤ i ∧ i < high then some i else none
  | _, _ => none

/-- A natural number below `limit`. -/
def natBelow (limit : Nat) : Decoder Nat := fun here j => (intIn 0 limit here j).map Int.toNat

/-- A double that is not infinite; integers count as doubles. -/
def real : Decoder Binary64
  | _, .num (.int i) => some (.ofInt i)
  | _, .num (.real x) => if x.isFinite then some x else none
  | _, _ => none

/-- `null` stands for a missing value. -/
def option (d : Decoder α) : Decoder (Option α)
  | _, .null => some none
  | here, j => (d here j).map some

def list (d : Decoder α) : Decoder (List α)
  | here, .arr items => here.inner?.bind fun inner => items.mapM (d inner)
  | _, _ => none

def pair (a : Decoder α) (b : Decoder β) : Decoder (α × β)
  | here, .arr [x, y] => do
    let inner ← here.inner?
    return (← a inner x, ← b inner y)
  | _, _ => none

/-- Another value for each value read. -/
def map (f : α → β) (d : Decoder α) : Decoder β := fun here j => (d here j).map f

/-- The fields of a record in order, missing ones included. A name may come only once. -/
def fields? (names : List String) : Json → Option (List (Option Json))
  | .arr items => if items.length = names.length then some (items.map some) else none
  | .obj members =>
    if names.all fun name => (members.filter fun m => m.1 == name).length ≤ 1 then
      some (names.map fun name => members.lookup name)
    else none
  | _ => none

def record1 (a : Member α) (build : α → ε) : Decoder ε := fun here j => do
  let inner ← here.inner?
  match ← fields? [a.name] j with
  | [x] => return build (← a.read inner x)
  | _ => none

def record2 (a : Member α) (b : Member β) (build : α → β → ε) : Decoder ε := fun here j => do
  let inner ← here.inner?
  match ← fields? [a.name, b.name] j with
  | [x, y] => return build (← a.read inner x) (← b.read inner y)
  | _ => none

def record3 (a : Member α) (b : Member β) (c : Member γ) (build : α → β → γ → ε) : Decoder ε :=
  fun here j => do
    let inner ← here.inner?
    match ← fields? [a.name, b.name, c.name] j with
    | [x, y, z] => return build (← a.read inner x) (← b.read inner y) (← c.read inner z)
    | _ => none

def record4 (a : Member α) (b : Member β) (c : Member γ) (d : Member δ)
    (build : α → β → γ → δ → ε) : Decoder ε := fun here j => do
  let inner ← here.inner?
  match ← fields? [a.name, b.name, c.name, d.name] j with
  | [x, y, z, w] =>
    return build (← a.read inner x) (← b.read inner y) (← c.read inner z) (← d.read inner w)
  | _ => none

/-- A record that is the body behind a tag. -/
def body (d : Decoder α) : Decoder α
  | here, .arr items => if here.listedBodies then d here (.arr items) else none
  | here, j => d here j

/-- A value of a union: one of `units`, which have no body, or one of `cases`. A unit may also be
written as an object, with the body `null`. -/
def union (units : List (String × α)) (cases : List (String × Decoder α)) : Decoder α
  | _, .str tag => units.lookup tag
  | here, .obj [(tag, content)] => do
    let inner ← here.inner?
    match units.lookup tag, content with
    | some a, .null => return a
    | some _, _ => none
    | none, content => (← cases.lookup tag) inner content
  | _, _ => none

/-- A value of an enumeration, by its tag. -/
def enumeration (all : List α) (tag : α → String) : Decoder α :=
  union (all.map fun a => (tag a, a)) []

/-- Reads a document held in memory. It is not limited in depth any more. -/
def ofDocument? (d : Decoder α) (j : Json) : Option α := d ⟨j.depth, false⟩ j

/-- Reads the document that a text holds. -/
def ofText? (d : Decoder α) (text : String) : Option α :=
  (Json.parse? text).bind (d ⟨Json.maxDepth, true⟩)

end Decoder

namespace Member

variable {α : Type}

def required (name : String) (d : Decoder α) : Member α := ⟨name, fun here j => j.bind (d here)⟩

/-- A member that may be missing or `null`. -/
def optional (name : String) (d : Decoder α) : Member (Option α) where
  name
  read
    | _, none => some none
    | here, some j => d.option here j

end Member

end MiniC
