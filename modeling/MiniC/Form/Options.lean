import MiniC.Form.Decoder
import MiniC.Options

/-!
# Options as text
-/

namespace MiniC.Options

/-- The alignment field: missing, `null`, or a number. -/
def alignment : Member (Option Nat) where
  name := "stack_alignment"
  read
    | _, none => some ({} : Options).stackAlignment
    | here, some j => (Decoder.natBelow alignLimit).option here j

def elision : Member Bool where
  name := "elide_unreachable_jumps"
  read
    | _, none => some ({} : Options).elideUnreachableJumps
    | here, some j => Decoder.bool here j

/-- A short array of fields as an object with the names of those that are there. -/
def padded : Json → Json
  | .arr [] => .obj []
  | .arr [x] => .obj [(alignment.name, x)]
  | j => j

/-- Options from an object, or from an array of at most the two fields in order. Missing fields
have their defaults. -/
def decode : Decoder Options := fun here j =>
  Decoder.record2 alignment elision .mk here (padded j)

def ofText? (text : String) : Option Options := Decoder.ofText? decode text

def toJson (o : Options) : Json :=
  .obj [(alignment.name, Json.option Json.nat o.stackAlignment),
    (elision.name, .bool o.elideUnreachableJumps)]

end MiniC.Options
