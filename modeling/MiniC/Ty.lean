/-!
# Types

The value types of the language, with their sizes, ranges and spellings.
-/

namespace MiniC

/-- A type of the language. `void` is the type of calls without a result. -/
inductive Ty where
  | void
  | bool
  | i8
  | i16
  | i32
  | i64
  | float
  | double
  deriving DecidableEq

namespace Ty

/-- All types, in order of rank. -/
def all : List Ty := [.void, .bool, .i8, .i16, .i32, .i64, .float, .double]

/-- Bytes that a value of the type occupies in memory. -/
def size? : Ty → Option Nat
  | .void => none
  | .bool | .i8 => some 1
  | .i16 => some 2
  | .i32 | .float => some 4
  | .i64 | .double => some 8

/-- The alignment used when the options set none: the size, or one byte. -/
def naturalAlignment (t : Ty) : Nat := t.size?.getD 1

def isInteger : Ty → Bool
  | .bool | .i8 | .i16 | .i32 | .i64 => true
  | _ => false

def isFloating : Ty → Bool
  | .float | .double => true
  | _ => false

def isVoid : Ty → Bool
  | .void => true
  | _ => false

/-- Width in bits of an integer type. -/
def bitWidth? : Ty → Option Nat
  | .bool => some 1
  | .i8 => some 8
  | .i16 => some 16
  | .i32 => some 32
  | .i64 => some 64
  | _ => none

/-- Whether the literal `v` is a value of the type. A boolean is 0 or 1, the other integer types
are signed, and `i64` holds every literal. -/
def fits : Ty → Int → Bool
  | .bool, v => v == 0 || v == 1
  | .i8, v => -128 ≤ v && v ≤ 127
  | .i16, v => -32768 ≤ v && v ≤ 32767
  | .i32, v => -2147483648 ≤ v && v ≤ 2147483647
  | .i64, _ => true
  | _, _ => false

/-- The name of the type in source text. -/
def sourceName : Ty → String
  | .void => "void"
  | .bool => "bool"
  | .i8 => "char"
  | .i16 => "short"
  | .i32 => "int"
  | .i64 => "long"
  | .float => "float"
  | .double => "double"

/-- The name of the type in emitted code. -/
def text : Ty → String
  | .void => "void"
  | .bool => "i1"
  | .i8 => "i8"
  | .i16 => "i16"
  | .i32 => "i32"
  | .i64 => "i64"
  | .float => "float"
  | .double => "double"

end Ty

end MiniC
