import MiniC.Decimal.Numeral
import MiniC.Json

/-!
# Reading JSON

Text is read strictly: no comments, no trailing commas, no leading zeros, and blanks are space, tab,
carriage return and line feed only.
-/

namespace MiniC.Json

def isBlank (c : Char) : Bool := c == ' ' || c == '\t' || c == '\r' || c == '\n'

def skipBlanks (cs : List Char) : List Char := cs.dropWhile isBlank

/-- The value of a hexadecimal digit. -/
def hexDigit? (c : Char) : Option Nat :=
  if '0' ≤ c ∧ c ≤ '9' then some (c.toNat - '0'.toNat)
  else if 'a' ≤ c ∧ c ≤ 'f' then some (c.toNat - 'a'.toNat + 10)
  else if 'A' ≤ c ∧ c ≤ 'F' then some (c.toNat - 'A'.toNat + 10)
  else none

/-- The code unit written by four hexadecimal digits. -/
def hexUnit? (a b c d : Char) : Option Nat := do
  return (← hexDigit? a) * 4096 + (← hexDigit? b) * 256 + (← hexDigit? c) * 16 + (← hexDigit? d)

def isHighSurrogate (n : Nat) : Bool := 0xD800 ≤ n && n < 0xDC00

def isLowSurrogate (n : Nat) : Bool := 0xDC00 ≤ n && n < 0xE000

/-- The character of a surrogate pair. -/
def pairChar (high low : Nat) : Char :=
  Char.ofNat (0x10000 + (high - 0xD800) * 1024 + (low - 0xDC00))

/-- The character that a one-letter escape stands for. -/
def escape? : Char → Option Char
  | '"' => some '"'
  | '\\' => some '\\'
  | '/' => some '/'
  | 'b' => some '\x08'
  | 'f' => some '\x0c'
  | 'n' => some '\n'
  | 'r' => some '\r'
  | 't' => some '\t'
  | _ => none

/-- A piece of a string as written: a character, or a code unit given by its number. -/
inductive Piece where
  | char (c : Char)
  | unit (n : Nat)

/-- Reads the pieces of a string up to its closing quote, which it consumes. -/
def pieces : List Char → Option (List Piece × List Char)
  | [] => none
  | '"' :: rest => some ([], rest)
  | '\\' :: 'u' :: a :: b :: c :: d :: rest => do
    let unit ← hexUnit? a b c d
    let (more, rest) ← pieces rest
    return (.unit unit :: more, rest)
  | '\\' :: c :: rest => do
    let c ← escape? c
    let (more, rest) ← pieces rest
    return (.char c :: more, rest)
  | c :: rest =>
    if c.toNat < 0x20 then none
    else (pieces rest).map fun (more, rest) => (.char c :: more, rest)

/-- The characters of a string, if every surrogate in it is one of a pair. -/
def joinPieces : List Piece → Option (List Char)
  | [] => some []
  | .char c :: rest => (joinPieces rest).map (c :: ·)
  | .unit high :: .unit low :: rest =>
    if isHighSurrogate high && isLowSurrogate low then
      (joinPieces rest).map (pairChar high low :: ·)
    else if isHighSurrogate high || isLowSurrogate high then none
    else (joinPieces (.unit low :: rest)).map (Char.ofNat high :: ·)
  | .unit n :: rest =>
    if isHighSurrogate n || isLowSurrogate n then none
    else (joinPieces rest).map (Char.ofNat n :: ·)

/-- Reads a string behind its opening quote. It is missing if a surrogate in it is unpaired. -/
def stringBody (cs : List Char) : Option (Option (List Char) × List Char) :=
  (pieces cs).map fun (ps, rest) => (joinPieces ps, rest)

/-- The greatest integer that is kept exactly. -/
def maxExact : Nat := 0xffffffffffffffff

/-- A decimal significand being read: digits beyond the 64-bit range are dropped. -/
structure Significand where
  value : Nat := 0
  exponent : Int := 0
  full : Bool := false

/-- Takes a digit before the point; one that is dropped raises the exponent. -/
def Significand.whole (s : Significand) (c : Char) : Significand :=
  if s.full || decide (maxExact < s.value * 10 + digitValue c) then
    { s with exponent := s.exponent + 1, full := true }
  else { s with value := s.value * 10 + digitValue c }

/-- Takes a digit after the point; one that is kept lowers the exponent. -/
def Significand.fraction (s : Significand) (c : Char) : Significand :=
  if s.full || decide (maxExact < s.value * 10 + digitValue c) then { s with full := true }
  else { s with value := s.value * 10 + digitValue c, exponent := s.exponent - 1 }

/-- The greatest power of ten below infinity. -/
def maxPower : Nat := 308

/-- Divides by `10 ^ k`, by the greatest power first and until nothing is left; `steps` bounds the
divisions. -/
def divideByTens : (steps : Nat) → Binary64 → Nat → Binary64
  | 0, x, _ => x
  | n + 1, x, k =>
    if k ≤ maxPower then x.div (.powerOfTen k)
    else if x.isZero then x
    else divideByTens n (x.div (.powerOfTen maxPower)) (k - maxPower)

/-- The significand as a double, then scaled by a power of ten that is a double itself. An
overflow gives infinity. -/
def Significand.toReal (s : Significand) (exponent : Int) : Binary64 :=
  let x := Binary64.ofRatio false s.value 1
  if exponent < 0 then divideByTens (exponent.natAbs / maxPower + 1) x exponent.natAbs
  else if exponent ≤ maxPower then x.mul (.powerOfTen exponent.toNat)
  else if x.isZero then x
  else .ofParts false Binary64.infinityWord

/-- The written parts of a number; `fraction` and `exponent` are missing when not written. -/
structure Numeral where
  negative : Bool
  whole : List Char
  fraction : Option (List Char)
  exponent : Option Int

/-- The greatest magnitude of a negative integer that is kept exactly. -/
def maxNegative : Nat := 0x8000000000000000

/-- The number a numeral stands for. Minus zero is a double. -/
def Numeral.number (n : Numeral) : Number :=
  let whole := n.whole.foldl Significand.whole {}
  if n.fraction.isNone && n.exponent.isNone && !whole.full &&
      !(n.negative && (whole.value == 0 || decide (maxNegative < whole.value))) then
    .int (if n.negative then -whole.value else whole.value)
  else
    let s := (n.fraction.getD []).foldl Significand.fraction { whole with full := false }
    .real ((s.toReal (s.exponent + n.exponent.getD 0)).withSign n.negative)

/-- Splits off at least one digit. -/
def digits? (cs : List Char) : Option (List Char × List Char) :=
  match cs.takeWhile Char.isDigit with
  | [] => none
  | ds => some (ds, cs.dropWhile Char.isDigit)

/-- The digits before the point: a leading zero stands alone. -/
def wholePart? : List Char → Option (List Char × List Char)
  | '0' :: c :: rest => if c.isDigit then none else some (['0'], c :: rest)
  | cs => digits? cs

def fractionPart? : List Char → Option (Option (List Char) × List Char)
  | '.' :: rest => (digits? rest).map fun (ds, rest) => (some ds, rest)
  | cs => some (none, cs)

def exponentPart? : List Char → Option (Option Int × List Char)
  | c :: rest =>
    if c = 'e' ∨ c = 'E' then
      match rest with
      | '-' :: rest => (digits? rest).map fun (ds, rest) => (some (-(natOfDigits ds : Int)), rest)
      | '+' :: rest => (digits? rest).map fun (ds, rest) => (some (natOfDigits ds : Int), rest)
      | rest => (digits? rest).map fun (ds, rest) => (some (natOfDigits ds : Int), rest)
    else some (none, c :: rest)
  | [] => some (none, [])

/-- Reads a number behind its sign. -/
def unsignedNumber (negative : Bool) (cs : List Char) : Option (Json × List Char) := do
  let (whole, rest) ← wholePart? cs
  let (fraction, rest) ← fractionPart? rest
  let (exponent, rest) ← exponentPart? rest
  return (.num (Numeral.number ⟨negative, whole, fraction, exponent⟩), rest)

/-- The value of a string that was read. -/
def ofStringBody : Option (List Char) → Json
  | some text => .str (String.ofList text)
  | none => .broken

/-- An object one of whose names is broken is broken. -/
def ofMembers (members : List (Option (List Char) × Json)) : Json :=
  match members.mapM fun (name, value) => name.map fun text => (String.ofList text, value) with
  | some members => .obj members
  | none => .broken

mutual

/-- Reads one value after any blanks. Every nested call stands behind at least one character that
was consumed, so twice the length of the text is fuel enough. -/
def value : (fuel : Nat) → List Char → Option (Json × List Char)
  | 0, _ => none
  | n + 1, cs =>
    match skipBlanks cs with
    | 'n' :: 'u' :: 'l' :: 'l' :: rest => some (.null, rest)
    | 't' :: 'r' :: 'u' :: 'e' :: rest => some (.bool true, rest)
    | 'f' :: 'a' :: 'l' :: 's' :: 'e' :: rest => some (.bool false, rest)
    | '"' :: rest => (stringBody rest).map fun (text, rest) => (ofStringBody text, rest)
    | '[' :: rest =>
      match skipBlanks rest with
      | ']' :: rest => some (.arr [], rest)
      | rest => (items n rest).map fun (values, rest) => (.arr values, rest)
    | '\x7b' :: rest =>
      match skipBlanks rest with
      | '\x7d' :: rest => some (.obj [], rest)
      | rest => (members n rest).map fun (values, rest) => (ofMembers values, rest)
    | '-' :: rest => unsignedNumber true rest
    | rest => unsignedNumber false rest

/-- Reads the items of an array up to the closing bracket. -/
def items : (fuel : Nat) → List Char → Option (List Json × List Char)
  | 0, _ => none
  | n + 1, cs => do
    let (item, rest) ← value n cs
    match skipBlanks rest with
    | ']' :: rest => return ([item], rest)
    | ',' :: rest =>
      let (more, rest) ← items n rest
      return (item :: more, rest)
    | _ => none

/-- Reads the members of an object up to the closing brace. -/
def members : (fuel : Nat) → List Char → Option (List (Option (List Char) × Json) × List Char)
  | 0, _ => none
  | n + 1, cs =>
    match skipBlanks cs with
    | '"' :: rest => do
      let (name, rest) ← stringBody rest
      match skipBlanks rest with
      | ':' :: rest =>
        let (item, rest) ← value n rest
        match skipBlanks rest with
        | '\x7d' :: rest => return ([(name, item)], rest)
        | ',' :: rest =>
          let (more, rest) ← members n rest
          return ((name, item) :: more, rest)
        | _ => none
      | _ => none
    | _ => none

end

/-- Reads a text that holds one document and blanks. -/
def parse? (text : String) : Option Json :=
  let cs := text.toList
  match value (2 * cs.length + 2) cs with
  | some (document, rest) => if (skipBlanks rest).isEmpty then some document else none
  | none => none

end MiniC.Json
