import MiniC.Instr

/-!
# Segments of code
-/

namespace MiniC

/-- A list of instructions, in order of execution. -/
abbrev Code := List Instr

/-- Whether control leaves at the end of the code. -/
def Code.endsWithTerminator (code : Code) : Bool :=
  match code.getLast? with
  | some i => i.isTerminator
  | none => false

/-- Code together with the value that it computes, if any. -/
structure Segment where
  instructions : Code := []
  result : Option Value := none
  deriving DecidableEq

namespace Segment

def ofValue (v : Value) : Segment := ⟨[], some v⟩

def push (s : Segment) (i : Instr) : Segment := { s with instructions := s.instructions ++ [i] }

/-- Puts the code of `other` behind that of `s` and gives the result of `other`. -/
def append (s other : Segment) : Segment × Option Value :=
  ({ s with instructions := s.instructions ++ other.instructions }, other.result)

/-- As `append`, where the result of `other` is needed. -/
def appendValue (s other : Segment) (context : String) : Segment × Except LoweringError Value :=
  let (s, result) := s.append other
  (s, match result with
    | some v => .ok v
    | none => .error (.voidValue context))

def endsWithTerminator (s : Segment) : Bool := Code.endsWithTerminator s.instructions

def size (s : Segment) : Nat := s.instructions.length

def isEmpty (s : Segment) : Bool := s.instructions.isEmpty

/-- One line of code: labels and the frame of a function stand at the margin. -/
def line (i : Instr) : String :=
  match i with
  | .label _ | .functionBegin .. | .functionEnd => i.text
  | _ => "  " ++ i.text

/-- The text of the code, a line for each instruction. Every label in it needs a name. -/
def render (s : Segment) : Except LoweringError String := do
  let lines ← s.instructions.mapM fun i => do
    i.labels.forM fun l => discard l.name
    return line i
  return String.intercalate "\n" lines

end Segment

namespace LabelTable

/-- Resolves the labels of code up to the first that fails; those behind it stay as they are. -/
def resolveCode (t : LabelTable) : Code → Code × Option LoweringError
  | [] => ([], none)
  | i :: rest =>
    let (ls, e) := t.resolveList i.labels
    match e with
    | some e => (i.withLabels ls :: rest, some e)
    | none =>
      let (rest', e) := t.resolveCode rest
      (i.withLabels ls :: rest', e)

def resolveSegment (t : LabelTable) (s : Segment) : Segment × Option LoweringError :=
  let (code, e) := t.resolveCode s.instructions
  ({ s with instructions := code }, e)

end LabelTable

end MiniC
