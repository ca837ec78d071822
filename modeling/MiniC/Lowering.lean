import MiniC.Event
import MiniC.Options
import MiniC.Scope
import MiniC.Segment

/-!
# Lowering

The state of lowering one function to code, and the steps that all constructs share. A step gives
the instructions that it adds. It keeps the numbers, labels and names already drawn when it fails.
-/

namespace MiniC

/-- What stays the same while one function is lowered. -/
structure LowerEnv where
  functions : FunctionTable
  options : Options
  returnTy : Ty
  params : List Value
  entry : Label

/-- What changes. `block` is the label of the block that is being filled, and the newest event of
the log comes first. -/
structure LowerState where
  scopes : Scopes := {}
  labels : LabelTable := {}
  block : Label
  log : List Event := []

abbrev Lower := EStateM CompileError LowerState

namespace LowerEnv

/-- The parameters of a function take the first numbers and its entry block the next one. -/
def ofSignature (functions : FunctionTable) (options : Options) (s : Signature) : LowerEnv where
  functions
  options
  returnTy := s.returnTy
  params := s.params.zipIdx.map fun (ty, id) => .temp id ty
  entry := .fixed 0 s.params.length

/-- The state in which the function's code begins. -/
def start (env : LowerEnv) : LowerState where
  scopes := { nextNumber := env.params.length + 1 }
  labels := ⟨[some env.params.length]⟩
  block := env.entry
  log := [.labelFixed 0 env.params.length]

end LowerEnv

/-- Where a statement stands: its scope, and the labels that `break` and `continue` jump to. -/
structure Context where
  scope : ScopeId
  loop : Option (Label × Label) := none

namespace Lower

def ofLowering {α : Type} : Except LoweringError α → Lower α
  | .ok a => return a
  | .error e => throw (.lowering e)

def ofScope {α : Type} : Except ScopeError α → Lower α
  | .ok a => return a
  | .error e => throw (.scope e)

def emit (e : Event) : Lower Unit := modify fun s => { s with log := e :: s.log }

def freshNumber : Lower Nat :=
  modifyGet fun s => (s.scopes.freshNumber.1, { s with scopes := s.scopes.freshNumber.2 })

def newTemp (ty : Ty) : Lower Value := return .temp (← freshNumber) ty

def newSlot (ty : Ty) : Lower Value := return .slot (← freshNumber) ty

def newLabel : Lower Label :=
  modifyGet fun s => (s.labels.allocate.1, { s with labels := s.labels.allocate.2 })

def openScope (parent : ScopeId) : Lower ScopeId :=
  modifyGet fun s =>
    ((s.scopes.openChild parent).1, { s with scopes := (s.scopes.openChild parent).2 })

def currentBlock : Lower Label := return (← get).block

def lookup (scope : ScopeId) (name : String) : Lower Value := do
  ofScope ((← get).scopes.lookup scope name)

/-- Starts the block of a label, which gets the next number as its name. -/
def placeLabel (l : Label) : Lower Instr := do
  let name ← freshNumber
  let (fixed, labels) ← ofLowering ((← get).labels.fix l name)
  modify fun s => { s with labels, block := fixed, log := .labelFixed l.id name :: s.log }
  return .label fixed

/-- A jump behind `code`, which may be left out where control does not arrive. -/
def jumpAfter (env : LowerEnv) (code : Code) (target : Label) : Lower Code := do
  if env.options.elideUnreachableJumps && Code.endsWithTerminator code then
    emit (.jumpDropped target.id)
    return []
  else return [.jump target]

/-- A new block behind `code`, if control does not arrive there. -/
def openBlockAfter (code : Code) : Lower Code := do
  if Code.endsWithTerminator code then
    emit .unreachable
    let l ← newLabel
    return [← placeLabel l]
  else return []

def load (env : LowerEnv) (slot : Value) : Lower (Code × Value) := do
  let result ← newTemp slot.ty
  let i ← ofLowering (Instr.mkLoad result slot (env.options.alignmentFor slot.ty))
  return ([i], result)

def store (env : LowerEnv) (value slot : Value) : Lower Code := do
  return [← ofLowering (Instr.mkStore value slot (env.options.alignmentFor slot.ty))]

/-- Declares a variable and makes a slot for it. -/
def declareSlot (env : LowerEnv) (scope : ScopeId) (name : String) (ty : Ty) :
    Lower (Code × Value) := do
  let slot ← newSlot ty
  let scopes ← ofScope ((← get).scopes.declare scope name slot)
  modify fun s => { s with scopes }
  let i ← ofLowering (Instr.mkAlloca slot (env.options.alignmentFor ty))
  return ([i], slot)

/-- A literal as one of another type of the same class, if the value allows it. -/
def retypeLiteral (value : Value) (target : Ty) (context : String) : Except LoweringError Value :=
  if value.ty = target then .ok value
  else
    match value with
    | .int v ty =>
      if target.isInteger then
        if target.fits v then .ok (.int v target) else .error (.literalOutOfRange v target)
      else .error (.typeMismatch target ty context)
    | .float v ty =>
      if target.isFloating then .ok (.float v target) else .error (.typeMismatch target ty context)
    | other => .error (.typeMismatch target other.ty context)

/-- Converts a value to a type. Literals change their type without code, booleans are extended, and
nothing else converts. -/
def coerce (value : Value) (target : Ty) (context : String) : Lower (Code × Value) := do
  if value.ty = target then return ([], value)
  else if value.isLiteral then return ([], ← ofLowering (retypeLiteral value target context))
  else if value.ty = .bool ∧ target.isInteger then
    let result ← newTemp target
    let i ← ofLowering (Instr.mkZext result value)
    return ([i], result)
  else throw (.lowering (.typeMismatch target value.ty context))

/-- An operand: code whose value is needed. -/
def operand (lowered : Lower Segment) (context : String) : Lower (Code × Value) := do
  let s ← lowered
  match s.result with
  | some v => return (s.instructions, v)
  | none => throw (.lowering (.voidValue context))

/-- An operand converted to a type. -/
def operandAs (lowered : Lower Segment) (ty : Ty) (context : String) : Lower (Code × Value) := do
  let (code, v) ← operand lowered context
  let (conversion, v) ← coerce v ty context
  return (code ++ conversion, v)

end Lower

end MiniC
