import Mathlib.Tactic.Common
import MiniC.Definition

/-!
# What definitions mean

Trees are evaluated directly, from left to right. Integers wrap at the width of their type, booleans
are 0 and 1, both sides of a logical operation are evaluated, and floating point values are only
copied. A variable has no value from its declaration to the first store. Evaluation is undefined
where such a variable is read and where a division has no result.
-/

namespace MiniC

/-- A value at run time. -/
inductive Val where
  | int (n : Int)
  | float (b : Binary64)
  deriving DecidableEq

namespace Ty

/-- The number of the type that agrees with `n` in the bits of the type. -/
def wrap : Ty → Int → Int
  | .bool, n => n % 2
  | .i8, n => n.bmod 0x100
  | .i16, n => n.bmod 0x10000
  | .i32, n => n.bmod 0x100000000
  | .i64, n => n.bmod 0x10000000000000000
  | _, n => n

/-- The value as one of the type. -/
def convert (ty : Ty) : Val → Val
  | .int n => .int (ty.wrap n)
  | .float b => .float b

end Ty

/-- Whether the value is one of the type. -/
def Val.HasTy : Val → Ty → Prop
  | .int n, ty => ty.isInteger = true ∧ ty.wrap n = n
  | .float _, ty => ty.isFloating = true

instance : DecidableRel Val.HasTy
  | .int n, ty => inferInstanceAs (Decidable (ty.isInteger = true ∧ ty.wrap n = n))
  | .float _, ty => inferInstanceAs (Decidable (ty.isFloating = true))

def Val.ofBool (b : Bool) : Val := .int (if b then 1 else 0)

/-- The type of a variable and the value that was stored last. -/
structure Cell where
  ty : Ty
  value : Option Val := none

/-- A call that was made. -/
structure Call where
  callee : String
  arguments : List Val
  deriving DecidableEq

/-- The variables in scope, the innermost first, and the calls made so far, in order. -/
structure Memory where
  vars : List (String × Cell) := []
  calls : List Call := []

/-- What functions give for arguments: a value of the function's type, unless it is `void`. -/
structure Callees (functions : FunctionTable) where
  result : String → List Val → Val
  typed : ∀ {callee signature}, functions.find? callee = some signature →
    signature.returnTy ≠ .void → ∀ arguments, (result callee arguments).HasTy signature.returnTy

/-- Functions that give zero. -/
instance (functions : FunctionTable) : Inhabited (Callees functions) where
  default :=
    { result := fun callee _ =>
        if (functions.find? callee).any (·.returnTy.isFloating) then .float ⟨0⟩ else .int 0
      typed := by
        intro callee signature hfind hvoid arguments
        simp only [hfind, Option.any_some]
        cases hty : signature.returnTy <;> simp_all [Val.HasTy, Ty.isFloating, Ty.isInteger, Ty.wrap] }

/-- An evaluation reads and changes memory and may be undefined. -/
abbrev Eval := StateT Memory Option

/-- Stores a value in the innermost variable of the name. -/
def Memory.assign (name : String) (v : Val) : List (String × Cell) → List (String × Cell)
  | [] => []
  | (x, cell) :: rest =>
    if name == x then (x, { cell with value := some v }) :: rest
    else (x, cell) :: assign name v rest

namespace Eval

def read (name : String) : Eval Val := do
  let cell ← (← get).vars.lookup name
  cell.value

/-- Stores a value, which is converted to the type of the variable, and gives what was stored. -/
def assign (name : String) (v : Val) : Eval Val := do
  let m ← get
  let cell ← m.vars.lookup name
  set { m with vars := Memory.assign name (cell.ty.convert v) m.vars }
  return cell.ty.convert v

def declare (name : String) (ty : Ty) : Eval Unit :=
  modify fun m => { m with vars := (name, { ty }) :: m.vars }

def record (c : Call) : Eval Unit := modify fun m => { m with calls := m.calls ++ [c] }

/-- The value of an expression that has one. -/
def operand (x : Eval (Option Val)) : Eval Val := do
  let some v ← x | failure
  return v

def integer (x : Eval (Option Val)) : Eval Int := do
  let .int n ← operand x | failure
  return n

/-- Whether the value differs from zero. -/
def test (x : Eval (Option Val)) : Eval Bool := return (← integer x) ≠ 0

/-- Adds to a variable, at the width of its type. Gives the value before and the one after. -/
def increment (name : String) (delta : Int) : Eval (Val × Val) := do
  let .int old ← read name | failure
  return (.int old, ← assign name (.int (old + delta)))

/-- Variables declared in a scope are gone behind it. -/
def inScope {α : Type} (x : Eval α) : Eval α := do
  let outer := (← get).vars.length
  let a ← x
  modify fun m => { m with vars := m.vars.drop (m.vars.length - outer) }
  return a

end Eval

/-- Operations on two numbers of type `int`. A division has no result by zero or if the quotient is
too large. -/
def ArithOp.apply : ArithOp → Int → Int → Option Int
  | .add, a, b => some (Ty.wrap .i32 (a + b))
  | .sub, a, b => some (Ty.wrap .i32 (a - b))
  | .mul, a, b => some (Ty.wrap .i32 (a * b))
  | .div, a, b => if b ≠ 0 ∧ Ty.wrap .i32 (a.tdiv b) = a.tdiv b then some (a.tdiv b) else none
  | .rem, a, b => if b ≠ 0 ∧ Ty.wrap .i32 (a.tdiv b) = a.tdiv b then some (a.tmod b) else none

def CompareOp.holds : CompareOp → Int → Int → Bool
  | .less, a, b => a < b
  | .lessEqual, a, b => a ≤ b
  | .greater, a, b => a > b
  | .greaterEqual, a, b => a ≥ b
  | .equal, a, b => a = b
  | .notEqual, a, b => a ≠ b

namespace Expr

variable (functions : FunctionTable) (callees : Callees functions)

mutual

/-- The value of an expression, or none for a call of a `void` function. Constants have 32 bits. -/
def eval : Expr → Eval (Option Val)
  | .int value => if Ty.fits .i32 value then return some (.int value) else failure
  | .float value => return some (.float value)
  | .var name => return some (← Eval.read name)
  | .preIncrement name delta => return some (← Eval.increment name delta).2
  | .postIncrement name delta => return some (← Eval.increment name delta).1
  | .arith op left right => do
    let a ← Eval.integer (left.eval)
    let b ← Eval.integer (right.eval)
    let c ← op.apply a b
    return some (.int c)
  | .compare op left right => do
    let a ← Eval.integer (left.eval)
    let b ← Eval.integer (right.eval)
    return some (.ofBool (op.holds a b))
  | .logicalAnd left right => do
    let a ← Eval.test (left.eval)
    let b ← Eval.test (right.eval)
    return some (.ofBool (a && b))
  | .logicalOr left right => do
    let a ← Eval.test (left.eval)
    let b ← Eval.test (right.eval)
    return some (.ofBool (a || b))
  | .boolCast operand => return some (.ofBool (← Eval.test (operand.eval)))
  | .conditional condition onTrue onFalse => do
    if ← Eval.test (condition.eval) then return some (← Eval.operand (onTrue.eval))
    else return some (← Eval.operand (onFalse.eval))
  | .assign target value => do
    let v ← Eval.operand (value.eval)
    return some (← Eval.assign target v)
  | .call callee arguments => do
    let signature ← functions.find? callee
    let vs ← evalAll arguments
    let converted := List.zipWith Ty.convert signature.params vs
    Eval.record ⟨callee, converted⟩
    if signature.returnTy.isVoid then return none
    else return some (callees.result callee converted)

def evalAll : List Expr → Eval (List Val)
  | [] => return []
  | e :: rest => return (← Eval.operand (e.eval)) :: (← evalAll rest)

end

end Expr

namespace Stmt

def isDeclaration : Stmt → Bool
  | .declaration _ => true
  | _ => false

mutual

/-- Whether no body of an `if` or of a loop is a declaration alone, which would have no scope of its
own. -/
def bodiesScoped : Stmt → Bool
  | .compound body => allBodiesScoped body
  | .ifElse _ onTrue none => !onTrue.isDeclaration && onTrue.bodiesScoped
  | .ifElse _ onTrue (some onFalse) =>
    !onTrue.isDeclaration && onTrue.bodiesScoped && (!onFalse.isDeclaration && onFalse.bodiesScoped)
  | .whileLoop _ body => !body.isDeclaration && body.bodiesScoped
  | .forLoop none _ _ body => !body.isDeclaration && body.bodiesScoped
  | .forLoop (some init) _ _ body =>
    init.bodiesScoped && (!body.isDeclaration && body.bodiesScoped)
  | _ => true

def allBodiesScoped : List Stmt → Bool
  | [] => true
  | x :: rest => x.bodiesScoped && allBodiesScoped rest

end

end Stmt

/-- How a statement ends. -/
inductive Outcome where
  | normal
  | brk
  | cont
  | ret (value : Option Val)
  deriving DecidableEq

/-- Goes on with `y` if `x` ends normally. -/
def Eval.andThen (x y : Eval Outcome) : Eval Outcome := do
  match ← x with
  | .normal => y
  | outcome => return outcome

/-- At most `n` rounds of a loop. `continue` goes on with the test and leaves out the step. -/
def Eval.loop (test : Eval Bool) (body : Eval Outcome) (step : Eval Unit) : Nat → Eval Outcome
  | 0 => failure
  | n + 1 => do
    if ← test then
      match ← body with
      | .normal => do
        step
        loop test body step n
      | .cont => loop test body step n
      | .brk => return .normal
      | .ret value => return .ret value
    else return .normal

section

variable (functions : FunctionTable) (callees : Callees functions)

/-- A variable is in scope in its own initializer. -/
def Declarator.exec (d : Declarator) : Eval Unit := do
  Eval.declare d.name d.ty
  match d.initializer with
  | none => return
  | some e => do
    let v ← Eval.operand (e.eval functions callees)
    discard (Eval.assign d.name v)

namespace Stmt

variable (returnTy : Ty) (n : Nat)

/-- The condition of a loop, which may be missing. -/
def check : Option Expr → Eval Bool
  | none => return true
  | some e => Eval.test (e.eval functions callees)

/-- The step of a loop, which may be missing. -/
def advance : Option Expr → Eval Unit
  | none => return
  | some e => discard (e.eval functions callees)

mutual

/-- How a statement ends; `n` bounds the rounds of each loop. -/
def exec : Stmt → Eval Outcome
  | .expression e => do
    discard (e.eval functions callees)
    return .normal
  | .declaration ds => do
    ds.forM (Declarator.exec functions callees)
    return .normal
  | .compound body => Eval.inScope (execAll body)
  | .ifElse condition onTrue none => do
    if ← Eval.test (condition.eval functions callees) then onTrue.exec else return .normal
  | .ifElse condition onTrue (some onFalse) => do
    if ← Eval.test (condition.eval functions callees) then onTrue.exec else onFalse.exec
  | .whileLoop condition body =>
    Eval.loop (Eval.test (condition.eval functions callees)) body.exec (return) n
  | .forLoop none condition step body =>
    Eval.inScope (Eval.loop (check functions callees condition) body.exec
      (advance functions callees step) n)
  | .forLoop (some init) condition step body =>
    Eval.inScope (Eval.andThen init.exec (Eval.loop (check functions callees condition) body.exec
      (advance functions callees step) n))
  | .ret none => return .ret none
  | .ret (some e) => do
    let v ← Eval.operand (e.eval functions callees)
    return .ret (some (returnTy.convert v))
  | .brk => return .brk
  | .cont => return .cont

/-- Statements up to the first that does not end normally. -/
def execAll : List Stmt → Eval Outcome
  | [] => return .normal
  | x :: rest => Eval.andThen x.exec (execAll rest)

end

end Stmt

namespace Definition

/-- The memory in which the body of a function begins: its parameters with the arguments. -/
def start (d : Definition) (args : List Val) : Memory where
  vars := (d.params.zip args).reverse.map fun (p, v) => (p.name, ⟨p.ty, some v⟩)

/-- The result of a function and the calls that it made. Only a `void` function may come to its end
without a `return`. -/
def eval (n : Nat) (d : Definition) (args : List Val) : Option (Option Val × List Call) := do
  match ← Stmt.execAll functions callees d.returnTy n d.body (d.start args) with
  | (.ret value, m) => some (value, m.calls)
  | (.normal, m) => if d.returnTy.isVoid then some (none, m.calls) else none
  | _ => none

end Definition

end

namespace Eval

variable {α β : Type} {m m' : Memory}

/-- A sequence of two evaluations that are defined. -/
lemma bind_some {x : Eval α} {f : α → Eval β} {b : β} :
    (x >>= f) m = some (b, m') ↔ ∃ a t, x m = some (a, t) ∧ f a t = some (b, m') := by
  change (x m).bind (fun p => f p.1 p.2) = _ ↔ _
  rw [Option.bind_eq_some_iff]
  constructor
  · rintro ⟨⟨a, t⟩, hx, hf⟩
    exact ⟨a, t, hx, hf⟩
  · rintro ⟨a, t, hx, hf⟩
    exact ⟨(a, t), hx, hf⟩

lemma pure_some {a b : α} : (pure a : Eval α) m = some (b, m') ↔ a = b ∧ m = m' := by
  change some (a, m) = some (b, m') ↔ _
  simp

lemma failure_some {b : α} : (failure : Eval α) m = some (b, m') ↔ False := by
  change none = some (b, m') ↔ _
  simp

lemma lift_some {o : Option α} {b : α} :
    (liftM o : Eval α) m = some (b, m') ↔ o = some b ∧ m = m' := by
  change (o.bind fun a => some (a, m)) = some (b, m') ↔ _
  rw [Option.bind_eq_some_iff]
  simp

lemma get_some {a : Memory} : (get : Eval Memory) m = some (a, m') ↔ m = a ∧ m = m' := by
  change some (m, m) = some (a, m') ↔ _
  simp

lemma set_some {a : Memory} {u : PUnit} :
    (set a : Eval PUnit) m = some (u, m') ↔ a = m' := by
  change some (PUnit.unit, a) = some (u, m') ↔ _
  simp

lemma modify_some {f : Memory → Memory} {u : PUnit} :
    (modify f : Eval PUnit) m = some (u, m') ↔ f m = m' := by
  change some (PUnit.unit, f m) = some (u, m') ↔ _
  simp

lemma discard_some {x : Eval α} {u : PUnit} :
    (discard x : Eval PUnit) m = some (u, m') ↔ ∃ a, x m = some (a, m') := by
  change ((x m).bind fun p => some (PUnit.unit, p.2)) = some (u, m') ↔ _
  rw [Option.bind_eq_some_iff]
  constructor
  · rintro ⟨⟨a, t⟩, hx, h⟩
    cases h
    exact ⟨a, hx⟩
  · rintro ⟨a, hx⟩
    exact ⟨(a, m'), hx, rfl⟩

lemma read_some {name : String} {v : Val} :
    read name m = some (v, m') ↔
      ∃ cell, m.vars.lookup name = some cell ∧ cell.value = some v ∧ m = m' := by
  simp only [read, bind_some, get_some, lift_some]
  constructor
  · rintro ⟨_, _, ⟨rfl, rfl⟩, cell, t, ⟨hcell, rfl⟩, hv, rfl⟩
    exact ⟨cell, hcell, hv, rfl⟩
  · rintro ⟨cell, hcell, hv, rfl⟩
    exact ⟨m, m, ⟨rfl, rfl⟩, cell, m, ⟨hcell, rfl⟩, hv, rfl⟩

lemma assign_some {name : String} {v w : Val} :
    assign name v m = some (w, m') ↔ ∃ cell, m.vars.lookup name = some cell ∧
      cell.ty.convert v = w ∧ { m with vars := Memory.assign name w m.vars } = m' := by
  simp only [assign, bind_some, get_some, lift_some, set_some, pure_some]
  constructor
  · rintro ⟨_, _, ⟨rfl, rfl⟩, cell, t, ⟨hcell, rfl⟩, _, _, rfl, rfl, rfl⟩
    exact ⟨cell, hcell, rfl, rfl⟩
  · rintro ⟨cell, hcell, rfl, rfl⟩
    exact ⟨m, m, ⟨rfl, rfl⟩, cell, m, ⟨hcell, rfl⟩, (), _, rfl, rfl, rfl⟩

lemma operand_some {x : Eval (Option Val)} {v : Val} :
    operand x m = some (v, m') ↔ x m = some (some v, m') := by
  rw [operand, bind_some]
  constructor
  · rintro ⟨a, t, hx, h⟩
    cases a with
    | none => exact (failure_some.mp h).elim
    | some w =>
      obtain ⟨rfl, rfl⟩ := pure_some.mp h
      exact hx
  · intro hx
    exact ⟨some v, m', hx, pure_some.mpr ⟨rfl, rfl⟩⟩

lemma integer_some {x : Eval (Option Val)} {n : Int} :
    integer x m = some (n, m') ↔ x m = some (some (.int n), m') := by
  rw [integer, bind_some]
  constructor
  · rintro ⟨a, t, hx, h⟩
    cases a with
    | float b => exact (failure_some.mp h).elim
    | int k =>
      obtain ⟨rfl, rfl⟩ := pure_some.mp h
      exact operand_some.mp hx
  · intro hx
    exact ⟨.int n, m', operand_some.mpr hx, pure_some.mpr ⟨rfl, rfl⟩⟩

lemma test_some {x : Eval (Option Val)} {b : Bool} :
    test x m = some (b, m') ↔ ∃ n : Int, x m = some (some (.int n), m') ∧ decide (n ≠ 0) = b := by
  simp only [test, bind_some, integer_some, pure_some]
  constructor
  · rintro ⟨n, t, hx, rfl, rfl⟩
    exact ⟨n, hx, rfl⟩
  · rintro ⟨n, hx, rfl⟩
    exact ⟨n, m', hx, rfl, rfl⟩

lemma increment_some {name : String} {delta : Int} {r : Val × Val} :
    increment name delta m = some (r, m') → ∃ (cell : Cell) (old : Int),
      m.vars.lookup name = some cell ∧ cell.value = some (.int old) ∧
      r = (.int old, .int (cell.ty.wrap (old + delta))) ∧
      { m with vars := Memory.assign name (.int (cell.ty.wrap (old + delta))) m.vars } = m' := by
  intro h
  rw [increment, bind_some] at h
  obtain ⟨a, t, hread, h⟩ := h
  obtain ⟨cell, hcell, hvalue, rfl⟩ := read_some.mp hread
  cases a with
  | float b => exact (failure_some.mp h).elim
  | int old =>
    simp only [bind_some, pure_some] at h
    obtain ⟨w, t, hassign, rfl, rfl⟩ := h
    obtain ⟨cell', hcell', rfl, rfl⟩ := assign_some.mp hassign
    rw [hcell, Option.some.injEq] at hcell'
    subst hcell'
    exact ⟨cell, old, hcell, hvalue, rfl, rfl⟩

lemma inScope_some {x : Eval α} {a : α} :
    inScope x m = some (a, m') ↔ ∃ t, x m = some (a, t) ∧
      { t with vars := t.vars.drop (t.vars.length - m.vars.length) } = m' := by
  simp only [inScope, bind_some, get_some, modify_some, pure_some]
  constructor
  · rintro ⟨_, _, ⟨rfl, rfl⟩, b, t, hx, _, _, rfl, rfl, rfl⟩
    exact ⟨t, hx, rfl⟩
  · rintro ⟨t, hx, rfl⟩
    exact ⟨m, m, ⟨rfl, rfl⟩, a, t, hx, (), _, rfl, rfl, rfl⟩

lemma andThen_some {x y : Eval Outcome} {o : Outcome} (h : andThen x y m = some (o, m')) :
    (∃ t, x m = some (.normal, t) ∧ y t = some (o, m')) ∨
      o ≠ .normal ∧ x m = some (o, m') := by
  rw [andThen, bind_some] at h
  obtain ⟨o', t, hx, h⟩ := h
  cases o' with
  | normal => exact Or.inl ⟨t, hx, h⟩
  | brk | cont | ret _ =>
    obtain ⟨rfl, rfl⟩ := pure_some.mp h
    exact Or.inr ⟨by simp, hx⟩

end Eval

end MiniC
