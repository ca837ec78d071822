import MiniC.Definition
import MiniC.Proofs.TreeInduction

/-!
# Casts left out

Casts are put in by the parser and have no form of their own in source text. `eraseCasts` leaves
them out of a tree, and changes nothing in a tree that has none.
-/

namespace MiniC

namespace Expr

def isFloat : Expr → Bool
  | .float _ => true
  | _ => false

def isCast : Expr → Bool
  | .boolCast _ => true
  | _ => false

mutual

/-- Whether `p` holds of the expression or of a part of it. -/
def any (p : Expr → Bool) (e : Expr) : Bool :=
  p e || match e with
    | .arith _ left right | .compare _ left right | .logicalAnd left right
    | .logicalOr left right => left.any p || right.any p
    | .boolCast operand => operand.any p
    | .conditional condition onTrue onFalse => condition.any p || onTrue.any p || onFalse.any p
    | .assign _ value => value.any p
    | .call _ arguments => listAny p arguments
    | .int _ | .float _ | .var _ | .preIncrement .. | .postIncrement .. => false

def listAny (p : Expr → Bool) : List Expr → Bool
  | [] => false
  | e :: rest => e.any p || listAny p rest

end

mutual

/-- The expression with the operand in place of every cast. -/
def eraseCasts : Expr → Expr
  | .int value => .int value
  | .float value => .float value
  | .var name => .var name
  | .preIncrement name delta => .preIncrement name delta
  | .postIncrement name delta => .postIncrement name delta
  | .arith op left right => .arith op left.eraseCasts right.eraseCasts
  | .compare op left right => .compare op left.eraseCasts right.eraseCasts
  | .logicalAnd left right => .logicalAnd left.eraseCasts right.eraseCasts
  | .logicalOr left right => .logicalOr left.eraseCasts right.eraseCasts
  | .boolCast operand => operand.eraseCasts
  | .conditional condition onTrue onFalse =>
    .conditional condition.eraseCasts onTrue.eraseCasts onFalse.eraseCasts
  | .assign target value => .assign target value.eraseCasts
  | .call callee arguments => .call callee (eraseCastsAll arguments)

def eraseCastsAll : List Expr → List Expr
  | [] => []
  | e :: rest => e.eraseCasts :: eraseCastsAll rest

end

lemma listAny_eq_any (p : Expr → Bool) (es : List Expr) : listAny p es = es.any (any p) := by
  induction es with
  | nil => rfl
  | cons e es ih => rw [listAny, ih, List.any_cons]

lemma eraseCastsAll_eq_map (es : List Expr) : eraseCastsAll es = es.map eraseCasts := by
  induction es with
  | nil => rfl
  | cons e es ih => rw [eraseCastsAll, ih, List.map_cons]

lemma eraseCasts_eq_self {e : Expr} (h : e.any isCast = false) : e.eraseCasts = e := by
  induction e using Expr.induction with
  | int | float | var | preIncrement | postIncrement => rfl
  | boolCast => cases h
  | arith op left right hl hr | compare op left right hl hr | logicalAnd left right hl hr
  | logicalOr left right hl hr =>
    simp only [any, isCast, Bool.false_or, Bool.or_eq_false_iff] at h
    rw [eraseCasts, hl h.1, hr h.2]
  | conditional condition onTrue onFalse hc ht hf =>
    simp only [any, isCast, Bool.false_or, Bool.or_eq_false_iff] at h
    rw [eraseCasts, hc h.1.1, ht h.1.2, hf h.2]
  | assign target value hvalue =>
    simp only [any, isCast, Bool.false_or] at h
    rw [eraseCasts, hvalue h]
  | call callee arguments harguments =>
    simp only [any, isCast, Bool.false_or, listAny_eq_any, List.any_eq_false] at h
    have hself : arguments.map eraseCasts = arguments.map id :=
      List.map_congr_left fun e he => harguments e he (by simpa using h e he)
    rw [eraseCasts, eraseCastsAll_eq_map, hself, List.map_id]

end Expr

namespace Declarator

def any (p : Expr → Bool) (d : Declarator) : Bool := d.initializer.any (Expr.any p)

def eraseCasts (d : Declarator) : Declarator :=
  { d with initializer := d.initializer.map Expr.eraseCasts }

end Declarator

namespace Stmt

mutual

/-- Whether `p` holds of an expression in the statement. -/
def any (p : Expr → Bool) : Stmt → Bool
  | .expression e => e.any p
  | .declaration ds => ds.any (Declarator.any p)
  | .compound body => listAny p body
  | .ifElse condition onTrue none => condition.any p || onTrue.any p
  | .ifElse condition onTrue (some onFalse) => condition.any p || onTrue.any p || onFalse.any p
  | .whileLoop condition body => condition.any p || body.any p
  | .forLoop none condition step body =>
    condition.any (Expr.any p) || step.any (Expr.any p) || body.any p
  | .forLoop (some init) condition step body =>
    init.any p || condition.any (Expr.any p) || step.any (Expr.any p) || body.any p
  | .ret value => value.any (Expr.any p)
  | .brk | .cont => false

def listAny (p : Expr → Bool) : List Stmt → Bool
  | [] => false
  | s :: rest => s.any p || listAny p rest

end

mutual

/-- The statement without the casts of its expressions. -/
def eraseCasts : Stmt → Stmt
  | .expression e => .expression e.eraseCasts
  | .declaration ds => .declaration (ds.map Declarator.eraseCasts)
  | .compound body => .compound (eraseCastsAll body)
  | .ifElse condition onTrue none => .ifElse condition.eraseCasts onTrue.eraseCasts none
  | .ifElse condition onTrue (some onFalse) =>
    .ifElse condition.eraseCasts onTrue.eraseCasts (some onFalse.eraseCasts)
  | .whileLoop condition body => .whileLoop condition.eraseCasts body.eraseCasts
  | .forLoop none condition step body =>
    .forLoop none (condition.map Expr.eraseCasts) (step.map Expr.eraseCasts) body.eraseCasts
  | .forLoop (some init) condition step body =>
    .forLoop (some init.eraseCasts) (condition.map Expr.eraseCasts) (step.map Expr.eraseCasts)
      body.eraseCasts
  | .ret value => .ret (value.map Expr.eraseCasts)
  | .brk => .brk
  | .cont => .cont

def eraseCastsAll : List Stmt → List Stmt
  | [] => []
  | s :: rest => s.eraseCasts :: eraseCastsAll rest

end

end Stmt

namespace Definition

def any (p : Expr → Bool) (d : Definition) : Bool := Stmt.listAny p d.body

def eraseCasts (d : Definition) : Definition := { d with body := Stmt.eraseCastsAll d.body }

end Definition

lemma Expr.map_eraseCasts_eq_self {value : Option Expr} (h : value.any (any isCast) = false) :
    value.map eraseCasts = value := by
  cases value with
  | none => rfl
  | some e => exact congrArg some (eraseCasts_eq_self h)

lemma Declarator.eraseCasts_eq_self {d : Declarator} (h : d.any Expr.isCast = false) :
    d.eraseCasts = d := by
  rw [eraseCasts, Expr.map_eraseCasts_eq_self h]

namespace Stmt

lemma listAny_eq_any (p : Expr → Bool) (body : List Stmt) : listAny p body = body.any (any p) := by
  induction body with
  | nil => rfl
  | cons x body ih => rw [listAny, ih, List.any_cons]

lemma any_forLoop (p : Expr → Bool) (init : Option Stmt) (condition step : Option Expr)
    (body : Stmt) : (Stmt.forLoop init condition step body).any p = (init.any (Stmt.any p) ||
      condition.any (Expr.any p) || step.any (Expr.any p) || body.any p) := by
  cases init <;> simp [Stmt.any]

mutual

theorem eraseCasts_eq_self : ∀ {s : Stmt}, s.any Expr.isCast = false → s.eraseCasts = s
  | .expression e, h => by
    rw [eraseCasts, Expr.eraseCasts_eq_self h]
  | .declaration ds, h => by
    simp only [any, List.any_eq_false] at h
    have hself : ds.map Declarator.eraseCasts = ds.map id :=
      List.map_congr_left fun d hd => Declarator.eraseCasts_eq_self (by simpa using h d hd)
    rw [eraseCasts, hself, List.map_id]
  | .compound body, h => by
    rw [eraseCasts, eraseCastsAll_eq_self h]
  | .ifElse condition onTrue none, h => by
    simp only [any, Bool.or_eq_false_iff] at h
    rw [eraseCasts, Expr.eraseCasts_eq_self h.1, eraseCasts_eq_self h.2]
  | .ifElse condition onTrue (some onFalse), h => by
    simp only [any, Bool.or_eq_false_iff] at h
    rw [eraseCasts, Expr.eraseCasts_eq_self h.1.1, eraseCasts_eq_self h.1.2, eraseCasts_eq_self h.2]
  | .whileLoop condition body, h => by
    simp only [any, Bool.or_eq_false_iff] at h
    rw [eraseCasts, Expr.eraseCasts_eq_self h.1, eraseCasts_eq_self h.2]
  | .forLoop none condition step body, h => by
    simp only [any, Bool.or_eq_false_iff] at h
    rw [eraseCasts, Expr.map_eraseCasts_eq_self h.1.1, Expr.map_eraseCasts_eq_self h.1.2,
      eraseCasts_eq_self h.2]
  | .forLoop (some init) condition step body, h => by
    simp only [any, Bool.or_eq_false_iff] at h
    rw [eraseCasts, eraseCasts_eq_self h.1.1.1, Expr.map_eraseCasts_eq_self h.1.1.2,
      Expr.map_eraseCasts_eq_self h.1.2, eraseCasts_eq_self h.2]
  | .ret value, h => by
    rw [eraseCasts, Expr.map_eraseCasts_eq_self h]
  | .brk, _ => rfl
  | .cont, _ => rfl

theorem eraseCastsAll_eq_self : ∀ {body : List Stmt}, listAny Expr.isCast body = false →
    eraseCastsAll body = body
  | [], _ => rfl
  | s :: body, h => by
    simp only [listAny, Bool.or_eq_false_iff] at h
    rw [eraseCastsAll, eraseCasts_eq_self h.1, eraseCastsAll_eq_self h.2]

end

end Stmt

lemma Definition.eraseCasts_eq_self {d : Definition} (h : d.any Expr.isCast = false) :
    d.eraseCasts = d := by
  rw [eraseCasts, Stmt.eraseCastsAll_eq_self h]

end MiniC
