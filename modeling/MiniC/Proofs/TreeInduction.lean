import Mathlib.Data.Option.Basic
import Mathlib.Tactic.Common
import MiniC.Stmt.Lower

/-!
# Induction over trees

Lists of parts come with a hypothesis for each member. For lowering there is an induction over the
steps that the forms of expressions share.
-/

namespace MiniC

/-- Induction over expressions. -/
@[elab_as_elim]
theorem Expr.induction {motive : Expr → Prop} (int : ∀ value, motive (.int value))
    (float : ∀ value, motive (.float value)) (var : ∀ name, motive (.var name))
    (preIncrement : ∀ name delta, motive (.preIncrement name delta))
    (postIncrement : ∀ name delta, motive (.postIncrement name delta))
    (arith : ∀ op left right, motive left → motive right → motive (.arith op left right))
    (compare : ∀ op left right, motive left → motive right → motive (.compare op left right))
    (logicalAnd : ∀ left right, motive left → motive right → motive (.logicalAnd left right))
    (logicalOr : ∀ left right, motive left → motive right → motive (.logicalOr left right))
    (boolCast : ∀ operand, motive operand → motive (.boolCast operand))
    (conditional : ∀ condition onTrue onFalse, motive condition → motive onTrue →
      motive onFalse → motive (.conditional condition onTrue onFalse))
    (assign : ∀ target value, motive value → motive (.assign target value))
    (call : ∀ callee arguments, (∀ e ∈ arguments, motive e) → motive (.call callee arguments))
    (e : Expr) : motive e := by
  refine @Expr.rec motive (fun es => ∀ e ∈ es, motive e) int float var preIncrement postIncrement
    arith compare logicalAnd logicalOr boolCast conditional assign call ?_ ?_ e
  · intro e he
    cases he
  · intro e es he hes e' hmem
    rcases List.mem_cons.mp hmem with rfl | hmem
    · exact he
    · exact hes e' hmem

/-- Induction over statements. -/
@[elab_as_elim]
theorem Stmt.induction {motive : Stmt → Prop} (expression : ∀ e, motive (.expression e))
    (declaration : ∀ declarators, motive (.declaration declarators))
    (compound : ∀ body, (∀ x ∈ body, motive x) → motive (.compound body))
    (ifElse : ∀ condition onTrue onFalse, motive onTrue → (∀ x ∈ onFalse, motive x) →
      motive (.ifElse condition onTrue onFalse))
    (whileLoop : ∀ condition body, motive body → motive (.whileLoop condition body))
    (forLoop : ∀ init condition step body, (∀ x ∈ init, motive x) → motive body →
      motive (.forLoop init condition step body))
    (ret : ∀ value, motive (.ret value)) (brk : motive .brk) (cont : motive .cont)
    (x : Stmt) : motive x := by
  refine @Stmt.rec motive (fun xs => ∀ x ∈ xs, motive x) (fun o => ∀ x ∈ o, motive x) expression
    declaration compound ifElse whileLoop forLoop ret brk cont ?_ ?_ ?_ ?_ x
  · intro x hx
    cases hx
  · intro x xs hx hxs x' hmem
    rcases List.mem_cons.mp hmem with rfl | hmem
    · exact hx
    · exact hxs x' hmem
  · intro x hx
    cases hx
  · intro x hx x' hmem
    rw [Option.mem_some_iff] at hmem
    exact hmem ▸ hx

lemma Expr.mem_lowerAll {env : LowerEnv} {scope : ScopeId} {x : Lower Segment} :
    ∀ {es : List Expr}, x ∈ lowerAll env scope es → ∃ e ∈ es, e.lower env scope = x
  | e :: es, h => by
    rw [lowerAll, List.mem_cons] at h
    rcases h with rfl | h
    · exact ⟨e, List.mem_cons_self, rfl⟩
    · obtain ⟨e', hmem, rfl⟩ := mem_lowerAll h
      exact ⟨e', List.mem_cons_of_mem e hmem, rfl⟩

/-- What every step for a form of expression passes on from its parts holds of all lowerings of
expressions. The parts are lowerings of expressions themselves. -/
theorem Expr.lower_induction_parts {env : LowerEnv} {scope : ScopeId} {Φ : Lower Segment → Prop}
    (constant : ∀ v, v.isLiteral = true → Φ (pure (.ofValue v)))
    (readVariable : ∀ name, Φ (Lower.readVariable env scope name))
    (increment : ∀ name delta before, Φ (Lower.increment env scope name delta before))
    (binary : ∀ op ty (left right : Expr), Φ (left.lower env scope) → Φ (right.lower env scope) →
      Φ (Lower.binary op ty (left.lower env scope) (right.lower env scope)))
    (comparison : ∀ relation (left right : Expr), Φ (left.lower env scope) →
      Φ (right.lower env scope) →
      Φ (Lower.comparison relation (left.lower env scope) (right.lower env scope)))
    (booleanCast : ∀ inner : Expr, Φ (inner.lower env scope) →
      Φ (Lower.booleanCast (inner.lower env scope)))
    (conditional : ∀ keepBoolean (condition onTrue onFalse : Expr), Φ (condition.lower env scope) →
      Φ (onTrue.lower env scope) → Φ (onFalse.lower env scope) →
      Φ (Lower.conditional env keepBoolean (condition.lower env scope) (onTrue.lower env scope)
        (onFalse.lower env scope)))
    (assignment : ∀ target (value : Expr), Φ (value.lower env scope) →
      Φ (Lower.assignment env scope target (value.lower env scope)))
    (call : ∀ callee (arguments : List Expr), (∀ e ∈ arguments, Φ (e.lower env scope)) →
      Φ (Lower.call env callee (lowerAll env scope arguments)))
    (e : Expr) : Φ (e.lower env scope) := by
  induction e using Expr.induction with
  | int value => exact constant (.int value .i32) rfl
  | float value => exact constant (.float value .double) rfl
  | var name => exact readVariable name
  | preIncrement name delta => exact increment name delta true
  | postIncrement name delta => exact increment name delta false
  | arith op left right hl hr => exact binary _ _ _ _ hl hr
  | compare op left right hl hr => exact comparison _ _ _ hl hr
  | logicalAnd left right hl hr => exact binary _ _ _ _ hl hr
  | logicalOr left right hl hr => exact binary _ _ _ _ hl hr
  | boolCast operand h => exact booleanCast _ h
  | conditional condition onTrue onFalse hc ht hf => exact conditional _ _ _ _ hc ht hf
  | assign target value h => exact assignment _ _ h
  | call callee arguments h =>
    rw [lower]
    exact call _ _ h

/-- As `Expr.lower_induction_parts`, for what does not need to know where the parts come from. -/
theorem Expr.lower_induction {env : LowerEnv} {scope : ScopeId} {Φ : Lower Segment → Prop}
    (constant : ∀ v, v.isLiteral = true → Φ (pure (.ofValue v)))
    (readVariable : ∀ name, Φ (Lower.readVariable env scope name))
    (increment : ∀ name delta before, Φ (Lower.increment env scope name delta before))
    (binary : ∀ op ty left right, Φ left → Φ right → Φ (Lower.binary op ty left right))
    (comparison : ∀ relation left right, Φ left → Φ right →
      Φ (Lower.comparison relation left right))
    (booleanCast : ∀ inner, Φ inner → Φ (Lower.booleanCast inner))
    (conditional : ∀ keepBoolean condition onTrue onFalse, Φ condition → Φ onTrue → Φ onFalse →
      Φ (Lower.conditional env keepBoolean condition onTrue onFalse))
    (assignment : ∀ target value, Φ value → Φ (Lower.assignment env scope target value))
    (call : ∀ callee args, (∀ x ∈ args, Φ x) → Φ (Lower.call env callee args))
    (e : Expr) : Φ (e.lower env scope) := by
  refine lower_induction_parts constant readVariable increment (fun op ty _ _ => binary op ty _ _)
    (fun relation _ _ => comparison relation _ _) (fun _ => booleanCast _)
    (fun keepBoolean _ _ _ => conditional keepBoolean _ _ _) (fun target _ => assignment target _)
    (fun callee arguments h => call callee _ ?_) e
  intro x hx
  obtain ⟨e, hmem, rfl⟩ := mem_lowerAll hx
  exact h e hmem

end MiniC
