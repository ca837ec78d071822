import MiniC.Expr

/-!
# Statements
-/

namespace MiniC

/-- One declared variable of a declaration. -/
structure Declarator where
  name : String
  ty : Ty
  initializer : Option Expr

/-- A statement. The parts of a loop header may be missing, and so may the `else` part of an `if`
and the value of a `return`. -/
inductive Stmt where
  | expression (e : Expr)
  | declaration (declarators : List Declarator)
  | compound (body : List Stmt)
  | ifElse (condition : Expr) (onTrue : Stmt) (onFalse : Option Stmt)
  | whileLoop (condition : Expr) (body : Stmt)
  | forLoop (init : Option Stmt) (condition step : Option Expr) (body : Stmt)
  | ret (value : Option Expr)
  | brk
  | cont

end MiniC
