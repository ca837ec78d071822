import Mathlib.Logic.Equiv.Basic
import MiniC.Compiler
import MiniC.Proofs.Staging
import MiniC.Proofs.StmtSteps
import MiniC.Proofs.TreeInduction

/-!
# Names of variables do not reach the code

Names of variables are used for nothing but declaring and looking up slots. If all of them are
replaced by other names, different ones for different ones, then every step of lowering does the
same on a state in which the bindings were renamed too. Only the errors that mention a variable tell
the difference. Functions keep their names.
-/

namespace MiniC

namespace Expr

mutual

/-- The expression with other names for its variables. -/
def rename (r : String → String) : Expr → Expr
  | .int value => .int value
  | .float value => .float value
  | .var name => .var (r name)
  | .preIncrement name delta => .preIncrement (r name) delta
  | .postIncrement name delta => .postIncrement (r name) delta
  | .arith op left right => .arith op (left.rename r) (right.rename r)
  | .compare op left right => .compare op (left.rename r) (right.rename r)
  | .logicalAnd left right => .logicalAnd (left.rename r) (right.rename r)
  | .logicalOr left right => .logicalOr (left.rename r) (right.rename r)
  | .boolCast operand => .boolCast (operand.rename r)
  | .conditional condition onTrue onFalse =>
    .conditional (condition.rename r) (onTrue.rename r) (onFalse.rename r)
  | .assign target value => .assign (r target) (value.rename r)
  | .call callee arguments => .call callee (renameAll r arguments)

def renameAll (r : String → String) : List Expr → List Expr
  | [] => []
  | e :: rest => e.rename r :: renameAll r rest

end

@[simp] lemma isBoolean_rename (r : String → String) (e : Expr) :
    (e.rename r).isBoolean = e.isBoolean := by
  cases e <;> rfl

end Expr

def Declarator.rename (r : String → String) (d : Declarator) : Declarator where
  name := r d.name
  ty := d.ty
  initializer := d.initializer.map (Expr.rename r)

namespace Stmt

mutual

/-- The statement with other names for its variables, those that it declares included. -/
def rename (r : String → String) : Stmt → Stmt
  | .expression e => .expression (e.rename r)
  | .declaration ds => .declaration (ds.map (Declarator.rename r))
  | .compound body => .compound (renameAll r body)
  | .ifElse condition onTrue none => .ifElse (condition.rename r) (onTrue.rename r) none
  | .ifElse condition onTrue (some onFalse) =>
    .ifElse (condition.rename r) (onTrue.rename r) (some (onFalse.rename r))
  | .whileLoop condition body => .whileLoop (condition.rename r) (body.rename r)
  | .forLoop none condition step body =>
    .forLoop none (condition.map (Expr.rename r)) (step.map (Expr.rename r)) (body.rename r)
  | .forLoop (some init) condition step body =>
    .forLoop (some (init.rename r)) (condition.map (Expr.rename r)) (step.map (Expr.rename r))
      (body.rename r)
  | .ret value => .ret (value.map (Expr.rename r))
  | .brk => .brk
  | .cont => .cont

def renameAll (r : String → String) : List Stmt → List Stmt
  | [] => []
  | x :: rest => x.rename r :: renameAll r rest

end

end Stmt

def Param.rename (r : String → String) (p : Param) : Param := { p with name := r p.name }

/-- The definition with other names for its parameters and variables. The function keeps its name,
and so do the functions that it calls. -/
def Definition.rename (r : String → String) (d : Definition) : Definition :=
  { d with params := d.params.map (Param.rename r), body := Stmt.renameAll r d.body }

/-- The error with the other name of the variable that it mentions. -/
def ScopeError.rename (r : String → String) : ScopeError → ScopeError
  | .redeclared name => .redeclared (r name)
  | .undeclaredVariable name => .undeclaredVariable (r name)
  | .undeclaredFunction name => .undeclaredFunction name
  | .functionRedefined name => .functionRedefined name

def CompileError.rename (r : String → String) : CompileError → CompileError
  | .scope cause => .scope (cause.rename r)
  | .parse cause => .parse cause
  | .lowering cause => .lowering cause

def Scope.rename (r : String → String) (s : Scope) : Scope :=
  { s with bindings := s.bindings.map fun b => (r b.1, b.2) }

namespace Scopes

/-- The scopes with other names for the variables bound in them. -/
def rename (r : String → String) (s : Scopes) : Scopes :=
  { s with scopes := s.scopes.map (Scope.rename r) }

variable {r : String → String}

lemma lookup_bindings_rename (hr : Function.Injective r) (bindings : List (String × Value))
    (name : String) :
    (bindings.map fun b => (r b.1, b.2)).lookup (r name) = bindings.lookup name := by
  induction bindings with
  | nil => rfl
  | cons b bindings ih =>
    have hname : (r name == r b.1) = (name == b.1) := by
      rw [Bool.eq_iff_iff, beq_iff_eq, beq_iff_eq, hr.eq_iff]
    rw [List.map_cons, List.lookup_cons, List.lookup_cons, hname, ih]

@[simp] lemma parent?_rename (s : Scopes) (id : ScopeId) :
    (s.rename r).parent? id = s.parent? id := by
  rw [parent?, parent?, rename, List.getElem?_map]
  cases s.scopes[id]? <;> rfl

lemma binding?_rename (hr : Function.Injective r) (s : Scopes) (id : ScopeId) (name : String) :
    (s.rename r).binding? id (r name) = s.binding? id name := by
  rw [binding?, binding?, rename, List.getElem?_map]
  cases s.scopes[id]? with
  | none => rfl
  | some scope => exact lookup_bindings_rename hr scope.bindings name

lemma chain_rename (s : Scopes) (id : ScopeId) : (s.rename r).chain id = s.chain id := by
  have hfrom : ∀ n id, (s.rename r).chainFrom n id = s.chainFrom n id := by
    intro n
    induction n with
    | zero => exact fun _ => rfl
    | succ n ih =>
      intro id
      rw [chainFrom, chainFrom, parent?_rename]
      cases s.parent? id with
      | none => rfl
      | some parent => exact congrArg (id :: ·) (ih parent)
  exact hfrom _ _

/-- A variable has the slot that it had under its old name. -/
lemma lookup_rename (hr : Function.Injective r) (s : Scopes) (id : ScopeId) (name : String) :
    (s.rename r).lookup id (r name) = (s.lookup id name).mapError (ScopeError.rename r) := by
  rw [lookup, lookup, chain_rename]
  simp only [binding?_rename hr]
  cases (s.chain id).findSome? fun id => s.binding? id name <;> rfl

/-- A variable can be declared under its new name where it could be under the old one. -/
lemma declare_rename (hr : Function.Injective r) (s : Scopes) (id : ScopeId) (name : String)
    (slot : Value) :
    (s.rename r).declare id (r name) slot =
      ((s.declare id name slot).map (rename r)).mapError (ScopeError.rename r) := by
  rw [declare, declare, binding?_rename hr]
  split
  · rfl
  · have hmodify : (s.scopes.map (Scope.rename r)).modify id (Scope.bind · (r name) slot) =
        (s.scopes.modify id (Scope.bind · name slot)).map (Scope.rename r) := by
      refine List.ext_getElem? fun k => ?_
      simp only [List.getElem?_modify, List.getElem?_map]
      cases s.scopes[k]? with
      | none => rfl
      | some scope => by_cases hk : id = k <;> simp [hk, Scope.rename, Scope.bind]
    simp only [rename, hmodify]
    rfl

end Scopes

def LowerState.rename (r : String → String) (s : LowerState) : LowerState :=
  { s with scopes := s.scopes.rename r }

namespace Lower

variable {α β : Type} {r : String → String} {env : LowerEnv} {ctx : Context}

/-- The outcome of a step with other names in the state, and in the error if there is one. -/
def renamed (r : String → String) :
    EStateM.Result CompileError LowerState α → EStateM.Result CompileError LowerState α
  | .ok a s => .ok a (s.rename r)
  | .error e s => .error (e.rename r) (s.rename r)

/-- Whether `y` does with renamed variables what `x` does. -/
def Renames (r : String → String) (x y : Lower α) : Prop :=
  ∀ s, y (s.rename r) = renamed r (x s)

namespace Renames

lemma pure (a : α) : Renames r (pure a : Lower α) (Pure.pure a) := fun _ => rfl

lemma throw (e : LoweringError) :
    Renames r (throw (.lowering e) : Lower α) (throw (.lowering e)) := fun _ => rfl

lemma bind {x y : Lower α} {f g : α → Lower β} (hx : Renames r x y)
    (hf : ∀ a, Renames r (f a) (g a)) : Renames r (x >>= f) (y >>= g) := by
  intro s
  rw [bind_run, bind_run, hx s]
  cases x s with
  | ok a t => exact hf a t
  | error e t => rfl

/-- What reads the state sees the renamed one. -/
lemma get_bind {f g : LowerState → Lower α} (hf : ∀ s, Renames r (f s) (g (s.rename r))) :
    Renames r (get >>= f) (get >>= g) := fun s => hf s s

lemma ite {p : Prop} [Decidable p] {x y x' y' : Lower α} (hx : Renames r x x')
    (hy : Renames r y y') : Renames r (if p then x else y) (if p then x' else y') := by
  split
  · exact hx
  · exact hy

lemma ofLowering (x : Except LoweringError α) :
    Renames r (ofLowering x) (Lower.ofLowering x) := by
  cases x with
  | ok a => exact pure a
  | error e => exact throw e

lemma ofScope {x y : Except ScopeError α}
    (h : y = x.mapError (ScopeError.rename r)) : Renames r (ofScope x) (Lower.ofScope y) := by
  subst h
  cases x with
  | ok a => exact pure a
  | error e => exact fun _ => rfl

/-- As `bind`, behind a step that gives scopes. -/
lemma ofScope_bind {f g : Scopes → Lower α} {x : Except ScopeError Scopes}
    (hf : ∀ scopes, Renames r (f scopes) (g (scopes.rename r))) :
    Renames r (Lower.ofScope x >>= f)
      (Lower.ofScope ((x.map (Scopes.rename r)).mapError (ScopeError.rename r)) >>= g) := by
  cases x with
  | ok scopes => exact hf scopes
  | error e => exact fun _ => rfl

/-- Changes that do not touch bindings. -/
lemma modifyGet {f : LowerState → α × LowerState}
    (hf : ∀ s, f (s.rename r) = ((f s).1, (f s).2.rename r)) :
    Renames r (modifyGet f : Lower α) (MonadStateOf.modifyGet f) := by
  intro s
  change EStateM.Result.ok (f (s.rename r)).1 (f (s.rename r)).2 = _
  rw [hf]
  rfl

lemma freshNumber : Renames r freshNumber Lower.freshNumber := modifyGet fun _ => rfl

lemma newTemp (ty : Ty) : Renames r (newTemp ty) (Lower.newTemp ty) :=
  bind freshNumber fun _ => pure _

lemma newLabel : Renames r newLabel Lower.newLabel := modifyGet fun _ => rfl

lemma emit (e : Event) : Renames r (emit e) (Lower.emit e) := modifyGet fun _ => rfl

lemma openScope (parent : ScopeId) : Renames r (openScope parent) (Lower.openScope parent) := by
  refine modifyGet fun s => ?_
  simp [Scopes.openChild, LowerState.rename, Scopes.rename, Scope.rename]

lemma currentBlock : Renames r currentBlock Lower.currentBlock := get_bind fun _ => pure _

lemma lookup (hr : Function.Injective r) (scope : ScopeId) (name : String) :
    Renames r (lookup scope name) (Lower.lookup scope (r name)) :=
  get_bind fun s => ofScope (s.scopes.lookup_rename hr scope name)

lemma placeLabel (l : Label) : Renames r (placeLabel l) (Lower.placeLabel l) := by
  refine bind freshNumber fun name => get_bind fun s => bind (ofLowering _) fun fixed => ?_
  exact bind (modifyGet fun _ => rfl) fun _ => pure _

lemma jumpAfter (code : Code) (target : Label) :
    Renames r (jumpAfter env code target) (Lower.jumpAfter env code target) :=
  ite (bind (emit _) fun _ => pure _) (pure _)

lemma openBlockAfter (code : Code) :
    Renames r (openBlockAfter code) (Lower.openBlockAfter code) := by
  refine ite (bind (emit _) fun _ => bind newLabel fun l => ?_) (pure _)
  exact bind (placeLabel l) fun mark => pure _

lemma load (slot : Value) : Renames r (load env slot) (Lower.load env slot) :=
  bind (newTemp _) fun _ => bind (ofLowering _) fun _ => pure _

lemma store (value slot : Value) : Renames r (store env value slot) (Lower.store env value slot) :=
  bind (ofLowering _) fun _ => pure _

lemma declareSlot (hr : Function.Injective r) (scope : ScopeId) (name : String) (ty : Ty) :
    Renames r (declareSlot env scope name ty) (Lower.declareSlot env scope (r name) ty) := by
  refine bind (bind freshNumber fun _ => pure _) fun slot => get_bind fun s => ?_
  have hdeclare : (s.rename r).scopes.declare scope (r name) slot =
      ((s.scopes.declare scope name slot).map (Scopes.rename r)).mapError (ScopeError.rename r) :=
    s.scopes.declare_rename hr scope name slot
  rw [hdeclare]
  refine ofScope_bind fun scopes => bind (fun _ => rfl) fun _ => ?_
  exact bind (ofLowering _) fun i => pure _

lemma coerce (value : Value) (target : Ty) (context : String) :
    Renames r (coerce value target context) (Lower.coerce value target context) := by
  refine ite (pure _) (ite (bind (ofLowering _) fun _ => pure _) (ite ?_ (throw _)))
  exact bind (newTemp _) fun _ => bind (ofLowering _) fun _ => pure _

lemma operand {x y : Lower Segment} (hx : Renames r x y) (context : String) :
    Renames r (operand x context) (Lower.operand y context) := by
  refine bind hx fun seg => ?_
  cases seg.result with
  | none => exact throw _
  | some v => exact pure _

lemma operandAs {x y : Lower Segment} (hx : Renames r x y) (ty : Ty) (context : String) :
    Renames r (operandAs x ty context) (Lower.operandAs y ty context) :=
  bind (operand hx _) fun _ => bind (coerce _ _ _) fun _ => pure _

lemma readVariable (hr : Function.Injective r) (scope : ScopeId) (name : String) :
    Renames r (readVariable env scope name) (Lower.readVariable env scope (r name)) :=
  bind (lookup hr _ _) fun _ => bind (load _) fun _ => pure _

lemma increment (hr : Function.Injective r) (scope : ScopeId) (name : String) (delta : Int)
    (before : Bool) : Renames r (increment env scope name delta before)
      (Lower.increment env scope (r name) delta before) := by
  refine bind (lookup hr _ _) fun slot => bind (load _) fun old => bind (newTemp _) fun new => ?_
  exact bind (ofLowering _) fun sum => bind (store _ _) fun storing => pure _

lemma binary (op : BinaryOp) (ty : Ty) {left right left' right' : Lower Segment}
    (hl : Renames r left left') (hr : Renames r right right') :
    Renames r (binary op ty left right) (Lower.binary op ty left' right') := by
  refine bind (operandAs hl _ _) fun lhs => bind (operandAs hr _ _) fun rhs => ?_
  exact bind (newTemp _) fun result => bind (ofLowering _) fun i => pure _

lemma comparison (relation : Relation) {left right left' right' : Lower Segment}
    (hl : Renames r left left') (hr : Renames r right right') :
    Renames r (comparison relation left right) (Lower.comparison relation left' right') := by
  refine bind (operand hl _) fun lhs => bind (operand hr _) fun rhs => ?_
  refine bind (ofLowering _) fun ty => bind (coerce _ _ _) fun lhs => ?_
  refine bind (coerce _ _ _) fun rhs => bind (newTemp _) fun result => ?_
  exact bind (ofLowering _) fun i => pure _

lemma booleanCast {x y : Lower Segment} (hx : Renames r x y) :
    Renames r (booleanCast x) (Lower.booleanCast y) := by
  refine bind (operand hx _) fun v => ite (pure _) (ite ?_ (throw _))
  exact bind (newTemp _) fun result => bind (ofLowering _) fun i => pure _

lemma conditional {condition onTrue onFalse condition' onTrue' onFalse' : Lower Segment}
    (hcond : Renames r condition condition') (htrue : Renames r onTrue onTrue')
    (hfalse : Renames r onFalse onFalse') (keepBoolean : Bool) :
    Renames r (conditional env keepBoolean condition onTrue onFalse)
      (Lower.conditional env keepBoolean condition' onTrue' onFalse') := by
  have harm : ∀ {x y : Lower Segment}, Renames r x y →
      Renames r (arm keepBoolean x) (arm keepBoolean y) := fun hx =>
    bind (operand hx _) fun _ => ite (bind (coerce _ _ _) fun _ => pure _) (pure _)
  refine bind (operandAs hcond _ _) fun test => ?_
  refine bind newLabel fun trueLabel => bind newLabel fun falseLabel => bind newLabel fun join => ?_
  refine bind (ofLowering _) fun branch => bind (placeLabel _) fun trueMark => ?_
  refine bind (harm htrue) fun trueArm => bind currentBlock fun trueBlock => ?_
  refine bind (jumpAfter _ _) fun trueJump => bind (placeLabel _) fun falseMark => ?_
  refine bind (harm hfalse) fun falseArm => bind currentBlock fun falseBlock => ?_
  refine bind (jumpAfter _ _) fun falseJump => bind (placeLabel _) fun joinMark => ?_
  refine bind (ofLowering _) fun trueValue => bind (ofLowering _) fun falseValue => ?_
  exact bind (newTemp _) fun result => bind (ofLowering _) fun phi => pure _

lemma assignment (hr : Function.Injective r) (scope : ScopeId) (target : String)
    {x y : Lower Segment} (hx : Renames r x y) :
    Renames r (assignment env scope target x) (Lower.assignment env scope (r target) y) := by
  refine bind (lookup hr _ _) fun slot => bind (operandAs hx _ _) fun v => ?_
  exact bind (store _ _) fun storing => pure _

lemma arguments {args args' : List (Lower Segment)} (hargs : List.Forall₂ (Renames r) args args')
    (tys : List Ty) : Renames r (arguments args tys) (Lower.arguments args' tys) := by
  induction hargs generalizing tys with
  | nil => exact pure _
  | cons hx _ ih =>
    cases tys with
    | nil => exact pure _
    | cons ty tys =>
      exact bind (operandAs hx _ _) fun first => bind (ih tys) fun more => pure _

lemma call (callee : String) {args args' : List (Lower Segment)}
    (hargs : List.Forall₂ (Renames r) args args') :
    Renames r (call env callee args) (Lower.call env callee args') := by
  have hcallee : env.functions.lookup callee =
      (env.functions.lookup callee).mapError (ScopeError.rename r) := by
    rw [FunctionTable.lookup]
    cases env.functions.find? callee <;> rfl
  rw [Lower.call, Lower.call, ← hargs.length_eq]
  refine bind (ofScope hcallee) fun signature => ite ?_ (throw _)
  refine bind (arguments hargs _) fun values => ?_
  have hcall : ∀ result, Renames r (do
      let i ← Lower.ofLowering (Instr.mkCall result callee signature.returnTy values.2)
      return (⟨values.1 ++ [i], result⟩ : Segment)) (do
      let i ← Lower.ofLowering (Instr.mkCall result callee signature.returnTy values.2)
      return (⟨values.1 ++ [i], result⟩ : Segment)) :=
    fun result => bind (ofLowering _) fun _ => pure _
  exact ite (bind (pure none) hcall) (bind (newTemp _) fun v => bind (pure (some v)) hcall)

end Renames

end Lower

namespace Expr

open Lower

variable {r : String → String} {env : LowerEnv}

lemma lowerAll_renames {scope : ScopeId} {es : List Expr}
    (h : ∀ e ∈ es, Renames r (e.lower env scope) ((e.rename r).lower env scope)) :
    List.Forall₂ (Renames r) (lowerAll env scope es) (lowerAll env scope (renameAll r es)) := by
  induction es with
  | nil => exact .nil
  | cons e es ih =>
    rw [List.forall_mem_cons] at h
    exact .cons h.1 (ih h.2)

/-- The code of an expression does not depend on the names of its variables. -/
lemma lower_renames (hr : Function.Injective r) (scope : ScopeId) (e : Expr) :
    Renames r (e.lower env scope) ((e.rename r).lower env scope) := by
  induction e using Expr.induction with
  | int value => exact .pure _
  | float value => exact .pure _
  | var name => exact .readVariable hr scope name
  | preIncrement name delta => exact .increment hr scope name delta true
  | postIncrement name delta => exact .increment hr scope name delta false
  | arith op left right hleft hright => exact .binary _ _ hleft hright
  | compare op left right hleft hright => exact .comparison _ hleft hright
  | logicalAnd left right hleft hright => exact .binary _ _ hleft hright
  | logicalOr left right hleft hright => exact .binary _ _ hleft hright
  | boolCast operand hx => exact .booleanCast hx
  | conditional condition onTrue onFalse hcond htrue hfalse =>
    rw [rename, lower, lower, isBoolean_rename, isBoolean_rename]
    exact .conditional hcond htrue hfalse _
  | assign target value hx => exact .assignment hr scope target hx
  | call callee arguments hargs =>
    rw [rename, lower, lower]
    exact .call callee (lowerAll_renames hargs)

end Expr

namespace Lower.Renames

variable {r : String → String} {env : LowerEnv} {ctx : Context}

lemma declarator (hr : Function.Injective r) (scope : ScopeId) (d : Declarator) :
    Renames r (declarator env scope d) (Lower.declarator env scope (d.rename r)) := by
  obtain ⟨name, ty, initializer⟩ := d
  refine bind (declareSlot hr _ _ _) fun slot => ?_
  cases initializer with
  | none => exact pure _
  | some e =>
    refine bind (operandAs (e.lower_renames hr scope) _ _) fun v => ?_
    exact bind (store _ _) fun storing => pure _

lemma declaration (hr : Function.Injective r) (scope : ScopeId) (ds : List Declarator) :
    Renames r (declaration env scope ds)
      (Lower.declaration env scope (ds.map (Declarator.rename r))) := by
  induction ds with
  | nil => exact pure _
  | cons d rest ih => exact bind (declarator hr scope d) fun code => bind ih fun more => pure _

lemma branchOn {x y : Lower Segment} (hx : Renames r x y) (onTrue onFalse : Label) :
    Renames r (branchOn x onTrue onFalse) (Lower.branchOn y onTrue onFalse) :=
  bind (operandAs hx _ _) fun _ => bind (ofLowering _) fun _ => pure _

lemma ifElse_none {condition condition' : Lower Segment} (hcond : Renames r condition condition')
    {onTrue onTrue' : Lower Code} (htrue : Renames r onTrue onTrue') :
    Renames r (ifElse env condition onTrue none) (ifElse env condition' onTrue' none) := by
  refine bind newLabel fun trueLabel => bind newLabel fun falseLabel => ?_
  refine bind (branchOn hcond _ _) fun test => bind (placeLabel _) fun trueMark => ?_
  refine bind htrue fun trueCode => bind (jumpAfter _ _) fun jump => ?_
  exact bind (placeLabel _) fun falseMark => pure _

lemma ifElse_some {condition condition' : Lower Segment} (hcond : Renames r condition condition')
    {onTrue onTrue' onFalse onFalse' : Lower Code} (htrue : Renames r onTrue onTrue')
    (hfalse : Renames r onFalse onFalse') :
    Renames r (ifElse env condition onTrue (some onFalse))
      (ifElse env condition' onTrue' (some onFalse')) := by
  refine bind newLabel fun trueLabel => bind newLabel fun falseLabel => ?_
  refine bind (branchOn hcond _ _) fun test => bind (placeLabel _) fun trueMark => ?_
  refine bind htrue fun trueCode => bind newLabel fun endLabel => ?_
  refine bind (jumpAfter _ _) fun trueJump => bind (placeLabel _) fun falseMark => ?_
  refine bind hfalse fun falseCode => bind (jumpAfter _ _) fun falseJump => ?_
  exact bind (placeLabel _) fun endMark => pure _

lemma whileLoop {condition condition' : Lower Segment} (hcond : Renames r condition condition')
    {body body' : Context → Lower Code} (hbody : ∀ ctx, Renames r (body ctx) (body' ctx)) :
    Renames r (whileLoop env ctx condition body) (Lower.whileLoop env ctx condition' body') := by
  refine bind newLabel fun checkLabel => bind newLabel fun bodyLabel => bind newLabel fun exit => ?_
  refine bind (jumpAfter _ _) fun entering => bind (placeLabel _) fun checkMark => ?_
  refine bind (branchOn hcond _ _) fun test => bind (placeLabel _) fun bodyMark => ?_
  refine bind (hbody _) fun bodyCode => bind (jumpAfter _ _) fun back => ?_
  exact bind (placeLabel _) fun exitMark => pure _

lemma loopTest (hr : Function.Injective r) (scope : ScopeId) (code : Code) (condition : Option Expr)
    (bodyLabel exitLabel : Label) :
    Renames r
      (loopTest env code ((condition.map fun e scope => e.lower env scope).map (· scope)) bodyLabel
        exitLabel)
      (Lower.loopTest env code
        (((condition.map (Expr.rename r)).map fun e scope => e.lower env scope).map (· scope))
        bodyLabel exitLabel) := by
  cases condition with
  | none => exact jumpAfter _ _
  | some e => exact branchOn (e.lower_renames hr scope) _ _

lemma stepAfter (hr : Function.Injective r) (scope : ScopeId) (code : Code) (step : Option Expr) :
    Renames r
      (stepAfter code ((step.map fun e scope => e.lower env scope).map (· scope)))
      (Lower.stepAfter code
        (((step.map (Expr.rename r)).map fun e scope => e.lower env scope).map (· scope))) := by
  cases step with
  | none => exact pure _
  | some e =>
    exact bind (openBlockAfter _) fun opened => bind (e.lower_renames hr scope) fun seg => pure _

lemma forLoop (hr : Function.Injective r) {init init' : Option (Context → Lower Code)}
    (hinit : ∀ ctx, Renames r (initial init ctx) (initial init' ctx)) (condition step : Option Expr)
    {body body' : Context → Lower Code} (hbody : ∀ ctx, Renames r (body ctx) (body' ctx)) :
    Renames r
      (forLoop env ctx init (condition.map fun e scope => e.lower env scope)
        (step.map fun e scope => e.lower env scope) body)
      (Lower.forLoop env ctx init'
        ((condition.map (Expr.rename r)).map fun e scope => e.lower env scope)
        ((step.map (Expr.rename r)).map fun e scope => e.lower env scope) body') := by
  rw [forLoop_eq, forLoop_eq]
  refine bind (openScope _) fun scope => bind (hinit _) fun initCode => ?_
  refine bind newLabel fun checkLabel => bind newLabel fun bodyLabel => bind newLabel fun exit => ?_
  refine bind (jumpAfter _ _) fun entering => bind (placeLabel _) fun checkMark => ?_
  refine bind (loopTest hr _ _ _ _ _) fun test => bind (placeLabel _) fun bodyMark => ?_
  refine bind (hbody _) fun bodyCode => bind (stepAfter hr _ _ _) fun code => ?_
  exact bind (jumpAfter _ _) fun back => bind (placeLabel _) fun exitMark => pure _

lemma ret (hr : Function.Injective r) (scope : ScopeId) (value : Option Expr) :
    Renames r (ret env (value.map fun e => e.lower env scope))
      (Lower.ret env ((value.map (Expr.rename r)).map fun e => e.lower env scope)) := by
  cases value with
  | none => exact ite (pure _) (throw _)
  | some e =>
    refine bind (operand (e.lower_renames hr scope) _) fun v => ite (throw _) ?_
    exact bind (coerce _ _ _) fun conversion => pure _

lemma leave (target : Option Label) (outside : LoweringError) :
    Renames r (leave target outside) (Lower.leave target outside) := by
  cases target with
  | none => exact throw _
  | some l => exact pure _

end Lower.Renames

namespace Stmt

open Lower

variable {r : String → String} {env : LowerEnv}

lemma lowerAll_renames {body : List Stmt}
    (h : ∀ x ∈ body, ∀ ctx, Renames r (x.lower env ctx) ((x.rename r).lower env ctx))
    (ctx : Context) (code : Code) :
    Renames r (lowerAll env body ctx code) (lowerAll env (renameAll r body) ctx code) := by
  induction body generalizing code with
  | nil => exact .pure _
  | cons x rest ih =>
    rw [List.forall_mem_cons] at h
    exact .bind (.openBlockAfter _) fun opened => .bind (h.1 ctx) fun added => ih h.2 _

/-- The code of a statement does not depend on the names of its variables. -/
lemma lower_renames (hr : Function.Injective r) (x : Stmt) :
    ∀ ctx, Renames r (x.lower env ctx) ((x.rename r).lower env ctx) := by
  induction x using Stmt.induction with
  | expression e => exact fun ctx => .bind (e.lower_renames hr _) fun seg => .pure _
  | declaration ds => exact fun ctx => .declaration hr _ ds
  | compound body hbody =>
    exact fun ctx => .bind (.openScope _) fun scope => lowerAll_renames hbody _ _
  | ifElse condition onTrue onFalse htrue hfalse =>
    intro ctx
    cases onFalse with
    | none => exact .ifElse_none (condition.lower_renames hr _) (htrue ctx)
    | some onFalse =>
      exact .ifElse_some (condition.lower_renames hr _) (htrue ctx) (hfalse onFalse rfl ctx)
  | whileLoop condition body hbody =>
    exact fun ctx => .whileLoop (condition.lower_renames hr _) hbody
  | forLoop init condition step body hinit hbody =>
    intro ctx
    cases init with
    | none =>
      rw [rename, lower, lower]
      have hnone : ∀ ctx, Renames r (initial none ctx) (initial none ctx) := fun _ => .pure _
      exact .forLoop hr hnone condition step hbody
    | some init =>
      rw [rename, lower, lower]
      refine .forLoop hr (fun ctx => ?_) condition step hbody
      exact hinit init rfl ctx
  | ret value => exact fun ctx => .ret hr _ value
  | brk => exact fun ctx => .leave _ _
  | cont => exact fun ctx => .leave _ _

end Stmt

namespace Definition

open Lower

variable {r : String → String}

lemma paramSlots_renames (env : LowerEnv) (hr : Function.Injective r) (params : List Param)
    (arguments : List Value) :
    Renames r (paramSlots env (params.zip arguments))
      (paramSlots env ((params.map (Param.rename r)).zip arguments)) := by
  induction params generalizing arguments with
  | nil => exact .pure _
  | cons p params ih =>
    cases arguments with
    | nil => exact .pure _
    | cons argument arguments =>
      refine .bind (.declareSlot hr _ _ _) fun slot => .bind (.store _ _) fun storing => ?_
      exact .bind (ih arguments) fun more => .pure _

lemma lowerIn_renames (env : LowerEnv) (hr : Function.Injective r) (d : Definition) :
    Renames r (d.lowerIn env) ((d.rename r).lowerIn env) := by
  have hending : ∀ code, Renames r (endingAfter env d.name code) (endingAfter env d.name code) :=
    fun code => .ite (.pure _) (.ite (.pure _) (.bind (.emit _) fun _ => .pure _))
  have hresolve : ∀ code, Renames r (resolve code) (resolve code) := by
    intro code
    refine .get_bind fun s => .bind (.ofLowering _) fun _ => ?_
    have hlabels : (s.rename r).labels = s.labels := rfl
    rw [hlabels]
    split
    · exact .pure _
    · exact .throw _
  refine .bind (paramSlots_renames env hr _ _) fun paramCode => .bind (.openScope _) fun scope => ?_
  refine .bind (Stmt.lowerAll_renames (fun x _ => x.lower_renames hr) _ _) fun body => ?_
  refine .bind (hending _) fun ending => .bind (hresolve _) fun code => ?_
  exact .get_bind fun s => .bind (.emit _) fun _ => .pure _

@[simp] lemma signature_rename (d : Definition) : (d.rename r).signature = d.signature := by
  rw [signature, signature, paramTys, paramTys, rename, List.map_map]
  rfl

/-- Nothing but the name of a variable in an error tells the definitions apart. -/
lemma lower_rename (hr : Function.Injective r) (d : Definition) (functions : FunctionTable)
    (options : Options) : (d.rename r).lower functions options =
      ((d.lower functions options).1.mapError (CompileError.rename r),
        (d.lower functions options).2) := by
  have hrun := d.lowerIn_renames (.ofSignature functions options d.signature) hr
    (LowerEnv.start (.ofSignature functions options d.signature))
  have hstart : (LowerEnv.start (.ofSignature functions options d.signature)).rename r =
      LowerEnv.start (.ofSignature functions options d.signature) := rfl
  rw [hstart] at hrun
  rw [lower, lower, signature_rename]
  simp only [hrun]
  cases d.lowerIn (.ofSignature functions options d.signature)
    (LowerEnv.start (.ofSignature functions options d.signature)) <;> rfl

end Definition

/-- A function is refused only because its name is known already. -/
lemma FunctionTable.register_error {f : FunctionTable} {name : String} {s : Signature}
    {e : ScopeError} (h : f.register name s = .error e) : e = .functionRedefined name := by
  rw [register] at h
  split at h
  · exact (Except.error.inj h).symm
  · cases h

/-- The names of variables do not reach the code. A definition with other names for its parameters
and variables, different ones for different ones, gives the same segment, or the same error except
that one about a variable mentions it by its new name. The compiler reports the same on the way and
is left in the same state. -/
theorem Compiler.lowerDefinition_rename (c : Compiler) (d : Definition) {r : String → String}
    (hr : Function.Injective r) :
    (c.lowerDefinition (d.rename r)).result =
        (c.lowerDefinition d).result.mapError (CompileError.rename r) ∧
      (c.lowerDefinition (d.rename r)).compiler = (c.lowerDefinition d).compiler ∧
      (c.lowerDefinition (d.rename r)).log = (c.lowerDefinition d).log := by
  have hname : (d.rename r).name = d.name := rfl
  rw [lowerDefinition, lowerDefinition, hname, Definition.signature_rename]
  cases hregister : c.functions.register d.name d.signature with
  | error e =>
    obtain rfl := FunctionTable.register_error hregister
    exact ⟨rfl, rfl, rfl⟩
  | ok functions => simp only [Definition.lower_rename hr, and_self]

/-- A function with a block that hides its parameter `a`, and then declares another variable. -/
def Definition.hiding (other : String) : Definition := ⟨"f", .i32, [⟨"a", .i32⟩],
  [.declaration [⟨"b", .i32, some (.var "a")⟩],
    .compound [.declaration [⟨"a", .i32, some (.var "b")⟩, ⟨other, .i32, some (.var "a")⟩],
      .expression (.assign "b" (.arith .add (.var "a") (.var "b")))],
    .ret (some (.var "b"))]⟩

/-- With its two names exchanged the function has the same code. If the block declares `a` twice,
the error names the variable by its new name. -/
theorem hiding_names_exchanged :
    (∃ seg, (Compiler.lowerDefinition {} (.hiding "b")).result = .ok seg ∧
      (Compiler.lowerDefinition {} ((Definition.hiding "b").rename (Equiv.swap "a" "b"))).result =
        .ok seg) ∧
    (Compiler.lowerDefinition {} ((Definition.hiding "a").rename (Equiv.swap "a" "b"))).result =
      .error (.scope (.redeclared "b")) := by
  have hr : Function.Injective (Equiv.swap "a" "b") := Equiv.injective _
  have haccepted : (Compiler.lowerDefinition {} (.hiding "b")).result.isOk = true := by
    decide +kernel
  have hrefused : (Compiler.lowerDefinition {} (.hiding "a")).result =
      .error (.scope (.redeclared "a")) := by
    decide +kernel
  constructor
  · have hsame := (Compiler.lowerDefinition_rename {} (.hiding "b") hr).1
    cases hresult : (Compiler.lowerDefinition {} (.hiding "b")).result with
    | error e =>
      rw [hresult] at haccepted
      cases haccepted
    | ok seg =>
      rw [hresult] at hsame
      exact ⟨seg, rfl, hsame⟩
  · rw [(Compiler.lowerDefinition_rename {} (.hiding "a") hr).1, hrefused]
    simp [Except.mapError, CompileError.rename, ScopeError.rename]

end MiniC
