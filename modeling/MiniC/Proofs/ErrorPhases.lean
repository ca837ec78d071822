import MiniC.Proofs.ErrorKinds
import MiniC.Proofs.Staging
import MiniC.Proofs.StmtSteps
import MiniC.Proofs.TreeInduction

/-!
# Errors of lowering

Lowering refuses a tree because of its names, its types or the places of its statements. It never
reports an error of the parser, so an error of compiling has a place in the source exactly if the
parser found it, and it reports that a statement has no loop to leave only if the tree has such a
statement.
-/

namespace MiniC

/-- Whether the error is none of the parser, and if it is about a statement outside of a loop, then
about one of `leaves`. -/
def CompileError.Among (leaves : List Leave) : CompileError → Prop
  | .parse _ => False
  | .scope _ => True
  | .lowering cause => ∀ leave, cause.leave? = some leave → leave ∈ leaves

namespace Lower

variable {α β : Type} {env : LowerEnv} {ctx : Context} {leaves : List Leave}

/-- Whether a step fails with no other errors than these. -/
def Raises (leaves : List Leave) (x : Lower α) : Prop := ∀ s e s', x s = .error e s' → e.Among leaves

namespace Raises

lemma pure (a : α) : Raises leaves (pure a : Lower α) := by
  intro s e s' h
  cases h

lemma bind {x : Lower α} {f : α → Lower β} (hx : Raises leaves x) (hf : ∀ a, Raises leaves (f a)) :
    Raises leaves (x >>= f) := by
  intro s e s' h
  rw [bind_run] at h
  cases hrun : x s with
  | ok a t =>
    rw [hrun] at h
    exact hf a t e s' h
  | error e' t =>
    rw [hrun] at h
    cases h
    exact hx s e s' hrun

lemma ite {p : Prop} [Decidable p] {x y : Lower α} (hx : Raises leaves x) (hy : Raises leaves y) :
    Raises leaves (if p then x else y) := by
  split
  · exact hx
  · exact hy

lemma throw {e : LoweringError} (he : e.leave? = none) :
    Raises leaves (throw (.lowering e) : Lower α) := by
  intro s _ s' h
  cases h
  intro leave hleave
  rw [he] at hleave
  cases hleave

lemma ofLowering {x : Except LoweringError α} (hx : RaisesOnly LoweringError.concernsOperands x) :
    Raises leaves (ofLowering x) := by
  cases x with
  | ok a => exact pure a
  | error e => exact throw (LoweringError.leave?_of_operands (hx e rfl))

lemma ofTable {x : Except LoweringError α} (hx : RaisesOnly LoweringError.concernsLabels x) :
    Raises leaves (Lower.ofLowering x) := by
  cases x with
  | ok a => exact pure a
  | error e => exact throw (LoweringError.leave?_of_labels (hx e rfl))

lemma ofScope (x : Except ScopeError α) : Raises leaves (ofScope x) := by
  intro s e s' h
  cases x <;> cases h
  trivial

lemma get : Raises leaves (get : Lower LowerState) := by
  intro s e s' h
  cases h

/-- Changing the state cannot fail. -/
lemma modifyGet (f : LowerState → α × LowerState) : Raises leaves (modifyGet f : Lower α) := by
  intro s e s' h
  cases h

lemma newTemp (ty : Ty) : Raises leaves (newTemp ty) := bind (modifyGet _) fun _ => pure _

lemma newLabel : Raises leaves newLabel := modifyGet _

lemma currentBlock : Raises leaves currentBlock := bind get fun _ => pure _

lemma lookup (scope : ScopeId) (name : String) : Raises leaves (lookup scope name) :=
  bind get fun _ => ofScope _

lemma placeLabel (l : Label) : Raises leaves (placeLabel l) := by
  refine bind (modifyGet _) fun name => bind get fun s => ?_
  exact bind (ofTable (.fix _ _ _)) fun fixed => bind (modifyGet _) fun _ => pure _

lemma jumpAfter (code : Code) (target : Label) : Raises leaves (jumpAfter env code target) :=
  ite (bind (modifyGet _) fun _ => pure _) (pure _)

lemma openBlockAfter (code : Code) : Raises leaves (openBlockAfter code) := by
  refine ite (bind (modifyGet _) fun _ => bind newLabel fun l => ?_) (pure _)
  exact bind (placeLabel l) fun mark => pure _

lemma load (slot : Value) : Raises leaves (load env slot) :=
  bind (newTemp _) fun _ => bind (ofLowering (.mkLoad _ _ _)) fun _ => pure _

lemma store (value slot : Value) : Raises leaves (store env value slot) :=
  bind (ofLowering (.mkStore _ _ _)) fun _ => pure _

lemma declareSlot (scope : ScopeId) (name : String) (ty : Ty) :
    Raises leaves (declareSlot env scope name ty) := by
  refine bind (bind (modifyGet _) fun _ => pure _) fun slot => bind get fun s => ?_
  refine bind (ofScope _) fun scopes => bind (modifyGet _) fun _ => ?_
  exact bind (ofLowering (.mkAlloca _ _)) fun i => pure _

lemma coerce (value : Value) (target : Ty) (context : String) :
    Raises leaves (coerce value target context) := by
  refine ite (pure _) (ite (bind (ofLowering (.retypeLiteral _ _ _)) fun _ => pure _) ?_)
  exact ite (bind (newTemp _) fun _ => bind (ofLowering (.mkZext _ _)) fun _ => pure _) (throw rfl)

lemma operand {x : Lower Segment} (hx : Raises leaves x) (context : String) :
    Raises leaves (operand x context) := by
  refine bind hx fun seg => ?_
  cases seg.result with
  | none => exact throw rfl
  | some v => exact pure _

lemma operandAs {x : Lower Segment} (hx : Raises leaves x) (ty : Ty) (context : String) :
    Raises leaves (operandAs x ty context) :=
  bind (operand hx _) fun _ => bind (coerce _ _ _) fun _ => pure _

lemma conditional {condition onTrue onFalse : Lower Segment} (hcond : Raises leaves condition)
    (htrue : Raises leaves onTrue) (hfalse : Raises leaves onFalse) (keepBoolean : Bool) :
    Raises leaves (conditional env keepBoolean condition onTrue onFalse) := by
  have harm : ∀ {x : Lower Segment}, Raises leaves x → Raises leaves (arm keepBoolean x) := fun hx =>
    bind (operand hx _) fun _ => ite (bind (coerce _ _ _) fun _ => pure _) (pure _)
  refine bind (operandAs hcond _ _) fun test => ?_
  refine bind newLabel fun trueLabel => bind newLabel fun falseLabel => bind newLabel fun join => ?_
  refine bind (ofLowering (.mkBranch _ _ _)) fun branch => bind (placeLabel _) fun trueMark => ?_
  refine bind (harm htrue) fun trueArm => bind currentBlock fun trueBlock => ?_
  refine bind (jumpAfter _ _) fun trueJump => bind (placeLabel _) fun falseMark => ?_
  refine bind (harm hfalse) fun falseArm => bind currentBlock fun falseBlock => ?_
  refine bind (jumpAfter _ _) fun falseJump => bind (placeLabel _) fun joinMark => ?_
  refine bind (ofLowering (.retypeLiteral _ _ _)) fun trueValue => ?_
  refine bind (ofLowering (.retypeLiteral _ _ _)) fun falseValue => bind (newTemp _) fun result => ?_
  exact bind (ofLowering (.mkPhi _ _)) fun phi => pure _

lemma arguments {args : List (Lower Segment)} (hargs : ∀ x ∈ args, Raises leaves x)
    (tys : List Ty) : Raises leaves (arguments args tys) := by
  induction args generalizing tys with
  | nil => exact pure _
  | cons x rest ih =>
    cases tys with
    | nil => exact pure _
    | cons ty tys =>
      refine bind (operandAs (hargs x List.mem_cons_self) _ _) fun first => ?_
      exact bind (ih (fun y hy => hargs y (List.mem_cons_of_mem x hy)) tys) fun more => pure _

lemma call (callee : String) {args : List (Lower Segment)} (hargs : ∀ x ∈ args, Raises leaves x) :
    Raises leaves (call env callee args) := by
  refine bind (ofScope _) fun signature => ite ?_ (throw rfl)
  refine bind (arguments hargs _) fun values => ?_
  have hcall : ∀ result, Raises leaves (do
      let i ← Lower.ofLowering (Instr.mkCall result callee signature.returnTy values.2)
      return (⟨values.1 ++ [i], result⟩ : Segment)) :=
    fun result => bind (ofLowering (.mkCall _ _ _ _)) fun _ => pure _
  exact ite (bind (pure none) hcall) (bind (newTemp _) fun v => bind (pure (some v)) hcall)

end Raises

end Lower

open Lower in
lemma Expr.lower_raises {env : LowerEnv} {scope : ScopeId} (e : Expr) :
    Raises leaves (e.lower env scope) := by
  refine Expr.lower_induction (Φ := Raises leaves) ?constant ?readVariable ?increment ?binary
    ?comparison ?booleanCast ?conditional ?assignment ?call e
  case constant => exact fun v _ => .pure _
  case readVariable =>
    intro name
    exact .bind (.lookup _ _) fun slot => .bind (.load _) fun r => .pure _
  case increment =>
    intro name delta before
    refine .bind (.lookup _ _) fun slot => .bind (.load _) fun r => .bind (.newTemp _) fun v => ?_
    exact .bind (.ofLowering (.mkBinary _ _ _ _)) fun i => .bind (.store _ _) fun storing => .pure _
  case binary =>
    intro op ty left right hl hr
    refine .bind (.operandAs hl _ _) fun l => .bind (.operandAs hr _ _) fun r => ?_
    exact .bind (.newTemp _) fun v => .bind (.ofLowering (.mkBinary _ _ _ _)) fun i => .pure _
  case comparison =>
    intro relation left right hl hr
    refine .bind (.operand hl _) fun l => .bind (.operand hr _) fun r => ?_
    refine .bind (.ofLowering (.commonTy _ _)) fun ty => .bind (.coerce _ _ _) fun l => ?_
    refine .bind (.coerce _ _ _) fun r => .bind (.newTemp _) fun v => ?_
    exact .bind (.ofLowering (.mkIcmp _ _ _ _)) fun i => .pure _
  case booleanCast =>
    intro inner hx
    refine .bind (.operand hx _) fun r => .ite (.pure _) (.ite ?_ (.throw rfl))
    exact .bind (.newTemp _) fun v => .bind (.ofLowering (.mkIcmp _ _ _ _)) fun i => .pure _
  case conditional =>
    intro keepBoolean condition onTrue onFalse hc ht hf
    exact .conditional hc ht hf keepBoolean
  case assignment =>
    intro target value hx
    refine .bind (.lookup _ _) fun slot => .bind (.operandAs hx _ _) fun r => ?_
    exact .bind (.store _ _) fun storing => .pure _
  case call =>
    intro callee args hargs
    exact .call callee hargs

namespace Lower.Raises

variable {env : LowerEnv} {ctx : Context}

lemma declaration (scope : ScopeId) (ds : List Declarator) :
    Raises leaves (declaration env scope ds) := by
  induction ds with
  | nil => exact pure _
  | cons d rest ih =>
    refine bind (bind (declareSlot _ _ _) fun slot => ?_) fun code => bind ih fun more => pure _
    cases d.initializer with
    | none => exact pure _
    | some e =>
      exact bind (operandAs e.lower_raises _ _) fun v => bind (store _ _) fun _ => pure _

lemma branchOn {condition : Lower Segment} (hcond : Raises leaves condition)
    (onTrue onFalse : Label) : Raises leaves (branchOn condition onTrue onFalse) :=
  bind (operandAs hcond _ _) fun _ => bind (ofLowering (.mkBranch _ _ _)) fun _ => pure _

lemma ifElse {condition : Lower Segment} (hcond : Raises leaves condition) {onTrue : Lower Code}
    (htrue : Raises leaves onTrue) {onFalse : Option (Lower Code)}
    (hfalse : ∀ x ∈ onFalse, Raises leaves x) :
    Raises leaves (ifElse env condition onTrue onFalse) := by
  refine bind newLabel fun trueLabel => bind newLabel fun falseLabel => ?_
  refine bind (branchOn hcond _ _) fun test => bind (placeLabel _) fun trueMark => ?_
  refine bind htrue fun trueCode => ?_
  cases onFalse with
  | none => exact bind (jumpAfter _ _) fun jump => bind (placeLabel _) fun falseMark => pure _
  | some onFalse =>
    refine bind newLabel fun endLabel => bind (jumpAfter _ _) fun trueJump => ?_
    refine bind (placeLabel _) fun falseMark => bind (hfalse onFalse rfl) fun falseCode => ?_
    exact bind (jumpAfter _ _) fun falseJump => bind (placeLabel _) fun endMark => pure _

lemma whileLoop {condition : Lower Segment} (hcond : Raises leaves condition)
    {body : Context → Lower Code} (hbody : ∀ ctx, ctx.loop ≠ none → Raises leaves (body ctx)) :
    Raises leaves (whileLoop env ctx condition body) := by
  refine bind newLabel fun checkLabel => bind newLabel fun bodyLabel => bind newLabel fun exit => ?_
  refine bind (jumpAfter _ _) fun entering => bind (placeLabel _) fun checkMark => ?_
  refine bind (branchOn hcond _ _) fun test => bind (placeLabel _) fun bodyMark => ?_
  refine bind (hbody _ nofun) fun bodyCode => bind (jumpAfter _ _) fun back => ?_
  exact bind (placeLabel _) fun exitMark => pure _

lemma stepAfter (code : Code) {step : Option (Lower Segment)} (hstep : ∀ x ∈ step, Raises leaves x) :
    Raises leaves (stepAfter code step) := by
  cases step with
  | none => exact pure _
  | some x => exact bind (openBlockAfter _) fun opened => bind (hstep x rfl) fun seg => pure _

lemma initial {init : Option (Context → Lower Code)} (hinit : ∀ x ∈ init, Raises leaves (x ctx)) :
    Raises leaves (initial init ctx) := by
  cases init with
  | none => exact pure _
  | some x => exact hinit x rfl

lemma loopTest (code : Code) {condition : Option (Lower Segment)}
    (hcond : ∀ x ∈ condition, Raises leaves x) (bodyLabel exitLabel : Label) :
    Raises leaves (loopTest env code condition bodyLabel exitLabel) := by
  cases condition with
  | none => exact jumpAfter _ _
  | some x => exact branchOn (hcond x rfl) _ _

lemma forLoop {init : Option (Context → Lower Code)}
    (hinit : ∀ x ∈ init, ∀ scope, Raises leaves (x { ctx with scope }))
    {condition step : Option (ScopeId → Lower Segment)}
    (hcond : ∀ x ∈ condition, ∀ scope, Raises leaves (x scope))
    (hstep : ∀ x ∈ step, ∀ scope, Raises leaves (x scope))
    {body : Context → Lower Code} (hbody : ∀ ctx, ctx.loop ≠ none → Raises leaves (body ctx)) :
    Raises leaves (forLoop env ctx init condition step body) := by
  have hpart : ∀ {part : Option (ScopeId → Lower Segment)} {scope : ScopeId},
      (∀ x ∈ part, ∀ scope, Raises leaves (x scope)) → ∀ x ∈ part.map (· scope), Raises leaves x :=
    fun h => Option.forall_mem_map.mpr fun x hx => h x hx _
  rw [forLoop_eq]
  refine bind (modifyGet _) fun scope => bind (initial fun x hx => hinit x hx _) fun initCode => ?_
  refine bind newLabel fun checkLabel => bind newLabel fun bodyLabel => bind newLabel fun exit => ?_
  refine bind (jumpAfter _ _) fun entering => bind (placeLabel _) fun checkMark => ?_
  refine bind (loopTest _ (hpart hcond) _ _) fun test => bind (placeLabel _) fun bodyMark => ?_
  refine bind (hbody _ nofun) fun bodyCode => bind (stepAfter _ (hpart hstep)) fun code => ?_
  exact bind (jumpAfter _ _) fun back => bind (placeLabel _) fun exitMark => pure _

lemma ret {value : Option (Lower Segment)} (hvalue : ∀ x ∈ value, Raises leaves x) :
    Raises leaves (ret env value) := by
  cases value with
  | none => exact ite (pure _) (throw rfl)
  | some x =>
    refine bind (operand (hvalue x rfl) _) fun r => ite (throw rfl) ?_
    exact bind (coerce _ _ _) fun _ => pure _

/-- A jump to the target that the loop around has for it, if there is one. -/
lemma leave (x : Leave) {target : Option Label} (houtside : target = none → x ∈ leaves) :
    Raises leaves (leave target x.outside) := by
  cases target with
  | none =>
    intro s _ s' h
    cases h
    intro y hy
    rw [Leave.leave?_outside] at hy
    cases hy
    exact houtside rfl
  | some l => exact pure _

end Lower.Raises

namespace Stmt

mutual

/-- The statements inside a statement that leave a loop and do not stand in the body of one. The
first part of the header of a loop does not belong to its body. -/
def strays : Stmt → List Leave
  | .compound body => straysAll body
  | .ifElse _ onTrue none => onTrue.strays
  | .ifElse _ onTrue (some onFalse) => onTrue.strays ++ onFalse.strays
  | .forLoop (some init) _ _ _ => init.strays
  | .brk => [.brk]
  | .cont => [.cont]
  | _ => []

def straysAll : List Stmt → List Leave
  | [] => []
  | x :: rest => x.strays ++ straysAll rest

end

open Lower

variable {env : LowerEnv} {leaves : List Leave}

lemma lowerAll_raises {body : List Stmt} {ctx : Context}
    (hbody : ∀ x ∈ body, ∀ ctx : Context, (ctx.loop = none → x.strays ⊆ leaves) →
      Raises leaves (x.lower env ctx))
    (hstrays : ctx.loop = none → straysAll body ⊆ leaves) (code : Code) :
    Raises leaves (lowerAll env body ctx code) := by
  induction body generalizing code with
  | nil => exact .pure _
  | cons x rest ih =>
    have hfirst := fun hloop => (List.append_subset.mp (hstrays hloop)).1
    have hrest := fun hloop => (List.append_subset.mp (hstrays hloop)).2
    refine .bind (.openBlockAfter _) fun opened => ?_
    refine .bind (hbody x List.mem_cons_self ctx hfirst) fun added => ?_
    exact ih (fun y hy => hbody y (List.mem_cons_of_mem x hy)) hrest _

/-- An error about a statement outside of a loop is one about a statement of the tree. -/
lemma lower_raises (x : Stmt) : ∀ ctx : Context, (ctx.loop = none → x.strays ⊆ leaves) →
    Raises leaves (x.lower env ctx) := by
  have hpart : ∀ (part : Option Expr), ∀ x ∈ part.map (fun e scope => e.lower env scope),
      ∀ scope, Raises leaves (x scope) := fun part =>
    Option.forall_mem_map.mpr fun e _ scope => e.lower_raises
  induction x using Stmt.induction with
  | expression e => exact fun ctx _ => .bind e.lower_raises fun seg => .pure _
  | declaration ds => exact fun ctx _ => .declaration _ ds
  | compound body hbody =>
    intro ctx hstrays
    refine .bind (.modifyGet _) fun scope => ?_
    have hinner : ({ ctx with scope } : Context).loop = none → straysAll body ⊆ leaves := hstrays
    exact lowerAll_raises hbody hinner []
  | ifElse condition onTrue onFalse htrue hfalse =>
    intro ctx hstrays
    cases onFalse with
    | none => exact .ifElse condition.lower_raises (htrue ctx hstrays) (by simp)
    | some onFalse =>
      have htrueStrays := fun hloop => (List.append_subset.mp (hstrays hloop)).1
      have hfalseStrays := fun hloop => (List.append_subset.mp (hstrays hloop)).2
      refine .ifElse condition.lower_raises (htrue ctx htrueStrays) ?_
      rintro x ⟨⟩
      exact hfalse onFalse rfl ctx hfalseStrays
  | whileLoop condition body hbody =>
    intro ctx _
    exact .whileLoop condition.lower_raises fun ctx hloop => hbody ctx fun h => absurd h hloop
  | forLoop init condition step body hinit hbody =>
    intro ctx hstrays
    have hinside : ∀ ctx : Context, ctx.loop ≠ none → Raises leaves (body.lower env ctx) :=
      fun ctx hloop => hbody ctx fun h => absurd h hloop
    cases init with
    | none =>
      rw [lower]
      exact .forLoop (by simp) (hpart condition) (hpart step) hinside
    | some init =>
      rw [lower]
      refine .forLoop ?_ (hpart condition) (hpart step) hinside
      rintro x ⟨⟩ scope
      exact hinit init rfl _ hstrays
  | ret value =>
    intro ctx _
    exact .ret (Option.forall_mem_map.mpr fun e _ => e.lower_raises)
  | brk =>
    intro ctx hstrays
    exact .leave .brk fun h => hstrays (Option.map_eq_none_iff.mp h) List.mem_cons_self
  | cont =>
    intro ctx hstrays
    exact .leave .cont fun h => hstrays (Option.map_eq_none_iff.mp h) List.mem_cons_self

end Stmt

namespace Definition

open Lower

/-- The statements of a definition that leave a loop and do not stand in the body of one. -/
def strays (d : Definition) : List Leave := Stmt.straysAll d.body

lemma lowerIn_raises (d : Definition) (env : LowerEnv) : Raises d.strays (d.lowerIn env) := by
  have hparams : ∀ pairs, Raises d.strays (paramSlots env pairs) := by
    intro pairs
    induction pairs with
    | nil => exact .pure _
    | cons pair rest ih =>
      refine .bind (.declareSlot _ _ _) fun slot => .bind (.store _ _) fun storing => ?_
      exact .bind ih fun more => .pure _
  have hending : ∀ code, Raises d.strays (endingAfter env d.name code) := fun code =>
    .ite (.pure _) (.ite (.pure _) (.bind (.modifyGet _) fun _ => .pure _))
  have hresolve : ∀ code, Raises d.strays (resolve code) := by
    intro code
    refine .bind .get fun s => .bind (.ofTable (.checkAllFixed _)) fun _ => ?_
    split
    · exact .pure _
    · rename_i hcode
      exact .throw (LoweringError.leave?_of_labels
        (LabelTable.resolveCode_error (congrArg Prod.snd hcode)))
  have hbody : ∀ ctx, Raises d.strays (Stmt.lowerBlock env d.body ctx) := fun ctx =>
    Stmt.lowerAll_raises (fun x _ => x.lower_raises) (fun _ => List.Subset.refl _) _
  refine .bind (hparams _) fun paramCode => .bind (.modifyGet _) fun scope => ?_
  refine .bind (hbody _) fun body => ?_
  refine .bind (hending _) fun ending => .bind (hresolve _) fun code => ?_
  exact .bind .get fun s => .bind (.modifyGet _) fun _ => .pure _

end Definition

namespace Compiler

/-- A definition is not refused with an error of the parser, and because of a statement outside of a
loop only if it has such a statement. -/
lemma lowerDefinition_among {c : Compiler} {d : Definition} {e : CompileError}
    (h : (c.lowerDefinition d).result = .error e) : e.Among d.strays := by
  rw [lowerDefinition] at h
  cases hreg : c.functions.register d.name d.signature with
  | error cause =>
    rw [hreg] at h
    cases h
    trivial
  | ok functions =>
    have hlower := d.lowerIn_raises (.ofSignature functions c.options d.signature)
    simp only [hreg, Definition.lower] at h
    split at h
    · cases h
    · rename_i e' s hrun
      cases h
      exact hlower _ e s hrun

lemma lowering_noParseError (d : Definition) (c c' : Compiler) (cause : ParseError) :
    lowering d c ≠ .error (.parse cause) c' :=
  fun h => lowerDefinition_among (outcome_error.mp h).1

lemma mapM_noParseError (ds : List Definition) (c c' : Compiler) (cause : ParseError) :
    ds.mapM lowering c ≠ .error (.parse cause) c' := by
  intro h
  induction ds generalizing c with
  | nil => cases h
  | cons d ds ih =>
    rw [List.mapM_cons, bind_run] at h
    cases hfirst : lowering d c with
    | error e c₁ =>
      rw [hfirst] at h
      cases h
      exact lowering_noParseError d c c' cause hfirst
    | ok seg c₁ =>
      simp only [hfirst, bind_run] at h
      cases hmore : ds.mapM lowering c₁ with
      | ok segs c₂ =>
        rw [hmore] at h
        cases h
      | error e c₂ =>
        rw [hmore] at h
        cases h
        exact ih c₁ hmore

end Compiler

end MiniC
