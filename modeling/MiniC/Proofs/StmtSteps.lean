import MiniC.Compiler
import MiniC.Proofs.ExprSteps

/-!
# Successful lowerings of statements and definitions

For each form of statement, the lowerings of its parts that its own lowering went through, and the
code that came out. Labels are allocated in front of the code of a statement and placed inside it.
-/

namespace MiniC

namespace Lower

variable {s s' : LowerState} {env : LowerEnv} {scope : ScopeId} {ctx : Context} {code : Code}

lemma declarator_ok {d : Declarator} (h : declarator env scope d s = .ok code s') :
    d.ty ≠ .void ∧ ∃ scopes,
      s.drawn.scopes.declare scope d.name (.slot s.next d.ty) = .ok scopes ∧
      (d.initializer = none ∧ s' = { s with scopes } ∧
          code = [.alloca (.slot s.next d.ty) (env.options.alignmentFor d.ty)] ∨
        ∃ e init v, d.initializer = some e ∧
          operandAs (e.lower env scope) d.ty "initializer" { s with scopes } = .ok (init, v) s' ∧
          v.ty = d.ty ∧
          code = .alloca (.slot s.next d.ty) (env.options.alignmentFor d.ty) :: init ++
            [.store v (.slot s.next d.ty) (env.options.alignmentFor d.ty)]) := by
  simp only [declarator, bind_ok] at h
  obtain ⟨r, t, hslot, h⟩ := h
  obtain ⟨hty, ⟨scopes, hs, rfl⟩, rfl⟩ := declareSlot_ok hslot
  refine ⟨hty, scopes, hs, ?_⟩
  cases hinit : d.initializer with
  | none =>
    simp only [hinit, pure_ok] at h
    exact Or.inl ⟨rfl, h.2.symm, h.1.symm⟩
  | some e =>
    simp only [hinit, bind_ok, pure_ok] at h
    obtain ⟨⟨init, v⟩, t', hv, storing, t'', hstore, rfl, rfl⟩ := h
    obtain ⟨-, hvty, rfl, rfl⟩ := store_ok hstore
    exact Or.inr ⟨e, init, v, rfl, hv, hvty, rfl⟩

lemma declaration_cons_ok {d : Declarator} {rest : List Declarator}
    (h : declaration env scope (d :: rest) s = .ok code s') :
    ∃ first more t, declarator env scope d s = .ok first t ∧
      declaration env scope rest t = .ok more s' ∧ code = first ++ more := by
  simp only [declaration, bind_ok, pure_ok] at h
  obtain ⟨first, t, hd, more, t', hrest, rfl, rfl⟩ := h
  exact ⟨first, more, t, hd, hrest, rfl⟩

lemma branchOn_ok {condition : Lower Segment} {onTrue onFalse : Label}
    (h : branchOn condition onTrue onFalse s = .ok code s') :
    ∃ test v, operandAs condition .bool "condition" s = .ok (test, v) s' ∧ v.ty = .bool ∧
      code = test ++ [.branch v onTrue onFalse] := by
  simp only [branchOn, bind_ok, ofLowering_ok, Instr.mkBranch_ok, pure_ok] at h
  obtain ⟨⟨test, v⟩, t, hv, i, t', ⟨⟨hty, rfl⟩, rfl⟩, rfl, rfl⟩ := h
  exact ⟨test, v, hv, hty, rfl⟩

/-- Without an `else` part, the second label stands behind the statement. -/
lemma ifElse_none_ok {condition : Lower Segment} {onTrue : Lower Code}
    (h : ifElse env condition onTrue none s = .ok code s') :
    ∃ test trueCode jump t t₁ log n, n = s.labels.size ∧
      branchOn condition (.pending n) (.pending (n + 1)) s.allocated.allocated = .ok test t ∧
      t.labels.names[n]? = some none ∧ onTrue (t.placed (.pending n)) = .ok trueCode t₁ ∧
      t₁.labels.names[n + 1]? = some none ∧
      (jump = if env.options.elideUnreachableJumps && Code.endsWithTerminator
          (test ++ .label (.fixed n t.next) :: trueCode) then []
        else [.jump (.pending (n + 1))]) ∧
      (t₁.logged log).placed (.pending (n + 1)) = s' ∧
      code = test ++ .label (.fixed n t.next) :: trueCode ++ jump ++
        [.label (.fixed (n + 1) t₁.next)] := by
  simp only [ifElse, bind_ok, newLabel_ok, placeLabel_ok, pure_ok] at h
  obtain ⟨l₁, u₁, ⟨rfl, rfl⟩, l₂, u₂, ⟨rfl, rfl⟩, test, t, htest, h⟩ := h
  obtain ⟨i₁, u₃, ⟨⟨_, hl₁, hp₁⟩, rfl, rfl⟩, trueCode, t₁, htrue, jump, u₄, hj, h⟩ := h
  obtain ⟨i₂, u₅, ⟨⟨_, hl₂, hp₂⟩, rfl, rfl⟩, rfl, rfl⟩ := h
  obtain ⟨⟨log, rfl⟩, hjump⟩ := jumpAfter_ok hj
  simp only [LowerState.allocated_size, Label.pending.injEq] at hl₁ hl₂
  subst hl₁ hl₂
  simp only [LowerState.allocated_size, Label.id, LowerState.logged_next] at htest hjump ⊢
  exact ⟨test, trueCode, jump, t, t₁, log, _, rfl, htest, hp₁, htrue, hp₂, hjump, rfl, rfl⟩

/-- The label behind an `if` with an `else` part is allocated after the code of the first part. -/
lemma ifElse_some_ok {condition : Lower Segment} {onTrue onFalse : Lower Code}
    (h : ifElse env condition onTrue (some onFalse) s = .ok code s') :
    ∃ test trueCode trueJump falseCode falseJump t t₁ t₂ log₁ log₂ n m, n = s.labels.size ∧
      branchOn condition (.pending n) (.pending (n + 1)) s.allocated.allocated = .ok test t ∧
      t.labels.names[n]? = some none ∧ onTrue (t.placed (.pending n)) = .ok trueCode t₁ ∧
      m = t₁.labels.size ∧ (t₁.allocated).labels.names[n + 1]? = some none ∧
      onFalse ((t₁.allocated.logged log₁).placed (.pending (n + 1))) = .ok falseCode t₂ ∧
      t₂.labels.names[m]? = some none ∧
      (trueJump = if env.options.elideUnreachableJumps && Code.endsWithTerminator
          (test ++ .label (.fixed n t.next) :: trueCode) then [] else [.jump (.pending m)]) ∧
      (falseJump = if env.options.elideUnreachableJumps && Code.endsWithTerminator
          (test ++ .label (.fixed n t.next) :: trueCode ++ trueJump ++
            .label (.fixed (n + 1) t₁.next) :: falseCode) then [] else [.jump (.pending m)]) ∧
      (t₂.logged log₂).placed (.pending m) = s' ∧
      code = test ++ .label (.fixed n t.next) :: trueCode ++ trueJump ++
        .label (.fixed (n + 1) t₁.next) :: falseCode ++ falseJump ++
        [.label (.fixed m t₂.next)] := by
  simp only [ifElse, bind_ok, newLabel_ok, placeLabel_ok, pure_ok] at h
  obtain ⟨l₁, u₁, ⟨rfl, rfl⟩, l₂, u₂, ⟨rfl, rfl⟩, test, t, htest, h⟩ := h
  obtain ⟨i₁, u₃, ⟨⟨_, hl₁, hp₁⟩, rfl, rfl⟩, trueCode, t₁, htrue, h⟩ := h
  obtain ⟨l₃, u₄, ⟨rfl, rfl⟩, trueJump, u₅, hj₁, h⟩ := h
  obtain ⟨i₂, u₆, ⟨⟨_, hl₂, hp₂⟩, rfl, rfl⟩, falseCode, t₂, hfalse, falseJump, u₇, hj₂, h⟩ := h
  obtain ⟨i₃, u₈, ⟨⟨_, hl₃, hp₃⟩, rfl, rfl⟩, rfl, rfl⟩ := h
  obtain ⟨⟨log₁, rfl⟩, hd₁⟩ := jumpAfter_ok hj₁
  obtain ⟨⟨log₂, rfl⟩, hd₂⟩ := jumpAfter_ok hj₂
  simp only [LowerState.allocated_size, Label.pending.injEq] at hl₁ hl₂ hl₃
  subst hl₁ hl₂ hl₃
  simp only [LowerState.allocated_size, Label.id, LowerState.logged_next,
    LowerState.allocated_next] at htest hfalse hd₁ hd₂ ⊢
  exact ⟨test, trueCode, trueJump, falseCode, falseJump, t, t₁, t₂, log₁, log₂, _, _, rfl, htest,
    hp₁, htrue, rfl, hp₂, hfalse, hp₃, hd₁, hd₂, rfl, rfl⟩

lemma whileLoop_ok {condition : Lower Segment} {body : Context → Lower Code}
    (h : whileLoop env ctx condition body s = .ok code s') :
    ∃ test bodyCode back t t₁ log₀ log n, n = s.labels.size ∧
      branchOn condition (.pending (n + 1)) (.pending (n + 2))
        ((s.allocated.allocated.allocated.logged log₀).placed (.pending n)) = .ok test t ∧
      t.labels.names[n + 1]? = some none ∧
      body { ctx with loop := some (.pending (n + 2), .pending n) }
        (t.placed (.pending (n + 1))) = .ok bodyCode t₁ ∧
      t₁.labels.names[n + 2]? = some none ∧
      (back = if env.options.elideUnreachableJumps && Code.endsWithTerminator
          (.jump (.pending n) :: .label (.fixed n s.next) :: test ++
            .label (.fixed (n + 1) t.next) :: bodyCode) then [] else [.jump (.pending n)]) ∧
      (t₁.logged log).placed (.pending (n + 2)) = s' ∧
      code = .jump (.pending n) :: .label (.fixed n s.next) :: test ++
        .label (.fixed (n + 1) t.next) :: bodyCode ++ back ++
        [.label (.fixed (n + 2) t₁.next)] := by
  simp only [whileLoop, bind_ok, newLabel_ok, placeLabel_ok, pure_ok] at h
  obtain ⟨l₁, u₁, ⟨rfl, rfl⟩, l₂, u₂, ⟨rfl, rfl⟩, l₃, u₃, ⟨rfl, rfl⟩, entering, u₄, hj₀, h⟩ := h
  obtain ⟨i₁, u₅, ⟨-, rfl, rfl⟩, test, t, htest, h⟩ := h
  obtain ⟨i₂, u₆, ⟨⟨_, hl₂, hp₂⟩, rfl, rfl⟩, bodyCode, t₁, hbody, back, u₇, hj, h⟩ := h
  obtain ⟨i₃, u₈, ⟨⟨_, hl₃, hp₃⟩, rfl, rfl⟩, rfl, rfl⟩ := h
  obtain ⟨⟨log₀, rfl⟩, rfl⟩ := jumpAfter_ok hj₀
  obtain ⟨⟨log, rfl⟩, hback⟩ := jumpAfter_ok hj
  simp only [LowerState.allocated_size, Label.pending.injEq] at hl₂ hl₃
  subst hl₂ hl₃
  simp only [LowerState.allocated_size, Label.id, LowerState.logged_next,
    LowerState.allocated_next, Code.endsWithTerminator, List.getLast?_nil, Bool.and_false,
    Bool.false_eq_true, ↓reduceIte, List.cons_append] at htest hbody hback ⊢
  exact ⟨test, bodyCode, back, t, t₁, log₀, log, _, rfl, htest, hp₂, hbody, hp₃, hback, rfl, rfl⟩

lemma stepAfter_ok {code' : Code} {step : Option (Lower Segment)}
    (h : stepAfter code step s = .ok code' s') :
    step = none ∧ s = s' ∧ code' = code ∨
      ∃ x opened seg t, step = some x ∧ openBlockAfter code s = .ok opened t ∧
        x t = .ok seg s' ∧ code' = code ++ opened ++ seg.instructions := by
  cases step with
  | none =>
    obtain ⟨rfl, rfl⟩ := pure_ok.mp h
    exact Or.inl ⟨rfl, rfl, rfl⟩
  | some x =>
    simp only [stepAfter, bind_ok, pure_ok] at h
    obtain ⟨opened, t, ho, seg, t', hx, rfl, rfl⟩ := h
    exact Or.inr ⟨x, opened, seg, t, rfl, ho, hx, rfl⟩

/-- What runs ahead of a loop, if anything does. -/
def initial (init : Option (Context → Lower Code)) (ctx : Context) : Lower Code :=
  match init with
  | some init => init ctx
  | none => pure []

/-- The test of a loop behind `code`. Without a condition it always goes on with the body. -/
def loopTest (env : LowerEnv) (code : Code) (condition : Option (Lower Segment))
    (bodyLabel exitLabel : Label) : Lower Code :=
  match condition with
  | some condition => branchOn condition bodyLabel exitLabel
  | none => jumpAfter env code bodyLabel

lemma forLoop_eq (init : Option (Context → Lower Code))
    (condition step : Option (ScopeId → Lower Segment)) (body : Context → Lower Code) :
    forLoop env ctx init condition step body = do
      let scope ← openScope ctx.scope
      let initCode ← initial init { ctx with scope }
      let checkLabel ← newLabel
      let bodyLabel ← newLabel
      let exitLabel ← newLabel
      let entering ← jumpAfter env initCode checkLabel
      let checkMark ← placeLabel checkLabel
      let test ← loopTest env (initCode ++ entering ++ [checkMark]) (condition.map (· scope))
        bodyLabel exitLabel
      let bodyMark ← placeLabel bodyLabel
      let bodyCode ← body { scope, loop := some (exitLabel, checkLabel) }
      let code ← stepAfter (initCode ++ entering ++ [checkMark] ++ test ++ bodyMark :: bodyCode)
        (step.map (· scope))
      let back ← jumpAfter env code checkLabel
      let exitMark ← placeLabel exitLabel
      return code ++ back ++ [exitMark] := by
  cases init <;> cases condition <;> rfl

/-- The parts of a loop with a header stand in a scope of their own. -/
lemma forLoop_ok {init : Option (Context → Lower Code)}
    {condition step : Option (ScopeId → Lower Segment)} {body : Context → Lower Code}
    (h : forLoop env ctx init condition step body s = .ok code s') :
    ∃ initCode entering test bodyCode stepped back t₀ t t₁ t₂ log₀ log n scope,
      scope = s.scopes.scopes.length ∧
      initial init { ctx with scope } (s.opened ctx.scope) = .ok initCode t₀ ∧
      n = t₀.labels.size ∧
      (entering = if env.options.elideUnreachableJumps && Code.endsWithTerminator initCode then []
        else [.jump (.pending n)]) ∧
      loopTest env (initCode ++ entering ++ [.label (.fixed n t₀.next)]) (condition.map (· scope))
        (.pending (n + 1)) (.pending (n + 2))
        ((t₀.allocated.allocated.allocated.logged log₀).placed (.pending n)) = .ok test t ∧
      t.labels.names[n + 1]? = some none ∧
      body { scope, loop := some (.pending (n + 2), .pending n) } (t.placed (.pending (n + 1))) =
        .ok bodyCode t₁ ∧
      stepAfter (initCode ++ entering ++ [.label (.fixed n t₀.next)] ++ test ++
        .label (.fixed (n + 1) t.next) :: bodyCode) (step.map (· scope)) t₁ = .ok stepped t₂ ∧
      t₂.labels.names[n + 2]? = some none ∧
      (back = if env.options.elideUnreachableJumps && Code.endsWithTerminator stepped then []
        else [.jump (.pending n)]) ∧
      (t₂.logged log).placed (.pending (n + 2)) = s' ∧
      code = stepped ++ back ++ [.label (.fixed (n + 2) t₂.next)] := by
  simp only [forLoop_eq, bind_ok, openScope_ok, newLabel_ok, placeLabel_ok, pure_ok] at h
  obtain ⟨scope, u, ⟨rfl, rfl⟩, initCode, t₀, hinit, l₁, u₁, ⟨rfl, rfl⟩, h⟩ := h
  obtain ⟨l₂, u₂, ⟨rfl, rfl⟩, l₃, u₃, ⟨rfl, rfl⟩, entering, u₄, hj₀, h⟩ := h
  obtain ⟨i₁, u₅, ⟨-, rfl, rfl⟩, test, t, htest, h⟩ := h
  obtain ⟨i₂, u₆, ⟨⟨_, hl₂, hp₂⟩, rfl, rfl⟩, bodyCode, t₁, hbody, stepped, t₂, hstep, h⟩ := h
  obtain ⟨back, u₇, hj, i₃, u₈, ⟨⟨_, hl₃, hp₃⟩, rfl, rfl⟩, rfl, rfl⟩ := h
  obtain ⟨⟨log₀, rfl⟩, hentering⟩ := jumpAfter_ok hj₀
  obtain ⟨⟨log, rfl⟩, hback⟩ := jumpAfter_ok hj
  simp only [LowerState.allocated_size, Label.pending.injEq] at hl₂ hl₃
  subst hl₂ hl₃
  simp only [LowerState.allocated_size, Label.id, LowerState.logged_next,
    LowerState.allocated_next] at htest hbody hstep ⊢
  exact ⟨initCode, entering, test, bodyCode, stepped, back, t₀, t, t₁, t₂, log₀, log, _, _, rfl,
    hinit, rfl, hentering, htest, hp₂, hbody, hstep, hp₃, hback, rfl, rfl⟩

lemma initial_ok {init : Option (Context → Lower Code)} (h : initial init ctx s = .ok code s') :
    init = none ∧ code = [] ∧ s = s' ∨ ∃ x, init = some x ∧ x ctx s = .ok code s' := by
  cases init with
  | none =>
    obtain ⟨rfl, rfl⟩ := pure_ok.mp h
    exact Or.inl ⟨rfl, rfl, rfl⟩
  | some x => exact Or.inr ⟨x, rfl, h⟩

lemma loopTest_ok {before : Code} {condition : Option (Lower Segment)} {bodyLabel exitLabel : Label}
    (h : loopTest env before condition bodyLabel exitLabel s = .ok code s') :
    condition = none ∧ (∃ log, s.logged log = s') ∧ (code = if env.options.elideUnreachableJumps &&
        Code.endsWithTerminator before then [] else [.jump bodyLabel]) ∨
      ∃ c, condition = some c ∧ branchOn c bodyLabel exitLabel s = .ok code s' := by
  cases condition with
  | none => exact Or.inl ⟨rfl, jumpAfter_ok h⟩
  | some c => exact Or.inr ⟨c, rfl, h⟩

lemma ret_ok {value : Option (Lower Segment)} (h : ret env value s = .ok code s') :
    value = none ∧ env.returnTy = .void ∧ s = s' ∧ code = [.ret none] ∨
      ∃ x first v conversion w t, value = some x ∧ env.returnTy ≠ .void ∧
        x s = .ok ⟨first, some v⟩ t ∧
        coerce v env.returnTy "return" t = .ok (conversion, w) s' ∧
        code = first ++ conversion ++ [.ret (some w)] := by
  cases value with
  | none =>
    simp only [ret] at h
    split at h
    · rename_i hvoid
      obtain ⟨rfl, rfl⟩ := pure_ok.mp h
      cases hty : env.returnTy <;> simp_all [Ty.isVoid]
    · exact (throw_ok.mp h).elim
  | some x =>
    simp only [ret, bind_ok, operand_ok] at h
    obtain ⟨⟨first, v⟩, t, hx, h⟩ := h
    split at h
    · exact (throw_ok.mp h).elim
    · rename_i hvoid
      simp only [bind_ok, pure_ok] at h
      obtain ⟨⟨conversion, w⟩, t', hc, rfl, rfl⟩ := h
      refine Or.inr ⟨x, first, v, conversion, w, t, rfl, ?_, hx, hc, rfl⟩
      intro hty
      simp [hty, Ty.isVoid] at hvoid

lemma leave_ok {target : Option Label} {outside : LoweringError}
    (h : leave target outside s = .ok code s') : ∃ l, target = some l ∧ s = s' ∧ code = [.jump l] := by
  cases target with
  | none => exact (throw_ok.mp h).elim
  | some l =>
    obtain ⟨rfl, rfl⟩ := pure_ok.mp h
    exact ⟨l, rfl, rfl, rfl⟩

end Lower

namespace Stmt

variable {s s' : LowerState} {env : LowerEnv} {ctx : Context} {code : Code}

open Lower

lemma lower_expression_ok {e : Expr} (h : (Stmt.expression e).lower env ctx s = .ok code s') :
    ∃ seg, e.lower env ctx.scope s = .ok seg s' ∧ code = seg.instructions := by
  simp only [lower, bind_ok, pure_ok] at h
  obtain ⟨seg, t, hx, rfl, rfl⟩ := h
  exact ⟨seg, hx, rfl⟩

lemma lower_compound_ok {body : List Stmt} (h : (compound body).lower env ctx s = .ok code s') :
    lowerAll env body { ctx with scope := s.scopes.scopes.length } [] (s.opened ctx.scope) =
      .ok code s' := by
  simp only [lower, bind_ok, openScope_ok] at h
  obtain ⟨scope, t, ⟨rfl, rfl⟩, h⟩ := h
  exact h

lemma lowerAll_nil_ok {before : Code} (h : lowerAll env [] ctx before s = .ok code s') :
    code = before ∧ s = s' := by
  rw [lowerAll, pure_ok] at h
  exact ⟨h.1.symm, h.2⟩

lemma lowerAll_cons_ok {x : Stmt} {rest : List Stmt} {before : Code}
    (h : lowerAll env (x :: rest) ctx before s = .ok code s') :
    ∃ opened added t t', openBlockAfter before s = .ok opened t ∧ x.lower env ctx t = .ok added t' ∧
      lowerAll env rest ctx (before ++ opened ++ added) t' = .ok code s' := by
  simp only [lowerAll, bind_ok] at h
  obtain ⟨opened, t, ho, added, t', hx, h⟩ := h
  exact ⟨opened, added, t, t', ho, hx, h⟩

end Stmt

namespace Lower

variable {s s' : LowerState} {env : LowerEnv} {code : Code}

lemma paramSlots_cons_ok {p : Param} {argument : Value} {rest : List (Param × Value)}
    (h : paramSlots env ((p, argument) :: rest) s = .ok code s') :
    p.ty ≠ .void ∧ argument.ty = p.ty ∧ ∃ scopes more,
      s.drawn.scopes.declare Scopes.root p.name (.slot s.next p.ty) = .ok scopes ∧
      paramSlots env rest { s with scopes } = .ok more s' ∧
      code = .alloca (.slot s.next p.ty) (env.options.alignmentFor p.ty) ::
        .store argument (.slot s.next p.ty) (env.options.alignmentFor p.ty) :: more := by
  simp only [paramSlots, bind_ok, pure_ok] at h
  obtain ⟨r, t, hslot, storing, t', hstore, more, t'', hrest, rfl, rfl⟩ := h
  obtain ⟨hty, ⟨scopes, hs, rfl⟩, rfl⟩ := declareSlot_ok hslot
  obtain ⟨-, harg, rfl, rfl⟩ := store_ok hstore
  exact ⟨hty, harg, scopes, more, hs, hrest, rfl⟩

/-- What stands behind the code of a function of the given type. -/
def ending (returnTy : Ty) (code : Code) : Code :=
  if Code.endsWithTerminator code = false ∧ returnTy = .void then [.ret none] else []

lemma endingAfter_ok {function : String} {added : Code}
    (h : endingAfter env function code s = .ok added s') :
    (∃ log, s.logged log = s') ∧ added = ending env.returnTy code := by
  have hvoid : env.returnTy.isVoid = true ↔ env.returnTy = .void := by
    cases env.returnTy <;> simp [Ty.isVoid]
  rw [endingAfter] at h
  split at h
  · rename_i hends
    obtain ⟨rfl, rfl⟩ := pure_ok.mp h
    exact ⟨⟨s.log, rfl⟩, by simp [ending, hends]⟩
  · rename_i hends
    split at h
    · rename_i hret
      obtain ⟨rfl, rfl⟩ := pure_ok.mp h
      exact ⟨⟨s.log, rfl⟩, by simp [ending, hends, hvoid.mp hret]⟩
    · rename_i hret
      simp only [bind_ok, emit_ok, pure_ok] at h
      obtain ⟨u, t, rfl, rfl, rfl⟩ := h
      exact ⟨⟨_, rfl⟩, by simp [ending, mt hvoid.mpr hret]⟩

lemma resolve_ok {code' : Code} (h : resolve code s = .ok code' s') :
    s.labels.checkAllFixed = .ok () ∧ s.labels.resolveCode code = (code', none) ∧ s = s' := by
  simp only [resolve, bind_ok, get_ok, ofLowering_ok] at h
  obtain ⟨a, t, ⟨rfl, rfl⟩, u, t', ⟨hcheck, rfl⟩, h⟩ := h
  cases hr : s.labels.resolveCode code with
  | mk code'' error =>
    cases error with
    | none =>
      simp only [hr, pure_ok] at h
      obtain ⟨rfl, rfl⟩ := h
      exact ⟨hcheck, rfl, rfl⟩
    | some e =>
      simp only [hr] at h
      exact (throw_ok.mp h).elim

end Lower

namespace Definition

open Lower

/-- The code of a function before its labels are resolved, up to what ends it. -/
def frame (d : Definition) (env : LowerEnv) (paramCode body : Code) : Code :=
  .functionBegin d.name d.returnTy env.params :: .label env.entry :: paramCode ++ body

/-- The code of a function before its labels are resolved. -/
def wholeCode (d : Definition) (env : LowerEnv) (paramCode body : Code) : Code :=
  d.frame env paramCode body ++ ending env.returnTy (d.frame env paramCode body) ++ [.functionEnd]

/-- The last event of a lowering that succeeded counts the instructions and the labels. -/
lemma lowerIn_ok {d : Definition} {env : LowerEnv} {s s' : LowerState} {seg : Segment}
    (h : d.lowerIn env s = .ok seg s') :
    ∃ paramCode body t t₁ log, paramSlots env (d.params.zip env.params) s = .ok paramCode t ∧
      Stmt.lowerAll env d.body { scope := t.scopes.scopes.length } [] (t.opened Scopes.root) =
        .ok body t₁ ∧
      t₁.logged (.lowered d.name seg.size t₁.labels.size :: log) = s' ∧
      t₁.labels.checkAllFixed = .ok () ∧
      t₁.labels.resolveCode (d.wholeCode env paramCode body) = (seg.instructions, none) := by
  simp only [lowerIn, bind_ok, openScope_ok, get_ok, emit_ok, pure_ok] at h
  obtain ⟨paramCode, t, hp, scope, u, ⟨rfl, rfl⟩, body, t₁, hb, added, u₁, he, h⟩ := h
  obtain ⟨code, u₂, hr, a, u₃, ⟨rfl, rfl⟩, b, u₄, rfl, rfl, rfl⟩ := h
  obtain ⟨⟨log, rfl⟩, hending⟩ := endingAfter_ok he
  obtain ⟨hcheck, hresolve, rfl⟩ := resolve_ok hr
  rw [hending] at hresolve
  exact ⟨paramCode, body, t, t₁, _, hp, hb, rfl, hcheck, hresolve⟩

end Definition

/-- A definition that the compiler accepts was registered first and then lowered. -/
lemma Compiler.lowerDefinition_ok {c : Compiler} {d : Definition} {seg : Segment}
    (h : (c.lowerDefinition d).result = .ok seg) :
    ∃ functions s', c.functions.register d.name d.signature = .ok functions ∧
      (c.lowerDefinition d).compiler.functions = functions ∧
      (c.lowerDefinition d).log = .lowering d.name d.signature :: s'.log.reverse ∧
      d.lowerIn (.ofSignature functions c.options d.signature)
        (LowerEnv.ofSignature functions c.options d.signature).start = .ok seg s' := by
  rw [lowerDefinition] at h ⊢
  cases hreg : c.functions.register d.name d.signature with
  | error e => simp [hreg] at h
  | ok functions =>
    simp only [hreg, Definition.lower] at h ⊢
    cases hlow : d.lowerIn (.ofSignature functions c.options d.signature)
        (LowerEnv.ofSignature functions c.options d.signature).start with
    | error e t => simp [hlow] at h
    | ok seg' t =>
      simp only [hlow, Except.ok.injEq] at h
      subst h
      exact ⟨functions, t, rfl, rfl, rfl, hlow⟩

end MiniC
