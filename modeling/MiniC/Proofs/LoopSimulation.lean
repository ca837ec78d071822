import MiniC.Proofs.StmtSimulation

/-!
# Code of loops does what they do

All loops have the same parts behind the label of their check: a test, a body, and a step that
`continue` leaves out. One round takes the machine from the check back to the check or to the label
behind the loop, and rounds follow each other as evaluation says.
-/

namespace MiniC

/-- A round of a loop. -/
lemma Eval.loop_some {test : Eval Bool} {body : Eval Outcome} {step : Eval Unit} {n : Nat}
    {m m' : Memory} {o : Outcome} (h : loop test body step (n + 1) m = some (o, m')) :
    (test m = some (false, m') ∧ o = .normal) ∨
      ∃ m₁ o₁ m₂, test m = some (true, m₁) ∧ body m₁ = some (o₁, m₂) ∧
        match o₁ with
        | .normal => ∃ u m₃, step m₂ = some (u, m₃) ∧ loop test body step n m₃ = some (o, m')
        | .cont => loop test body step n m₂ = some (o, m')
        | .brk => o = .normal ∧ m₂ = m'
        | .ret value => o = .ret value ∧ m₂ = m' := by
  rw [loop, bind_some] at h
  obtain ⟨b, m₁, htest, h⟩ := h
  cases b with
  | false =>
    obtain ⟨rfl, rfl⟩ := pure_some.mp h
    exact Or.inl ⟨htest, rfl⟩
  | true =>
    rw [if_pos rfl, bind_some] at h
    obtain ⟨o₁, m₂, hbody, h⟩ := h
    refine Or.inr ⟨m₁, o₁, m₂, htest, hbody, ?_⟩
    cases o₁ with
    | normal => exact bind_some.mp h
    | cont => exact h
    | brk =>
      obtain ⟨rfl, rfl⟩ := pure_some.mp h
      exact ⟨rfl, rfl⟩
    | ret value =>
      obtain ⟨rfl, rfl⟩ := pure_some.mp h
      exact ⟨rfl, rfl⟩

lemma Stmt.forLoop_scoped {init : Option Stmt} {condition step : Option Expr} {body : Stmt}
    (h : (Stmt.forLoop init condition step body).bodiesScoped = true) :
    (∀ x ∈ init, x.bodiesScoped = true) ∧ body.isDeclaration = false ∧ body.bodiesScoped = true := by
  cases init with
  | none => simpa [bodiesScoped] using h
  | some x => simpa [bodiesScoped, and_assoc] using h

namespace Program

open Lower

variable {W : Program} {s s' : LowerState} {env : LowerEnv} {scope : ScopeId} {ctx : Context}
  {m m' : Memory} {M : Machine} {code k : Code} {o : Outcome}

/-- A missing condition counts as true. -/
lemma loopTest_simulates {callees : Callees env.functions} (hresult : W.result = callees.result)
    {condition : Option Expr} {before : Code} {bodyLabel exitLabel : Label} {b : Bool}
    (h : loopTest env before (condition.map fun e => e.lower env scope) bodyLabel exitLabel s =
      .ok code s')
    (hopen : Code.endsWithTerminator before = false) (hrest : M.rest = W.resolved code ++ k)
    (hm : W.Matches s scope m M)
    (hev : Stmt.check env.functions callees condition m = some (b, m')) :
    ∃ M', W.Steps M M' ∧ Agrees (s.scopes.visible scope) m' M' ∧
      M'.step W.result W.code =
        M'.goto W.code (W.labels.named (if b then bodyLabel else exitLabel)) := by
  rcases loopTest_ok h with ⟨hnone, -, rfl⟩ | ⟨c, hsome, htest⟩
  · rw [Option.map_eq_none_iff] at hnone
    subst hnone
    obtain ⟨rfl, rfl⟩ := Eval.pure_some.mp hev
    rw [hopen, Bool.and_false] at hrest
    exact ⟨M, .refl, hm.toAgrees, Machine.step_jump hrest⟩
  · obtain ⟨e, rfl, rfl⟩ := Option.map_eq_some_iff.mp hsome
    exact branchOn_simulates hresult htest hrest hm hev

/-- Where the body of a loop ends normally, its step runs and control arrives behind it. -/
lemma stepAfter_arrives {callees : Callees env.functions} (hresult : W.result = callees.result)
    {step : Option Expr} {before added : Code} {u : Unit}
    (h : stepAfter before (step.map fun e => e.lower env scope) s = .ok (before ++ added) s')
    (hopen : Code.endsWithTerminator before = false) (hrest : M.rest = W.resolved added ++ k)
    (hm : W.Matches s scope m M)
    (hev : Stmt.advance env.functions callees step m = some (u, m')) :
    Code.endsWithTerminator (before ++ added) = false ∧ ∃ M', W.Arrives M k s' scope m' M' := by
  rcases stepAfter_ok h with ⟨hnone, rfl, hcode⟩ | ⟨x, opened, seg, t, hsome, ho, hx, hcode⟩
  · rw [Option.map_eq_none_iff] at hnone
    subst hnone
    obtain ⟨-, rfl⟩ := Eval.pure_some.mp hev
    have hadded : added = [] := by simpa using hcode
    subst hadded
    refine ⟨?_, M, .refl, hrest, hm⟩
    rwa [List.append_nil]
  · obtain ⟨e, rfl, rfl⟩ := Option.map_eq_some_iff.mp hsome
    obtain ⟨r, hr⟩ := Eval.discard_some.mp hev
    rcases openBlockAfter_ok ho with ⟨-, rfl, rfl⟩ | ⟨hends, -⟩
    · rw [List.append_nil, List.append_cancel_left_eq] at hcode
      subst hcode
      obtain ⟨M', hreached, -⟩ := simulates_lower hresult e hx hrest hm hr
      exact ⟨Code.endsWithTerminator_append hopen (e.lower_open hx), M', hreached.toArrives⟩
    · rw [hopen] at hends
      cases hends

/-- A loop as it stands in a program: its parts behind the label of the check, and the states in
which they were lowered. The labels of the check, of the body and behind the loop have the numbers
`id`, `id + 1` and `id + 2`. -/
structure LoopCode (W : Program) (env : LowerEnv) (scope : ScopeId) (condition step : Option Expr)
    (body : Stmt) (k : Code) where
  id : Nat
  front : Code
  test : Code
  bodyCode : Code
  added : Code
  back : Code
  check : LowerState
  tested : LowerState
  ran : LowerState
  advanced : LowerState
  log : List Event
  front_open : Code.endsWithTerminator front = false
  check_block : W.labels.named check.block = W.labels.named (.pending id)
  test_ok : loopTest env front (condition.map fun e => e.lower env scope) (.pending (id + 1))
    (.pending (id + 2)) check = .ok test tested
  body_ok : body.lower env { scope, loop := some (.pending (id + 2), .pending id) }
    (tested.placed (.pending (id + 1))) = .ok bodyCode ran
  step_ok : stepAfter (front ++ test ++ .label (.fixed (id + 1) tested.next) :: bodyCode)
    (step.map fun e => e.lower env scope) ran =
      .ok (front ++ test ++ .label (.fixed (id + 1) tested.next) :: bodyCode ++ added) advanced
  back_eq : back = if env.options.elideUnreachableJumps && Code.endsWithTerminator
    (front ++ test ++ .label (.fixed (id + 1) tested.next) :: bodyCode ++ added) then []
    else [.jump (.pending id)]
  code : .label (W.labels.named (.pending id)) :: (W.resolved test ++
    .label (W.labels.named (.pending (id + 1))) :: (W.resolved bodyCode ++ (W.resolved added ++
    (W.resolved back ++ .label (W.labels.named (.pending (id + 2))) :: k)))) <:+ W.code
  ordered : check.scopes.Ordered
  scope_lt : scope < check.scopes.scopes.length
  undeclared : body.isDeclaration = false
  bodies_scoped : body.bodiesScoped = true

namespace LoopCode

variable {condition step : Option Expr} {body : Stmt}
  (L : W.LoopCode env scope condition step body k)

/-- The code behind the label of the body. -/
def bodyEntry : Code :=
  W.resolved L.bodyCode ++ (W.resolved L.added ++ (W.resolved L.back ++
    .label (W.labels.named (.pending (L.id + 2))) :: k))

/-- The code behind the label of the check. -/
def entry : Code :=
  W.resolved L.test ++ .label (W.labels.named (.pending (L.id + 1))) :: L.bodyEntry

/-- The state in which the body was lowered. -/
def inBody : LowerState := L.tested.placed (.pending (L.id + 1))

/-- The state behind the loop. -/
def exit : LowerState := (L.advanced.logged L.log).placed (.pending (L.id + 2))

lemma check_suffix : .label (W.labels.named (.pending L.id)) :: L.entry <:+ W.code := L.code

lemma body_suffix : .label (W.labels.named (.pending (L.id + 1))) :: L.bodyEntry <:+ W.code :=
  (List.suffix_append _ _).trans ((List.suffix_cons _ _).trans L.code)

lemma exit_suffix : .label (W.labels.named (.pending (L.id + 2))) :: k <:+ W.code :=
  (List.suffix_append _ _).trans ((List.suffix_append _ _).trans ((List.suffix_append _ _).trans
    ((List.suffix_cons _ _).trans L.body_suffix)))

lemma inBody_keeps : L.check.scopes.Keeps L.inBody.scopes := by
  have htest : L.tested.scopes.scopes = L.check.scopes.scopes :=
    loopTest_keeps (Option.forall_mem_map.mpr fun e _ => e.lower_keeps) L.test_ok
  exact .of_eq htest

lemma inBody_scope : scope < L.inBody.scopes.scopes.length :=
  Nat.lt_of_lt_of_le L.scope_lt L.inBody_keeps.size_le

lemma advanced_keeps : L.check.scopes.Keeps L.advanced.scopes := by
  have hbody := (body.lower_grows L.bodies_scoped _).2 L.undeclared L.inBody_scope L.body_ok
  have hstep : L.advanced.scopes.scopes = L.ran.scopes.scopes :=
    stepAfter_keeps (Option.forall_mem_map.mpr fun e _ => e.lower_keeps) L.step_ok
  exact (L.inBody_keeps.trans hbody).trans (.of_eq hstep)

lemma exit_keeps : L.check.scopes.Keeps L.exit.scopes := L.advanced_keeps.trans (.of_eq rfl)

lemma inBody_next : L.check.next ≤ L.inBody.next := by
  have htest := loopTest_draws L.test_ok
  rw [inBody, LowerState.placed_next]
  omega

lemma exit_next : L.check.next ≤ L.exit.next := by
  have htest := loopTest_draws L.test_ok
  have hran := body.lower_draws _ L.body_ok
  have hadvanced := stepAfter_draws L.step_ok
  rw [LowerState.placed_next] at hran
  rw [exit, LowerState.placed_next, LowerState.logged_next]
  omega

section

variable (hnumbered : Numbered (L.check.scopes.visible scope) L.check.next)

include hnumbered

lemma goto_check (h : Agrees (L.check.scopes.visible scope) m M)
    (hstep : M.step W.result W.code = M.goto W.code (W.labels.named (.pending L.id))) :
    ∃ M', W.Arrives M L.entry L.check scope m M' := by
  obtain ⟨M', harrives, -, -⟩ :=
    exists_goto L.check h hstep L.check_suffix rfl hnumbered L.check_block
  exact ⟨M', harrives⟩

lemma goto_exit (h : Agrees (L.check.scopes.visible scope) m M)
    (hstep : M.step W.result W.code = M.goto W.code (W.labels.named (.pending (L.id + 2)))) :
    ∃ M', W.Arrives M k L.exit scope m M' := by
  obtain ⟨M', harrives, -, -⟩ := exists_goto L.exit h hstep L.exit_suffix
    (L.exit_keeps.visible_eq L.ordered L.scope_lt) (hnumbered.mono L.exit_next) rfl
  exact ⟨M', harrives⟩

/-- The test takes the machine into the body or behind the loop. -/
lemma test_arrives {callees : Callees env.functions} (hresult : W.result = callees.result)
    {b : Bool} (hrest : M.rest = L.entry) (hm : W.Matches L.check scope m M)
    (hev : Stmt.check env.functions callees condition m = some (b, m')) :
    if b then ∃ M', W.Arrives M L.bodyEntry L.inBody scope m' M'
    else ∃ M', W.Arrives M k L.exit scope m' M' := by
  obtain ⟨M₁, hsteps, hagrees, hstep⟩ :=
    loopTest_simulates hresult L.test_ok L.front_open hrest hm hev
  cases b with
  | true =>
    obtain ⟨M₂, h₂, -, -⟩ := exists_goto L.inBody hagrees hstep L.body_suffix
      (L.inBody_keeps.visible_eq L.ordered L.scope_lt) (hnumbered.mono L.inBody_next) rfl
    exact ⟨M₂, h₂.of_steps hsteps⟩
  | false =>
    obtain ⟨M₂, h₂⟩ := L.goto_exit hnumbered hagrees hstep
    exact ⟨M₂, h₂.of_steps hsteps⟩

/-- Behind a body that ends normally, the step runs and control goes back to the check. -/
lemma step_arrives {callees : Callees env.functions} (hresult : W.result = callees.result)
    {u : Unit} (hopen : Code.endsWithTerminator L.bodyCode = false)
    (hrest : M.rest = W.resolved L.added ++ (W.resolved L.back ++
      .label (W.labels.named (.pending (L.id + 2))) :: k))
    (hm : W.Matches L.ran scope m M)
    (hev : Stmt.advance env.functions callees step m = some (u, m')) :
    ∃ M', W.Arrives M L.entry L.check scope m' M' := by
  obtain ⟨hopen', M₁, h₁⟩ := stepAfter_arrives hresult L.step_ok
    (Code.endsWithTerminator_label _ _ hopen) hrest hm hev
  have hback : L.back = [.jump (.pending L.id)] := by
    rw [L.back_eq, hopen', Bool.and_false]
    rfl
  have hrest₁ := h₁.rest
  rw [hback] at hrest₁
  have hagrees := h₁.matched.toAgrees
  rw [L.advanced_keeps.visible_eq L.ordered L.scope_lt] at hagrees
  obtain ⟨M₂, h₂⟩ := L.goto_check hnumbered hagrees (Machine.step_jump hrest₁)
  exact ⟨M₂, h₂.of_steps h₁.steps⟩

/-- However many rounds a loop takes, the machine comes to the label behind it or returns. -/
theorem ends {callees : Callees env.functions} (hresult : W.result = callees.result) {returnTy : Ty}
    {bound : Nat} (hbody : ∀ ctx,
      W.Executes ctx (body.lower env ctx) (body.exec env.functions callees returnTy bound))
    {n : Nat} (hrest : M.rest = L.entry) (hm : W.Matches L.check scope m M)
    (hev : Eval.loop (Stmt.check env.functions callees condition)
      (body.exec env.functions callees returnTy bound)
      (Stmt.advance env.functions callees step) n m = some (o, m')) :
    W.Ends M { scope } (fun _ => False) [] k L.exit m' o := by
  -- The bound on the rounds decreases; the machine stands behind the label of the check.
  induction n generalizing m M with
  | zero => exact (Eval.failure_some.mp hev).elim
  | succ n ih =>
    rcases Eval.loop_some hev with ⟨htest, rfl⟩ | ⟨m₁, o₁, m₂, htest, hexec, hround⟩
    · obtain ⟨M₁, h₁⟩ := L.test_arrives hnumbered hresult hrest hm htest
      exact ⟨rfl, M₁, h₁⟩
    · obtain ⟨M₁, h₁⟩ := L.test_arrives hnumbered hresult hrest hm htest
      have hends := hbody _ L.body_ok (L.inBody_keeps.ordered L.ordered) L.inBody_scope h₁.rest
        h₁.matched hexec
      have hvisible := L.inBody_keeps.visible_eq L.ordered L.scope_lt
      rw [inBody] at hvisible
      rw [hvisible] at hends
      cases o₁ with
      | normal =>
        obtain ⟨hopen, M₂, h₂⟩ := hends
        obtain ⟨u, m₃, hstep, hloop⟩ := hround
        obtain ⟨M₃, h₃⟩ := L.step_arrives hnumbered hresult hopen h₂.rest h₂.matched hstep
        have harrives := (h₃.of_steps h₂.steps).of_steps h₁.steps
        exact (ih h₃.rest h₃.matched hloop).of_steps harrives.steps
      | cont =>
        obtain ⟨M₂, l, rest, ⟨⟩, hsteps, hrest₂, hagrees⟩ := hends
        obtain ⟨M₃, h₃⟩ := L.goto_check hnumbered hagrees (Machine.step_jump hrest₂)
        have harrives := (h₃.of_steps hsteps).of_steps h₁.steps
        exact (ih h₃.rest h₃.matched hround).of_steps harrives.steps
      | brk =>
        obtain ⟨M₂, l, rest, ⟨⟩, hsteps, hrest₂, hagrees⟩ := hends
        obtain ⟨rfl, rfl⟩ := hround
        obtain ⟨M₃, h₃⟩ := L.goto_exit hnumbered hagrees (Machine.step_jump hrest₂)
        exact ⟨rfl, M₃, (h₃.of_steps hsteps).of_steps h₁.steps⟩
      | ret value =>
        obtain ⟨rfl, rfl⟩ := hround
        exact hends.of_steps h₁.steps

end

end LoopCode

/-- Nothing leaves a loop but its own end and a `ret`. -/
lemma Ends.of_loop {left left' : Machine → Prop} (h : W.Ends M { scope } left [] k s' m' o)
    (hscope : ctx.scope = scope) (hopen : Code.endsWithTerminator code = false) :
    W.Ends M ctx left' code k s' m' o := by
  subst hscope
  cases o with
  | normal => exact ⟨hopen, h.2⟩
  | brk | cont =>
    obtain ⟨M', l, rest, hnone, -⟩ := h
    cases hnone
  | ret value => exact h

lemma whileLoop_executes {callees : Callees env.functions} (hresult : W.result = callees.result)
    {returnTy : Ty} {n : Nat} {condition : Expr} {body : Stmt}
    (hscoped : (Stmt.whileLoop condition body).bodiesScoped = true)
    (hbody : ∀ ctx, W.Executes ctx (body.lower env ctx) (body.exec env.functions callees returnTy n)) :
    W.Executes ctx ((Stmt.whileLoop condition body).lower env ctx)
      ((Stmt.whileLoop condition body).exec env.functions callees returnTy n) := by
  intro s code s' h hordered hscope k M m o m' hrest hm hev
  rw [Stmt.lower] at h
  obtain ⟨test, bodyCode, back, t, t₁, log₀, log, j, rfl, htest, -, hb, -, hback, rfl, rfl⟩ :=
    whileLoop_ok h
  simp only [Stmt.bodiesScoped, Bool.and_eq_true, Bool.not_eq_true'] at hscoped
  simp only [resolved_append, resolved_cons, resolved_nil, Instr.relabel_label, Instr.relabel_jump,
    List.append_assoc, List.cons_append, List.nil_append] at hrest
  let L : W.LoopCode env ctx.scope (some condition) none body k :=
    { id := s.labels.size
      front := [.jump (.pending s.labels.size), .label (.fixed s.labels.size s.next)]
      test, bodyCode, back, log
      added := []
      check := (s.allocated.allocated.allocated.logged log₀).placed (.pending s.labels.size)
      tested := t
      ran := t₁
      advanced := t₁
      front_open := rfl
      check_block := rfl
      test_ok := htest
      body_ok := hb
      step_ok := by
        rw [List.append_nil]
        rfl
      back_eq := by
        rw [List.append_nil]
        exact hback
      code := hm.suffix_of_rest hrest
      ordered := (Scopes.Keeps.of_eq rfl).ordered hordered
      scope_lt := hscope
      undeclared := hscoped.1
      bodies_scoped := hscoped.2 }
  have hvisible : L.check.scopes.visible ctx.scope = s.scopes.visible ctx.scope :=
    Scopes.visible_of_scopes_eq rfl
  have hnumbered : Numbered (L.check.scopes.visible ctx.scope) L.check.next := by
    rw [hvisible]
    exact hm.numbered.mono (Nat.le_succ _)
  have hagrees := hm.toAgrees
  rw [← hvisible] at hagrees
  obtain ⟨M₁, h₁⟩ := L.goto_check hnumbered hagrees (Machine.step_jump hrest)
  have hends := L.ends hnumbered hresult hbody h₁.rest h₁.matched hev
  exact (hends.of_loop rfl (Code.endsWithTerminator_concat _ _)).of_steps h₁.steps

/-- What an optional statement does. -/
def initially (functions : FunctionTable) (callees : Callees functions) (returnTy : Ty) (n : Nat) :
    Option Stmt → Eval Outcome
  | none => return .normal
  | some x => x.exec functions callees returnTy n

lemma initial_executes {callees : Callees env.functions} {returnTy : Ty} {n : Nat}
    {init : Option Stmt} (hinit : ∀ x ∈ init, ∀ ctx,
      W.Executes ctx (x.lower env ctx) (x.exec env.functions callees returnTy n)) :
    W.Executes ctx (initial (init.map fun x => x.lower env) ctx)
      (initially env.functions callees returnTy n init) := by
  intro s code s' h hordered hscope k M m o m' hrest hm hev
  cases init with
  | none =>
    obtain ⟨rfl, rfl⟩ := pure_ok.mp h
    obtain ⟨rfl, rfl⟩ := Eval.pure_some.mp hev
    exact ⟨rfl, M, .refl, hrest, hm⟩
  | some x => exact hinit x rfl ctx h hordered hscope hrest hm hev

lemma initial_grows {init : Option Stmt} (hscoped : ∀ x ∈ init, x.bodiesScoped = true) :
    CodeGrows ctx.scope (initial (init.map fun x => x.lower env) ctx) := by
  intro s code s' hscope h
  cases init with
  | none =>
    obtain ⟨rfl, rfl⟩ := pure_ok.mp h
    exact ⟨[], (Scopes.Keeps.of_eq rfl).grows hscope⟩
  | some x => exact (x.lower_grows (hscoped x rfl) ctx).1 hscope h

/-- The header of a loop may declare variables, which are gone behind the loop. -/
lemma forLoop_executes {callees : Callees env.functions} (hresult : W.result = callees.result)
    {returnTy : Ty} {n : Nat} {init : Option Stmt} {condition step : Option Expr} {body : Stmt}
    (hscoped : (Stmt.forLoop init condition step body).bodiesScoped = true)
    (hinit : ∀ x ∈ init, ∀ ctx,
      W.Executes ctx (x.lower env ctx) (x.exec env.functions callees returnTy n))
    (hbody : ∀ ctx, W.Executes ctx (body.lower env ctx) (body.exec env.functions callees returnTy n)) :
    W.Executes ctx ((Stmt.forLoop init condition step body).lower env ctx)
      ((Stmt.forLoop init condition step body).exec env.functions callees returnTy n) := by
  intro s code s' h hordered hscope k M m o m' hrest hm hev
  have hkeeps := ((Stmt.forLoop init condition step body).lower_grows hscoped ctx).2 rfl hscope h
  have hlower : forLoop env ctx (init.map fun x => x.lower env)
      (condition.map fun e scope => e.lower env scope) (step.map fun e scope => e.lower env scope)
      (body.lower env) s = .ok code s' := by
    rw [Stmt.lower.eq_def] at h
    cases init with
    | none => exact h
    | some x => exact h
  have hexec : Eval.inScope (Eval.andThen (initially env.functions callees returnTy n init)
      (Eval.loop (Stmt.check env.functions callees condition)
        (body.exec env.functions callees returnTy n)
        (Stmt.advance env.functions callees step) n)) m = some (o, m') := by
    cases init with
    | none =>
      rw [Stmt.exec] at hev
      exact hev
    | some x =>
      rw [Stmt.exec] at hev
      exact hev
  obtain ⟨hinits, hundeclared, hbodies⟩ := Stmt.forLoop_scoped hscoped
  obtain ⟨m₁, hrun, hm'⟩ := Eval.inScope_some.mp hexec
  obtain ⟨initCode, entering, test, bodyCode, stepped, back, t₀, t, t₁, t₂, log₀, log, j, inner, rfl,
    hi, rfl, hentering, htest, -, hb, hst, -, hback, rfl, rfl⟩ := forLoop_ok hlower
  rw [Option.map_map] at htest hst
  obtain ⟨added, rfl, -⟩ :=
    stepAfter_emits (Option.forall_mem_map.mpr fun e _ => e.lower_emits) hst
  simp only [resolved_append, resolved_cons, resolved_nil, Instr.relabel_label, List.append_assoc,
    List.cons_append, List.nil_append] at hrest
  have hinner := s.length_lt_opened ctx.scope
  have hordered' := (Scopes.openChild_keeps hscope).ordered hordered
  have hvisible : (s.opened ctx.scope).scopes.visible s.scopes.scopes.length =
      s.scopes.visible ctx.scope := Scopes.visible_openChild hordered hscope
  obtain ⟨new, hnew⟩ := initial_grows hinits hinner hi
  let L : W.LoopCode env s.scopes.scopes.length condition step body k :=
    { id := t₀.labels.size
      front := initCode ++ entering ++ [Instr.label (.fixed t₀.labels.size t₀.next)]
      test, bodyCode, added, back, log
      check := (t₀.allocated.allocated.allocated.logged log₀).placed (.pending t₀.labels.size)
      tested := t
      ran := t₁
      advanced := t₂
      front_open := Code.endsWithTerminator_concat _ _
      check_block := rfl
      test_ok := htest
      body_ok := hb
      step_ok := hst
      back_eq := hback
      code := (List.suffix_append _ _).trans (hm.suffix_of_append hrest)
      ordered := (Scopes.Keeps.of_eq rfl).ordered (hnew.ordered hordered' hinner)
      scope_lt := Nat.lt_of_lt_of_le hinner hnew.size_le
      undeclared := hundeclared
      bodies_scoped := hbodies }
  have hcheck : L.check.scopes.visible s.scopes.scopes.length =
      t₀.scopes.visible s.scopes.scopes.length := Scopes.visible_of_scopes_eq rfl
  have hexit : ((t₂.logged log).placed (.pending (t₀.labels.size + 2))).scopes.visible
      s.scopes.scopes.length = new ++ s.scopes.visible ctx.scope := by
    rw [← hvisible, ← hnew.visible_eq hordered' hinner, ← hcheck]
    exact L.exit_keeps.visible_eq L.ordered L.scope_lt
  have houter := hkeeps.visible_eq hordered hscope
  have hlength := hm.vars.length_eq
  refine Ends.leaveScope ?_ hexit houter hlength hm'
  have hm₀ := hm.opened hordered hscope
  rcases Eval.andThen_some hrun with ⟨m₂, hfirst, hloop⟩ | ⟨hnormal, hfirst⟩
  · obtain ⟨hopen, M₁, h₁⟩ := initial_executes hinit hi hordered' hinner hrest hm₀ hfirst
    rw [hentering, hopen, Bool.and_false] at h₁
    have hagrees := h₁.matched.toAgrees
    have hnumbered := h₁.matched.numbered
    rw [← hcheck] at hagrees hnumbered
    have hnumbered' := hnumbered.mono (show t₀.next ≤ L.check.next from Nat.le_succ _)
    obtain ⟨M₂, h₂⟩ := L.goto_check hnumbered' hagrees (Machine.step_jump h₁.rest)
    have hends := L.ends hnumbered' hresult hbody h₂.rest h₂.matched hloop
    exact (hends.of_loop rfl (Code.endsWithTerminator_concat _ _)).of_steps
      (h₂.of_steps h₁.steps).steps
  · have hends := initial_executes hinit hi hordered' hinner hrest hm₀ hfirst
    rw [hvisible] at hends
    exact hends.of_abrupt hnormal rfl rfl fun M' hleft => hleft.outside

end Program

end MiniC
