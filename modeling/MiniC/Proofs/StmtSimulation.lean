import MiniC.Proofs.ExprSimulation

/-!
# Code of statements does what they do

A statement that ends normally takes the machine to the code behind its own. One that leaves a loop
takes it to a jump to a label of that loop, and one that returns to a `ret`. The labels of a loop
stand in the code of the loop, so only there the jump is made.
-/

namespace MiniC

/-- Whether memory agrees with the machine apart from variables declared further inside. -/
def AgreesOutside (vis : List (String × Value)) (m : Memory) (M : Machine) : Prop :=
  ∃ extra vars, m.vars = extra ++ vars ∧ Agrees vis { m with vars } M

section

variable {vis new : List (String × Value)} {m : Memory} {M : Machine}

lemma Agrees.outside (h : Agrees vis m M) : AgreesOutside vis m M := ⟨[], m.vars, rfl, h⟩

/-- Variables in front do not matter for those behind them. -/
lemma AgreesOutside.mono (h : AgreesOutside (new ++ vis) m M) : AgreesOutside vis m M := by
  obtain ⟨extra, vars, hvars, h⟩ := h
  refine ⟨extra ++ vars.take new.length, vars.drop new.length, ?_, h.calls, ?_⟩
  · rw [List.append_assoc, List.take_append_drop, hvars]
  · have hdrop := List.forall₂_drop new.length h.vars
    rwa [List.drop_left] at hdrop

/-- Behind a scope, the variables are those in front of it. -/
lemma AgreesOutside.drop (h : AgreesOutside vis m M) {n : Nat} (hn : vis.length = n) :
    Agrees vis { m with vars := m.vars.drop (m.vars.length - n) } M := by
  obtain ⟨extra, vars, hvars, h⟩ := h
  have hlength : vars.length = n := by rw [← hn]; exact h.vars.length_eq.symm
  have hdrop : m.vars.drop (m.vars.length - n) = vars := by
    rw [hvars, List.length_append, hlength, Nat.add_sub_cancel, List.drop_left]
  rw [hdrop]
  exact h

end

namespace Program

open Lower

variable (W : Program)

/-- The machine comes to a jump to the label. -/
def Leaves (M : Machine) (target : Option Label) (left : Machine → Prop) : Prop :=
  ∃ M' l rest, target = some l ∧ W.Steps M M' ∧ M'.rest = .jump (W.labels.named l) :: rest ∧ left M'

/-- The machine ends code as a statement ends that leaves `m'` behind. Where it leaves a loop, `left`
holds. Control arrives behind the code only if no terminator stands there. -/
def Ends (M : Machine) (ctx : Context) (left : Machine → Prop) (code k : Code) (s' : LowerState)
    (m' : Memory) : Outcome → Prop
  | .normal => Code.endsWithTerminator code = false ∧ ∃ M', W.Arrives M k s' ctx.scope m' M'
  | .brk => W.Leaves M (ctx.loop.map Prod.fst) left
  | .cont => W.Leaves M (ctx.loop.map Prod.snd) left
  | .ret value => ∃ M', W.Steps M M' ∧ M'.returned = some (value, m'.calls)

/-- Whether the code of a lowering does what a statement does. -/
def Executes (ctx : Context) (x : Lower Code) (ev : Eval Outcome) : Prop :=
  ∀ ⦃s code s'⦄, x s = .ok code s' → s.scopes.Ordered → ctx.scope < s.scopes.scopes.length →
    ∀ ⦃k M m o m'⦄, M.rest = W.resolved code ++ k → W.Matches s ctx.scope m M →
      ev m = some (o, m') →
      W.Ends M ctx (Agrees (s.scopes.visible ctx.scope) m') code k s' m' o

variable {W} {s s' s'' : LowerState} {env : LowerEnv} {scope : ScopeId} {ctx ctx' : Context}
  {m m' m'' : Memory} {M M₀ : Machine} {code code' k k' : Code} {left left' : Machine → Prop}
  {o : Outcome}

lemma Leaves.of_steps {target : Option Label} (h : W.Leaves M target left) (h₀ : W.Steps M₀ M) :
    W.Leaves M₀ target left := by
  obtain ⟨M', l, rest, htarget, hsteps, hrest, hleft⟩ := h
  exact ⟨M', l, rest, htarget, Relation.ReflTransGen.trans h₀ hsteps, hrest, hleft⟩

lemma Leaves.mono {target : Option Label} (h : W.Leaves M target left)
    (himp : ∀ M', left M' → left' M') : W.Leaves M target left' := by
  obtain ⟨M', l, rest, htarget, hsteps, hrest, hleft⟩ := h
  exact ⟨M', l, rest, htarget, hsteps, hrest, himp M' hleft⟩

lemma Ends.of_steps (h : W.Ends M ctx left code k s' m' o) (h₀ : W.Steps M₀ M) :
    W.Ends M₀ ctx left code k s' m' o := by
  cases o with
  | normal =>
    obtain ⟨hopen, M', harrives⟩ := h
    exact ⟨hopen, M', harrives.of_steps h₀⟩
  | brk => exact Leaves.of_steps h h₀
  | cont => exact Leaves.of_steps h h₀
  | ret value =>
    obtain ⟨M', hsteps, hreturned⟩ := h
    exact ⟨M', Relation.ReflTransGen.trans h₀ hsteps, hreturned⟩

/-- What ends early in a part ends early in the whole. -/
lemma Ends.of_abrupt (h : W.Ends M ctx left code k s' m' o) (ho : o ≠ .normal)
    (hloop : ctx'.loop = ctx.loop) (hcalls : m''.calls = m'.calls)
    (himp : ∀ M', left M' → left' M') : W.Ends M ctx' left' code' k' s'' m'' o := by
  cases o with
  | normal => exact absurd rfl ho
  | brk =>
    rw [Ends, hloop]
    exact Leaves.mono h himp
  | cont =>
    rw [Ends, hloop]
    exact Leaves.mono h himp
  | ret value =>
    rw [Ends, hcalls]
    exact h

lemma expression_executes {callees : Callees env.functions}
    (hresult : W.result = callees.result) (returnTy : Ty) (n : Nat) (e : Expr) :
    W.Executes ctx ((Stmt.expression e).lower env ctx)
      ((Stmt.expression e).exec env.functions callees returnTy n) := by
  intro s code s' h hordered hscope k M m o m' hrest hm hev
  obtain ⟨seg, he, rfl⟩ := Stmt.lower_expression_ok h
  simp only [Stmt.exec, Eval.bind_some, Eval.discard_some, Eval.pure_some] at hev
  obtain ⟨_, _, ⟨r, hr⟩, rfl, rfl⟩ := hev
  obtain ⟨M', hreached, -⟩ := simulates_lower hresult e he hrest hm hr
  exact ⟨e.lower_open he, M', hreached.toArrives⟩

lemma leave_leaves {target : Option Label} {outside : LoweringError}
    (h : leave target outside s = .ok code s') (hrest : M.rest = W.resolved code ++ k)
    (hm : W.Matches s scope m M) : W.Leaves M target (Agrees (s.scopes.visible scope) m) := by
  obtain ⟨l, hl, rfl, rfl⟩ := leave_ok h
  exact ⟨M, l, k, hl, .refl, hrest, hm.toAgrees⟩

/-- A returned value has the type of the function already. -/
lemma ret_executes {callees : Callees env.functions} (hresult : W.result = callees.result) (n : Nat)
    (value : Option Expr) : W.Executes ctx ((Stmt.ret value).lower env ctx)
      ((Stmt.ret value).exec env.functions callees env.returnTy n) := by
  intro s code s' h hordered hscope k M m o m' hrest hm hev
  rw [Stmt.lower] at h
  rcases ret_ok h with ⟨hvalue, -, rfl, rfl⟩ | ⟨x, first, v, conversion, w, t, hvalue, -, hx, hc,
    rfl⟩
  · rw [Option.map_eq_none_iff] at hvalue
    subst hvalue
    rw [Stmt.exec] at hev
    obtain ⟨rfl, rfl⟩ := Eval.pure_some.mp hev
    refine ⟨M, .refl, ?_⟩
    have hrest' : M.rest = .ret none :: k := hrest
    rw [Machine.returned, hrest', ← hm.calls]
  · obtain ⟨e, rfl, rfl⟩ := Option.map_eq_some_iff.mp hvalue
    simp only [Stmt.exec, Eval.bind_some, Eval.operand_some, Eval.pure_some] at hev
    obtain ⟨y, _, hy, rfl, rfl⟩ := hev
    simp only [resolved_append, List.append_assoc] at hrest
    obtain ⟨M₁, h₁, hv⟩ := simulates_lower hresult e hx hrest hm hy
    obtain ⟨M₂, h₂, hw, hty⟩ := coerce_simulates hc h₁.rest h₁.matched hv
    have hconvert : env.returnTy.convert y = y := Ty.convert_of_hasTy (hty ▸ hw.typed)
    have hrest₂ : M₂.rest = .ret (some w) :: k := h₂.rest
    refine ⟨M₂, (h₁.next h₂).steps, ?_⟩
    have hreturned : M₂.returned = (M₂.value w).map fun x => (some x, M₂.calls) := by
      rw [Machine.returned, hrest₂]
    rw [hreturned, hw.value, hconvert, ← h₂.matched.calls]
    rfl

/-- A declaration allocates a slot that no variable has. -/
lemma declare_arrives {name : String} {ty : Ty} {align : Nat} {scopes : Scopes}
    (hdeclare : s.drawn.scopes.declare scope name (.slot s.next ty) = .ok scopes)
    (hordered : s.scopes.Ordered) (hscope : scope < s.scopes.scopes.length)
    (hrest : M.rest = .alloca (.slot s.next ty) align :: k) (hm : W.Matches s scope m M) :
    W.Arrives M k { s with scopes } scope { m with vars := (name, { ty }) :: m.vars }
      (M.setSlot k s.next none) := by
  have hvisible : scopes.visible scope = (name, .slot s.next ty) :: s.scopes.visible scope :=
    (declareSlot_grows hdeclare hscope).visible_eq hordered hscope
  have hnext : LowerState.next { s with scopes } = s.next + 1 := Scopes.declare_next hdeclare
  have hfresh : ∀ b ∈ s.scopes.visible scope, b.2.id? ≠ some s.next := by
    intro b hb hid
    have hlt := hm.numbered.below b hb s.next hid
    omega
  have hstep : M.step W.result W.code = some (M.setSlot k s.next none) := by
    rw [Machine.step, hrest]
  have hvars : List.Forall₂ (Bound (M.setSlot k s.next none)) (s.scopes.visible scope) m.vars := by
    refine bound_of_slots hm.vars fun b hb id hid => if_neg ?_
    rintro rfl
    exact hfresh b hb hid
  have hbound : Bound (M.setSlot k s.next none) (name, .slot s.next ty) (name, { ty }) :=
    ⟨rfl, ⟨s.next, rfl, if_pos rfl⟩, by simp⟩
  have hnumbered : Numbered ((name, .slot s.next ty) :: s.scopes.visible scope) (s.next + 1) := by
    constructor
    · rw [List.map_cons, List.nodup_cons]
      refine ⟨?_, hm.numbered.nodup⟩
      intro hmem
      obtain ⟨b, hb, hid⟩ := List.mem_map.mp hmem
      exact hfresh b hb hid
    · intro b hb id hid
      rcases List.mem_cons.mp hb with rfl | hb
      · cases hid
        exact Nat.lt_succ_self _
      · exact Nat.lt_succ_of_lt (hm.numbered.below b hb id hid)
  refine ⟨.single W hstep, rfl, ⟨hm.calls, ?_⟩, hm.suffix_of_rest hrest, hm.block, ?_⟩
  · rw [hvisible]
    exact .cons hbound hvars
  · rw [hvisible, hnext]
    exact hnumbered

lemma declarator_open {d : Declarator} (h : declarator env scope d s = .ok code s') :
    Code.endsWithTerminator code = false := by
  obtain ⟨-, scopes, -, ⟨-, -, rfl⟩ | ⟨e, init, v, -, -, -, rfl⟩⟩ := declarator_ok h
  · rfl
  · exact Code.endsWithTerminator_concat _ _

/-- A variable is there before its initializer runs. -/
lemma declarator_arrives {callees : Callees env.functions} (hresult : W.result = callees.result)
    {d : Declarator} {u : Unit} (h : declarator env scope d s = .ok code s')
    (hordered : s.scopes.Ordered) (hscope : scope < s.scopes.scopes.length)
    (hrest : M.rest = W.resolved code ++ k) (hm : W.Matches s scope m M)
    (hev : d.exec env.functions callees m = some (u, m')) :
    ∃ M', W.Arrives M k s' scope m' M' := by
  obtain ⟨-, scopes, hdeclare, hcase⟩ := declarator_ok h
  simp only [Declarator.exec, Eval.bind_some, Eval.declare, Eval.modify_some] at hev
  obtain ⟨_, _, rfl, hev⟩ := hev
  rcases hcase with ⟨hinit, rfl, rfl⟩ | ⟨e, init, v, hinit, hv, hty, rfl⟩
  · rw [hinit] at hev
    obtain ⟨-, rfl⟩ := Eval.pure_some.mp hev
    exact ⟨_, declare_arrives hdeclare hordered hscope hrest hm⟩
  · simp only [hinit, Eval.bind_some, Eval.operand_some, Eval.discard_some] at hev
    obtain ⟨x, m₁, hx, y, hassign⟩ := hev
    simp only [resolved_append, List.cons_append, resolved_cons, List.append_assoc] at hrest
    have h₀ := declare_arrives hdeclare hordered hscope hrest hm
    obtain ⟨M₁, h₁, hval, -⟩ :=
      operandAs_simulates (simulates_lower hresult e) hv h₀.rest h₀.matched hx
    have hslot : (s'.scopes.visible scope).lookup d.name = some (.slot s.next d.ty) := by
      rw [Scopes.visible_of_scopes_eq (operandAs_keeps e.lower_keeps hv),
        (declareSlot_grows hdeclare hscope).visible_eq hordered hscope]
      exact List.lookup_cons_self
    obtain ⟨-, M₂, h₂⟩ := store_simulates h₁.rest h₁.matched hslot hval hty hassign
    exact ⟨M₂, ((h₁.next h₂).toArrives).of_steps h₀.steps⟩

lemma declaration_executes {callees : Callees env.functions} (hresult : W.result = callees.result)
    (returnTy : Ty) (n : Nat) (ds : List Declarator) :
    W.Executes ctx ((Stmt.declaration ds).lower env ctx)
      ((Stmt.declaration ds).exec env.functions callees returnTy n) := by
  intro s code s' h hordered hscope k M m o m' hrest hm hev
  rw [Stmt.lower] at h
  simp only [Stmt.exec, Eval.bind_some, Eval.pure_some] at hev
  obtain ⟨u, _, hds, rfl, rfl⟩ := hev
  induction ds generalizing s code m M with
  | nil =>
    obtain ⟨rfl, rfl⟩ := pure_ok.mp h
    obtain ⟨-, rfl⟩ := Eval.pure_some.mp hds
    exact ⟨rfl, M, .refl, hrest, hm⟩
  | cons d rest ih =>
    obtain ⟨first, more, t, hd, hmore, rfl⟩ := declaration_cons_ok h
    rw [List.forM_eq_forM, List.forM_cons, Eval.bind_some] at hds
    obtain ⟨_, m₁, hexec, hds⟩ := hds
    rw [resolved_append, List.append_assoc] at hrest
    obtain ⟨M₁, h₁⟩ := declarator_arrives hresult hd hordered hscope hrest hm hexec
    have hgrows := declarator_grows hd hscope
    obtain ⟨hopen, M₂, h₂⟩ := ih hmore (hgrows.ordered hordered hscope)
      (Nat.lt_of_lt_of_le hscope hgrows.size_le) h₁.rest h₁.matched hds
    exact ⟨Code.endsWithTerminator_append (declarator_open hd) hopen, M₂, h₂.of_steps h₁.steps⟩

lemma Ends.mono (h : W.Ends M ctx left code k s' m' o) (himp : ∀ M', left M' → left' M') :
    W.Ends M ctx left' code k s' m' o := by
  cases o with
  | normal => exact h
  | brk => exact Leaves.mono h himp
  | cont => exact Leaves.mono h himp
  | ret value => exact h

/-- A new scope sees the same variables. -/
lemma Matches.opened (h : W.Matches s scope m M) (hordered : s.scopes.Ordered)
    (hscope : scope < s.scopes.scopes.length) :
    W.Matches (s.opened scope) s.scopes.scopes.length m M := by
  have hvisible : (s.opened scope).scopes.visible s.scopes.scopes.length = s.scopes.visible scope :=
    Scopes.visible_openChild hordered hscope
  refine ⟨?_, h.suffix, h.block, ?_⟩
  · rw [hvisible]
    exact h.toAgrees
  · rw [hvisible]
    exact h.numbered

/-- Behind a scope, memory and the machine are left with the variables around it. -/
lemma Ends.leaveScope {inner : ScopeId} {vis new : List (String × Value)} {n : Nat}
    (h : W.Ends M { ctx with scope := inner } (AgreesOutside vis m) code k s' m o)
    (hinner : s'.scopes.visible inner = new ++ vis) (houter : s'.scopes.visible ctx.scope = vis)
    (hn : vis.length = n) (hm' : { m with vars := m.vars.drop (m.vars.length - n) } = m') :
    W.Ends M ctx (Agrees vis m') code k s' m' o := by
  subst hm'
  by_cases ho : o = .normal
  · subst ho
    obtain ⟨hopen, M', harrives⟩ := h
    have hagrees := harrives.matched.toAgrees
    have hnumbered := harrives.matched.numbered
    rw [hinner] at hagrees hnumbered
    refine ⟨hopen, M', harrives.steps, harrives.rest, ?_, harrives.matched.suffix,
      harrives.matched.block, ?_⟩
    · rw [houter]
      exact hagrees.outside.mono.drop hn
    · rw [houter]
      exact hnumbered.of_append
  · exact h.of_abrupt ho rfl rfl fun M' hleft => hleft.drop hn

lemma lowerAll_append {body : List Stmt} {before : Code}
    (h : Stmt.lowerAll env body ctx before s = .ok code s') : ∃ added, code = before ++ added := by
  induction body generalizing before s with
  | nil =>
    obtain ⟨rfl, -⟩ := Stmt.lowerAll_nil_ok h
    exact ⟨[], (List.append_nil _).symm⟩
  | cons x rest ih =>
    obtain ⟨opened, added, t, t', -, -, hrest⟩ := Stmt.lowerAll_cons_ok h
    obtain ⟨more, rfl⟩ := ih hrest
    exact ⟨opened ++ added ++ more, by simp⟩

/-- Statements run one after the other, up to the first that ends early. -/
lemma lowerAll_ends {callees : Callees env.functions} {returnTy : Ty} {n : Nat} {body : List Stmt}
    (hgrows : ∀ x ∈ body, CodeGrows ctx.scope (x.lower env ctx))
    (hbody : ∀ x ∈ body, W.Executes ctx (x.lower env ctx) (x.exec env.functions callees returnTy n))
    (before added : Code) (hopen : Code.endsWithTerminator before = false)
    (h : Stmt.lowerAll env body ctx before s = .ok (before ++ added) s')
    (hordered : s.scopes.Ordered) (hscope : ctx.scope < s.scopes.scopes.length)
    (hrest : M.rest = W.resolved added ++ k) (hm : W.Matches s ctx.scope m M)
    (hev : Stmt.execAll env.functions callees returnTy n body m = some (o, m')) :
    W.Ends M ctx (AgreesOutside (s.scopes.visible ctx.scope) m') (before ++ added) k s' m' o := by
  induction body generalizing before added s m M with
  | nil =>
    obtain ⟨hadded, rfl⟩ := Stmt.lowerAll_nil_ok h
    have hnil : added = [] := by simpa using hadded
    subst hnil
    rw [Stmt.execAll] at hev
    obtain ⟨rfl, rfl⟩ := Eval.pure_some.mp hev
    refine ⟨?_, M, .refl, hrest, hm⟩
    rwa [List.append_nil]
  | cons x rest ih =>
    obtain ⟨opened, first, t, t', ho, hx, hmore⟩ := Stmt.lowerAll_cons_ok h
    rcases openBlockAfter_ok ho with ⟨-, rfl, rfl⟩ | ⟨hends, -⟩
    · obtain ⟨more, hcode⟩ := lowerAll_append hmore
      rw [List.append_nil, List.append_assoc, List.append_cancel_left_eq] at hcode
      subst hcode
      rw [List.append_nil, ← List.append_assoc] at hmore
      rw [resolved_append, List.append_assoc] at hrest
      rw [Stmt.execAll] at hev
      have hexec := hbody x List.mem_cons_self hx hordered hscope
      rcases Eval.andThen_some hev with ⟨m₁, hfirst, hev⟩ | ⟨hnormal, hfirst⟩
      · obtain ⟨hopen₁, M₁, h₁⟩ := hexec hrest hm hfirst
        obtain ⟨new, hnew⟩ := hgrows x List.mem_cons_self hscope hx
        have hends := ih (fun y hy => hgrows y (List.mem_cons_of_mem x hy))
          (fun y hy => hbody y (List.mem_cons_of_mem x hy)) _ _
          (Code.endsWithTerminator_append hopen hopen₁) hmore (hnew.ordered hordered hscope)
          (Nat.lt_of_lt_of_le hscope hnew.size_le) h₁.rest h₁.matched hev
        rw [hnew.visible_eq hordered hscope] at hends
        rw [← List.append_assoc]
        exact (hends.mono fun M' hleft => hleft.mono).of_steps h₁.steps
      · exact (hexec hrest hm hfirst).of_abrupt hnormal rfl rfl fun M' hleft => hleft.outside
    · rw [hopen] at hends
      cases hends

lemma compound_executes {callees : Callees env.functions} {returnTy : Ty} {n : Nat}
    {body : List Stmt} (hscoped : Stmt.allBodiesScoped body = true)
    (hbody : ∀ x ∈ body, ∀ ctx,
      W.Executes ctx (x.lower env ctx) (x.exec env.functions callees returnTy n)) :
    W.Executes ctx ((Stmt.compound body).lower env ctx)
      ((Stmt.compound body).exec env.functions callees returnTy n) := by
  intro s code s' h hordered hscope k M m o m' hrest hm hev
  have hlower := Stmt.lower_compound_ok h
  rw [Stmt.exec] at hev
  obtain ⟨m₁, hexec, hm'⟩ := Eval.inScope_some.mp hev
  have hinner := s.length_lt_opened ctx.scope
  have hordered' := (Scopes.openChild_keeps hscope).ordered hordered
  have hgrows : ∀ x ∈ body, CodeGrows s.scopes.scopes.length
      (x.lower env { ctx with scope := s.scopes.scopes.length }) := fun x hx =>
    (x.lower_grows (Stmt.bodiesScoped_of_mem hscoped hx) { ctx with scope := _ }).1
  obtain ⟨new, hnew⟩ := Stmt.lowerAll_grows { ctx with scope := s.scopes.scopes.length } hgrows []
    hinner hlower
  have hvisible : (s.opened ctx.scope).scopes.visible s.scopes.scopes.length =
      s.scopes.visible ctx.scope := Scopes.visible_openChild hordered hscope
  have hends := lowerAll_ends hgrows (fun x hx => hbody x hx { ctx with scope := _ }) [] code rfl
    hlower hordered' hinner hrest (hm.opened hordered hscope) hexec
  have hvisible' := hnew.visible_eq hordered' hinner
  rw [hvisible] at hends hvisible'
  have houter := (hnew.keeps_of_openChild hscope).visible_eq hordered hscope
  exact hends.leaveScope hvisible' houter hm.vars.length_eq hm'

/-- A branch goes where the test says. -/
lemma branchOn_simulates {callees : Callees env.functions} (hresult : W.result = callees.result)
    {condition : Expr} {onTrue onFalse : Label} {b : Bool}
    (h : branchOn (condition.lower env scope) onTrue onFalse s = .ok code s')
    (hrest : M.rest = W.resolved code ++ k) (hm : W.Matches s scope m M)
    (hev : Eval.test (condition.eval env.functions callees) m = some (b, m')) :
    ∃ M', W.Steps M M' ∧ Agrees (s.scopes.visible scope) m' M' ∧
      M'.step W.result W.code =
        M'.goto W.code (W.labels.named (if b then onTrue else onFalse)) := by
  obtain ⟨test, v, hv, hty, rfl⟩ := branchOn_ok h
  obtain ⟨a, ha, rfl⟩ := Eval.test_some.mp hev
  rw [resolved_append, List.append_assoc] at hrest
  obtain ⟨M₁, h₁, hx, -⟩ := operandAs_simulates (simulates_lower hresult condition) hv hrest hm ha
  obtain ⟨_, ⟨⟩, hinteger, hwrap⟩ := hx.exists_integer (by rw [hty]; rfl)
  rw [hty, Ty.wrap_bool_iff] at hwrap
  have hagrees := h₁.matched.toAgrees
  rw [Scopes.visible_of_scopes_eq (operandAs_keeps condition.lower_keeps hv)] at hagrees
  refine ⟨M₁, h₁.steps, hagrees, ?_⟩
  have hstep : M₁.step W.result W.code = _ := Machine.step_branch h₁.rest hinteger hwrap
  rw [hstep]
  by_cases hzero : a = 0
  · simp [hzero]
  · simp [hzero]

/-- The part of an `if` that the test picks goes on behind the statement, unless it ends early.
The jump behind the part is there whenever the part's own end can be reached. -/
lemma part_ends (e : LowerState) {x : Lower Code} {ev : Eval Outcome} (hx : W.Executes ctx x ev)
    {u t : LowerState} {before part jump whole rest : Code} {entry l target : Label} {elide : Bool}
    {vis : List (String × Value)} (h : x u = .ok part t)
    (hordered : u.scopes.Ordered) (hscope : ctx.scope < u.scopes.scopes.length)
    (hagrees : Agrees vis m M)
    (hstep : M.step W.result W.code = M.goto W.code (W.labels.named entry))
    (hentry : .label (W.labels.named entry) :: (W.resolved part ++ (W.resolved jump ++ rest)) <:+
      W.code)
    (hu : u.scopes.visible ctx.scope = vis) (hnumbered : Numbered vis u.next)
    (hstart : W.labels.named u.block = W.labels.named entry) (hev : ev m = some (o, m'))
    (hjump : jump = if elide && Code.endsWithTerminator (before ++ .label l :: part) then []
      else [.jump target])
    (hlabel : .label (W.labels.named target) :: k <:+ W.code)
    (hvisible : e.scopes.visible ctx.scope = t.scopes.visible ctx.scope) (hnext : t.next ≤ e.next)
    (hblock : W.labels.named e.block = W.labels.named target)
    (hopen : Code.endsWithTerminator whole = false) :
    W.Ends M ctx (Agrees vis m') whole k e m' o := by
  obtain ⟨M₀, h₀, -, -⟩ := exists_goto u hagrees hstep hentry hu hnumbered hstart
  have hends := hx h hordered hscope h₀.rest h₀.matched hev
  rw [hu] at hends
  refine Ends.of_steps ?_ h₀.steps
  by_cases ho : o = .normal
  · subst ho
    obtain ⟨hpart, M₁, h₁⟩ := hends
    rw [hjump, Code.endsWithTerminator_label _ _ hpart, Bool.and_false,
      if_neg Bool.false_ne_true] at h₁
    obtain ⟨M₂, h₂, -, -⟩ := exists_goto e h₁.matched.toAgrees (Machine.step_jump h₁.rest) hlabel
      hvisible (h₁.matched.numbered.mono hnext) hblock
    exact ⟨hopen, M₂, h₂.of_steps h₁.steps⟩
  · exact hends.of_abrupt ho rfl rfl fun M' hleft => hleft

lemma ifElse_none_executes {callees : Callees env.functions} (hresult : W.result = callees.result)
    {returnTy : Ty} {n : Nat} {condition : Expr} {onTrue : Stmt}
    (hscoped : (Stmt.ifElse condition onTrue none).bodiesScoped = true)
    (htrue : W.Executes ctx (onTrue.lower env ctx) (onTrue.exec env.functions callees returnTy n)) :
    W.Executes ctx ((Stmt.ifElse condition onTrue none).lower env ctx)
      ((Stmt.ifElse condition onTrue none).exec env.functions callees returnTy n) := by
  intro s code s' h hordered hscope k M m o m' hrest hm hev
  rw [Stmt.lower] at h
  obtain ⟨test, trueCode, jump, t, t₁, log, n, rfl, htest, -, ht, -, hj, rfl, rfl⟩ :=
    ifElse_none_ok h
  simp only [Stmt.bodiesScoped, Bool.and_eq_true, Bool.not_eq_true'] at hscoped
  simp only [Stmt.exec, Eval.bind_some] at hev
  obtain ⟨b, m₁, hb, hev⟩ := hev
  have htested := branchOn_keeps condition.lower_keeps htest
  have hkeeps : s.scopes.Keeps (t.placed (.pending s.labels.size)).scopes := .of_eq htested
  have hscope' := Nat.lt_of_lt_of_le hscope hkeeps.size_le
  have hkeeps₂ := (onTrue.lower_grows hscoped.2 ctx).2 hscoped.1 hscope' ht
  have hvisible := hkeeps.visible_eq hordered hscope
  have hkeeps₃ : s.scopes.Keeps ((t₁.logged log).placed (.pending (s.labels.size + 1))).scopes :=
    (hkeeps.trans hkeeps₂).trans (.of_eq rfl)
  have hnext₁ := branchOn_draws htest
  have hnext₂ := onTrue.lower_draws ctx ht
  simp only [LowerState.allocated_next, LowerState.placed_next] at hnext₁ hnext₂
  simp only [resolved_append, resolved_cons, resolved_nil, Instr.relabel_label, List.append_assoc,
    List.cons_append, List.nil_append] at hrest
  have hs₁ := hm.suffix_of_append hrest
  have hs₂ := (List.suffix_append _ _).trans
    ((List.suffix_append _ _).trans ((List.suffix_cons _ _).trans hs₁))
  have hm₀ : W.Matches s.allocated.allocated ctx.scope m M :=
    hm.of_same rfl (Nat.le_refl _) hm.block rfl rfl hm.suffix
  obtain ⟨M₁, hsteps, hagrees, hstep⟩ := branchOn_simulates hresult htest hrest hm₀ hb
  cases b with
  | true =>
    refine Ends.of_steps ?_ hsteps
    exact part_ends _ htrue ht (hkeeps.ordered hordered) hscope' hagrees hstep hs₁ hvisible
      (hm.numbered.mono (by simp only [LowerState.placed_next]; omega)) rfl hev hj hs₂
      (Scopes.visible_of_scopes_eq rfl) (Nat.le_succ _) rfl
      (Code.endsWithTerminator_concat _ _)
  | false =>
    obtain ⟨rfl, rfl⟩ := Eval.pure_some.mp hev
    obtain ⟨M₂, h₂, -, -⟩ := exists_goto ((t₁.logged log).placed (.pending (s.labels.size + 1)))
      hagrees hstep hs₂ (hkeeps₃.visible_eq hordered hscope)
      (hm.numbered.mono (by simp only [LowerState.placed_next, LowerState.logged_next]; omega)) rfl
    exact ⟨Code.endsWithTerminator_concat _ _, M₂, h₂.of_steps hsteps⟩

lemma ifElse_some_executes {callees : Callees env.functions} (hresult : W.result = callees.result)
    {returnTy : Ty} {n : Nat} {condition : Expr} {onTrue onFalse : Stmt}
    (hscoped : (Stmt.ifElse condition onTrue (some onFalse)).bodiesScoped = true)
    (htrue : W.Executes ctx (onTrue.lower env ctx) (onTrue.exec env.functions callees returnTy n))
    (hfalse : W.Executes ctx (onFalse.lower env ctx)
      (onFalse.exec env.functions callees returnTy n)) :
    W.Executes ctx ((Stmt.ifElse condition onTrue (some onFalse)).lower env ctx)
      ((Stmt.ifElse condition onTrue (some onFalse)).exec env.functions callees returnTy n) := by
  intro s code s' h hordered hscope k M m o m' hrest hm hev
  rw [Stmt.lower] at h
  obtain ⟨test, trueCode, trueJump, falseCode, falseJump, t, t₁, t₂, log₁, log₂, n, j, rfl, htest,
    -, ht, rfl, -, hf, -, hj₁, hj₂, rfl, rfl⟩ := ifElse_some_ok h
  simp only [Stmt.bodiesScoped, Bool.and_eq_true, Bool.not_eq_true'] at hscoped
  simp only [Stmt.exec, Eval.bind_some] at hev
  obtain ⟨b, m₁, hb, hev⟩ := hev
  have htested := branchOn_keeps condition.lower_keeps htest
  have hkeeps : s.scopes.Keeps (t.placed (.pending s.labels.size)).scopes := .of_eq htested
  have hscope₁ := Nat.lt_of_lt_of_le hscope hkeeps.size_le
  have hkeeps₁ := (onTrue.lower_grows hscoped.1.2 ctx).2 hscoped.1.1 hscope₁ ht
  have hkeeps₂ : s.scopes.Keeps
      ((t₁.allocated.logged log₁).placed (.pending (s.labels.size + 1))).scopes :=
    (hkeeps.trans hkeeps₁).trans (.of_eq rfl)
  have hscope₂ := Nat.lt_of_lt_of_le hscope hkeeps₂.size_le
  have hkeeps₃ := (onFalse.lower_grows hscoped.2.2 ctx).2 hscoped.2.1 hscope₂ hf
  have hreopened : t₁.scopes.Keeps
      ((t₁.allocated.logged log₁).placed (.pending (s.labels.size + 1))).scopes := .of_eq rfl
  have hkeeps₄ : t₁.scopes.Keeps ((t₂.logged log₂).placed (.pending t₁.labels.size)).scopes :=
    (hreopened.trans hkeeps₃).trans (.of_eq rfl)
  have hnext₁ := branchOn_draws htest
  have hnext₂ := onTrue.lower_draws ctx ht
  have hnext₃ := onFalse.lower_draws ctx hf
  simp only [LowerState.allocated_next, LowerState.placed_next, LowerState.logged_next]
    at hnext₁ hnext₂ hnext₃
  simp only [resolved_append, resolved_cons, resolved_nil, Instr.relabel_label, List.append_assoc,
    List.cons_append, List.nil_append] at hrest
  have hs₁ := hm.suffix_of_append hrest
  have hs₂ := (List.suffix_append _ _).trans
    ((List.suffix_append _ _).trans ((List.suffix_cons _ _).trans hs₁))
  have hs₃ := (List.suffix_append _ _).trans
    ((List.suffix_append _ _).trans ((List.suffix_cons _ _).trans hs₂))
  have hm₀ : W.Matches s.allocated.allocated ctx.scope m M :=
    hm.of_same rfl (Nat.le_refl _) hm.block rfl rfl hm.suffix
  obtain ⟨M₁, hsteps, hagrees, hstep⟩ := branchOn_simulates hresult htest hrest hm₀ hb
  cases b with
  | true =>
    refine Ends.of_steps ?_ hsteps
    exact part_ends _ htrue ht (hkeeps.ordered hordered) hscope₁ hagrees hstep hs₁
      (hkeeps.visible_eq hordered hscope)
      (hm.numbered.mono (by simp only [LowerState.placed_next]; omega)) rfl hev hj₁ hs₃
      (hkeeps₄.visible_eq (hkeeps₁.ordered (hkeeps.ordered hordered))
        (Nat.lt_of_lt_of_le hscope₁ hkeeps₁.size_le))
      (by simp only [LowerState.placed_next, LowerState.logged_next]; omega) rfl
      (Code.endsWithTerminator_concat _ _)
  | false =>
    have hnext : s.next ≤ ((t₁.allocated.logged log₁).placed (.pending (s.labels.size + 1))).next := by
      simp only [LowerState.placed_next, LowerState.logged_next, LowerState.allocated_next]
      omega
    refine Ends.of_steps ?_ hsteps
    exact part_ends _ hfalse hf (hkeeps₂.ordered hordered) hscope₂ hagrees hstep hs₂
      (hkeeps₂.visible_eq hordered hscope) (hm.numbered.mono hnext) rfl hev hj₂ hs₃
      (Scopes.visible_of_scopes_eq rfl) (Nat.le_succ _) rfl
      (Code.endsWithTerminator_concat _ _)

end Program

end MiniC
