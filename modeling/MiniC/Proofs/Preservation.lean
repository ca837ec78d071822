import MiniC.Proofs.LoopSimulation

/-!
# Lowering preserves meaning

The code of a definition, run from its entry label, returns what evaluation of the definition gives
and makes the same calls in the same order.
-/

namespace MiniC

namespace Program

open Lower

variable {W : Program} {s s' : LowerState} {env : LowerEnv} {m m' : Memory} {M : Machine}
  {code k : Code}

/-- The code of a statement does what the statement does, in every context. -/
theorem executes_lower {callees : Callees env.functions} (hresult : W.result = callees.result)
    (n : Nat) (x : Stmt) (hscoped : x.bodiesScoped = true) (ctx : Context) :
    W.Executes ctx (x.lower env ctx) (x.exec env.functions callees env.returnTy n) := by
  induction x using Stmt.induction generalizing ctx with
  | expression e => exact expression_executes hresult env.returnTy n e
  | declaration ds => exact declaration_executes hresult env.returnTy n ds
  | compound body hbody =>
    rw [Stmt.bodiesScoped] at hscoped
    exact compound_executes hscoped fun x hx => hbody x hx (Stmt.bodiesScoped_of_mem hscoped hx)
  | ifElse condition onTrue onFalse htrue hfalse =>
    cases onFalse with
    | none =>
      have hparts := hscoped
      simp only [Stmt.bodiesScoped, Bool.and_eq_true, Bool.not_eq_true'] at hparts
      exact ifElse_none_executes hresult hscoped (htrue hparts.2 ctx)
    | some onFalse =>
      have hparts := hscoped
      simp only [Stmt.bodiesScoped, Bool.and_eq_true, Bool.not_eq_true'] at hparts
      exact ifElse_some_executes hresult hscoped (htrue hparts.1.2 ctx)
        (hfalse onFalse rfl hparts.2.2 ctx)
  | whileLoop condition body hbody =>
    have hparts := hscoped
    simp only [Stmt.bodiesScoped, Bool.and_eq_true, Bool.not_eq_true'] at hparts
    exact whileLoop_executes hresult hscoped (hbody hparts.2)
  | forLoop init condition step body hinit hbody =>
    obtain ⟨hinits, -, hbodies⟩ := Stmt.forLoop_scoped hscoped
    exact forLoop_executes hresult hscoped (fun x hx => hinit x hx (hinits x hx)) (hbody hbodies)
  | ret value => exact ret_executes hresult n value
  | brk =>
    intro s code s' h hordered hscope k M m o m' hrest hm hev
    rw [Stmt.exec] at hev
    obtain ⟨rfl, rfl⟩ := Eval.pure_some.mp hev
    exact leave_leaves h hrest hm
  | cont =>
    intro s code s' h hordered hscope k M m o m' hrest hm hev
    rw [Stmt.exec] at hev
    obtain ⟨rfl, rfl⟩ := Eval.pure_some.mp hev
    exact leave_leaves h hrest hm

/-- The variables of parameters, the last one first. -/
def paramVars (params : List Param) (args : List Val) : List (String × Cell) :=
  (params.zip args).reverse.map fun (p, v) => (p.name, ⟨p.ty, some v⟩)

lemma paramVars_cons (p : Param) (params : List Param) (v : Val) (args : List Val) :
    paramVars (p :: params) (v :: args) = paramVars params args ++ [(p.name, ⟨p.ty, some v⟩)] := by
  simp [paramVars]

lemma paramSlots_open {pairs : List (Param × Value)} (h : paramSlots env pairs s = .ok code s') :
    Code.endsWithTerminator code = false := by
  induction pairs generalizing s code with
  | nil =>
    obtain ⟨rfl, -⟩ := pure_ok.mp h
    rfl
  | cons pair rest ih =>
    obtain ⟨-, -, scopes, more, -, hmore, rfl⟩ := paramSlots_cons_ok h
    have hslot : Code.endsWithTerminator [.alloca (.slot s.next pair.1.ty)
        (env.options.alignmentFor pair.1.ty), .store pair.2 (.slot s.next pair.1.ty)
        (env.options.alignmentFor pair.1.ty)] = false := rfl
    exact Code.endsWithTerminator_append hslot (ih hmore)

/-- The code of parameters gives each a slot with its argument. -/
lemma paramSlots_arrives {params : List Param} {values : List Value} {args : List Val}
    (h : paramSlots env (params.zip values) s = .ok code s')
    (hlength : params.length = values.length) (hvalues : List.Forall₂ (Denotes M s.next) values args)
    (hordered : s.scopes.Ordered) (hscope : Scopes.root < s.scopes.scopes.length)
    (hrest : M.rest = W.resolved code ++ k) (hm : W.Matches s Scopes.root m M) :
    ∃ M', W.Arrives M k s' Scopes.root { m with vars := paramVars params args ++ m.vars } M' ∧
      s'.scopes.Ordered ∧ Scopes.root < s'.scopes.scopes.length := by
  induction params generalizing values args s code m M with
  | nil =>
    obtain rfl : values = [] := List.eq_nil_of_length_eq_zero hlength.symm
    cases hvalues
    obtain ⟨rfl, rfl⟩ := pure_ok.mp h
    exact ⟨M, ⟨.refl, hrest, hm⟩, hordered, hscope⟩
  | cons p params ih =>
    cases hvalues with
    | nil => cases hlength
    | @cons v x values args hv hvalues =>
      obtain ⟨-, hty, scopes, more, hdeclare, hmore, rfl⟩ := paramSlots_cons_ok h
      have hgrows := declareSlot_grows hdeclare hscope
      have hnext : s.next ≤ LowerState.next { s with scopes } := by
        rw [show LowerState.next { s with scopes } = s.next + 1 from Scopes.declare_next hdeclare]
        omega
      have hslot : (scopes.visible Scopes.root).lookup p.name = some (.slot s.next p.ty) := by
        rw [hgrows.visible_eq hordered hscope]
        exact List.lookup_cons_self
      have h₀ := declare_arrives hdeclare hordered hscope hrest hm
      have h₁ := Reached.store h₀.matched h₀.rest hslot (hv.mono (fun _ _ => rfl) hnext) hty
      have hassign : Memory.assign p.name x ((p.name, { ty := p.ty }) :: m.vars) =
          (p.name, ⟨p.ty, some x⟩) :: m.vars := by simp [Memory.assign]
      rw [hassign] at h₁
      obtain ⟨M₂, h₂, hordered', hscope'⟩ := ih hmore (Nat.succ.inj hlength)
        (hvalues.imp fun _ _ hw => hw.mono (fun _ _ => rfl) hnext) (hgrows.ordered hordered hscope)
        (Nat.lt_of_lt_of_le hscope hgrows.size_le) h₁.rest h₁.matched
      refine ⟨M₂, ?_, hordered', hscope'⟩
      rw [paramVars_cons, List.append_assoc]
      exact (h₂.of_steps h₁.steps).of_steps h₀.steps

end Program

/-- Arguments are found under the numbers of the parameters. -/
lemma lookup_params {args : List Val} {n count i : Nat} (hlength : args.length ≤ count) :
    (((List.range' n count).map some).zip args).lookup (some (n + i)) = args[i]? := by
  induction args generalizing n count i with
  | nil => rw [List.zip_nil_right, List.lookup_nil, List.getElem?_nil]
  | cons v rest ih =>
    cases count with
    | zero => cases hlength
    | succ count =>
      rw [List.range'_succ, List.map_cons, List.zip_cons_cons, List.lookup_cons]
      cases i with
      | zero => simp
      | succ i =>
        have hne : (some (n + (i + 1)) == some n) = false := by
          rw [beq_eq_false_iff_ne]
          simp
        have hshift : n + (i + 1) = n + 1 + i := by omega
        rw [hne, hshift, List.getElem?_cons_succ]
        exact ih (Nat.le_of_succ_le_succ hlength)

/-- The parameters of a function have the values of the arguments. -/
lemma params_denote {M : Machine} {tys : List Ty} {args : List Val} {n bound : Nat}
    (hargs : List.Forall₂ Val.HasTy args tys)
    (htemps : ∀ i v, args[i]? = some v → M.temps (n + i) = some v) (hbound : n + tys.length ≤ bound) :
    List.Forall₂ (Denotes M bound) ((tys.zipIdx n).map fun (ty, id) => .temp id ty) args := by
  induction hargs generalizing n with
  | nil => exact .nil
  | @cons v ty args tys hv _ ih =>
    rw [List.length_cons] at hbound
    rw [List.zipIdx_cons, List.map_cons]
    refine .cons ⟨htemps 0 v rfl, hv, by simp, ?_⟩ (ih ?_ (by omega))
    · rintro _ _ ⟨⟩
      omega
    · intro i x hx
      have hshift : n + 1 + i = n + (i + 1) := by omega
      rw [hshift]
      exact htemps (i + 1) x hx

namespace Definition.Lowered

open Lower

variable {d : Definition} {env : LowerEnv} {seg : Segment} (w : d.Lowered env seg)

/-- The code of a definition as a program. -/
def program (result : String → List Val → Val) : Program where
  labels := w.final.labels
  code := seg.instructions
  result
  nodup := w.nodup_ids.of_map Label.id

/-- Behind the entry label stands the code of the parameters, of the body and of the end. -/
lemma instructions_eq (result : String → List Val → Val) : seg.instructions =
    .functionBegin d.name d.returnTy env.params :: .label (w.final.labels.named env.entry) ::
      ((w.program result).resolved w.paramCode ++ ((w.program result).resolved w.body ++
        ((w.program result).resolved (ending env.returnTy (d.frame env w.paramCode w.body)) ++
          [.functionEnd]))) := by
  have hbegin : (Instr.functionBegin d.name d.returnTy env.params).relabel w.final.labels.named =
      .functionBegin d.name d.returnTy env.params := rfl
  have hend : Instr.functionEnd.relabel w.final.labels.named = .functionEnd := rfl
  rw [w.code]
  simp [wholeCode, frame, Program.resolved, program, hbegin, hend]

/-- The machine in front of the code of the parameters. -/
def initial (result : String → List Val → Val) (args : List Val) : Machine where
  rest := (w.program result).resolved w.paramCode ++ ((w.program result).resolved w.body ++
    ((w.program result).resolved (ending env.returnTy (d.frame env w.paramCode w.body)) ++
      [.functionEnd]))
  block := w.final.labels.named env.entry
  temps id := ((env.params.map Value.id?).zip args).lookup (some id)

lemma start_eq (result : String → List Val → Val) (args : List Val) :
    seg.start args = some (w.initial result args) := by
  rw [Segment.start, w.instructions_eq result]
  rfl

lemma initial_matches (result : String → List Val → Val) (args : List Val) :
    (w.program result).Matches env.start Scopes.root {} (w.initial result args) where
  calls := rfl
  vars := .nil
  suffix := by
    have hcode : (w.program result).code = seg.instructions := rfl
    rw [hcode, w.instructions_eq result]
    exact (List.suffix_cons _ _).trans (List.suffix_cons _ _)
  block := rfl
  numbered := ⟨List.nodup_nil, fun _ hb => by cases hb⟩

/-- Where control arrives at the end of a `void` function, a `ret` stands there. -/
lemma ending_eq (hvoid : env.returnTy = .void) (hopen : Code.endsWithTerminator w.body = false) :
    ending env.returnTy (d.frame env w.paramCode w.body) = [.ret none] := by
  have hframe : Code.endsWithTerminator (d.frame env w.paramCode w.body) = false := by
    have hentry : Code.endsWithTerminator
        [.functionBegin d.name d.returnTy env.params, .label env.entry] = false := rfl
    have hparams := Code.endsWithTerminator_append hentry (Program.paramSlots_open w.params_ok)
    exact Code.endsWithTerminator_append hparams hopen
  rw [ending, if_pos ⟨hframe, hvoid⟩]

/-- From the entry of a function, the machine comes to a `ret` that gives what evaluation gives. -/
theorem returns {callees : Callees env.functions} {n : Nat} {args : List Val}
    {r : Option Val × List Call} (hscoped : Stmt.allBodiesScoped d.body = true)
    (hlength : d.params.length = env.params.length) (hty : env.returnTy = d.returnTy)
    (hvalues : List.Forall₂ (Denotes (w.initial callees.result args) env.start.next) env.params args)
    (heval : d.eval env.functions callees n args = some r) :
    ∃ M, (w.program callees.result).Steps (w.initial callees.result args) M ∧
      M.returned = some r := by
  have hm₀ := w.initial_matches callees.result args
  have hordered : env.start.scopes.Ordered := by
    intro id parent hp
    cases id <;> cases hp
  obtain ⟨M₁, h₁, hordered₁, hscope₁⟩ := Program.paramSlots_arrives w.params_ok hlength hvalues
    hordered Nat.zero_lt_one rfl hm₀
  have hvars : Memory.mk (Program.paramVars d.params args ++ []) [] = d.start args := by
    rw [List.append_nil]
    rfl
  rw [hvars] at h₁
  obtain ⟨⟨o, m'⟩, hexec, hr⟩ := Option.bind_eq_some_iff.mp heval
  rw [← hty] at hexec
  have hinner := w.declared.length_lt_opened Scopes.root
  have hgrows : ∀ x ∈ d.body, CodeGrows w.declared.scopes.scopes.length
      (x.lower env { scope := w.declared.scopes.scopes.length }) := fun x hx =>
    (x.lower_grows (Stmt.bodiesScoped_of_mem hscoped hx) { scope := _ }).1
  have hexecutes := fun x hx => Program.executes_lower (W := w.program callees.result) rfl n x
    (Stmt.bodiesScoped_of_mem hscoped hx) { scope := w.declared.scopes.scopes.length }
  have hends := Program.lowerAll_ends hgrows hexecutes [] w.body rfl w.body_ok
    ((Scopes.openChild_keeps hscope₁).ordered hordered₁) hinner h₁.rest
    (h₁.matched.opened hordered₁ hscope₁) hexec
  cases o with
  | normal =>
    obtain ⟨hopen, M₂, h₂⟩ := hends
    rw [Option.ite_none_right_eq_some] at hr
    obtain ⟨hvoid, ⟨⟩⟩ := hr
    have hvoid' : env.returnTy = .void := by
      rw [hty]
      cases hreturn : d.returnTy <;> simp_all [Ty.isVoid]
    refine ⟨M₂, Relation.ReflTransGen.trans h₁.steps h₂.steps, ?_⟩
    have hrest := h₂.rest
    rw [w.ending_eq hvoid' hopen] at hrest
    have hrest' : M₂.rest = .ret none :: [.functionEnd] := hrest
    rw [Machine.returned, hrest', h₂.matched.calls]
  | brk | cont => cases hr
  | ret value =>
    obtain ⟨M₂, hsteps, hreturned⟩ := hends
    cases hr
    exact ⟨M₂, Relation.ReflTransGen.trans h₁.steps hsteps, hreturned⟩

end Definition.Lowered

/-- Lowering preserves meaning. Whatever the functions that a definition calls give for arguments, if
evaluation of the definition is defined, then its code returns the same value for the same arguments
and makes the same calls. -/
theorem Compiler.lowerDefinition_preserves {c : Compiler} {d : Definition} {seg : Segment}
    (h : (c.lowerDefinition d).result = .ok seg) (hscoped : Stmt.allBodiesScoped d.body = true)
    (callees : Callees (c.lowerDefinition d).compiler.functions) {args : List Val}
    (hargs : List.Forall₂ Val.HasTy args d.paramTys) {n : Nat} {value : Option Val}
    {calls : List Call}
    (heval : d.eval (c.lowerDefinition d).compiler.functions callees n args = some (value, calls)) :
    ∃ steps, seg.run callees.result steps args = some (value, calls) := by
  obtain ⟨env, henv, w, -⟩ := lowerDefinition_lowered h
  subst henv
  have hlength : d.params.length = (LowerEnv.ofSignature (c.lowerDefinition d).compiler.functions
      c.options d.signature).params.length := by
    simp [LowerEnv.ofSignature, Definition.signature, Definition.paramTys]
  have htemps : ∀ i v, args[i]? = some v →
      (w.initial callees.result args).temps (0 + i) = some v := by
    intro i v hv
    rw [← hv, Definition.Lowered.initial, LowerEnv.definitions_params, List.range_eq_range']
    refine lookup_params (Nat.le_of_eq ?_)
    rw [← hlength, hargs.length_eq, Definition.paramTys, List.length_map]
  have hbound : 0 + d.paramTys.length ≤ (LowerEnv.ofSignature
      (c.lowerDefinition d).compiler.functions c.options d.signature).start.next := by
    simp [LowerEnv.ofSignature, LowerEnv.start, LowerState.next, Definition.signature]
  obtain ⟨M, hsteps, hreturned⟩ :=
    w.returns hscoped hlength rfl (params_denote hargs htemps hbound) heval
  obtain ⟨steps, hrun⟩ := Machine.run_of_steps hsteps hreturned
  refine ⟨steps, ?_⟩
  rw [Segment.run, w.start_eq callees.result]
  exact hrun

theorem sumUpTo_returns_sum : ∃ seg,
    (Compiler.lowerDefinition {} Definition.sumUpTo).result = .ok seg ∧
      ∃ steps, seg.run (default : Callees
        (Compiler.lowerDefinition {} Definition.sumUpTo).compiler.functions).result steps [.int 5] =
          some (some (.int 13), []) := by
  obtain ⟨seg, h⟩ := Definition.sumUpTo_accepted
  have hargs : List.Forall₂ Val.HasTy [.int 5] Definition.sumUpTo.paramTys := .cons (by decide) .nil
  have heval : Definition.sumUpTo.eval
      (Compiler.lowerDefinition {} Definition.sumUpTo).compiler.functions default 10 [.int 5] =
        some (some (.int 13), []) := by decide +kernel
  exact ⟨seg, h, Compiler.lowerDefinition_preserves h (by decide) default hargs heval⟩

end MiniC
