import MiniC.Proofs.Emission
import MiniC.Proofs.ForwardCode

/-!
# Where loops stand in code

`Stmt.Laid around x code loops` says how the code of the statement `x` is put together from that of
its parts, inside of the loop `around`, and lists the labels of its own loops in the order of their
starts. In code laid out like this, control goes forward, but for the rounds of these loops.
Lowering gives code that is laid out, under any names for its labels.
-/

namespace MiniC

/-- Whether code leads to the body of a loop, or behind its end if the condition does not hold. -/
inductive Code.Tests (body exit : Label) : Option Expr → Code → Prop where
  | always {code : Code} (h : code.MayJump body) : Tests body exit none code
  | condition {e : Expr} {test : Code} (v : Value) (h : test.Forward) :
      Tests body exit (some e) (test ++ [.branch v body exit])

mutual

/-- Whether code is laid out as that of a statement inside of the loop `around`. The loops of the
statement itself are `loops`, in the order of their starts. -/
inductive Stmt.Laid : Option LoopLabels → Stmt → Code → List LoopLabels → Prop where
  | expression {around : Option LoopLabels} {e : Expr} {code : Code} (h : code.Forward) :
      Laid around (.expression e) code []
  | declaration {around : Option LoopLabels} {ds : List Declarator} {code : Code}
      (h : code.Forward) : Laid around (.declaration ds) code []
  | ret {around : Option LoopLabels} {value : Option Expr} {code : Code} (h : code.Forward) :
      Laid around (.ret value) code []
  | compound {around : Option LoopLabels} {body : List Stmt} {code : Code}
      {loops : List LoopLabels} (h : LaidAll around body code loops) :
      Laid around (.compound body) code loops
  | ifThen {around : Option LoopLabels} {condition : Expr} {onTrue : Stmt} {v : Value}
      {l behind : Label} {test trueCode jump : Code} {loops : List LoopLabels}
      (htest : test.Forward) (htrue : Laid around onTrue trueCode loops)
      (hjump : jump.MayJump behind) :
      Laid around (.ifElse condition onTrue none)
        (test ++ [.branch v l behind, .label l] ++ trueCode ++ jump ++ [.label behind]) loops
  | ifElse {around : Option LoopLabels} {condition : Expr} {onTrue onFalse : Stmt} {v : Value}
      {l m behind : Label} {test trueCode trueJump falseCode falseJump : Code}
      {loops loops' : List LoopLabels} (htest : test.Forward)
      (htrue : Laid around onTrue trueCode loops) (htrueJump : trueJump.MayJump behind)
      (hfalse : Laid around onFalse falseCode loops') (hfalseJump : falseJump.MayJump behind) :
      Laid around (.ifElse condition onTrue (some onFalse))
        (test ++ [.branch v l m, .label l] ++ trueCode ++ trueJump ++ [.label m] ++ falseCode ++
          falseJump ++ [.label behind]) (loops ++ loops')
  | whileLoop {around : Option LoopLabels} {condition : Expr} {body : Stmt} {loop : LoopLabels}
      {l : Label} {test bodyCode back : Code} {loops : List LoopLabels}
      (htest : test.Tests l loop.exit (some condition))
      (hbody : Laid (some loop) body bodyCode loops) (hback : back.MayJump loop.check) :
      Laid around (.whileLoop condition body)
        ([.jump loop.check, .label loop.check] ++ test ++ [.label l] ++ bodyCode ++ back ++
          [.label loop.exit]) (loop :: loops)
  /-- The first part of the header stands outside of the loop, and the step behind the body. -/
  | forLoop {around : Option LoopLabels} {init : Option Stmt} {condition step : Option Expr}
      {body : Stmt} {loop : LoopLabels} {l : Label}
      {initCode entering test bodyCode opened stepCode back : Code}
      {loops loops' : List LoopLabels} (hinit : LaidAll around init.toList initCode loops)
      (hentering : entering.MayJump loop.check) (htest : test.Tests l loop.exit condition)
      (hbody : Laid (some loop) body bodyCode loops') (hopened : opened.MayOpen)
      (hstep : stepCode.Forward) (hback : back.MayJump loop.check) :
      Laid around (.forLoop init condition step body)
        (initCode ++ entering ++ [.label loop.check] ++ test ++ [.label l] ++ bodyCode ++ opened ++
          stepCode ++ back ++ [.label loop.exit]) (loops ++ loop :: loops')
  | brk (loop : LoopLabels) : Laid (some loop) .brk [.jump loop.exit] []
  | cont (loop : LoopLabels) : Laid (some loop) .cont [.jump loop.check] []

/-- Whether code is laid out as that of statements, with new blocks where one is needed. -/
inductive Stmt.LaidAll : Option LoopLabels → List Stmt → Code → List LoopLabels → Prop where
  | nil {around : Option LoopLabels} : LaidAll around [] [] []
  | cons {around : Option LoopLabels} {x : Stmt} {rest : List Stmt} {opened code code' : Code}
      {loops loops' : List LoopLabels} (hopened : opened.MayOpen)
      (h : Laid around x code loops) (hrest : LaidAll around rest code' loops') :
      LaidAll around (x :: rest) (opened ++ code ++ code') (loops ++ loops')

end

namespace Stmt

mutual

/-- The number of loops in a statement. -/
def loopCount : Stmt → Nat
  | .compound body => loopCountAll body
  | .ifElse _ onTrue none => onTrue.loopCount
  | .ifElse _ onTrue (some onFalse) => onTrue.loopCount + onFalse.loopCount
  | .whileLoop _ body => body.loopCount + 1
  | .forLoop none _ _ body => body.loopCount + 1
  | .forLoop (some init) _ _ body => init.loopCount + (body.loopCount + 1)
  | _ => 0

def loopCountAll : List Stmt → Nat
  | [] => 0
  | x :: rest => x.loopCount + loopCountAll rest

end

lemma loopCount_forLoop (init : Option Stmt) (condition step : Option Expr) (body : Stmt) :
    (Stmt.forLoop init condition step body).loopCount =
      loopCountAll init.toList + (body.loopCount + 1) := by
  cases init with
  | none => rw [Option.toList_none, loopCountAll, loopCount, Nat.zero_add]
  | some init => rw [Option.toList_some, loopCountAll, loopCountAll, Nat.add_zero, loopCount]

mutual

/-- Every loop has its labels. -/
theorem Laid.length_eq {around : Option LoopLabels} {x : Stmt} {code : Code}
    {loops : List LoopLabels} : Laid around x code loops → loops.length = x.loopCount
  | .expression _ | .declaration _ | .ret _ | .brk _ | .cont _ => rfl
  | .compound h => by rw [loopCount, h.length_eq]
  | .ifThen _ htrue _ => by rw [loopCount, htrue.length_eq]
  | .ifElse _ htrue _ hfalse _ => by
    rw [loopCount, List.length_append, htrue.length_eq, hfalse.length_eq]
  | .whileLoop _ hbody _ => by rw [loopCount, List.length_cons, hbody.length_eq]
  | .forLoop hinit _ _ hbody _ _ _ => by
    rw [loopCount_forLoop, List.length_append, List.length_cons, hbody.length_eq,
      hinit.length_eq]

theorem LaidAll.length_eq {around : Option LoopLabels} {body : List Stmt} {code : Code}
    {loops : List LoopLabels} : LaidAll around body code loops → loops.length = loopCountAll body
  | .nil => rfl
  | .cons _ h hrest => by
    rw [loopCountAll, List.length_append, h.length_eq, hrest.length_eq]

end

end Stmt

lemma Code.Tests.goes {outs : List Label} {loops : List LoopLabels} {body exit : Label}
    {condition : Option Expr} {code : Code} (h : code.Tests body exit condition)
    (hbody : body ∈ outs) (hexit : exit ∈ outs) : Goes outs loops code := by
  cases h with
  | always h => exact h.goes hbody
  | condition v h =>
    refine (h.goes outs loops).append ⟨Instr.goes_of_targets ?_, trivial⟩
    intro l hl
    simp only [Instr.targets, List.mem_cons, List.not_mem_nil, or_false] at hl
    rcases hl with rfl | rfl
    · exact .inr hbody
    · exact .inr hexit

/-- Whether the end of the loop around, if there is one, is still to come, and the loop is one of
`loops`. -/
def LoopLabels.Around (outs : List Label) (loops : List LoopLabels) (around : Option LoopLabels) :
    Prop :=
  ∀ loop ∈ around, loop.exit ∈ outs ∧ loop ∈ loops

lemma LoopLabels.Around.cons {outs : List Label} {loops : List LoopLabels}
    {around : Option LoopLabels} (h : Around outs loops around) (l : Label) :
    Around (l :: outs) loops around :=
  fun loop hloop => (h loop hloop).imp_left (List.mem_cons_of_mem l)

lemma LoopLabels.around_some {outs : List Label} {loops : List LoopLabels} {loop : LoopLabels}
    (hexit : loop.exit ∈ outs) (hloop : loop ∈ loops) : Around outs loops (some loop) := by
  rintro _ ⟨⟩
  exact ⟨hexit, hloop⟩

namespace Stmt

open Code LoopLabels

mutual

/-- Control goes forward in the code of a statement, but for the rounds of its loops and of the loop
around it. -/
theorem Laid.goes {around : Option LoopLabels} {x : Stmt} {code : Code}
    {loops all : List LoopLabels} {outs : List Label} (haround : Around outs all around) :
    Laid around x code loops → loops ⊆ all → Goes outs all code
  | .expression h, _ => h.goes outs all
  | .declaration h, _ => h.goes outs all
  | .ret h, _ => h.goes outs all
  | .compound h, hloops => h.goes haround hloops
  | .ifThen htest htrue hjump, hloops => by
    refine Goes.label (.append (.append (.append (htest.goes _ all) ?_) ?_) ?_)
    · exact goes_branch _ List.mem_cons_self
    · exact htrue.goes (haround.cons _) hloops
    · exact hjump.goes List.mem_cons_self
  | .ifElse htest htrue htrueJump hfalse hfalseJump, hloops => by
    obtain ⟨hloops, hloops'⟩ := List.append_subset.mp hloops
    refine goes_choice _ htest ?_ htrueJump ?_ hfalseJump
    · exact htrue.goes ((haround.cons _).cons _) hloops
    · exact hfalse.goes (haround.cons _) hloops'
  | .whileLoop htest hbody hback, hloops => by
    obtain ⟨hloop, hloops⟩ := List.cons_subset.mp hloops
    refine Goes.label (.append (.append (.label (.append ?_ ?_)) ?_) ?_)
    · exact goes_enter _
    · exact htest.goes List.mem_cons_self (List.mem_cons_of_mem _ List.mem_cons_self)
    · exact hbody.goes (around_some List.mem_cons_self hloop) hloops
    · exact hback.goes_back hloop List.mem_cons_self
  | .forLoop hinit hentering htest hbody hopened hstep hback, hloops => by
    obtain ⟨hloops, hloops'⟩ := List.append_subset.mp hloops
    obtain ⟨hloop, hloops'⟩ := List.cons_subset.mp hloops'
    refine Goes.label (.append (.append (.append (.append (.label ?_) ?_) ?_) ?_) ?_)
    · refine .append (.label (.append ?_ ?_)) ?_
      · exact hinit.goes (((haround.cons _).cons _).cons _) hloops
      · exact hentering.goes List.mem_cons_self
      · exact htest.goes List.mem_cons_self (List.mem_cons_of_mem _ List.mem_cons_self)
    · exact hbody.goes (around_some List.mem_cons_self hloop) hloops'
    · exact hopened.forward.goes _ all
    · exact hstep.goes _ all
    · exact hback.goes_back hloop List.mem_cons_self
  | .brk loop, _ => ⟨.inl (.inr (haround loop rfl).1), trivial⟩
  | .cont loop, _ => ⟨.inr ⟨loop, (haround loop rfl).2, rfl, .inr (haround loop rfl).1⟩, trivial⟩

theorem LaidAll.goes {around : Option LoopLabels} {body : List Stmt} {code : Code}
    {loops all : List LoopLabels} {outs : List Label} (haround : Around outs all around) :
    LaidAll around body code loops → loops ⊆ all → Goes outs all code
  | .nil, _ => trivial
  | .cons hopened h hrest, hloops => by
    obtain ⟨hloops, hloops'⟩ := List.append_subset.mp hloops
    have hfirst := (hopened.forward.goes outs all).append (h.goes haround hloops)
    exact hfirst.append (hrest.goes haround hloops')

end

end Stmt

/-- The labels of the loop around a statement, under the names `μ`. -/
def Context.around (μ : Nat → Label) (ctx : Context) : Option LoopLabels :=
  ctx.loop.map fun (exit, check) => ⟨μ check.id, μ exit.id⟩

namespace Lower

variable {μ : Nat → Label} {s s' : LowerState} {env : LowerEnv} {scope : ScopeId} {ctx : Context}
  {code : Code}

open Code Stmt

/-- Whether all code of a lowering is laid out as that of a statement. -/
def CodeLaid (μ : Nat → Label) (x : Stmt) (lowered : Context → Lower Code) : Prop :=
  ∀ ⦃ctx s code s'⦄, lowered ctx s = .ok code s' →
    ∃ loops, x.Laid (ctx.around μ) (withNames μ code) loops

lemma declarator_forward {d : Declarator} (h : declarator env scope d s = .ok code s') :
    (withNames μ code).Forward := by
  obtain ⟨-, scopes, -, ⟨-, -, rfl⟩ | ⟨e, init, v, -, hv, -, rfl⟩⟩ := declarator_ok h
  · exact withNames_forward μ (by simp [Instr.targets])
  · have halloca : (withNames μ [.alloca (.slot s.next d.ty)
        (env.options.alignmentFor d.ty)]).Forward := withNames_forward μ (by simp [Instr.targets])
    have hinit := operandAs_forward (e.lower_forward μ) hv
    rw [withNames_append]
    exact (halloca.append hinit).append (withNames_forward μ (by simp [Instr.targets]))

lemma declaration_forward {ds : List Declarator} (h : declaration env scope ds s = .ok code s') :
    (withNames μ code).Forward := by
  induction ds generalizing s code with
  | nil =>
    obtain ⟨rfl, -⟩ := pure_ok.mp h
    exact trivial
  | cons d rest ih =>
    obtain ⟨first, more, t, hd, hrest, rfl⟩ := declaration_cons_ok h
    rw [withNames_append]
    exact (declarator_forward hd).append (ih hrest)

lemma ret_forward {value : Option (Lower Segment)} (hvalue : ∀ x ∈ value, SegmentForward μ x)
    (h : ret env value s = .ok code s') : (withNames μ code).Forward := by
  obtain ⟨-, -, -, rfl⟩ | ⟨x, first, v, conversion, w, t, rfl, -, hx, hc, rfl⟩ := ret_ok h
  · exact withNames_forward μ (by simp [Instr.targets])
  · rw [withNames_append, withNames_append]
    exact ((hvalue x rfl hx).append (coerce_forward hc)).append
      (withNames_forward μ (by simp [Instr.targets]))

lemma branchOn_laid {condition : Lower Segment} (hcond : SegmentForward μ condition)
    {l m : Label} (h : branchOn condition l m s = .ok code s') :
    ∃ (test : Code) (v : Value), test.Forward ∧
      withNames μ code = test ++ [.branch v (μ l.id) (μ m.id)] := by
  obtain ⟨test, v, hv, -, rfl⟩ := branchOn_ok h
  exact ⟨withNames μ test, v, operandAs_forward hcond hv, withNames_append μ _ _⟩

lemma openBlockAfter_laid {opened : Code} (h : openBlockAfter code s = .ok opened s') :
    (withNames μ opened).MayOpen := by
  obtain ⟨-, rfl, -⟩ | ⟨-, rfl, -⟩ := openBlockAfter_ok h
  · exact .inl rfl
  · exact .inr ⟨_, rfl⟩

lemma ifElse_none_laid {condition : Expr} {onTrue : Stmt}
    (htrue : CodeLaid μ onTrue (onTrue.lower env)) :
    CodeLaid μ (.ifElse condition onTrue none)
      ((Stmt.ifElse condition onTrue none).lower env) := by
  intro ctx s code s' h
  rw [lower] at h
  obtain ⟨test, trueCode, jump, t, t₁, log, n, -, hb, -, ht, -, hj, -, rfl⟩ := ifElse_none_ok h
  obtain ⟨test', v, htest, heq⟩ := branchOn_laid (condition.lower_forward μ) hb
  obtain ⟨loops, hlaid⟩ := htrue ht
  have hjump : (withNames μ jump).MayJump (μ (n + 1)) := hj ▸ withNames_mayJump μ
  have hall : Laid (ctx.around μ) (.ifElse condition onTrue none) _ loops :=
    .ifThen (v := v) (l := μ n) htest hlaid hjump
  exact ⟨loops, by simpa [heq, Label.id] using hall⟩

lemma ifElse_some_laid {condition : Expr} {onTrue onFalse : Stmt}
    (htrue : CodeLaid μ onTrue (onTrue.lower env))
    (hfalse : CodeLaid μ onFalse (onFalse.lower env)) :
    CodeLaid μ (.ifElse condition onTrue (some onFalse))
      ((Stmt.ifElse condition onTrue (some onFalse)).lower env) := by
  intro ctx s code s' h
  rw [lower] at h
  obtain ⟨test, trueCode, trueJump, falseCode, falseJump, t, t₁, t₂, log₁, log₂, n, m, -, hb, -, ht,
    -, -, hf, -, hj₁, hj₂, -, rfl⟩ := ifElse_some_ok h
  obtain ⟨test', v, htest, heq⟩ := branchOn_laid (condition.lower_forward μ) hb
  obtain ⟨loops, hlaid⟩ := htrue ht
  obtain ⟨loops', hlaid'⟩ := hfalse hf
  have hjump : (withNames μ trueJump).MayJump (μ m) := hj₁ ▸ withNames_mayJump μ
  have hjump' : (withNames μ falseJump).MayJump (μ m) := hj₂ ▸ withNames_mayJump μ
  have hall : Laid (ctx.around μ) (.ifElse condition onTrue (some onFalse)) _ (loops ++ loops') :=
    .ifElse (v := v) (l := μ n) (m := μ (n + 1)) htest hlaid hjump hlaid' hjump'
  exact ⟨loops ++ loops', by simpa [heq, Label.id] using hall⟩

lemma whileLoop_laid {condition : Expr} {body : Stmt} (hbody : CodeLaid μ body (body.lower env)) :
    CodeLaid μ (.whileLoop condition body) ((Stmt.whileLoop condition body).lower env) := by
  intro ctx s code s' h
  rw [lower] at h
  obtain ⟨test, bodyCode, back, t, t₁, log₀, log, n, -, hb, -, hx, -, hj, -, rfl⟩ := whileLoop_ok h
  obtain ⟨test', v, htest, heq⟩ := branchOn_laid (condition.lower_forward μ) hb
  obtain ⟨loops, hlaid⟩ := hbody hx
  have hback : (withNames μ back).MayJump (μ n) := hj ▸ withNames_mayJump μ
  have hall : Laid (ctx.around μ) (.whileLoop condition body) _ (⟨μ n, μ (n + 2)⟩ :: loops) :=
    .whileLoop (l := μ (n + 1)) (.condition v htest) hlaid hback
  exact ⟨⟨μ n, μ (n + 2)⟩ :: loops, by simpa [heq, Label.id] using hall⟩

lemma initial_laid {init : Option Stmt} (hinit : ∀ x ∈ init, CodeLaid μ x (x.lower env))
    (h : initial (init.map fun x => x.lower env) ctx s = .ok code s') :
    ∃ loops, LaidAll (ctx.around μ) init.toList (withNames μ code) loops := by
  cases init with
  | none =>
    obtain ⟨rfl, -⟩ := pure_ok.mp h
    exact ⟨[], .nil⟩
  | some x =>
    obtain ⟨loops, hlaid⟩ := hinit x rfl h
    refine ⟨loops ++ [], ?_⟩
    have hall := LaidAll.cons (.inl rfl) hlaid .nil
    rwa [List.nil_append, List.append_nil] at hall

lemma loopTest_laid {before : Code} {condition : Option Expr} {l m : Label}
    (h : loopTest env before (condition.map fun e => e.lower env scope) l m s = .ok code s') :
    (withNames μ code).Tests (μ l.id) (μ m.id) condition := by
  cases condition with
  | none => exact .always ((jumpAfter_ok h).2 ▸ withNames_mayJump μ)
  | some e =>
    obtain ⟨test, v, htest, heq⟩ := branchOn_laid (e.lower_forward μ) h
    rw [heq]
    exact .condition v htest

lemma stepAfter_laid {before : Code} {step : Option (Lower Segment)}
    (hstep : ∀ x ∈ step, SegmentForward μ x) (h : stepAfter before step s = .ok code s') :
    ∃ opened stepCode : Code, opened.MayOpen ∧ stepCode.Forward ∧
      withNames μ code = withNames μ before ++ opened ++ stepCode := by
  obtain ⟨-, -, rfl⟩ | ⟨x, opened, seg, t, rfl, ho, hx, rfl⟩ := stepAfter_ok h
  · exact ⟨[], [], .inl rfl, trivial, by simp⟩
  · exact ⟨withNames μ opened, withNames μ seg.instructions, openBlockAfter_laid ho, hstep x rfl hx,
      by simp⟩

lemma forLoop_laid {init : Option Stmt} {condition step : Option Expr} {body : Stmt}
    (hinit : ∀ x ∈ init, CodeLaid μ x (x.lower env)) (hbody : CodeLaid μ body (body.lower env)) :
    CodeLaid μ (.forLoop init condition step body)
      ((Stmt.forLoop init condition step body).lower env) := by
  intro ctx s code s' h
  have hloop : forLoop env ctx (init.map fun x => x.lower env)
      (condition.map fun e scope => e.lower env scope) (step.map fun e scope => e.lower env scope)
      (body.lower env) s = .ok code s' := by
    cases init with
    | none => rwa [lower] at h
    | some x => rwa [lower] at h
  obtain ⟨initCode, entering, test, bodyCode, stepped, back, t₀, t, t₁, t₂, log₀, log, n, scope, -,
    hi, -, hentering, ht, -, hb, hst, -, hback, -, rfl⟩ := forLoop_ok hloop
  rw [Option.map_map] at ht hst
  obtain ⟨loops, hinitLaid⟩ := initial_laid hinit hi
  obtain ⟨loops', hbodyLaid⟩ := hbody hb
  obtain ⟨opened, stepCode, hopened, hstepCode, heq⟩ := stepAfter_laid
    (Option.forall_mem_map.mpr fun e _ => e.lower_forward μ) hst
  have hjump : (withNames μ entering).MayJump (μ n) := hentering ▸ withNames_mayJump μ
  have hjump' : (withNames μ back).MayJump (μ n) := hback ▸ withNames_mayJump μ
  have hall : Laid (ctx.around μ) (.forLoop init condition step body) _
      (loops ++ ⟨μ n, μ (n + 2)⟩ :: loops') :=
    .forLoop hinitLaid hjump (loopTest_laid ht) hbodyLaid hopened hstepCode hjump'
  exact ⟨loops ++ ⟨μ n, μ (n + 2)⟩ :: loops', by simpa [heq, Label.id] using hall⟩

lemma ending_withNames (μ : Nat → Label) (returnTy : Ty) (code : Code) :
    withNames μ (ending returnTy code) = [] ∨ withNames μ (ending returnTy code) = [.ret none] := by
  rw [ending]
  split
  · exact .inr rfl
  · exact .inl rfl

end Lower

namespace Stmt

open Code Lower

variable {env : LowerEnv} (μ : Nat → Label)

/-- The code of statements behind `before` is `before` and what is laid out for them. -/
lemma lowerAll_laid {body : List Stmt} (hbody : ∀ x ∈ body, CodeLaid μ x (x.lower env))
    {ctx : Context} {before code : Code} {s s' : LowerState}
    (h : lowerAll env body ctx before s = .ok code s') :
    ∃ added loops, code = before ++ added ∧
      LaidAll (ctx.around μ) body (withNames μ added) loops := by
  induction body generalizing before s with
  | nil =>
    obtain ⟨rfl, -⟩ := lowerAll_nil_ok h
    exact ⟨[], [], (List.append_nil _).symm, .nil⟩
  | cons x rest ih =>
    obtain ⟨opened, first, t, t', ho, hx, hrest⟩ := lowerAll_cons_ok h
    obtain ⟨loops, hlaid⟩ := hbody x List.mem_cons_self hx
    obtain ⟨more, loops', rfl, hall⟩ := ih (fun y hy => hbody y (List.mem_cons_of_mem x hy)) hrest
    refine ⟨opened ++ first ++ more, loops ++ loops', by simp, ?_⟩
    rw [withNames_append, withNames_append]
    exact .cons (openBlockAfter_laid ho) hlaid hall

/-- The code of a statement is laid out, under any names for its labels. -/
theorem lower_laid (x : Stmt) : CodeLaid μ x (x.lower env) := by
  induction x using Stmt.induction with
  | expression e =>
    intro ctx s code s' h
    obtain ⟨seg, he, rfl⟩ := lower_expression_ok h
    exact ⟨[], .expression (e.lower_forward μ he)⟩
  | declaration ds =>
    intro ctx s code s' h
    exact ⟨[], .declaration (declaration_forward h)⟩
  | compound body hbody =>
    intro ctx s code s' h
    obtain ⟨added, loops, rfl, hall⟩ := lowerAll_laid μ hbody (lower_compound_ok h)
    exact ⟨loops, .compound hall⟩
  | ifElse condition onTrue onFalse htrue hfalse =>
    cases onFalse with
    | none => exact ifElse_none_laid htrue
    | some onFalse => exact ifElse_some_laid htrue (hfalse onFalse rfl)
  | whileLoop condition body hbody => exact whileLoop_laid hbody
  | forLoop init condition step body hinit hbody => exact forLoop_laid hinit hbody
  | ret value =>
    intro ctx s code s' h
    exact ⟨[], .ret (ret_forward (Option.forall_mem_map.mpr fun e _ => e.lower_forward μ) h)⟩
  | brk =>
    intro ctx s code s' h
    obtain ⟨l, hl, -, rfl⟩ := leave_ok h
    obtain ⟨⟨exit, check⟩, hloop, rfl⟩ := Option.map_eq_some_iff.mp hl
    rw [Context.around, hloop]
    exact ⟨[], .brk ⟨μ check.id, μ exit.id⟩⟩
  | cont =>
    intro ctx s code s' h
    obtain ⟨l, hl, -, rfl⟩ := leave_ok h
    obtain ⟨⟨exit, check⟩, hloop, rfl⟩ := Option.map_eq_some_iff.mp hl
    rw [Context.around, hloop]
    exact ⟨[], .cont ⟨μ check.id, μ exit.id⟩⟩

end Stmt

namespace Definition

open Code Lower

/-- The number of loops in a definition. -/
def loopCount (d : Definition) : Nat := Stmt.loopCountAll d.body

/-- Whether code is laid out as that of a definition: its body stands behind the slots of the
parameters, and `loops` are the labels of all its loops. -/
def Laid (d : Definition) (code : Code) (loops : List LoopLabels) : Prop :=
  ∃ (params : List Value) (entry : Label) (paramCode body ending : Code),
    code = .functionBegin d.name d.returnTy params :: .label entry ::
      (paramCode ++ body ++ ending ++ [.functionEnd]) ∧
    paramCode.Forward ∧ Stmt.LaidAll none d.body body loops ∧ (ending = [] ∨ ending = [.ret none])

lemma Laid.length_eq {d : Definition} {code : Code} {loops : List LoopLabels}
    (h : d.Laid code loops) : loops.length = d.loopCount := by
  obtain ⟨params, entry, paramCode, body, ending, -, -, hbody, -⟩ := h
  exact hbody.length_eq

/-- Control goes forward in the code of a definition, but for the rounds of its loops. -/
lemma Laid.goes {d : Definition} {code : Code} {loops : List LoopLabels} (h : d.Laid code loops) :
    Goes [] loops code := by
  obtain ⟨params, entry, paramCode, body, ending, rfl, hparams, hbody, hending⟩ := h
  have hbegin : Forward [.functionBegin d.name d.returnTy params, .label entry] :=
    forward_of_targets (by simp [Instr.targets])
  have hbody : Goes [] loops body := hbody.goes (by rintro loop ⟨⟩) (List.Subset.refl loops)
  have hending : ending.Forward := by
    rcases hending with rfl | rfl
    · exact trivial
    · exact forward_of_targets (by simp [Instr.targets])
  have hend : Forward [.functionEnd] := forward_of_targets (by simp [Instr.targets])
  exact (hbegin.goes [] loops).append
    ((((hparams.goes [] loops).append hbody).append (hending.goes [] loops)).append
      (hend.goes [] loops))

lemma paramSlots_forward {μ : Nat → Label} {env : LowerEnv} {pairs : List (Param × Value)}
    {s s' : LowerState} {code : Code} (h : paramSlots env pairs s = .ok code s') :
    (withNames μ code).Forward := by
  induction pairs generalizing s code with
  | nil =>
    obtain ⟨rfl, -⟩ := pure_ok.mp h
    exact trivial
  | cons pair rest ih =>
    obtain ⟨-, -, scopes, more, -, hrest, rfl⟩ := paramSlots_cons_ok h
    have hslot : (withNames μ [
        .alloca (.slot s.next pair.1.ty) (env.options.alignmentFor pair.1.ty),
        .store pair.2 (.slot s.next pair.1.ty) (env.options.alignmentFor pair.1.ty)]).Forward :=
      withNames_forward μ (by simp [Instr.targets])
    exact hslot.append (ih hrest)

end Definition

/-- The code of every definition that the compiler accepts is laid out. -/
theorem Compiler.lowerDefinition_laid {c : Compiler} {d : Definition} {seg : Segment}
    (h : (c.lowerDefinition d).result = .ok seg) : ∃ loops, d.Laid seg.instructions loops := by
  obtain ⟨env, -, w, -⟩ := lowerDefinition_lowered h
  let μ (id : Nat) : Label := .fixed id (w.final.labels.names[id]?.join.getD 0)
  obtain ⟨body, loops, hbody, hlaid⟩ := Stmt.lowerAll_laid μ (fun x _ => x.lower_laid μ) w.body_ok
  have hcode : seg.instructions = Code.withNames μ (d.wholeCode env w.paramCode w.body) := w.code
  rw [List.nil_append] at hbody
  refine ⟨loops, env.params, μ env.entry.id, _, _, _, ?_,
    Definition.paramSlots_forward (μ := μ) w.params_ok, hlaid,
    Lower.ending_withNames μ env.returnTy (d.frame env w.paramCode w.body)⟩
  rw [hcode, hbody, Definition.wholeCode, Code.withNames_append, Code.withNames_append]
  simp only [Definition.frame, Code.withNames_append, Code.withNames_cons, Code.withNames_nil,
    List.cons_append, List.append_assoc]
  rfl

end MiniC
