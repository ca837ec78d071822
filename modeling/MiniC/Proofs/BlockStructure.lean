import Mathlib.Data.List.Chain
import MiniC.Proofs.Emission

/-!
# Basic blocks

Code is a sequence of blocks. `Fills before code after` reads code from left to right and keeps track
of whether a block is open: ordinary instructions stand in an open block, a terminator closes it, and
only a label opens the next one. Every construct takes an open block to an open or a closed one,
which its last instruction tells, and this is what elision and the opening of blocks go by.
-/

namespace MiniC

/-- Whether the instruction stands inside of a block. -/
def Instr.isOrdinary : Instr → Bool
  | .ret _ | .jump _ | .branch .. | .label _ | .functionBegin .. | .functionEnd => false
  | _ => true

lemma Instr.isTerminator_of_isOrdinary {i : Instr} (h : i.isOrdinary = true) :
    i.isTerminator = false := by
  cases i with
  | ret _ | jump _ | branch _ _ _ => cases h
  | _ => rfl

/-- A label, ordinary instructions and one terminator. -/
structure Block where
  label : Label
  body : Code
  terminator : Instr
  ordinary : ∀ i ∈ body, i.isOrdinary = true
  terminates : terminator.isTerminator = true

def Block.code (b : Block) : Code := .label b.label :: b.body ++ [b.terminator]

inductive Fills : Bool → Code → Bool → Prop where
  | nil (opened : Bool) : Fills opened [] opened
  | ordinary {i : Instr} {code : Code} {after : Bool} (hi : i.isOrdinary = true)
      (rest : Fills true code after) : Fills true (i :: code) after
  | terminator {i : Instr} {code : Code} {after : Bool} (hi : i.isTerminator = true)
      (rest : Fills false code after) : Fills true (i :: code) after
  | label (l : Label) {code : Code} {after : Bool} (rest : Fills true code after) :
      Fills false (.label l :: code) after

namespace Fills

variable {before after opened : Bool} {code code' : Code}

lemma append (h : Fills before code opened) (h' : Fills opened code' after) :
    Fills before (code ++ code') after := by
  induction h with
  | nil opened => exact h'
  | ordinary hi rest ih => exact .ordinary hi (ih h')
  | terminator hi rest ih => exact .terminator hi (ih h')
  | label l rest ih => exact .label l (ih h')

lemma single {i : Instr} (hi : i.isOrdinary = true) : Fills true [i] true := .ordinary hi (.nil true)

lemma close {i : Instr} (hi : i.isTerminator = true) : Fills true [i] false :=
  .terminator hi (.nil false)

lemma start (l : Label) : Fills false [.label l] true := .label l (.nil true)

/-- Behind code, a block is open unless the code ends with a terminator. -/
lemma endsWithTerminator_or (h : Fills before code after) :
    code = [] ∧ before = after ∨ code ≠ [] ∧ Code.endsWithTerminator code = !after := by
  induction h with
  | nil opened => exact Or.inl ⟨rfl, rfl⟩
  | @ordinary i code after hi rest ih =>
    refine Or.inr ⟨List.cons_ne_nil _ _, ?_⟩
    rcases ih with ⟨rfl, rfl⟩ | ⟨hne, hends⟩
    · exact Instr.isTerminator_of_isOrdinary hi
    · rwa [Code.endsWithTerminator, List.getLast?_cons_of_ne_nil hne]
  | @terminator i code after hi rest ih =>
    refine Or.inr ⟨List.cons_ne_nil _ _, ?_⟩
    rcases ih with ⟨rfl, rfl⟩ | ⟨hne, hends⟩
    · exact hi
    · rwa [Code.endsWithTerminator, List.getLast?_cons_of_ne_nil hne]
  | @label l code after rest ih =>
    refine Or.inr ⟨List.cons_ne_nil _ _, ?_⟩
    rcases ih with ⟨rfl, rfl⟩ | ⟨hne, hends⟩
    · rfl
    · rwa [Code.endsWithTerminator, List.getLast?_cons_of_ne_nil hne]

lemma endsWithTerminator_eq (h : Fills true code after) :
    Code.endsWithTerminator code = !after := by
  rcases h.endsWithTerminator_or with ⟨rfl, rfl⟩ | ⟨-, hends⟩
  · rfl
  · exact hends

lemma relabel (f : Label → Label) (h : Fills before code after) :
    Fills before (code.map (Instr.relabel f)) after := by
  induction h with
  | nil opened => exact .nil opened
  | @ordinary i code after hi rest ih =>
    refine .ordinary ?_ ih
    cases i with
    | phi result incoming => rw [Instr.relabel_phi]; rfl
    | _ => exact hi
  | terminator hi rest ih => exact .terminator (by rwa [Instr.isTerminator_relabel]) ih
  | label l rest ih => exact .label _ ih

end Fills

/-- Whether code is a sequence of blocks, of which the last is unfinished if `opened`. -/
def InBlocks (code : Code) (opened : Bool) : Prop :=
  ∃ blocks last, code = List.flatMap Block.code blocks ++ last ∧
    (last = [] ∧ opened = false ∨ opened = true ∧
      ∃ l body, last = .label l :: body ∧ ∀ i ∈ body, i.isOrdinary = true)

lemma InBlocks.cons {code : Code} {opened : Bool} (b : Block) (h : InBlocks code opened) :
    InBlocks (b.code ++ code) opened := by
  obtain ⟨blocks, last, rfl, hlast⟩ := h
  exact ⟨b :: blocks, last, by simp, hlast⟩

/-- Whether the second instruction may stand directly behind the first: behind a terminator there is
nothing but a label or the end, and a label stands behind a terminator or at the start. -/
def Instr.Follows (i j : Instr) : Prop :=
  (i.isTerminator = true → (∃ l, j = .label l) ∨ j = .functionEnd) ∧
    ((∃ l, j = .label l) → i.isTerminator = true ∨ ∃ name ty params, i = .functionBegin name ty params)

namespace Fills

variable {before after opened : Bool} {code code' : Code}

/-- In an open block, what was read since its label belongs to that block. -/
lemma inBlocks_aux (h : Fills before code after) :
    (before = false → InBlocks code after) ∧ (before = true → ∀ l (body : Code),
      (∀ i ∈ body, i.isOrdinary = true) → InBlocks (.label l :: body ++ code) after) := by
  induction h with
  | nil opened =>
    constructor
    · rintro rfl
      exact ⟨[], [], rfl, Or.inl ⟨rfl, rfl⟩⟩
    · rintro rfl l body hbody
      exact ⟨[], _, rfl, Or.inr ⟨rfl, l, body, by simp, hbody⟩⟩
  | @ordinary i code after hi rest ih =>
    refine ⟨by simp, fun _ l body hbody => ?_⟩
    have := ih.2 rfl l (body ++ [i]) (by simpa [or_imp, forall_and, hi] using hbody)
    simpa using this
  | @terminator i code after hi rest ih =>
    refine ⟨by simp, fun _ l body hbody => ?_⟩
    have := (ih.1 rfl).cons ⟨l, body, i, hbody, hi⟩
    simpa [Block.code] using this
  | @label l code after rest ih =>
    refine ⟨fun _ => ?_, by simp⟩
    exact ih.2 rfl l [] (by simp)

theorem inBlocks (h : Fills false code after) : InBlocks code after := h.inBlocks_aux.1 rfl

lemma head_true {i : Instr} (h : Fills true code after) (hi : i ∈ code.head?) :
    ∀ l, i ≠ .label l := by
  rintro l rfl
  cases h with
  | nil => cases hi
  | ordinary h' => cases hi; cases h'
  | terminator h' => cases hi; cases h'

lemma head_false {i : Instr} (h : Fills false code after) (hi : i ∈ code.head?) :
    ∃ l, i = .label l := by
  cases h with
  | nil => cases hi
  | label l => exact ⟨l, (Option.mem_some_iff.mp hi).symm⟩

/-- In code that is read this way, every instruction may stand where it stands. -/
theorem isChain (h : Fills before code after) : List.IsChain Instr.Follows code := by
  induction h with
  | nil opened => exact .nil
  | @ordinary i code after hi rest ih =>
    refine List.isChain_cons.mpr ⟨?_, ih⟩
    intro j hj
    refine ⟨fun ht => ?_, fun ⟨l, hl⟩ => absurd hl (rest.head_true hj l)⟩
    rw [Instr.isTerminator_of_isOrdinary hi] at ht
    cases ht
  | @terminator i code after hi rest ih =>
    refine List.isChain_cons.mpr ⟨?_, ih⟩
    intro j hj
    exact ⟨fun _ => Or.inl (rest.head_false hj), fun _ => Or.inl hi⟩
  | @label l code after rest ih =>
    refine List.isChain_cons.mpr ⟨?_, ih⟩
    intro j hj
    exact ⟨fun ht => (Bool.false_ne_true ht).elim, fun ⟨m, hm⟩ => absurd hm (rest.head_true hj m)⟩

/-- A jump is added to code that leaves its block open, so that in the end the block is closed. -/
lemma jump {target : Label} {jump : Code} (h : Fills true code after)
    (hjump : jump = if Code.endsWithTerminator code then [] else [.jump target]) :
    Fills true (code ++ jump) false := by
  rw [h.endsWithTerminator_eq] at hjump
  cases after with
  | false =>
    have hempty : jump = [] := by simpa using hjump
    rw [hempty, List.append_nil]
    exact h
  | true =>
    have hjump' : jump = [.jump target] := by simpa using hjump
    rw [hjump']
    exact h.append (.close rfl)

end Fills

namespace Lower

variable {s s' : LowerState} {env : LowerEnv} {scope : ScopeId} {code : Code}

/-- Whether code of an expression stays in an open block, as far as its end goes. -/
def SegmentFills (x : Lower Segment) : Prop :=
  ∀ ⦃s seg s'⦄, x s = .ok seg s' → Fills true seg.instructions true

/-- Whether code of a statement starts in an open block. -/
def CodeFills (x : Lower Code) : Prop :=
  ∀ ⦃s code s'⦄, x s = .ok code s' → ∃ opened, Fills true code opened

lemma coerce_fills {v : Value} {ty : Ty} {context : String} {r : Code × Value}
    (h : coerce v ty context s = .ok r s') : Fills true r.1 true := by
  rcases coerce_ok h with ⟨w, -, rfl, rfl⟩ | ⟨-, -, -, -, rfl, rfl⟩
  · exact .nil true
  · exact .single rfl

lemma operandAs_fills {x : Lower Segment} (hx : SegmentFills x) {ty : Ty} {context : String}
    {r : Code × Value} (h : operandAs x ty context s = .ok r s') : Fills true r.1 true := by
  obtain ⟨code, v, conversion, t, hlow, hc, hr⟩ := operandAs_ok h
  rw [hr]
  exact (hx hlow).append (coerce_fills hc)

lemma arm_fills {x : Lower Segment} (hx : SegmentFills x) {keepBoolean : Bool} {r : Code × Value}
    (h : arm keepBoolean x s = .ok r s') : Fills true r.1 true := by
  obtain ⟨code, v, conversion, t, hlow, hr, ⟨-, rfl, -, rfl⟩ | ⟨-, -, hc⟩⟩ := arm_ok h
  · rw [hr, List.append_nil]
    exact hx hlow
  · rw [hr]
    exact (hx hlow).append (coerce_fills hc)

lemma conditional_fills (helide : env.options.elideUnreachableJumps = true) {keepBoolean : Bool}
    {condition onTrue onFalse : Lower Segment} (hcond : SegmentFills condition)
    (htrue : SegmentFills onTrue) (hfalse : SegmentFills onFalse) :
    SegmentFills (conditional env keepBoolean condition onTrue onFalse) := by
  intro s seg s' h
  obtain ⟨test, v, trueCode, trueValue, trueJump, falseCode, falseValue, falseJump, trueValue',
    falseValue', ty, t, t₁, t₂, log₁, log₂, n, -, hc, -, ht, -, hf, -, -, -, -, -, -, hj₁, hj₂,
    -, rfl⟩ := conditional_ok h
  simp only [helide, Bool.true_and] at hj₁ hj₂
  have hbranch : Fills true (test ++ [.branch v (.pending n) (.pending (n + 1))]) false :=
    (operandAs_fills hcond hc).append (.close rfl)
  have h₁ : Fills true (test ++ .branch v (.pending n) (.pending (n + 1)) ::
      .label (.fixed n t.next) :: trueCode) true := by
    simpa using (hbranch.append (.start (.fixed n t.next))).append (arm_fills htrue ht)
  have h₂ := ((h₁.jump hj₁).append (.start (.fixed (n + 1) t₁.next))).append (arm_fills hfalse hf)
  have h₃ : Fills true (test ++ .branch v (.pending n) (.pending (n + 1)) ::
      .label (.fixed n t.next) :: trueCode ++ trueJump ++
      .label (.fixed (n + 1) t₁.next) :: falseCode) true := by
    simpa using h₂
  exact (h₃.jump hj₂).append (.label _ (.single rfl))

lemma arguments_fills {args : List (Lower Segment)} (hargs : ∀ x ∈ args, SegmentFills x)
    {tys : List Ty} {r : Code × List Value} (h : arguments args tys s = .ok r s') :
    Fills true r.1 true := by
  induction args generalizing tys s r with
  | nil =>
    obtain ⟨rfl, rfl⟩ := pure_ok.mp h
    exact .nil true
  | cons x rest ih =>
    cases tys with
    | nil =>
      obtain ⟨rfl, rfl⟩ := pure_ok.mp h
      exact .nil true
    | cons ty tys =>
      obtain ⟨code, v, more, vs, t, hx, hrest, rfl⟩ := arguments_cons_ok h
      have hcode : Fills true code true := operandAs_fills (hargs x List.mem_cons_self) hx
      exact hcode.append (ih (fun y hy => hargs y (List.mem_cons_of_mem x hy)) hrest)

end Lower

open Lower in
theorem Expr.lower_fills {env : LowerEnv} (helide : env.options.elideUnreachableJumps = true)
    {scope : ScopeId} (e : Expr) : SegmentFills (e.lower env scope) := by
  refine Expr.lower_induction (Φ := SegmentFills) ?constant ?readVariable ?increment ?binary
    ?comparison ?booleanCast ?conditional ?assignment ?call e
  case constant =>
    intro v hv s seg s' h
    obtain ⟨rfl, rfl⟩ := pure_ok.mp h
    exact .nil true
  case readVariable =>
    intro name s seg s' h
    obtain ⟨id, ty, -, -, rfl⟩ := readVariable_ok h
    exact .single rfl
  case increment =>
    intro name delta before s seg s' h
    obtain ⟨id, ty, -, -, -, rfl⟩ := increment_ok h
    exact .ordinary rfl (.ordinary rfl (.single rfl))
  case binary =>
    intro op ty left right hl hr s seg s' h
    obtain ⟨leftCode, lhs, rightCode, rhs, t, t', hleft, hright, -, -, -, -, rfl⟩ := binary_ok h
    exact ((operandAs_fills hl hleft).append (operandAs_fills hr hright)).append (.single rfl)
  case comparison =>
    intro relation left right hl hr s seg s' h
    obtain ⟨leftCode, lhs, rightCode, rhs, leftConversion, lhs', rightConversion, rhs', ty, t₁, t₂,
      t₃, t₄, hleft, hright, -, hcl, hcr, -, -, -, rfl⟩ := comparison_ok h
    have hcode := (((hl hleft).append (hr hright)).append (coerce_fills hcl)).append
      (coerce_fills hcr)
    exact hcode.append (.single rfl)
  case booleanCast =>
    intro inner hx s seg s' h
    obtain ⟨code, v, t, hlow, ⟨-, -, rfl⟩ | ⟨-, -, -, rfl⟩⟩ := booleanCast_ok h
    · exact hx hlow
    · exact (hx hlow).append (.single rfl)
  case conditional =>
    intro keepBoolean condition onTrue onFalse hc ht hf
    exact conditional_fills helide hc ht hf
  case assignment =>
    intro target value hx s seg s' h
    obtain ⟨id, ty, code, v, -, -, hv, -, rfl⟩ := assignment_ok h
    exact (operandAs_fills hx hv).append (.single rfl)
  case call =>
    intro callee args hargs s seg s' h
    obtain ⟨signature, code, values, t, -, -, ha, ⟨-, -, rfl⟩ | ⟨-, -, rfl⟩⟩ := call_ok h
    · exact (arguments_fills hargs ha).append (.single rfl)
    · exact (arguments_fills hargs ha).append (.single rfl)

namespace Lower

variable {s s' : LowerState} {env : LowerEnv} {scope : ScopeId} {ctx : Context} {code : Code}

lemma declarator_fills (helide : env.options.elideUnreachableJumps = true) {d : Declarator}
    (h : declarator env scope d s = .ok code s') : Fills true code true := by
  obtain ⟨-, scopes, -, ⟨-, -, rfl⟩ | ⟨e, init, v, -, hv, -, rfl⟩⟩ := declarator_ok h
  · exact .single rfl
  · have hinit : Fills true init true := operandAs_fills (e.lower_fills helide) hv
    exact .ordinary rfl (hinit.append (.single rfl))

lemma declaration_fills (helide : env.options.elideUnreachableJumps = true) {ds : List Declarator}
    (h : declaration env scope ds s = .ok code s') : Fills true code true := by
  induction ds generalizing s code with
  | nil =>
    obtain ⟨rfl, rfl⟩ := pure_ok.mp h
    exact .nil true
  | cons d rest ih =>
    obtain ⟨first, more, t, hd, hrest, rfl⟩ := declaration_cons_ok h
    exact (declarator_fills helide hd).append (ih hrest)

lemma branchOn_fills {condition : Lower Segment} (hcond : SegmentFills condition)
    {onTrue onFalse : Label} (h : branchOn condition onTrue onFalse s = .ok code s') :
    Fills true code false := by
  obtain ⟨test, v, hv, -, rfl⟩ := branchOn_ok h
  have htest : Fills true test true := operandAs_fills hcond hv
  exact htest.append (.close rfl)

lemma ifElse_none_fills (helide : env.options.elideUnreachableJumps = true)
    {condition : Lower Segment} (hcond : SegmentFills condition) {onTrue : Lower Code}
    (htrue : CodeFills onTrue) : CodeFills (ifElse env condition onTrue none) := by
  intro s code s' h
  obtain ⟨test, trueCode, jump, t, t₁, log, n, -, htest, -, ht, -, hj, -, rfl⟩ := ifElse_none_ok h
  simp only [helide, Bool.true_and] at hj
  obtain ⟨opened, hcode⟩ := htrue ht
  have h₁ := (branchOn_fills hcond htest).append (.label (.fixed n t.next) hcode)
  exact ⟨true, (h₁.jump hj).append (.start _)⟩

lemma ifElse_some_fills (helide : env.options.elideUnreachableJumps = true)
    {condition : Lower Segment} (hcond : SegmentFills condition) {onTrue onFalse : Lower Code}
    (htrue : CodeFills onTrue) (hfalse : CodeFills onFalse) :
    CodeFills (ifElse env condition onTrue (some onFalse)) := by
  intro s code s' h
  obtain ⟨test, trueCode, trueJump, falseCode, falseJump, t, t₁, t₂, log₁, log₂, n, m, -, htest,
    -, ht, -, -, hf, -, hj₁, hj₂, -, rfl⟩ := ifElse_some_ok h
  simp only [helide, Bool.true_and] at hj₁ hj₂
  obtain ⟨opened₁, hcode₁⟩ := htrue ht
  obtain ⟨opened₂, hcode₂⟩ := hfalse hf
  have h₁ := (branchOn_fills hcond htest).append (.label (.fixed n t.next) hcode₁)
  have h₂ := (h₁.jump hj₁).append (.label (.fixed (n + 1) t₁.next) hcode₂)
  exact ⟨true, (h₂.jump hj₂).append (.start _)⟩

lemma whileLoop_fills (helide : env.options.elideUnreachableJumps = true)
    {condition : Lower Segment} (hcond : SegmentFills condition) {body : Context → Lower Code}
    (hbody : ∀ ctx, CodeFills (body ctx)) : CodeFills (whileLoop env ctx condition body) := by
  intro s code s' h
  obtain ⟨test, bodyCode, back, t, t₁, log₀, log, n, -, htest, -, hb, -, hback, -, rfl⟩ :=
    whileLoop_ok h
  simp only [helide, Bool.true_and] at hback
  obtain ⟨opened, hcode⟩ := hbody _ hb
  have hentering : Fills true [.jump (.pending n), .label (.fixed n s.next)] true :=
    .terminator rfl (.start _)
  have h₁ := (hentering.append (branchOn_fills hcond htest)).append
    (.label (.fixed (n + 1) t.next) hcode)
  exact ⟨true, (h₁.jump hback).append (.start _)⟩

/-- A new block is opened where none is open. -/
lemma openBlockAfter_fills {opened : Bool} {added : Code} (hcode : Fills true code opened)
    (h : openBlockAfter code s = .ok added s') : Fills true (code ++ added) true := by
  have hends := hcode.endsWithTerminator_eq
  rcases openBlockAfter_ok h with ⟨hc, rfl, -⟩ | ⟨hc, rfl, -⟩
  · have hopen : opened = true := by simpa [hc] using hends
    rw [List.append_nil]
    exact hopen ▸ hcode
  · have hclosed : opened = false := by simpa [hc] using hends
    exact (hclosed ▸ hcode).append (.start _)

lemma stepAfter_fills {step : Option (Lower Segment)} (hstep : ∀ x ∈ step, SegmentFills x)
    {opened : Bool} (hcode : Fills true code opened) {code' : Code}
    (h : stepAfter code step s = .ok code' s') : ∃ opened, Fills true code' opened := by
  rcases stepAfter_ok h with ⟨-, -, rfl⟩ | ⟨x, added, seg, t, rfl, ho, hx, rfl⟩
  · exact ⟨opened, hcode⟩
  · exact ⟨true, (openBlockAfter_fills hcode ho).append (hstep x rfl hx)⟩

lemma loopTest_fills (helide : env.options.elideUnreachableJumps = true) {before : Code}
    {condition : Option (Lower Segment)} (hcond : ∀ x ∈ condition, SegmentFills x)
    {bodyLabel exitLabel : Label} (hbefore : Fills true before true)
    (h : loopTest env before condition bodyLabel exitLabel s = .ok code s') :
    Fills true (before ++ code) false := by
  rcases loopTest_ok h with ⟨-, -, hj⟩ | ⟨c, rfl, hc⟩
  · simp only [helide, Bool.true_and] at hj
    exact hbefore.jump hj
  · exact hbefore.append (branchOn_fills (hcond c rfl) hc)

lemma forLoop_fills (helide : env.options.elideUnreachableJumps = true)
    {init : Option (Context → Lower Code)} (hinit : ∀ x ∈ init, ∀ ctx, CodeFills (x ctx))
    {condition step : Option (ScopeId → Lower Segment)}
    (hcond : ∀ x ∈ condition, ∀ scope, SegmentFills (x scope))
    (hstep : ∀ x ∈ step, ∀ scope, SegmentFills (x scope))
    {body : Context → Lower Code} (hbody : ∀ ctx, CodeFills (body ctx)) :
    CodeFills (forLoop env ctx init condition step body) := by
  intro s code s' h
  obtain ⟨initCode, entering, test, bodyCode, stepped, back, t₀, t, t₁, t₂, log₀, log, n, scope,
    -, hi, -, hentering, htest, -, hb, hst, -, hback, -, rfl⟩ := forLoop_ok h
  simp only [helide, Bool.true_and] at hentering hback
  have hinitial : ∃ opened, Fills true initCode opened := by
    rcases initial_ok hi with ⟨-, rfl, -⟩ | ⟨x, rfl, hx⟩
    · exact ⟨true, .nil true⟩
    · exact hinit x rfl _ hx
  obtain ⟨opened₀, h₀⟩ := hinitial
  have h₁ := (h₀.jump hentering).append (.start (.fixed n t₀.next))
  have h₂ := loopTest_fills helide (Option.forall_mem_map.mpr fun x hx => hcond x hx _) h₁ htest
  obtain ⟨opened₁, hcode⟩ := hbody _ hb
  have h₃ := h₂.append (.label (.fixed (n + 1) t.next) hcode)
  obtain ⟨opened₂, h₄⟩ :=
    stepAfter_fills (Option.forall_mem_map.mpr fun x hx => hstep x hx _) h₃ hst
  exact ⟨true, (h₄.jump hback).append (.start _)⟩

lemma ret_fills {value : Option (Lower Segment)} (hvalue : ∀ x ∈ value, SegmentFills x) :
    CodeFills (ret env value) := by
  intro s code s' h
  rcases ret_ok h with ⟨-, -, -, rfl⟩ | ⟨x, first, v, conversion, w, t, rfl, -, hx, hc, rfl⟩
  · exact ⟨false, .close rfl⟩
  · exact ⟨false, ((hvalue x rfl hx).append (coerce_fills hc)).append (.close rfl)⟩

lemma leave_fills {target : Option Label} {outside : LoweringError} :
    CodeFills (leave target outside) := by
  intro s code s' h
  obtain ⟨l, -, -, rfl⟩ := leave_ok h
  exact ⟨false, .close rfl⟩

end Lower

namespace Stmt

open Lower

variable {env : LowerEnv}

lemma lowerAll_fills {body : List Stmt} (hbody : ∀ x ∈ body, ∀ ctx, CodeFills (x.lower env ctx))
    {ctx : Context} {before code : Code} {s s' : LowerState} {opened : Bool}
    (hbefore : Fills true before opened) (h : lowerAll env body ctx before s = .ok code s') :
    ∃ opened, Fills true code opened := by
  induction body generalizing before s opened with
  | nil =>
    obtain ⟨rfl, rfl⟩ := lowerAll_nil_ok h
    exact ⟨opened, hbefore⟩
  | cons x rest ih =>
    obtain ⟨added, code', t, t', ho, hx, hrest⟩ := lowerAll_cons_ok h
    obtain ⟨opened', hcode⟩ := hbody x List.mem_cons_self ctx hx
    exact ih (fun y hy => hbody y (List.mem_cons_of_mem x hy))
      ((openBlockAfter_fills hbefore ho).append hcode) hrest

theorem lower_fills (helide : env.options.elideUnreachableJumps = true) (x : Stmt) :
    ∀ ctx, CodeFills (x.lower env ctx) := by
  induction x using Stmt.induction with
  | expression e =>
    intro ctx s code s' h
    obtain ⟨seg, he, rfl⟩ := lower_expression_ok h
    exact ⟨true, e.lower_fills helide he⟩
  | declaration ds =>
    intro ctx s code s' h
    exact ⟨true, declaration_fills helide h⟩
  | compound body hbody =>
    intro ctx s code s' h
    exact lowerAll_fills hbody (.nil true) (lower_compound_ok h)
  | ifElse condition onTrue onFalse htrue hfalse =>
    intro ctx
    cases onFalse with
    | none => exact ifElse_none_fills helide (condition.lower_fills helide) (htrue ctx)
    | some onFalse =>
      exact ifElse_some_fills helide (condition.lower_fills helide) (htrue ctx)
        (hfalse onFalse rfl ctx)
  | whileLoop condition body hbody =>
    intro ctx
    exact whileLoop_fills helide (condition.lower_fills helide) hbody
  | forLoop init condition step body hinit hbody =>
    intro ctx
    have hpart : ∀ (part : Option Expr), ∀ x ∈ part.map (fun e scope => e.lower env scope),
        ∀ scope, SegmentFills (x scope) := fun part =>
      Option.forall_mem_map.mpr fun e _ scope => e.lower_fills helide
    cases init with
    | none =>
      rw [lower]
      exact forLoop_fills helide (by simp) (hpart condition) (hpart step) hbody
    | some init =>
      rw [lower]
      refine forLoop_fills helide ?_ (hpart condition) (hpart step) hbody
      rintro x ⟨⟩
      exact hinit init rfl
  | ret value =>
    intro ctx
    exact ret_fills (Option.forall_mem_map.mpr fun e _ => e.lower_fills helide)
  | brk => exact fun ctx => leave_fills
  | cont => exact fun ctx => leave_fills

end Stmt

lemma Lower.paramSlots_fills {env : LowerEnv} {pairs : List (Param × Value)} {s s' : LowerState}
    {code : Code} (h : paramSlots env pairs s = .ok code s') : Fills true code true := by
  induction pairs generalizing s code with
  | nil =>
    obtain ⟨rfl, rfl⟩ := pure_ok.mp h
    exact .nil true
  | cons pair rest ih =>
    obtain ⟨-, -, scopes, more, -, hrest, rfl⟩ := paramSlots_cons_ok h
    exact .ordinary rfl (.ordinary rfl (ih hrest))

/-- Only a function with a result may end with an unfinished block. -/
lemma Lower.ending_fills {i : Instr} {code : Code} {opened : Bool} (hcode : Fills false code opened)
    (hne : code ≠ []) (returnTy : Ty) : ∃ opened,
      Fills false (code ++ ending returnTy (i :: code)) opened ∧
        (opened = true → returnTy ≠ .void) := by
  have hends : Code.endsWithTerminator (i :: code) = !opened := by
    rcases hcode.endsWithTerminator_or with ⟨hnil, -⟩ | ⟨-, hends⟩
    · exact absurd hnil hne
    · rwa [Code.endsWithTerminator, List.getLast?_cons_of_ne_nil hne]
  rw [ending]
  split
  · rename_i hvoid
    have hopen : opened = true := by simpa [hends] using hvoid.1
    exact ⟨false, (hopen ▸ hcode).append (.close rfl), by simp⟩
  · rename_i hvoid
    rw [List.append_nil]
    refine ⟨opened, hcode, ?_⟩
    intro hopen hret
    exact hvoid ⟨by simp [hends, hopen], hret⟩

/-- All code of a function between its first and its last line, before labels are resolved. -/
lemma Definition.Lowered.fills {d : Definition} {env : LowerEnv} {seg : Segment}
    (w : d.Lowered env seg) (helide : env.options.elideUnreachableJumps = true) :
    ∃ code opened, d.wholeCode env w.paramCode w.body =
        .functionBegin d.name d.returnTy env.params :: code ++ [.functionEnd] ∧
      Fills false code opened ∧ (opened = true → env.returnTy ≠ .void) := by
  obtain ⟨opened, hbody⟩ := Stmt.lowerAll_fills (fun x _ => x.lower_fills helide) (.nil true) w.body_ok
  have hcode : Fills false (.label env.entry :: w.paramCode ++ w.body) opened :=
    .label env.entry ((Lower.paramSlots_fills w.params_ok).append hbody)
  obtain ⟨opened', hfills, hvoid⟩ := Lower.ending_fills
    (i := .functionBegin d.name d.returnTy env.params) hcode (by simp) env.returnTy
  exact ⟨_, opened', by rw [wholeCode, frame]; rfl, hfills, hvoid⟩

/-- The code of a function is a sequence of basic blocks between its first and its last line, and
only a function with a result may leave its last block unfinished. So a terminator is followed by a
label or the end, and every label but the first stands directly behind a terminator. -/
theorem Compiler.lowerDefinition_blocks {c : Compiler} {d : Definition} {seg : Segment}
    (helide : c.options.elideUnreachableJumps = true) (h : (c.lowerDefinition d).result = .ok seg) :
    (∃ params blocks last, seg.instructions = .functionBegin d.name d.returnTy params ::
        List.flatMap Block.code blocks ++ last ++ [.functionEnd] ∧
      (last = [] ∨ d.returnTy ≠ .void ∧
        ∃ l body, last = .label l :: body ∧ ∀ i ∈ body, i.isOrdinary = true)) ∧
      List.IsChain Instr.Follows seg.instructions := by
  obtain ⟨env, henv, w, -⟩ := lowerDefinition_lowered h
  have hret : env.returnTy = d.returnTy := by rw [henv]; rfl
  have helide' : env.options.elideUnreachableJumps = true := by rw [henv]; exact helide
  obtain ⟨code, opened, hwhole, hfills, hvoid⟩ := w.fills helide'
  have hresolved := hfills.relabel w.final.labels.named
  have hseg : seg.instructions = .functionBegin d.name d.returnTy env.params ::
      code.map (Instr.relabel w.final.labels.named) ++ [.functionEnd] := by
    rw [w.code, hwhole, List.map_append, List.map_cons]
    rfl
  constructor
  · obtain ⟨blocks, last, hblocks, hlast⟩ := hresolved.inBlocks
    refine ⟨env.params, blocks, last, ?_, ?_⟩
    · rw [hseg, hblocks, List.cons_append, List.cons_append, List.cons_append, List.append_assoc]
    · rcases hlast with ⟨hnil, -⟩ | ⟨hopen, hlast⟩
      · exact Or.inl hnil
      · exact Or.inr ⟨hret ▸ hvoid hopen, hlast⟩
  · rw [hseg, List.cons_append]
    refine List.isChain_cons.mpr ⟨?_, List.isChain_append.mpr ⟨hresolved.isChain, .singleton _, ?_⟩⟩
    · intro j hj
      exact ⟨fun ht => (Bool.false_ne_true ht).elim, fun _ => Or.inr ⟨_, _, _, rfl⟩⟩
    · rintro i - j hj
      have hend : j = .functionEnd := (Option.mem_some_iff.mp hj).symm
      refine ⟨fun _ => Or.inr hend, ?_⟩
      rintro ⟨l, hl⟩
      rw [hend] at hl
      cases hl

theorem sumUpTo_blocks_terminated : ∃ seg,
    (Compiler.lowerDefinition {} Definition.sumUpTo).result = .ok seg ∧
      (∃ params blocks last, seg.instructions = .functionBegin "sum" .i32 params ::
        List.flatMap Block.code blocks ++ last ++ [.functionEnd] ∧
        (last = [] ∨ Ty.i32 ≠ .void ∧
          ∃ l body, last = .label l :: body ∧ ∀ i ∈ body, i.isOrdinary = true)) ∧
      List.IsChain Instr.Follows seg.instructions := by
  obtain ⟨seg, h⟩ := Definition.sumUpTo_accepted
  exact ⟨seg, h, Compiler.lowerDefinition_blocks rfl h⟩

end MiniC
