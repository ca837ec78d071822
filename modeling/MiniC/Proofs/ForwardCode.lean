import MiniC.Proofs.Availability
import MiniC.Proofs.ExprSteps
import MiniC.Proofs.TreeInduction

/-!
# Code in which control goes forward

`Code.Goes outs loops code` says where control goes, from the end of the code to its start: to
labels that are still to come, further on in the code or among `outs`, and by a jump also back to
the check of one of `loops` whose end is still to come. In the code of an expression control goes
forward, to labels of this code.

The labels of code get their names in the end. So the code is read with names `μ` for the numbers of
its labels, whatever they are.
-/

namespace MiniC

/-- The labels of a loop: that of its check, where each round begins, and that behind its end. -/
structure LoopLabels where
  check : Label
  exit : Label
  deriving DecidableEq

/-- Whether a label is still to come, in `post` or among `outs`. -/
def Label.Ahead (outs : List Label) (post : Code) (l : Label) : Prop := .label l ∈ post ∨ l ∈ outs

lemma Label.ahead_nil {post : Code} {l : Label} : l.Ahead [] post ↔ .label l ∈ post :=
  or_iff_left List.not_mem_nil

/-- Whether control goes from an instruction to labels that are still to come, or from a jump to the
check of one of `loops`, if the end of this loop is still to come. -/
def Instr.Goes (outs : List Label) (loops : List LoopLabels) (post : Code) : Instr → Prop
  | .jump l => l.Ahead outs post ∨ ∃ loop ∈ loops, loop.check = l ∧ loop.exit.Ahead outs post
  | i => ∀ l ∈ i.targets, l.Ahead outs post

/-- Control goes on in this way where no less is still to come. -/
lemma Instr.Goes.mono {outs outs' : List Label} {loops loops' : List LoopLabels} {post post' : Code}
    {i : Instr} (h : i.Goes outs loops post)
    (hahead : ∀ l : Label, l.Ahead outs post → l.Ahead outs' post') (hloops : loops ⊆ loops') :
    i.Goes outs' loops' post' := by
  cases i with
  | jump l =>
    refine h.imp (hahead l) ?_
    rintro ⟨loop, hloop, hcheck, hexit⟩
    exact ⟨loop, hloops hloop, hcheck, hahead loop.exit hexit⟩
  | _ => exact fun l hl => hahead l (h l hl)

lemma Instr.goes_of_targets {outs : List Label} {loops : List LoopLabels} {post : Code} {i : Instr}
    (h : ∀ l ∈ i.targets, l.Ahead outs post) : i.Goes outs loops post := by
  cases i with
  | jump l => exact .inl (h l List.mem_cons_self)
  | _ => exact h

namespace Code

/-- Whether control goes on in this way from every instruction. -/
def Goes (outs : List Label) (loops : List LoopLabels) : Code → Prop
  | [] => True
  | i :: post => i.Goes outs loops post ∧ Goes outs loops post

/-- Whether control goes to labels of the code itself, further on. -/
abbrev Forward (code : Code) : Prop := Goes [] [] code

/-- Whether the code is at most a jump to the label. -/
def MayJump (l : Label) (code : Code) : Prop := code = [] ∨ code = [.jump l]

/-- Whether the code is at most the start of a block. -/
def MayOpen (code : Code) : Prop := code = [] ∨ ∃ l, code = [.label l]

variable {outs : List Label} {loops : List LoopLabels} {code code' : Code} {l : Label}

lemma Goes.append (h : Goes outs loops code) (h' : Goes outs loops code') :
    Goes outs loops (code ++ code') := by
  induction code with
  | nil => exact h'
  | cons i post ih =>
    have hahead (l : Label) (hl : l.Ahead outs post) : l.Ahead outs (post ++ code') :=
      hl.imp_left (List.mem_append_left _)
    exact ⟨h.1.mono hahead (List.Subset.refl _), ih h.2⟩

/-- In front of a label, this label is still to come. -/
lemma Goes.label (h : Goes (l :: outs) loops code) : Goes outs loops (code ++ [.label l]) := by
  induction code with
  | nil => exact ⟨fun _ hl => (List.not_mem_nil hl).elim, trivial⟩
  | cons i post ih =>
    have hahead (m : Label) (hm : m.Ahead (l :: outs) post) :
        m.Ahead outs (post ++ [.label l]) := by
      rcases hm with hm | hm
      · exact .inl (List.mem_append_left _ hm)
      · rcases List.mem_cons.mp hm with rfl | hm
        · exact .inl (List.mem_append_right _ List.mem_cons_self)
        · exact .inr hm
    exact ⟨h.1.mono hahead (List.Subset.refl _), ih h.2⟩

lemma Forward.goes (h : Forward code) (outs : List Label) (loops : List LoopLabels) :
    Goes outs loops code := by
  induction code with
  | nil => exact trivial
  | cons i post ih =>
    have hahead (l : Label) (hl : l.Ahead [] post) : l.Ahead outs post :=
      .inl (Label.ahead_nil.mp hl)
    exact ⟨h.1.mono hahead (List.nil_subset _), ih h.2⟩

/-- From code without jumps, control goes on. -/
lemma forward_of_targets (h : ∀ i ∈ code, i.targets = []) : Forward code := by
  induction code with
  | nil => exact trivial
  | cons i post ih =>
    have hi := h i List.mem_cons_self
    refine ⟨Instr.goes_of_targets ?_, ih fun j hj => h j (List.mem_cons_of_mem i hj)⟩
    simp [hi]

/-- What holds of an instruction in front of the code behind it. -/
lemma Goes.of_split {pre post : Code} {i : Instr} (h : Goes outs loops (pre ++ i :: post)) :
    i.Goes outs loops post := by
  induction pre with
  | nil => exact h.1
  | cons j pre ih => exact ih h.2

lemma goes_branch (v : Value) {m : Label} (hm : m ∈ outs) :
    Goes outs loops [.branch v l m, .label l] := by
  refine ⟨Instr.goes_of_targets ?_, fun _ hl => (List.not_mem_nil hl).elim, trivial⟩
  intro k hk
  simp only [Instr.targets, List.mem_cons, List.not_mem_nil, or_false] at hk
  rcases hk with rfl | rfl
  · exact .inl List.mem_cons_self
  · exact .inr hm

lemma goes_enter (l : Label) : Goes outs loops [.jump l, .label l] :=
  ⟨.inl (.inl List.mem_cons_self), fun _ hl => (List.not_mem_nil hl).elim, trivial⟩

lemma MayJump.goes (h : code.MayJump l) (hl : l ∈ outs) : Goes outs loops code := by
  rcases h with rfl | rfl
  · exact trivial
  · exact ⟨.inl (.inr hl), trivial⟩

/-- A jump to the check of a loop in front of its end. -/
lemma MayJump.goes_back {loop : LoopLabels} (h : code.MayJump loop.check) (hloop : loop ∈ loops)
    (hexit : loop.exit ∈ outs) : Goes outs loops code := by
  rcases h with rfl | rfl
  · exact trivial
  · exact ⟨.inr ⟨loop, hloop, rfl, .inr hexit⟩, trivial⟩

lemma MayOpen.forward (h : code.MayOpen) : Forward code := by
  rcases h with rfl | ⟨l, rfl⟩
  · exact trivial
  · exact forward_of_targets (by simp [Instr.targets])

/-- Two parts behind a test, of which the first leaves out the second. -/
lemma goes_choice (v : Value) {m behind : Label} {test trueCode trueJump falseCode falseJump : Code}
    (htest : test.Forward) (htrue : Goes (m :: behind :: outs) loops trueCode)
    (htrueJump : trueJump.MayJump behind) (hfalse : Goes (behind :: outs) loops falseCode)
    (hfalseJump : falseJump.MayJump behind) :
    Goes outs loops (test ++ [.branch v l m, .label l] ++ trueCode ++ trueJump ++ [.label m] ++
      falseCode ++ falseJump ++ [.label behind]) := by
  refine Goes.label (.append (.append (.label ?_) hfalse) ?_)
  · refine .append (.append (.append (htest.goes _ loops) ?_) htrue) ?_
    · exact goes_branch v List.mem_cons_self
    · exact htrueJump.goes (List.mem_cons_of_mem m List.mem_cons_self)
  · exact hfalseJump.goes List.mem_cons_self

/-- The code under other names for its labels. -/
def withNames (μ : Nat → Label) (code : Code) : Code := code.map (Instr.relabel fun l => μ l.id)

section

variable (μ : Nat → Label)

@[simp] lemma withNames_nil : withNames μ [] = [] := rfl

@[simp] lemma withNames_cons (i : Instr) (code : Code) :
    withNames μ (i :: code) = i.relabel (fun l => μ l.id) :: withNames μ code := rfl

@[simp] lemma withNames_append (code code' : Code) :
    withNames μ (code ++ code') = withNames μ code ++ withNames μ code' := List.map_append

lemma withNames_forward (h : ∀ i ∈ code, i.targets = []) : (withNames μ code).Forward := by
  refine forward_of_targets ?_
  intro i hi
  obtain ⟨j, hj, rfl⟩ := List.mem_map.mp hi
  rw [Instr.targets_relabel, h j hj, List.map_nil]

lemma withNames_mayJump {omitted : Bool} :
    (withNames μ (if omitted then [] else [.jump l])).MayJump (μ l.id) := by
  cases omitted with
  | true => exact .inl rfl
  | false => exact .inr rfl

end

end Code

namespace Lower

variable {μ : Nat → Label} {s s' : LowerState} {env : LowerEnv} {scope : ScopeId}

open Code

/-- Whether control goes forward in all code of a lowering. -/
def SegmentForward (μ : Nat → Label) (x : Lower Segment) : Prop :=
  ∀ ⦃s seg s'⦄, x s = .ok seg s' → (withNames μ seg.instructions).Forward

lemma coerce_forward {v : Value} {ty : Ty} {context : String} {r : Code × Value}
    (h : coerce v ty context s = .ok r s') : (withNames μ r.1).Forward := by
  rcases coerce_ok h with ⟨w, -, rfl, -⟩ | ⟨-, -, -, -, -, rfl⟩
  · exact trivial
  · exact withNames_forward μ (by simp [Instr.targets])

lemma operandAs_forward {x : Lower Segment} (hx : SegmentForward μ x) {ty : Ty} {context : String}
    {r : Code × Value} (h : operandAs x ty context s = .ok r s') : (withNames μ r.1).Forward := by
  obtain ⟨code, v, conversion, t, hlow, hc, hr⟩ := operandAs_ok h
  rw [hr, withNames_append]
  exact (hx hlow).append (coerce_forward hc)

lemma arm_forward {x : Lower Segment} (hx : SegmentForward μ x) {keepBoolean : Bool}
    {r : Code × Value} (h : arm keepBoolean x s = .ok r s') : (withNames μ r.1).Forward := by
  obtain ⟨code, v, conversion, t, hlow, hr, ⟨-, rfl, -, -⟩ | ⟨-, -, hc⟩⟩ := arm_ok h
  · rw [hr, List.append_nil]
    exact hx hlow
  · rw [hr, withNames_append]
    exact (hx hlow).append (coerce_forward hc)

lemma conditional_forward {keepBoolean : Bool} {condition onTrue onFalse : Lower Segment}
    (hcond : SegmentForward μ condition) (htrue : SegmentForward μ onTrue)
    (hfalse : SegmentForward μ onFalse) :
    SegmentForward μ (conditional env keepBoolean condition onTrue onFalse) := by
  intro s seg s' h
  obtain ⟨test, v, trueCode, trueValue, trueJump, falseCode, falseValue, falseJump, trueValue',
    falseValue', ty, t, t₁, t₂, log₁, log₂, n, -, hc, -, ht, -, hf, -, -, -, -, -, -, hj₁, hj₂, -,
    rfl⟩ := conditional_ok h
  have htest := operandAs_forward hcond hc
  have harm := arm_forward htrue ht
  have harm' := arm_forward hfalse hf
  have hjump : (withNames μ trueJump).MayJump (μ (n + 2)) := hj₁ ▸ withNames_mayJump μ
  have hjump' : (withNames μ falseJump).MayJump (μ (n + 2)) := hj₂ ▸ withNames_mayJump μ
  have hphi : (withNames μ [.phi (.temp (t₂.next + 1) ty)
      [(trueValue', t₁.block), (falseValue', t₂.block)]]).Forward :=
    withNames_forward μ (by simp [Instr.targets])
  have hchoice := goes_choice (l := μ n) v htest (harm.goes [μ (n + 1), μ (n + 2)] []) hjump
    (harm'.goes [μ (n + 2)] []) hjump'
  simpa [Label.id] using hchoice.append hphi

lemma arguments_forward {args : List (Lower Segment)} (hargs : ∀ x ∈ args, SegmentForward μ x)
    {tys : List Ty} {r : Code × List Value} (h : arguments args tys s = .ok r s') :
    (withNames μ r.1).Forward := by
  induction args generalizing tys s r with
  | nil =>
    obtain ⟨rfl, -⟩ := pure_ok.mp h
    exact trivial
  | cons x rest ih =>
    cases tys with
    | nil =>
      obtain ⟨rfl, -⟩ := pure_ok.mp h
      exact trivial
    | cons ty tys =>
      obtain ⟨code, v, more, vs, t, hx, hrest, rfl⟩ := arguments_cons_ok h
      have hcode := operandAs_forward (hargs x List.mem_cons_self) hx
      rw [withNames_append]
      exact hcode.append (ih (fun y hy => hargs y (List.mem_cons_of_mem x hy)) hrest)

lemma call_forward {callee : String} {args : List (Lower Segment)}
    (hargs : ∀ x ∈ args, SegmentForward μ x) : SegmentForward μ (call env callee args) := by
  intro s seg s' h
  obtain ⟨signature, code, values, t, -, -, ha, ⟨-, -, rfl⟩ | ⟨-, -, rfl⟩⟩ := call_ok h
  all_goals
    rw [withNames_append]
    exact (arguments_forward hargs ha).append (withNames_forward μ (by simp [Instr.targets]))

end Lower

open Code Lower in
/-- Control goes forward in the code of an expression. -/
theorem Expr.lower_forward (μ : Nat → Label) {env : LowerEnv} {scope : ScopeId} (e : Expr) :
    SegmentForward μ (e.lower env scope) := by
  refine Expr.lower_induction (Φ := SegmentForward μ) ?constant ?readVariable ?increment ?binary
    ?comparison ?booleanCast ?conditional ?assignment ?call e
  case constant =>
    intro v hv s seg s' h
    obtain ⟨rfl, -⟩ := pure_ok.mp h
    exact trivial
  case readVariable =>
    intro name s seg s' h
    obtain ⟨id, ty, -, -, rfl⟩ := readVariable_ok h
    exact withNames_forward μ (by simp [Instr.targets])
  case increment =>
    intro name delta before s seg s' h
    obtain ⟨id, ty, -, -, -, rfl⟩ := increment_ok h
    exact withNames_forward μ (by simp [Instr.targets])
  case binary =>
    intro op ty left right hl hr s seg s' h
    obtain ⟨leftCode, lhs, rightCode, rhs, t, t', hleft, hright, -, -, -, -, rfl⟩ := binary_ok h
    rw [withNames_append, withNames_append]
    exact ((operandAs_forward hl hleft).append (operandAs_forward hr hright)).append
      (withNames_forward μ (by simp [Instr.targets]))
  case comparison =>
    intro relation left right hl hr s seg s' h
    obtain ⟨leftCode, lhs, rightCode, rhs, leftConversion, lhs', rightConversion, rhs', ty, t₁, t₂,
      t₃, t₄, hleft, hright, -, hcl, hcr, -, -, -, rfl⟩ := comparison_ok h
    rw [withNames_append, withNames_append, withNames_append, withNames_append]
    have hoperands := (hl hleft).append (hr hright)
    exact ((hoperands.append (coerce_forward hcl)).append (coerce_forward hcr)).append
      (withNames_forward μ (by simp [Instr.targets]))
  case booleanCast =>
    intro inner hinner s seg s' h
    obtain ⟨code, v, t, hx, ⟨-, -, rfl⟩ | ⟨-, -, -, rfl⟩⟩ := booleanCast_ok h
    · exact hinner hx
    · rw [withNames_append]
      exact (hinner hx).append (withNames_forward μ (by simp [Instr.targets]))
  case conditional =>
    intro keepBoolean condition onTrue onFalse hc ht hf
    exact conditional_forward hc ht hf
  case assignment =>
    intro target value hvalue s seg s' h
    obtain ⟨id, ty, code, v, -, -, hv, -, rfl⟩ := assignment_ok h
    rw [withNames_append]
    exact (operandAs_forward hvalue hv).append (withNames_forward μ (by simp [Instr.targets]))
  case call => exact fun callee args hargs => call_forward hargs

end MiniC
