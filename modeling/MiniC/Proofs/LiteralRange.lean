import MiniC.Proofs.SourceTrees
import MiniC.Proofs.Staging
import MiniC.Proofs.Comparison
import MiniC.Proofs.Typing

/-!
# Literals in range

A literal may change its type several times on its way into the code: as an initial value, an
argument, a result, the other side of a comparison, an arm of a conditional. Each change checks that
the new type holds the value, and what is put in unchecked (the step of an increment, the zero of a
test) fits every integer type but that of booleans. The check alone would let 0 and 1 become
booleans. In trees of source text this does not happen: where a boolean is asked for, the form of
the expression gives one already, and no variable, parameter or result is a boolean.
-/

namespace MiniC

/-- Whether the value, if it is a literal, is one of its type. Integer literals are not booleans. -/
def Value.InRange : Value → Prop
  | .int value ty => ty.isInteger = true ∧ ty ≠ .bool ∧ ty.fits value = true
  | .float _ ty => ty.isFloating = true
  | .temp .. | .slot .. => True

/-- Whether all literals that the code reads are in range. -/
def Code.InRange (code : Code) : Prop := ∀ i ∈ code, ∀ v ∈ i.used, v.InRange

namespace Code

@[simp] lemma inRange_nil : InRange [] := by
  intro i hi
  cases hi

@[simp] lemma inRange_append {code code' : Code} :
    InRange (code ++ code') ↔ InRange code ∧ InRange code' :=
  List.forall_mem_append

lemma inRange_cons {i : Instr} {code : Code} :
    InRange (i :: code) ↔ (∀ v ∈ i.used, v.InRange) ∧ InRange code :=
  List.forall_mem_cons

variable {code : Code} {v w : Value}

@[simp] lemma inRange_label (l : Label) : InRange (.label l :: code) ↔ InRange code := by
  simp [inRange_cons, Instr.used, Instr.operands, Instr.incoming]

@[simp] lemma inRange_jump (l : Label) : InRange (.jump l :: code) ↔ InRange code := by
  simp [inRange_cons, Instr.used, Instr.operands, Instr.incoming]

@[simp] lemma inRange_alloca (slot : Value) (align : Nat) :
    InRange (.alloca slot align :: code) ↔ InRange code := by
  simp [inRange_cons, Instr.used, Instr.operands, Instr.incoming]

@[simp] lemma inRange_load (id : Nat) (ty : Ty) (align : Nat) :
    InRange (.load v (.slot id ty) align :: code) ↔ InRange code := by
  simp [inRange_cons, Instr.used, Instr.operands, Instr.incoming, Value.InRange]

@[simp] lemma inRange_store (id : Nat) (ty : Ty) (align : Nat) :
    InRange (.store v (.slot id ty) align :: code) ↔ v.InRange ∧ InRange code := by
  simp [inRange_cons, Instr.used, Instr.operands, Instr.incoming, Value.InRange]

@[simp] lemma inRange_binary (result : Value) (op : BinaryOp) :
    InRange (.binary result op v w :: code) ↔ (v.InRange ∧ w.InRange) ∧ InRange code := by
  simp [inRange_cons, Instr.used, Instr.operands, Instr.incoming]

@[simp] lemma inRange_icmp (result : Value) (relation : Relation) :
    InRange (.icmp result relation v w :: code) ↔ (v.InRange ∧ w.InRange) ∧ InRange code := by
  simp [inRange_cons, Instr.used, Instr.operands, Instr.incoming]

@[simp] lemma inRange_branch (l m : Label) :
    InRange (.branch v l m :: code) ↔ v.InRange ∧ InRange code := by
  simp [inRange_cons, Instr.used, Instr.operands, Instr.incoming]

@[simp] lemma inRange_phi (result : Value) (l m : Label) :
    InRange (.phi result [(v, l), (w, m)] :: code) ↔ (v.InRange ∧ w.InRange) ∧ InRange code := by
  simp [inRange_cons, Instr.used, Instr.operands, Instr.incoming]

@[simp] lemma inRange_zext (result : Value) :
    InRange (.zext result v :: code) ↔ v.InRange ∧ InRange code := by
  simp [inRange_cons, Instr.used, Instr.operands, Instr.incoming]

@[simp] lemma inRange_call (result : Option Value) (callee : String) (ty : Ty)
    (arguments : List Value) :
    InRange (.call result callee ty arguments :: code) ↔
      (∀ v ∈ arguments, v.InRange) ∧ InRange code := by
  simp [inRange_cons, Instr.used, Instr.operands, Instr.incoming]

@[simp] lemma inRange_ret (value : Option Value) :
    InRange (.ret value :: code) ↔ (∀ v ∈ value, v.InRange) ∧ InRange code := by
  simp [inRange_cons, Instr.used, Instr.operands, Instr.incoming]

end Code

/-- The literals that are put into code unchecked fit every integer type but that of booleans. -/
lemma Value.inRange_int {n : Int} (hlow : -1 ≤ n) (hhigh : n ≤ 1) {ty : Ty}
    (hint : ty.isInteger = true) (hne : ty ≠ .bool) : (Value.int n ty).InRange := by
  refine ⟨hint, hne, ?_⟩
  cases ty with
  | i8 | i16 | i32 =>
    simp only [Ty.fits, Bool.and_eq_true, decide_eq_true_eq]
    omega
  | i64 => rfl
  | bool => exact absurd rfl hne
  | _ => cases hint

/-- A literal stays in range with another type, unless that is the type of booleans. -/
lemma Value.InRange.retype {v w : Value} (hv : v.InRange) {ty : Ty} {context : String}
    (hty : ty = .bool → v.ty = .bool) (hw : Lower.retypeLiteral v ty context = .ok w) :
    w.InRange ∧ w.ty = ty := by
  rcases Lower.retypeLiteral_ok.mp hw with
    ⟨heq, rfl⟩ | ⟨hne, ⟨n, ty', rfl, hint, hfits, rfl⟩ | ⟨b, ty', rfl, hfloating, rfl⟩⟩
  · exact ⟨hv, heq⟩
  · have hbool : ty ≠ .bool := fun hbool => hne ((hty hbool).trans hbool.symm)
    exact ⟨⟨hint, hbool, hfits⟩, rfl⟩
  · exact ⟨hfloating, rfl⟩

lemma Value.InRange.not_literal_of_bool {v : Value} (hv : v.InRange) (hty : v.ty = .bool) :
    v.isLiteral = false := by
  cases v with
  | int n ty => exact absurd hty hv.2.1
  | float b ty =>
    cases hty
    cases hv
  | _ => rfl

/-- Whether no variable is a boolean. -/
def Scopes.NoBooleans (s : Scopes) : Prop := s.Binds fun v => v.ty ≠ .bool

/-- Whether no parameter of a known function is a boolean. -/
def FunctionTable.NoBooleans (t : FunctionTable) : Prop :=
  ∀ name signature, t.find? name = some signature → ∀ ty ∈ signature.params, ty ≠ .bool

namespace Lower

variable {s s' : LowerState} {env : LowerEnv} {scope : ScopeId}

/-- Whether a lowering of an expression puts only literals in range into its code, and gives none
other. -/
def SegmentInRange (x : Lower Segment) : Prop :=
  ∀ ⦃s seg s'⦄, x s = .ok seg s' → s.scopes.NoBooleans →
    Code.InRange seg.instructions ∧ s'.scopes.NoBooleans ∧ ∀ v ∈ seg.result, v.InRange

/-- Whether a lowering of an expression gives a boolean. -/
def SegmentBoolean (x : Lower Segment) : Prop :=
  ∀ ⦃s seg s'⦄, x s = .ok seg s' → ∀ v ∈ seg.result, v.ty = .bool

lemma coerce_inRange {v : Value} {ty : Ty} {context : String} {r : Code × Value}
    (h : coerce v ty context s = .ok r s') (hs : s.scopes.NoBooleans) (hv : v.InRange)
    (hty : ty = .bool → v.ty = .bool) :
    Code.InRange r.1 ∧ s'.scopes.NoBooleans ∧ r.2.InRange ∧ r.2.ty = ty := by
  have hs' : s'.scopes.NoBooleans := hs.of_eq (coerce_keeps h)
  rcases coerce_ok h with ⟨w, hw, rfl, rfl⟩ | ⟨-, -, -, -, rfl, rfl⟩
  · exact ⟨Code.inRange_nil, hs', hv.retype hty hw⟩
  · exact ⟨by simpa using hv, hs', trivial, rfl⟩

lemma operandAs_inRange {x : Lower Segment} (hx : SegmentInRange x) {ty : Ty} {context : String}
    {r : Code × Value} (hty : ty = .bool → SegmentBoolean x)
    (h : operandAs x ty context s = .ok r s') (hs : s.scopes.NoBooleans) :
    Code.InRange r.1 ∧ s'.scopes.NoBooleans ∧ r.2.InRange := by
  obtain ⟨code, v, conversion, t, hlow, hc, hr⟩ := operandAs_ok h
  obtain ⟨hcode, ht, hv⟩ := hx hlow hs
  obtain ⟨hconversion, hs', hr₂, -⟩ := coerce_inRange hc ht (hv v rfl) fun h => hty h hlow v rfl
  rw [hr, Code.inRange_append]
  exact ⟨⟨hcode, hconversion⟩, hs', hr₂⟩

/-- An arm that is not kept as a boolean is none. -/
lemma arm_inRange {x : Lower Segment} (hx : SegmentInRange x) {keepBoolean : Bool}
    (hkeep : keepBoolean = true → SegmentBoolean x) {r : Code × Value}
    (h : arm keepBoolean x s = .ok r s') (hs : s.scopes.NoBooleans) :
    Code.InRange r.1 ∧ s'.scopes.NoBooleans ∧ r.2.InRange ∧
      (r.2.ty = .bool ↔ keepBoolean = true) := by
  obtain ⟨code, v, conversion, t, hlow, hr, harm⟩ := arm_ok h
  obtain ⟨hcode, ht, hv⟩ := hx hlow hs
  rw [hr, Code.inRange_append]
  rcases harm with ⟨hkept, rfl, hr₂, rfl⟩ | ⟨hkept, -, hc⟩
  · rw [hr₂]
    refine ⟨⟨hcode, Code.inRange_nil⟩, ht, hv v rfl, fun hbool => ?_, fun h => hkeep h hlow v rfl⟩
    exact hkept.resolve_right fun hne => hne hbool
  · obtain ⟨hconversion, hs', hr₂, hty⟩ := coerce_inRange hc ht (hv v rfl) (by simp)
    exact ⟨⟨hcode, hconversion⟩, hs', hr₂, by simp [hty, hkept]⟩

lemma optionalJump_inRange {omitted : Bool} {l : Label} :
    Code.InRange (if omitted then [] else [.jump l]) := by
  cases omitted <;> simp

lemma readVariable_inRange {name : String} : SegmentInRange (readVariable env scope name) := by
  intro s seg s' h hs
  obtain ⟨id, ty, -, rfl, rfl⟩ := readVariable_ok h
  refine ⟨by simp, hs.of_eq rfl, ?_⟩
  rintro v ⟨⟩
  trivial

lemma increment_inRange {name : String} {delta : Int} (hdelta : delta = 1 ∨ delta = -1)
    {before : Bool} : SegmentInRange (increment env scope name delta before) := by
  intro s seg s' h hs
  obtain ⟨id, ty, hl, hint, rfl, rfl⟩ := increment_ok h
  have hty : ty ≠ .bool := Scopes.Binds.lookup hs hl
  have hstep : (Value.int delta ty).InRange :=
    Value.inRange_int (by omega) (by omega) hint hty
  refine ⟨by simpa [Value.InRange] using hstep, hs.of_eq rfl, ?_⟩
  rintro v ⟨⟩
  cases before <;> trivial

lemma binary_inRange {op : BinaryOp} {ty : Ty} {left right : Lower Segment}
    (hl : SegmentInRange left) (hr : SegmentInRange right)
    (hty : ty = .bool → SegmentBoolean left ∧ SegmentBoolean right) :
    SegmentInRange (binary op ty left right) := by
  intro s seg s' h hs
  obtain ⟨leftCode, lhs, rightCode, rhs, t, t', hleft, hright, rfl, -, -, -, rfl⟩ := binary_ok h
  obtain ⟨h₁, ht, hv₁⟩ := operandAs_inRange hl (fun h => (hty h).1) hleft hs
  obtain ⟨h₂, ht', hv₂⟩ := operandAs_inRange hr (fun h => (hty h).2) hright ht
  refine ⟨by simpa using ⟨h₁, h₂, hv₁, hv₂⟩, ht'.of_eq rfl, ?_⟩
  rintro v ⟨⟩
  trivial

/-- What is compared as a boolean is a boolean on both sides. -/
lemma commonTy_bool {lhs rhs : Value} {ty : Ty} (hr : rhs.InRange)
    (h : commonTy lhs rhs = .ok ty) (hty : ty = .bool) : lhs.ty = .bool ∧ rhs.ty = .bool := by
  have hboth := (commonTy_eq_bool_iff h).mp hty
  simp only [comparesBooleans, Bool.and_eq_true, Bool.or_eq_true, beq_iff_eq] at hboth
  obtain ⟨hrhs, hlhs | ⟨-, hliteral⟩⟩ := hboth
  · exact ⟨hlhs, hrhs⟩
  · rw [hr.not_literal_of_bool hrhs] at hliteral
    cases hliteral

lemma comparison_inRange {relation : Relation} {left right : Lower Segment}
    (hl : SegmentInRange left) (hr : SegmentInRange right) :
    SegmentInRange (comparison relation left right) := by
  intro s seg s' h hs
  obtain ⟨leftCode, lhs, rightCode, rhs, leftConversion, lhs', rightConversion, rhs', ty, t₁, t₂,
    t₃, t₄, hleft, hright, hty, hcl, hcr, rfl, -, -, rfl⟩ := comparison_ok h
  obtain ⟨h₁, hs₁, hv₁⟩ := hl hleft hs
  obtain ⟨h₂, hs₂, hv₂⟩ := hr hright hs₁
  have hbool := commonTy_bool (hv₂ rhs rfl) hty
  obtain ⟨h₃, hs₃, hv₃, -⟩ := coerce_inRange hcl hs₂ (hv₁ lhs rfl) fun h => (hbool h).1
  obtain ⟨h₄, hs₄, hv₄, -⟩ := coerce_inRange hcr hs₃ (hv₂ rhs rfl) fun h => (hbool h).2
  refine ⟨by simpa using ⟨h₁, h₂, h₃, h₄, hv₃, hv₄⟩, hs₄.of_eq rfl, ?_⟩
  rintro v ⟨⟩
  trivial

lemma booleanCast_inRange {inner : Lower Segment} (hx : SegmentInRange inner) :
    SegmentInRange (booleanCast inner) := by
  intro s seg s' h hs
  obtain ⟨code, v, t, hlow, ⟨-, rfl, rfl⟩ | ⟨hne, hint, rfl, rfl⟩⟩ := booleanCast_ok h
  · exact hx hlow hs
  · obtain ⟨h₁, ht, hv⟩ := hx hlow hs
    have hzero : (Value.int 0 v.ty).InRange := Value.inRange_int (by omega) (by omega) hint hne
    refine ⟨by simpa using ⟨h₁, hv v rfl, hzero⟩, ht.of_eq rfl, ?_⟩
    rintro w ⟨⟩
    trivial

lemma conditional_inRange {keepBoolean : Bool} {condition onTrue onFalse : Lower Segment}
    (hcond : SegmentInRange condition) (hbool : SegmentBoolean condition)
    (htrue : SegmentInRange onTrue) (hfalse : SegmentInRange onFalse)
    (hkeep : keepBoolean = true → SegmentBoolean onTrue ∧ SegmentBoolean onFalse) :
    SegmentInRange (conditional env keepBoolean condition onTrue onFalse) := by
  intro s seg s' h hs
  obtain ⟨test, v, trueCode, trueValue, trueJump, falseCode, falseValue, falseJump, trueValue',
    falseValue', ty, t, t₁, t₂, log₁, log₂, n, -, hc, -, ht, -, hf, -, hty, hretype₁, hretype₂, -,
    -, hj₁, hj₂, rfl, rfl⟩ := conditional_ok h
  obtain ⟨h₁, hst, hv⟩ := operandAs_inRange hcond (fun _ => hbool) hc hs
  obtain ⟨h₂, hst₁, hv₁, hb₁⟩ := arm_inRange htrue (fun h => (hkeep h).1) ht (hst.of_eq rfl)
  obtain ⟨h₃, hst₂, hv₂, hb₂⟩ := arm_inRange hfalse (fun h => (hkeep h).2) hf (hst₁.of_eq rfl)
  -- either both arms are booleans or none is, and so the type they share is theirs
  have hshared : ty = .bool → trueValue.ty = .bool ∧ falseValue.ty = .bool := by
    intro hshared
    rw [hb₁, hb₂, and_self]
    rw [hty] at hshared
    split at hshared
    · exact hb₂.mp hshared
    · exact hb₁.mp hshared
  obtain ⟨hv₁', -⟩ := hv₁.retype (fun h => (hshared h).1) hretype₁
  obtain ⟨hv₂', -⟩ := hv₂.retype (fun h => (hshared h).2) hretype₂
  have h₄ : Code.InRange trueJump := hj₁ ▸ optionalJump_inRange
  have h₅ : Code.InRange falseJump := hj₂ ▸ optionalJump_inRange
  refine ⟨by simp [h₁, h₂, h₃, h₄, h₅, hv, hv₁', hv₂'], hst₂.of_eq rfl, ?_⟩
  rintro w ⟨⟩
  trivial

lemma assignment_inRange {target : String} {value : Lower Segment} (hx : SegmentInRange value) :
    SegmentInRange (assignment env scope target value) := by
  intro s seg s' h hs
  obtain ⟨id, ty, code, v, hl, -, hv, -, rfl⟩ := assignment_ok h
  have hty : ty ≠ .bool := Scopes.Binds.lookup hs hl
  obtain ⟨h₁, hs', hrange⟩ := operandAs_inRange hx (fun h => absurd h hty) hv hs
  refine ⟨by simpa using ⟨h₁, hrange⟩, hs', ?_⟩
  rintro w ⟨⟩
  exact hrange

lemma arguments_inRange {args : List (Lower Segment)} (hargs : ∀ x ∈ args, SegmentInRange x)
    {tys : List Ty} (htys : ∀ ty ∈ tys, ty ≠ .bool) {r : Code × List Value}
    (h : arguments args tys s = .ok r s') (hs : s.scopes.NoBooleans) :
    Code.InRange r.1 ∧ s'.scopes.NoBooleans ∧ ∀ v ∈ r.2, v.InRange := by
  induction args generalizing tys s r with
  | nil =>
    obtain ⟨rfl, rfl⟩ := pure_ok.mp h
    exact ⟨Code.inRange_nil, hs, by simp⟩
  | cons x rest ih =>
    cases tys with
    | nil =>
      obtain ⟨rfl, rfl⟩ := pure_ok.mp h
      exact ⟨Code.inRange_nil, hs, by simp⟩
    | cons ty tys =>
      obtain ⟨code, v, more, vs, t, hx, hrest, rfl⟩ := arguments_cons_ok h
      obtain ⟨hcode, ht, hv⟩ := operandAs_inRange (hargs x List.mem_cons_self)
        (fun h => absurd h (htys ty List.mem_cons_self)) hx hs
      obtain ⟨hmore, hs', hvs⟩ := ih (fun y hy => hargs y (List.mem_cons_of_mem x hy))
        (fun ty' hty' => htys ty' (List.mem_cons_of_mem ty hty')) hrest ht
      exact ⟨Code.inRange_append.mpr ⟨hcode, hmore⟩, hs', List.forall_mem_cons.mpr ⟨hv, hvs⟩⟩

lemma call_inRange (hfunctions : env.functions.NoBooleans) {callee : String}
    {args : List (Lower Segment)} (hargs : ∀ x ∈ args, SegmentInRange x) :
    SegmentInRange (call env callee args) := by
  intro s seg s' h hs
  obtain ⟨signature, code, values, t, hfind, -, ha, h⟩ := call_ok h
  obtain ⟨hcode, ht, hvs⟩ := arguments_inRange hargs (hfunctions callee signature hfind) ha hs
  rcases h with ⟨-, rfl, rfl⟩ | ⟨-, rfl, rfl⟩
  · exact ⟨by simpa using ⟨hcode, hvs⟩, ht, by simp⟩
  · refine ⟨by simpa using ⟨hcode, hvs⟩, ht.of_eq rfl, ?_⟩
    rintro v ⟨⟩
    trivial

end Lower

namespace Expr

open Lower

variable {env : LowerEnv} {scope : ScopeId}

/-- An expression that is boolean by its form gives a boolean. -/
lemma lower_boolean {e : Expr} (h : e.isBoolean = true) : SegmentBoolean (e.lower env scope) := by
  intro s seg s' hlow
  cases e with
  | compare op left right =>
    obtain ⟨_, _, _, _, _, _, _, _, _, _, _, _, _, -, -, -, -, -, -, -, -, rfl⟩ :=
      comparison_ok hlow
    rintro v ⟨⟩
    rfl
  | logicalAnd left right | logicalOr left right =>
    obtain ⟨_, _, _, _, _, _, -, -, -, -, -, -, rfl⟩ := binary_ok hlow
    rintro v ⟨⟩
    rfl
  | boolCast operand =>
    obtain ⟨code, v, t, -, ⟨hty, -, rfl⟩ | ⟨-, -, -, rfl⟩⟩ := booleanCast_ok hlow
    · rintro w ⟨⟩
      exact hty
    · rintro w ⟨⟩
      rfl
  | _ => cases h

/-- Well-formed expressions put only literals in range into their code. -/
theorem WellFormed.lower_inRange (hfunctions : env.functions.NoBooleans) {e : Expr}
    (h : e.WellFormed) : SegmentInRange (e.lower env scope) := by
  have hconstant : ∀ {v : Value}, v.InRange →
      SegmentInRange (pure (.ofValue v) : Lower Segment) := by
    intro v hv s seg s' hlow hs
    obtain ⟨rfl, rfl⟩ := pure_ok.mp hlow
    refine ⟨Code.inRange_nil, hs, ?_⟩
    rintro w ⟨⟩
    exact hv
  induction h with
  | int hlow hhigh =>
    refine hconstant ⟨rfl, by simp, ?_⟩
    simp only [Ty.fits, Bool.and_eq_true, decide_eq_true_eq]
    omega
  | float value => exact hconstant rfl
  | var name => exact readVariable_inRange
  | preIncrement name hdelta => exact increment_inRange hdelta
  | postIncrement name hdelta => exact increment_inRange hdelta
  | arith op _ _ hl hr => exact binary_inRange hl hr (by simp)
  | compare op _ _ hl hr => exact comparison_inRange hl hr
  | logicalAnd _ _ hlb hrb hl hr =>
    exact binary_inRange hl hr fun _ => ⟨lower_boolean hlb, lower_boolean hrb⟩
  | logicalOr _ _ hlb hrb hl hr =>
    exact binary_inRange hl hr fun _ => ⟨lower_boolean hlb, lower_boolean hrb⟩
  | boolCast _ hx => exact booleanCast_inRange hx
  | conditional _ hcb _ _ hc ht hf =>
    refine conditional_inRange hc (lower_boolean hcb) ht hf fun hkeep => ?_
    rw [Bool.and_eq_true] at hkeep
    exact ⟨lower_boolean hkeep.1, lower_boolean hkeep.2⟩
  | assign target _ hx => exact assignment_inRange hx
  | call callee _ hargs =>
    rw [lower]
    refine call_inRange hfunctions fun x hx => ?_
    obtain ⟨e, he, rfl⟩ := mem_lowerAll hx
    exact hargs e he

end Expr

namespace Lower

variable {s s' : LowerState} {env : LowerEnv} {scope : ScopeId} {ctx : Context} {code : Code}

/-- Whether a lowering of a statement puts only literals in range into its code. -/
def CodeInRange (x : Lower Code) : Prop :=
  ∀ ⦃s code s'⦄, x s = .ok code s' → s.scopes.NoBooleans →
    Code.InRange code ∧ s'.scopes.NoBooleans

lemma declare_noBooleans {name : String} {ty : Ty} {scopes : Scopes} (hs : s.scopes.NoBooleans)
    (h : s.drawn.scopes.declare scope name (.slot s.next ty) = .ok scopes) (hty : ty ≠ .bool) :
    scopes.NoBooleans := by
  have hdrawn : s.drawn.scopes.NoBooleans := hs.of_eq rfl
  exact hdrawn.declare h hty

lemma declarator_inRange (hfunctions : env.functions.NoBooleans) {d : Declarator}
    (hd : d.WellFormed) : CodeInRange (declarator env scope d) := by
  intro s code s' h hs
  obtain ⟨-, scopes, hdeclare, h⟩ := declarator_ok h
  have hs₁ := declare_noBooleans hs hdeclare hd.ty
  rcases h with ⟨-, rfl, rfl⟩ | ⟨e, init, v, he, hv, -, rfl⟩
  · exact ⟨by simp, hs₁⟩
  · have hinit : SegmentInRange (e.lower env scope) :=
      (hd.initializer e he).lower_inRange hfunctions
    obtain ⟨h₁, hs', hrange⟩ := operandAs_inRange hinit (fun h => absurd h hd.ty) hv hs₁
    exact ⟨by simpa using ⟨h₁, hrange⟩, hs'⟩

lemma declaration_inRange (hfunctions : env.functions.NoBooleans) {ds : List Declarator}
    (hds : ∀ d ∈ ds, d.WellFormed) : CodeInRange (declaration env scope ds) := by
  induction ds with
  | nil =>
    intro s code s' h hs
    obtain ⟨rfl, rfl⟩ := pure_ok.mp h
    exact ⟨Code.inRange_nil, hs⟩
  | cons d rest ih =>
    intro s code s' h hs
    obtain ⟨first, more, t, hd, hrest, rfl⟩ := declaration_cons_ok h
    obtain ⟨h₁, ht⟩ := declarator_inRange hfunctions (hds d List.mem_cons_self) hd hs
    obtain ⟨h₂, hs'⟩ := ih (fun y hy => hds y (List.mem_cons_of_mem d hy)) hrest ht
    exact ⟨Code.inRange_append.mpr ⟨h₁, h₂⟩, hs'⟩

lemma branchOn_inRange {condition : Lower Segment} (hcond : SegmentInRange condition)
    (hbool : SegmentBoolean condition) (onTrue onFalse : Label) :
    CodeInRange (branchOn condition onTrue onFalse) := by
  intro s code s' h hs
  obtain ⟨test, v, hv, -, rfl⟩ := branchOn_ok h
  obtain ⟨h₁, hs', hrange⟩ := operandAs_inRange hcond (fun _ => hbool) hv hs
  exact ⟨by simpa using ⟨h₁, hrange⟩, hs'⟩

lemma ifElse_none_inRange {condition : Lower Segment} (hcond : SegmentInRange condition)
    (hbool : SegmentBoolean condition) {onTrue : Lower Code} (htrue : CodeInRange onTrue) :
    CodeInRange (ifElse env condition onTrue none) := by
  intro s code s' h hs
  obtain ⟨test, trueCode, jump, t, t₁, log, n, -, htest, -, ht, -, hj, rfl, rfl⟩ := ifElse_none_ok h
  obtain ⟨h₁, hst⟩ := branchOn_inRange hcond hbool _ _ htest (hs.of_eq rfl)
  obtain ⟨h₂, hst₁⟩ := htrue ht (hst.of_eq rfl)
  have h₃ : Code.InRange jump := hj ▸ optionalJump_inRange
  exact ⟨by simp [h₁, h₂, h₃], hst₁.of_eq rfl⟩

lemma ifElse_some_inRange {condition : Lower Segment} (hcond : SegmentInRange condition)
    (hbool : SegmentBoolean condition) {onTrue onFalse : Lower Code} (htrue : CodeInRange onTrue)
    (hfalse : CodeInRange onFalse) :
    CodeInRange (ifElse env condition onTrue (some onFalse)) := by
  intro s code s' h hs
  obtain ⟨test, trueCode, trueJump, falseCode, falseJump, t, t₁, t₂, log₁, log₂, n, m, -, htest, -,
    ht, -, -, hf, -, hj₁, hj₂, rfl, rfl⟩ := ifElse_some_ok h
  obtain ⟨h₁, hst⟩ := branchOn_inRange hcond hbool _ _ htest (hs.of_eq rfl)
  obtain ⟨h₂, hst₁⟩ := htrue ht (hst.of_eq rfl)
  obtain ⟨h₃, hst₂⟩ := hfalse hf (hst₁.of_eq rfl)
  have h₄ : Code.InRange trueJump := hj₁ ▸ optionalJump_inRange
  have h₅ : Code.InRange falseJump := hj₂ ▸ optionalJump_inRange
  exact ⟨by simp [h₁, h₂, h₃, h₄, h₅], hst₂.of_eq rfl⟩

lemma whileLoop_inRange {condition : Lower Segment} (hcond : SegmentInRange condition)
    (hbool : SegmentBoolean condition) {body : Context → Lower Code}
    (hbody : ∀ ctx, CodeInRange (body ctx)) :
    CodeInRange (whileLoop env ctx condition body) := by
  intro s code s' h hs
  obtain ⟨test, bodyCode, back, t, t₁, log₀, log, n, -, htest, -, hb, -, hback, rfl, rfl⟩ :=
    whileLoop_ok h
  obtain ⟨h₁, hst⟩ := branchOn_inRange hcond hbool _ _ htest (hs.of_eq rfl)
  obtain ⟨h₂, hst₁⟩ := hbody _ hb (hst.of_eq rfl)
  have h₃ : Code.InRange back := hback ▸ optionalJump_inRange
  exact ⟨by simp [h₁, h₂, h₃], hst₁.of_eq rfl⟩

lemma openBlockAfter_inRange {opened : Code} (h : openBlockAfter code s = .ok opened s') :
    Code.InRange opened := by
  rcases openBlockAfter_ok h with ⟨-, rfl, -⟩ | ⟨-, rfl, -⟩ <;> simp

lemma stepAfter_inRange {step : Option (Lower Segment)} (hstep : ∀ x ∈ step, SegmentInRange x)
    {code' : Code} (h : stepAfter code step s = .ok code' s') (hs : s.scopes.NoBooleans)
    (hcode : Code.InRange code) : Code.InRange code' ∧ s'.scopes.NoBooleans := by
  rcases stepAfter_ok h with ⟨-, rfl, rfl⟩ | ⟨x, opened, seg, t, rfl, ho, hx, rfl⟩
  · exact ⟨hcode, hs⟩
  · obtain ⟨h₁, hs', -⟩ := hstep x rfl hx (hs.of_eq (openBlockAfter_keeps ho))
    exact ⟨by simp [hcode, openBlockAfter_inRange ho, h₁], hs'⟩

lemma initial_inRange {init : Option (Context → Lower Code)}
    (hinit : ∀ x ∈ init, CodeInRange (x ctx)) : CodeInRange (initial init ctx) := by
  intro s code s' h hs
  rcases initial_ok h with ⟨-, rfl, rfl⟩ | ⟨x, rfl, hx⟩
  · exact ⟨Code.inRange_nil, hs⟩
  · exact hinit x rfl hx hs

lemma loopTest_inRange {before : Code} {condition : Option (Lower Segment)}
    (hcond : ∀ x ∈ condition, SegmentInRange x ∧ SegmentBoolean x) {bodyLabel exitLabel : Label} :
    CodeInRange (loopTest env before condition bodyLabel exitLabel) := by
  intro s code s' h hs
  rcases loopTest_ok h with ⟨-, ⟨log, rfl⟩, rfl⟩ | ⟨c, rfl, hc⟩
  · exact ⟨optionalJump_inRange, hs.of_eq rfl⟩
  · exact branchOn_inRange (hcond c rfl).1 (hcond c rfl).2 _ _ hc hs

lemma forLoop_inRange {init : Option (Context → Lower Code)}
    (hinit : ∀ x ∈ init, ∀ ctx, CodeInRange (x ctx))
    {condition step : Option (ScopeId → Lower Segment)}
    (hcond : ∀ x ∈ condition, ∀ scope, SegmentInRange (x scope) ∧ SegmentBoolean (x scope))
    (hstep : ∀ x ∈ step, ∀ scope, SegmentInRange (x scope))
    {body : Context → Lower Code} (hbody : ∀ ctx, CodeInRange (body ctx)) :
    CodeInRange (forLoop env ctx init condition step body) := by
  intro s code s' h hs
  obtain ⟨initCode, entering, test, bodyCode, stepped, back, t₀, t, t₁, t₂, log₀, log, n, scope,
    -, hi, -, hentering, htest, -, hb, hstepped, -, hback, rfl, rfl⟩ := forLoop_ok h
  obtain ⟨h₁, hst₀⟩ := initial_inRange (fun x hx => hinit x hx _) hi (hs.openChild _)
  obtain ⟨h₂, hst⟩ := loopTest_inRange (Option.forall_mem_map.mpr fun x hx => hcond x hx _) htest
    (hst₀.of_eq rfl)
  obtain ⟨h₃, hst₁⟩ := hbody _ hb (hst.of_eq rfl)
  have h₄ : Code.InRange entering := hentering ▸ optionalJump_inRange
  obtain ⟨h₅, hst₂⟩ := stepAfter_inRange (Option.forall_mem_map.mpr fun x hx => hstep x hx _)
    hstepped hst₁ (by simp [h₁, h₂, h₃, h₄])
  have h₆ : Code.InRange back := hback ▸ optionalJump_inRange
  exact ⟨by simp [h₅, h₆], hst₂.of_eq rfl⟩

lemma ret_inRange (hret : env.returnTy ≠ .bool) {value : Option (Lower Segment)}
    (hvalue : ∀ x ∈ value, SegmentInRange x) : CodeInRange (ret env value) := by
  intro s code s' h hs
  rcases ret_ok h with ⟨-, -, rfl, rfl⟩ | ⟨x, first, v, conversion, w, t, rfl, -, hx, hc, rfl⟩
  · exact ⟨by simp, hs⟩
  · obtain ⟨h₁, ht, hv⟩ := hvalue x rfl hx hs
    obtain ⟨h₂, hs', hw, -⟩ := coerce_inRange hc ht (hv v rfl) fun h => absurd h hret
    exact ⟨by simpa using ⟨h₁, h₂, hw⟩, hs'⟩

lemma leave_inRange {target : Option Label} {outside : LoweringError} :
    CodeInRange (leave target outside) := by
  intro s code s' h hs
  obtain ⟨l, -, rfl, rfl⟩ := leave_ok h
  exact ⟨by simp, hs⟩

end Lower

namespace Stmt

open Lower

variable {env : LowerEnv}

lemma lowerAll_inRange {body : List Stmt} {ctx : Context}
    (hbody : ∀ x ∈ body, CodeInRange (x.lower env ctx)) {before code : Code} {s s' : LowerState}
    (h : lowerAll env body ctx before s = .ok code s') (hs : s.scopes.NoBooleans)
    (hbefore : Code.InRange before) : Code.InRange code ∧ s'.scopes.NoBooleans := by
  induction body generalizing before s with
  | nil =>
    obtain ⟨rfl, rfl⟩ := lowerAll_nil_ok h
    exact ⟨hbefore, hs⟩
  | cons x rest ih =>
    obtain ⟨opened, added, t, t', ho, hx, hrest⟩ := lowerAll_cons_ok h
    obtain ⟨h₁, ht'⟩ := hbody x List.mem_cons_self hx (hs.of_eq (openBlockAfter_keeps ho))
    exact ih (fun y hy => hbody y (List.mem_cons_of_mem x hy)) hrest ht'
      (by simp [hbefore, openBlockAfter_inRange ho, h₁])

/-- Well-formed statements put only literals in range into their code. -/
theorem WellFormed.lower_inRange (hfunctions : env.functions.NoBooleans)
    (hret : env.returnTy ≠ .bool) {x : Stmt} (h : x.WellFormed) :
    ∀ ctx, CodeInRange (x.lower env ctx) := by
  have hpart : ∀ {part : Option Expr}, (∀ e ∈ part, e.WellFormed) →
      ∀ x ∈ part.map (fun e scope => e.lower env scope), ∀ scope, SegmentInRange (x scope) :=
    fun hpart => Option.forall_mem_map.mpr fun e he scope => (hpart e he).lower_inRange hfunctions
  induction h with
  | expression he =>
    intro ctx s code s' h hs
    obtain ⟨seg, hlow, rfl⟩ := lower_expression_ok h
    obtain ⟨hcode, hs', -⟩ := he.lower_inRange hfunctions hlow hs
    exact ⟨hcode, hs'⟩
  | declaration hds => exact fun ctx => declaration_inRange hfunctions hds
  | compound _ hbody =>
    intro ctx s code s' h hs
    exact lowerAll_inRange (fun x hx => hbody x hx _) (lower_compound_ok h) (hs.openChild _)
      Code.inRange_nil
  | @ifElse condition onTrue onFalse hc hcb _ _ htrue hfalse =>
    intro ctx
    have hcond : SegmentInRange (condition.lower env ctx.scope) := hc.lower_inRange hfunctions
    cases onFalse with
    | none => exact ifElse_none_inRange hcond (Expr.lower_boolean hcb) (htrue ctx)
    | some onFalse =>
      exact ifElse_some_inRange hcond (Expr.lower_boolean hcb) (htrue ctx) (hfalse onFalse rfl ctx)
  | whileLoop hc hcb _ hbody =>
    intro ctx
    exact whileLoop_inRange (hc.lower_inRange hfunctions) (Expr.lower_boolean hcb) hbody
  | @forLoop init condition step body _ hc hstep _ hinit hbody =>
    intro ctx
    have hcond : ∀ x ∈ condition.map (fun e scope => e.lower env scope), ∀ scope,
        SegmentInRange (x scope) ∧ SegmentBoolean (x scope) :=
      Option.forall_mem_map.mpr fun e he scope =>
        ⟨(hc e he).1.lower_inRange hfunctions, Expr.lower_boolean (hc e he).2⟩
    cases init with
    | none =>
      rw [lower]
      exact forLoop_inRange (by simp) hcond (hpart hstep) hbody
    | some init =>
      rw [lower]
      refine forLoop_inRange ?_ hcond (hpart hstep) hbody
      rintro x ⟨⟩
      exact hinit init rfl
  | ret hvalue =>
    exact fun ctx => ret_inRange hret
      (Option.forall_mem_map.mpr fun e he => (hvalue e he).lower_inRange hfunctions)
  | brk => exact fun ctx => leave_inRange
  | cont => exact fun ctx => leave_inRange

end Stmt

lemma Lower.paramSlots_inRange {env : LowerEnv} {pairs : List (Param × Value)} {s s' : LowerState}
    {code : Code} (h : paramSlots env pairs s = .ok code s') (hs : s.scopes.NoBooleans)
    (hpairs : ∀ pair ∈ pairs, pair.1.ty ≠ .bool ∧ pair.2.InRange) :
    Code.InRange code ∧ s'.scopes.NoBooleans := by
  induction pairs generalizing s code with
  | nil =>
    obtain ⟨rfl, rfl⟩ := pure_ok.mp h
    exact ⟨Code.inRange_nil, hs⟩
  | cons pair rest ih =>
    obtain ⟨-, -, scopes, more, hdeclare, hrest, rfl⟩ := paramSlots_cons_ok h
    obtain ⟨hty, hrange⟩ := hpairs pair List.mem_cons_self
    obtain ⟨hmore, hs'⟩ := ih hrest (declare_noBooleans hs hdeclare hty)
      fun x hx => hpairs x (List.mem_cons_of_mem pair hx)
    exact ⟨by simpa using ⟨hrange, hmore⟩, hs'⟩

/-- The code of a well-formed function has only literals in range. -/
lemma Definition.Lowered.inRange {d : Definition} {env : LowerEnv} {seg : Segment}
    (w : d.Lowered env seg) (hd : d.WellFormed) (hret : env.returnTy = d.returnTy)
    (hparams : ∀ v ∈ env.params, ∃ n ty, v = .temp n ty)
    (hfunctions : env.functions.NoBooleans) : Code.InRange seg.instructions := by
  have hstart : env.start.scopes.NoBooleans := by
    intro scope hscope b hb
    rw [List.mem_singleton.mp hscope] at hb
    cases hb
  have hpairs : ∀ pair ∈ d.params.zip env.params, pair.1.ty ≠ .bool ∧ pair.2.InRange := by
    intro pair hpair
    obtain ⟨hp, hv⟩ := List.of_mem_zip hpair
    obtain ⟨n, ty, hv⟩ := hparams pair.2 hv
    exact ⟨hd.params pair.1 hp, hv ▸ trivial⟩
  obtain ⟨h₁, hdeclared⟩ := Lower.paramSlots_inRange w.params_ok hstart hpairs
  have hbody : Code.InRange w.body := by
    refine (Stmt.lowerAll_inRange (fun x hx => ?_) w.body_ok (hdeclared.openChild _)
      Code.inRange_nil).1
    exact (hd.body x hx).lower_inRange hfunctions (hret ▸ hd.returnTy) _
  have hending : ∀ code, Code.InRange (Lower.ending env.returnTy code) := by
    intro code
    rw [Lower.ending]
    split <;> simp
  have hwhole : Code.InRange (d.wholeCode env w.paramCode w.body) := by
    simp [wholeCode, frame, Code.inRange_cons, h₁, hbody, hending, Instr.used, Instr.operands,
      Instr.incoming]
  intro i hi
  rw [w.code] at hi
  obtain ⟨j, hj, rfl⟩ := List.mem_map.mp hi
  rw [Instr.used_relabel]
  exact hwhole j hj

namespace Compiler

/-- Lowering a well-formed definition keeps the functions free of booleans. -/
lemma lowerDefinition_inRange {c : Compiler} {d : Definition} {seg : Segment} (hd : d.WellFormed)
    (hc : c.functions.NoBooleans) (h : (c.lowerDefinition d).result = .ok seg) :
    Code.InRange seg.instructions ∧ (c.lowerDefinition d).compiler.functions.NoBooleans := by
  have hfunctions : (c.lowerDefinition d).compiler.functions.NoBooleans := by
    obtain ⟨functions, s', hregister, hfunctions, -, -⟩ := lowerDefinition_ok h
    rw [FunctionTable.register] at hregister
    split at hregister <;> cases hregister
    rw [hfunctions]
    intro name signature hfind ty hty
    rw [FunctionTable.find?, List.lookup_cons] at hfind
    split at hfind
    · cases hfind
      obtain ⟨p, hp, rfl⟩ := List.mem_map.mp hty
      exact hd.params p hp
    · exact hc name signature hfind ty hty
  obtain ⟨env, rfl, w, -⟩ := lowerDefinition_lowered h
  exact ⟨w.inRange hd rfl (LowerEnv.params_temps _ _ _) hfunctions, hfunctions⟩

/-- Definitions that are lowered one after the other. -/
lemma mapM_lowering_inRange {ds : List Definition} (hds : ∀ d ∈ ds, d.WellFormed)
    {c c' : Compiler} (hc : c.functions.NoBooleans) {segs : List Segment}
    (h : ds.mapM lowering c = .ok segs c') : ∀ seg ∈ segs, Code.InRange seg.instructions :=
  mapM_lowering_forall (I := FunctionTable.NoBooleans) hc
    (fun d hd _ _ hfunctions hlower => lowerDefinition_inRange (hds d hd) hfunctions hlower) h

end Compiler

/-- In the code of a source text, every literal is a value of its type: an integer literal has an
integer type other than that of booleans and fits it, and a float literal has a floating type. -/
theorem compileSource_literals_inRange {options : Options} {source : String} {segs : List Segment}
    (h : compileSource options source = .ok segs) :
    ∀ seg ∈ segs, ∀ i ∈ seg.instructions, ∀ v ∈ i.used, v.InRange := by
  obtain ⟨ds, stop, hparses⟩ := Parser.exists_parses (eof_ofText source)
  have houtcome := Compiler.compile_outcome hparses { options }
  rw [Compiler.outcome_ok.mpr ⟨h, rfl⟩, eq_comm, Compiler.staged_ok] at houtcome
  obtain ⟨rfl, hlowered⟩ := houtcome
  have hds := parseSource_wellFormed (parseSource_eq hparses)
  refine Compiler.mapM_lowering_inRange hds ?_ hlowered
  intro name signature hfind
  cases hfind

/-- The literals of this function become a `char`, an arm of a conditional and a loop's step. -/
theorem count_literals_inRange : ∃ seg,
    compileSource {}
        "int f(char c) \x7b for (char i = 0; i < c; ++i) c = i < 2 ? 3 : c; return 4; \x7d" =
      .ok [seg] ∧
      ∀ i ∈ seg.instructions, ∀ v ∈ i.used, v.InRange := by
  have hone : (compileSource {}
      "int f(char c) \x7b for (char i = 0; i < c; ++i) c = i < 2 ? 3 : c; return 4; \x7d").map
        List.length = .ok 1 := by decide +kernel
  cases hsegs : compileSource {}
      "int f(char c) \x7b for (char i = 0; i < c; ++i) c = i < 2 ? 3 : c; return 4; \x7d" with
  | error e =>
    rw [hsegs] at hone
    cases hone
  | ok segs =>
    have hrange := compileSource_literals_inRange hsegs
    rw [hsegs] at hone
    obtain ⟨seg, rfl⟩ := List.length_eq_one_iff.mp (Except.ok.inj hone)
    exact ⟨seg, rfl, hrange seg List.mem_cons_self⟩

end MiniC
