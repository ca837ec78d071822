import Mathlib.Tactic.Common
import MiniC.Definition.Lower

/-!
# Kinds of errors

The errors of lowering by what they are about: the constructors of instructions refuse operands, the
table of labels refuses labels, and a statement refuses to leave a loop where there is none.
`RaisesOnly kind x` says that a check fails with errors of one kind only.
-/

namespace MiniC

namespace LoweringError

/-- Whether the error is one about labels. -/
def concernsLabels : LoweringError → Bool
  | .unfixedLabel _ | .labelRefixed _ | .unknownLabel _ => true
  | _ => false

/-- Whether the error is one about the operands of an instruction. -/
def concernsOperands : LoweringError → Bool
  | .incompletePhi _ | .typeMismatch .. | .literalOutOfRange .. | .unsupportedType .. => true
  | _ => false

end LoweringError

def CompileError.concernsLabels : CompileError → Bool
  | .lowering cause => cause.concernsLabels
  | _ => false

/-- A statement that leaves the body of the loop around it. -/
inductive Leave where
  | brk
  | cont
  deriving DecidableEq

/-- The error of a statement that has no loop to leave. -/
def Leave.outside : Leave → LoweringError
  | .brk => .breakOutsideLoop
  | .cont => .continueOutsideLoop

/-- The statement that the error finds outside of a loop. -/
def LoweringError.leave? : LoweringError → Option Leave
  | .breakOutsideLoop => some .brk
  | .continueOutsideLoop => some .cont
  | _ => none

lemma Leave.leave?_outside (leave : Leave) : leave.outside.leave? = some leave := by
  cases leave <;> rfl

namespace LoweringError

variable {e : LoweringError}

lemma concernsLabels_of_operands (h : e.concernsOperands = true) : e.concernsLabels = false := by
  cases e <;> first | rfl | cases h

lemma leave?_of_operands (h : e.concernsOperands = true) : e.leave? = none := by
  cases e <;> first | rfl | cases h

lemma leave?_of_labels (h : e.concernsLabels = true) : e.leave? = none := by
  cases e <;> first | rfl | cases h

end LoweringError

/-- Whether all errors of a check are of one kind. -/
def RaisesOnly {α : Type} (kind : LoweringError → Bool) (x : Except LoweringError α) : Prop :=
  ∀ e, x = .error e → kind e = true

namespace RaisesOnly

open LoweringError (concernsLabels concernsOperands)

variable {α β : Type} {kind : LoweringError → Bool}

lemma ok (a : α) : RaisesOnly kind (.ok a) := by
  intro e h
  cases h

lemma error {e : LoweringError} (he : kind e = true) :
    RaisesOnly kind (.error e : Except LoweringError α) := by
  rintro _ ⟨⟩
  exact he

lemma bind {x : Except LoweringError α} {f : α → Except LoweringError β} (hx : RaisesOnly kind x)
    (hf : ∀ a, RaisesOnly kind (f a)) : RaisesOnly kind (x >>= f) := by
  cases x with
  | error e => exact error (hx e rfl)
  | ok a => exact hf a

lemma ite {p : Prop} [Decidable p] {x y : Except LoweringError α} (hx : RaisesOnly kind x)
    (hy : RaisesOnly kind y) : RaisesOnly kind (if p then x else y) := by
  split
  · exact hx
  · exact hy

lemma expectTy (found expected : Ty) (context : String) :
    RaisesOnly concernsOperands (Instr.expectTy found expected context) := ite (ok _) (error rfl)

lemma expectInteger (ty : Ty) (context : String) :
    RaisesOnly concernsOperands (Instr.expectInteger ty context) := ite (ok _) (error rfl)

lemma expectSlot (slot : Value) (context : String) :
    RaisesOnly concernsOperands (Instr.expectSlot slot context) := by
  cases slot with
  | slot id ty => exact ite (ok _) (error rfl)
  | _ => exact error rfl

lemma mkAlloca (slot : Value) (align : Nat) :
    RaisesOnly concernsOperands (Instr.mkAlloca slot align) := bind (expectSlot _ _) fun _ => ok _

lemma mkStore (value slot : Value) (align : Nat) :
    RaisesOnly concernsOperands (Instr.mkStore value slot align) :=
  bind (expectSlot _ _) fun _ => bind (expectTy _ _ _) fun _ => ok _

lemma mkLoad (result slot : Value) (align : Nat) :
    RaisesOnly concernsOperands (Instr.mkLoad result slot align) :=
  bind (expectSlot _ _) fun _ => bind (expectTy _ _ _) fun _ => ok _

lemma mkBinary (result : Value) (op : BinaryOp) (lhs rhs : Value) :
    RaisesOnly concernsOperands (Instr.mkBinary result op lhs rhs) :=
  bind (expectInteger _ _) fun _ => bind (expectTy _ _ _) fun _ => bind (expectTy _ _ _) fun _ => ok _

lemma mkIcmp (result : Value) (relation : Relation) (lhs rhs : Value) :
    RaisesOnly concernsOperands (Instr.mkIcmp result relation lhs rhs) :=
  bind (expectTy _ _ _) fun _ => bind (expectInteger _ _) fun _ => bind (expectTy _ _ _) fun _ => ok _

lemma mkBranch (condition : Value) (onTrue onFalse : Label) :
    RaisesOnly concernsOperands (Instr.mkBranch condition onTrue onFalse) :=
  bind (expectTy _ _ _) fun _ => ok _

lemma mkPhi (result : Value) (incoming : List (Value × Label)) :
    RaisesOnly concernsOperands (Instr.mkPhi result incoming) := by
  refine ite (error rfl) (bind ?_ fun _ => ok _)
  induction incoming with
  | nil => exact ok _
  | cons head rest ih => exact bind (expectTy _ _ _) fun _ => ih

lemma mkZext (result value : Value) : RaisesOnly concernsOperands (Instr.mkZext result value) :=
  bind (expectInteger _ _) fun _ => bind (expectInteger _ _) fun _ => ite (ok _) (error rfl)

lemma mkCall (result : Option Value) (callee : String) (returnTy : Ty) (arguments : List Value) :
    RaisesOnly concernsOperands (Instr.mkCall result callee returnTy arguments) :=
  bind (expectTy _ _ _) fun _ => ok _

lemma retypeLiteral (value : Value) (target : Ty) (context : String) :
    RaisesOnly concernsOperands (Lower.retypeLiteral value target context) := by
  refine ite (ok _) ?_
  cases value with
  | int v ty => exact ite (ite (ok _) (error rfl)) (error rfl)
  | float v ty => exact ite (ok _) (error rfl)
  | _ => exact error rfl

lemma commonTy (lhs rhs : Value) : RaisesOnly concernsOperands (Lower.commonTy lhs rhs) := by
  have hcheck : ∀ ty : Ty, RaisesOnly concernsOperands (if ty.isInteger then pure ty
      else throw (.unsupportedType ty "icmp") : Except LoweringError Ty) :=
    fun ty => ite (ok _) (error rfl)
  exact ite (bind (ok _) hcheck) (ite (bind (ok _) hcheck) (ite (bind (ok _) hcheck)
    (ite (bind (ok _) hcheck) (ite (bind (ok _) hcheck) (error rfl)))))

lemma fix (t : LabelTable) (l : Label) (name : Nat) :
    RaisesOnly concernsLabels (t.fix l name) := by
  rw [LabelTable.fix]
  split
  · exact error rfl
  · exact ite (error rfl) (ok _)

lemma checkAllFixed (t : LabelTable) : RaisesOnly concernsLabels t.checkAllFixed := by
  rw [LabelTable.checkAllFixed]
  split
  · exact error rfl
  · exact ok _

lemma resolve (t : LabelTable) (l : Label) : RaisesOnly concernsLabels (t.resolve l) := by
  rw [LabelTable.resolve]
  split
  · exact error rfl
  · exact error rfl
  · exact ok _

end RaisesOnly

namespace LabelTable

lemma resolveList_error {t : LabelTable} {ls : List Label} {e : LoweringError}
    (h : (t.resolveList ls).2 = some e) : e.concernsLabels = true := by
  induction ls with
  | nil => cases h
  | cons l rest ih =>
    rw [resolveList] at h
    cases hl : t.resolve l with
    | ok l' =>
      rw [hl] at h
      exact ih h
    | error e' =>
      rw [hl] at h
      cases h
      exact RaisesOnly.resolve t l _ hl

lemma resolveCode_error {t : LabelTable} {code : Code} {e : LoweringError}
    (h : (t.resolveCode code).2 = some e) : e.concernsLabels = true := by
  induction code with
  | nil => cases h
  | cons i rest ih =>
    rw [resolveCode] at h
    cases hls : t.resolveList i.labels with
    | mk ls error =>
      rw [hls] at h
      cases error with
      | none => exact ih h
      | some e' =>
        cases h
        exact resolveList_error (congrArg Prod.snd hls)

end LabelTable

end MiniC
