import MiniC.Compiler
import MiniC.Proofs.CastErasure
import MiniC.Proofs.ExprSimulation

/-!
# What comparisons compute

`Machine.step` takes booleans for the numbers 0 and 1. Here `icmp` reads the words of its operands
instead, as signed numbers in two's complement. Two numbers of a type with more than one bit are
then compared as in the source, and a boolean beside such a number is extended first. But the one
bit of a boolean reads as 0 or -1: where both sides are booleans, a comparison by order gives the
answer for the exchanged operands.
-/

namespace MiniC

namespace Relation

/-- The comparison of two words of one width. -/
def onBits {width : Nat} : Relation → BitVec width → BitVec width → Bool
  | .eq, x, y => x == y
  | .ne, x, y => x != y
  | .slt, x, y => x.slt y
  | .sle, x, y => x.sle y
  | .sgt, x, y => y.slt x
  | .sge, x, y => y.sle x

lemma onBits_eq_holds {width : Nat} (relation : Relation) (x y : BitVec width) :
    relation.onBits x y = relation.holds x.toInt y.toInt := by
  cases relation with
  | eq => simp [onBits, holds, BitVec.toInt_inj, beq_eq_decide]
  | ne => simp [onBits, holds, BitVec.toInt_inj, bne, beq_eq_decide]
  | slt | sgt => simp [onBits, holds, BitVec.slt_eq_decide]
  | sle | sge => simp [onBits, holds, BitVec.sle_eq_decide]

lemma holds_neg (relation : Relation) (a b : Int) :
    relation.holds (-a) (-b) = relation.holds b a := by
  cases relation <;> simp [holds, eq_comm]

end Relation

namespace CompareOp

lemma holds_toRelation (op : CompareOp) (a b : Int) : op.toRelation.holds a b = op.holds a b := by
  cases op <;> rfl

/-- Whether the operands of the comparison may be exchanged. -/
def isSymmetric : CompareOp → Bool
  | .equal | .notEqual => true
  | .less | .lessEqual | .greater | .greaterEqual => false

lemma holds_comm {op : CompareOp} (h : op.isSymmetric = true) (a b : Int) :
    op.holds a b = op.holds b a := by
  cases op with
  | equal | notEqual => simp [holds, eq_comm]
  | less | lessEqual | greater | greaterEqual => cases h

end CompareOp

namespace Ty

/-- A number of a type with more than one bit is what its word reads as. -/
lemma toInt_ofInt {ty : Ty} {width : Nat} {n : Int} (hwidth : ty.bitWidth? = some width)
    (hbool : ty ≠ .bool) (hn : ty.wrap n = n) : (BitVec.ofInt width n).toInt = n := by
  rw [BitVec.toInt_ofInt]
  cases ty with
  | bool => exact absurd rfl hbool
  | void | float | double => cases hwidth
  | i8 | i16 | i32 | i64 =>
    cases hwidth
    exact hn

/-- The one bit of a boolean is its sign. -/
lemma toInt_ofInt_bool {n : Int} (hn : Ty.wrap .bool n = n) : (BitVec.ofInt 1 n).toInt = -n := by
  rcases wrap_bool_iff.mp hn with rfl | rfl <;> rfl

end Ty

namespace Machine

/-- The bit that an `icmp` computes from the words of its operands, which are as wide as their
type. -/
def compared (M : Machine) : Instr → Option Bool
  | .icmp _ relation lhs rhs => do
    let width ← lhs.ty.bitWidth?
    let a ← M.integer lhs
    let b ← M.integer rhs
    return relation.onBits (BitVec.ofInt width a) (BitVec.ofInt width b)
  | _ => none

lemma compared_eq {M : Machine} {result x y : Value} {relation : Relation} {a b : Int}
    (ha : M.integer x = some a) (hb : M.integer y = some b) (hx : (Val.int a).HasTy x.ty)
    (hy : (Val.int b).HasTy x.ty) : M.compared (.icmp result relation x y) =
      some (if x.ty = .bool then relation.holds b a else relation.holds a b) := by
  obtain ⟨width, hwidth⟩ : ∃ width, x.ty.bitWidth? = some width := by
    obtain ⟨hint, -⟩ := hx
    cases hty : x.ty <;> simp_all [Ty.isInteger, Ty.bitWidth?]
  have hcompared : M.compared (.icmp result relation x y) =
      some (relation.holds (BitVec.ofInt width a).toInt (BitVec.ofInt width b).toInt) := by
    simp only [compared, hwidth, ha, hb, Option.bind_eq_bind, Option.bind_some,
      Relation.onBits_eq_holds]
    rfl
  rw [hcompared]
  by_cases hbool : x.ty = .bool
  · rw [hbool] at hx hy hwidth
    cases hwidth
    rw [if_pos hbool, Ty.toInt_ofInt_bool hx.2, Ty.toInt_ofInt_bool hy.2, Relation.holds_neg]
  · rw [if_neg hbool, Ty.toInt_ofInt hwidth hbool hx.2, Ty.toInt_ofInt hwidth hbool hy.2]

/-- Whether the machine comes from one state to another, in any number of steps. -/
def Runs (callees : String → List Val → Val) (program : Code) : Machine → Machine → Prop :=
  Relation.ReflTransGen fun M M' => M.step callees program = some M'

end Machine

/-- Whether a value can be an operand where `n` is the next number: a temporary was drawn before,
and a literal is a number of its type. -/
def Value.IsOperand (n : Nat) : Value → Prop
  | .temp id _ => id < n
  | .int k ty => (Val.int k).HasTy ty
  | .float .. => True
  | .slot .. => False

lemma Value.IsOperand.denotes {M : Machine} {n : Nat} {v : Value} {x : Val} (h : v.IsOperand n)
    (hvalue : M.value v = some x) (hx : x.HasTy v.ty) : Denotes M n v x where
  value := hvalue
  typed := hx
  literal := by
    rintro k ty rfl
    exact h.2
  below := by
    rintro id ty rfl
    exact h

lemma Value.IsOperand.mono {n n' : Nat} {v : Value} (h : v.IsOperand n) (hle : n ≤ n') :
    v.IsOperand n' := by
  cases v with
  | temp id ty => exact Nat.lt_of_lt_of_le h hle
  | _ => exact h

namespace Expr

/-- Whether the expression itself is a constant that does not fit the type `int`. -/
def isWide : Expr → Bool
  | .int value => !Ty.fits .i32 value
  | _ => false

end Expr

namespace Lower

variable {s s' : LowerState} {env : LowerEnv} {scope : ScopeId}

lemma coerce_isOperand {v : Value} {ty : Ty} {context : String} {r : Code × Value}
    (h : coerce v ty context s = .ok r s') (hv : v.IsOperand s.next) : r.2.IsOperand s'.next := by
  rcases coerce_ok h with ⟨w, hw, rfl, rfl⟩ | ⟨-, -, -, -, rfl, rfl⟩
  · rcases retypeLiteral_ok.mp hw with ⟨-, rfl⟩ | ⟨-, ⟨k, ty', rfl, hint, hfits, rfl⟩ |
      ⟨b, ty', rfl, -, rfl⟩⟩
    · exact hv
    · exact ⟨hint, Ty.wrap_of_fits hv.1 hv.2 hint hfits⟩
    · trivial
  · exact Nat.lt_succ_self _

/-- Conversions run to the code behind them. They keep the value, and the temporaries drawn before.
-/
lemma coerce_runs {callees : String → List Val → Val} {program code k : Code} {M : Machine}
    {v w : Value} {ty : Ty} {context : String} {x : Val}
    (h : coerce v ty context s = .ok (code, w) s') (hrest : M.rest = code ++ k)
    (hv : Denotes M s.next v x) :
    ∃ M', Machine.Runs callees program M M' ∧ M'.rest = k ∧ s.next ≤ s'.next ∧
      (∀ id < s.next, M'.temps id = M.temps id) ∧ Denotes M' s'.next w x ∧ w.ty = ty := by
  rcases coerce_ok h with ⟨w', hw, hr, rfl⟩ | ⟨hbool, -, hint, -, rfl, hr⟩
  · cases hr
    obtain ⟨hw, hty⟩ := hv.retype hw
    exact ⟨M, .refl, hrest, Nat.le_refl _, fun _ _ => rfl, hw, hty⟩
  · cases hr
    obtain ⟨hx, hstep⟩ := hv.step_zext hbool hint hrest
    exact ⟨_, .single hstep, rfl, Nat.le_succ _, fun id hid => if_neg (Nat.ne_of_lt hid),
      .temp hx (Nat.lt_succ_self _), rfl⟩

/-- Whether two values are compared as booleans: both are boolean, or the second one is a boolean
literal and the first one another literal. -/
def comparesBooleans (lhs rhs : Value) : Bool :=
  rhs.ty == .bool && (lhs.ty == .bool || lhs.isLiteral && rhs.isLiteral)

lemma commonTy_eq_bool_iff {lhs rhs : Value} {ty : Ty} (h : commonTy lhs rhs = .ok ty) :
    ty = .bool ↔ comparesBooleans lhs rhs = true := by
  have eq_of_ok {chosen : Ty} (hchosen : (pure chosen >>= fun ty =>
      if ty.isInteger then pure ty else throw (.unsupportedType ty "icmp")) =
        (.ok ty : Except LoweringError Ty)) : chosen = ty := by
    change (if chosen.isInteger then _ else _) = _ at hchosen
    split at hchosen
    · exact Except.ok.inj hchosen
    · cases hchosen
  rw [commonTy] at h
  simp only [comparesBooleans, Bool.and_eq_true, Bool.or_eq_true, beq_iff_eq]
  split_ifs at h
  case neg => cases h
  all_goals
    obtain rfl := eq_of_ok h
    grind

end Lower

namespace Expr

open Lower

variable {env : LowerEnv} {scope : ScopeId}

/-- The results of expressions are operands. -/
lemma lower_isOperand {e : Expr} (hwide : e.any isWide = false) {s s' : LowerState}
    {seg : Segment} (h : e.lower env scope s = .ok seg s') :
    ∀ v ∈ seg.result, v.IsOperand s'.next := by
  induction e using Expr.induction generalizing s seg s' with
  | int value =>
    rw [lower, pure_ok] at h
    obtain ⟨rfl, rfl⟩ := h
    rintro _ ⟨⟩
    simp only [any, isWide, Bool.or_false, Bool.not_eq_false'] at hwide
    simp only [Ty.fits, Bool.and_eq_true, decide_eq_true_eq] at hwide
    exact ⟨rfl, Ty.wrap_i32_iff.mpr (by omega)⟩
  | float value =>
    rw [lower, pure_ok] at h
    obtain ⟨rfl, rfl⟩ := h
    rintro _ ⟨⟩
    trivial
  | var name =>
    rw [lower] at h
    obtain ⟨id, ty, -, rfl, rfl⟩ := readVariable_ok h
    rintro _ ⟨⟩
    exact Nat.lt_succ_self _
  | preIncrement name delta | postIncrement name delta =>
    rw [lower] at h
    obtain ⟨id, ty, -, -, rfl, rfl⟩ := increment_ok h
    rintro _ ⟨⟩
    simp [Value.IsOperand]
  | arith op left right | logicalAnd left right | logicalOr left right =>
    rw [lower] at h
    obtain ⟨leftCode, lhs, rightCode, rhs, t, t', -, -, rfl, -, -, -, rfl⟩ := binary_ok h
    rintro _ ⟨⟩
    exact Nat.lt_succ_self _
  | compare op left right =>
    rw [lower] at h
    obtain ⟨leftCode, lhs, rightCode, rhs, leftConversion, lhs', rightConversion, rhs', ty, t₁, t₂,
      t₃, t₄, -, -, -, -, -, rfl, -, -, rfl⟩ := comparison_ok h
    rintro _ ⟨⟩
    exact Nat.lt_succ_self _
  | boolCast operand ih =>
    rw [lower] at h
    simp only [any, isWide, Bool.false_or] at hwide
    obtain ⟨code, v, t, hlow, ⟨-, rfl, rfl⟩ | ⟨-, -, rfl, rfl⟩⟩ := booleanCast_ok h
    · exact ih hwide hlow
    · rintro _ ⟨⟩
      exact Nat.lt_succ_self _
  | conditional condition onTrue onFalse =>
    rw [lower] at h
    obtain ⟨test, v, trueCode, trueValue, trueJump, falseCode, falseValue, falseJump, trueValue',
      falseValue', ty, t, t₁, t₂, log₁, log₂, n, -, -, -, -, -, -, -, -, -, -, -, -, -, -, rfl,
      rfl⟩ := conditional_ok h
    rintro _ ⟨⟩
    exact Nat.lt_succ_self _
  | assign target value ih =>
    rw [lower] at h
    simp only [any, isWide, Bool.false_or] at hwide
    obtain ⟨id, ty, code, v, -, -, hv, -, rfl⟩ := assignment_ok h
    obtain ⟨first, w, conversion, t, hlow, hc, -⟩ := operandAs_ok hv
    rintro _ ⟨⟩
    exact coerce_isOperand hc (ih hwide hlow w rfl)
  | call callee arguments =>
    rw [lower] at h
    obtain ⟨signature, code, values, t, -, -, -, ⟨-, rfl, rfl⟩ | ⟨-, rfl, rfl⟩⟩ := call_ok h
    · rintro _ ⟨⟩
    · rintro _ ⟨⟩
      exact Nat.lt_succ_self _

/-- The code of a comparison computes its operands, converts them to one type and ends with an
`icmp`. For all values of the operands, the bit of this `icmp` is the answer of the source, unless
two booleans are compared by order: then it is the answer for the exchanged operands. -/
theorem lower_compare_computes {op : CompareOp} {left right : Expr} {s s' : LowerState}
    {seg : Segment} (h : (Expr.compare op left right).lower env scope s = .ok seg s')
    (hwide : (Expr.compare op left right).any isWide = false) :
    ∃ leftCode lhs rightCode rhs conversion result x y t t',
      left.lower env scope s = .ok ⟨leftCode, some lhs⟩ t ∧
      right.lower env scope t = .ok ⟨rightCode, some rhs⟩ t' ∧
      seg = ⟨leftCode ++ rightCode ++ conversion ++ [.icmp result op.toRelation x y],
        some result⟩ ∧
      ∀ callees program k (M : Machine) (a b : Int),
        M.rest = conversion ++ .icmp result op.toRelation x y :: k →
        M.value lhs = some (.int a) → (Val.int a).HasTy lhs.ty →
        M.value rhs = some (.int b) → (Val.int b).HasTy rhs.ty →
        ∃ M', Machine.Runs callees program M M' ∧ M'.rest = .icmp result op.toRelation x y :: k ∧
          (comparesBooleans lhs rhs = false ∨ op.isSymmetric = true →
            M'.compared (.icmp result op.toRelation x y) = some (op.holds a b)) ∧
          (comparesBooleans lhs rhs = true →
            M'.compared (.icmp result op.toRelation x y) = some (op.holds b a)) := by
  rw [lower] at h
  simp only [any, isWide, Bool.false_or, Bool.or_eq_false_iff] at hwide
  obtain ⟨leftCode, lhs, rightCode, rhs, leftConversion, x, rightConversion, y, ty, t₁, t₂, t₃, t₄,
    hleft, hright, hty, hcl, hcr, rfl, hint, heq, rfl⟩ := comparison_ok h
  refine ⟨leftCode, lhs, rightCode, rhs, leftConversion ++ rightConversion, .temp t₄.next .bool, x,
    y, t₁, t₂, hleft, hright, by simp only [List.append_assoc], ?_⟩
  intro callees program k M a b hrest hlhs ha hrhs hb
  rw [List.append_assoc] at hrest
  have hlop : lhs.IsOperand t₂.next :=
    (lower_isOperand hwide.1 hleft lhs rfl).mono (right.lower_emits hright).next_le
  have hrop : rhs.IsOperand t₂.next := lower_isOperand hwide.2 hright rhs rfl
  obtain ⟨M₁, h₁, hrest₁, hnext₁, hkept₁, hx, hxty⟩ :=
    coerce_runs hcl hrest (hlop.denotes hlhs ha)
  obtain ⟨M₂, h₂, hrest₂, hnext₂, hkept₂, hy, hyty⟩ :=
    coerce_runs hcr hrest₁ ((hrop.denotes hrhs hb).mono hkept₁ hnext₁)
  obtain ⟨_, ⟨⟩, hxa, -⟩ := (hx.mono hkept₂ hnext₂).exists_integer hint
  obtain ⟨_, ⟨⟩, hyb, -⟩ := hy.exists_integer (by rw [heq]; exact hint)
  have hbool : x.ty = .bool ↔ comparesBooleans lhs rhs = true := by
    rw [hxty]
    exact commonTy_eq_bool_iff hty
  have hcompared : M₂.compared (.icmp (.temp t₄.next .bool) op.toRelation x y) =
      some (if comparesBooleans lhs rhs = true then op.holds b a else op.holds a b) := by
    rw [Machine.compared_eq hxa hyb hx.typed (heq ▸ hy.typed), CompareOp.holds_toRelation,
      CompareOp.holds_toRelation]
    simp only [hbool]
  refine ⟨M₂, h₁.trans h₂, hrest₂, ?_, ?_⟩
  · rintro (hother | hsymmetric)
    · rw [hcompared, hother, if_neg Bool.false_ne_true]
    · rw [hcompared, CompareOp.holds_comm hsymmetric b a, ite_self]
  · intro hbooleans
    rw [hcompared, if_pos hbooleans]

end Expr

/-- A boolean beside a number is extended, and 1 is less than 2. -/
theorem extended_boolean_is_less :
    let env : LowerEnv := .ofSignature {} {} ⟨.void, []⟩
    let e : Expr := .compare .less (.compare .notEqual (.int 1) (.int 2)) (.int 2)
    e.any Expr.isWide = false ∧ ∃ code result x y s',
      e.lower env 0 env.start = .ok ⟨.icmp (.temp 1 .bool) .ne (.int 1 .i32) (.int 2 .i32) ::
        code ++ [.icmp result .slt x y], some result⟩ s' ∧
      ∃ M M', M.rest = code ++ [.icmp result .slt x y] ∧
        M.value (.temp 1 .bool) = some (.int 1) ∧ Machine.Runs (fun _ _ => .int 0) [] M M' ∧
        M'.compared (.icmp result .slt x y) = some true := by
  intro env e
  have hwide : e.any Expr.isWide = false := by decide
  obtain ⟨seg, s', h⟩ : ∃ seg s', e.lower env 0 env.start = .ok seg s' := ⟨_, _, rfl⟩
  obtain ⟨leftCode, lhs, rightCode, rhs, code, result, x, y, t, t', hleft, hright, rfl, hruns⟩ :=
    Expr.lower_compare_computes h hwide
  cases (show EStateM.Result.ok _ _ = EStateM.Result.ok _ _ from hleft)
  cases (show EStateM.Result.ok _ _ = EStateM.Result.ok _ _ from hright)
  obtain ⟨M', hM', -, hcompared, -⟩ := hruns (fun _ _ => .int 0) [] []
    { rest := code ++ [.icmp result .slt x y], block := env.entry, temps := fun _ => some (.int 1) }
    1 2 rfl rfl (by decide) rfl (by decide)
  exact ⟨hwide, code, result, x, y, s', h, _, M', rfl, rfl, hM', hcompared (.inl (by decide))⟩

/-- The code for a function that compares two booleans. -/
def Code.backwards : Code := [
  .functionBegin "f" .i32 [.temp 0 .i32, .temp 1 .i32],
  .label (.fixed 0 2),
  .alloca (.slot 3 .i32) 4,
  .store (.temp 0 .i32) (.slot 3 .i32) 4,
  .alloca (.slot 4 .i32) 4,
  .store (.temp 1 .i32) (.slot 4 .i32) 4,
  .load (.temp 5 .i32) (.slot 3 .i32) 4,
  .load (.temp 6 .i32) (.slot 3 .i32) 4,
  .icmp (.temp 7 .bool) .ne (.temp 5 .i32) (.temp 6 .i32),
  .load (.temp 8 .i32) (.slot 4 .i32) 4,
  .load (.temp 9 .i32) (.slot 4 .i32) 4,
  .icmp (.temp 10 .bool) .eq (.temp 8 .i32) (.temp 9 .i32),
  .icmp (.temp 11 .bool) .slt (.temp 7 .bool) (.temp 10 .bool),
  .zext (.temp 12 .i32) (.temp 11 .bool),
  .ret (some (.temp 12 .i32)),
  .functionEnd]

/-- False is less than true in the source, but the bit of the `icmp` is 0. -/
theorem booleans_compared_backwards :
    compileSource {} "int f(int a, int b) \x7b return (a != a) < (b == b); \x7d" =
      .ok [⟨Code.backwards, none⟩] ∧
    ∃ M M', Segment.start ⟨Code.backwards, none⟩ [.int 3, .int 4] = some M ∧
      Machine.Runs (fun _ _ => .int 0) Code.backwards M M' ∧ M'.rest = Code.backwards.drop 12 ∧
      M'.value (.temp 7 .bool) = some (.int 0) ∧ M'.value (.temp 10 .bool) = some (.int 1) ∧
      M'.compared (.icmp (.temp 11 .bool) .slt (.temp 7 .bool) (.temp 10 .bool)) = some false ∧
      CompareOp.less.holds 0 1 = true := by
  refine ⟨by decide +kernel, _, _, rfl, .head rfl (.head rfl (.head rfl (.head rfl (.head rfl
    (.head rfl (.head rfl (.head rfl (.head rfl (.head rfl .refl))))))))), ?_⟩
  exact ⟨rfl, rfl, rfl, rfl, rfl⟩

end MiniC
