import MiniC.Proofs.ExprSimulation
import MiniC.Proofs.LexicalScopes
import MiniC.Proofs.OptionIndependence

/-!
# What lowering an expression leaves alone, and what it gives

Statements put the code of expressions into their own: they write a jump or a store behind it, take
the block in which it ends for the origin of a `phi`, and rely on the type that the form of the
expression tells. Here is what they may rely on. Names and older labels are left alone, new labels have
all got their blocks, control arrives at the end of the code and in the block that started last, and
there is a result, of the expected type and never a slot, unless a `void` function was called.
-/

namespace MiniC

/-- Whether a value can stand in code in which `n` is the next number: it is a literal or a temporary
that was drawn. -/
def Value.IsComputed (n : Nat) (v : Value) : Prop :=
  v.isLiteral = true ∨ ∃ id ty, v = .temp id ty ∧ id < n

lemma Value.isComputed_temp (n : Nat) (ty : Ty) : (Value.temp n ty).IsComputed (n + 1) :=
  .inr ⟨n, ty, rfl, Nat.lt_succ_self n⟩

/-- Whether the expression is a call of a function without a result. -/
def Expr.isVoidCall (functions : FunctionTable) : Expr → Bool
  | .call callee _ => (functions.find? callee).any fun signature => signature.returnTy == .void
  | _ => false

lemma Expr.isVoidCall_iff {functions : FunctionTable} {e : Expr} :
    e.isVoidCall functions = true ↔ ∃ callee arguments signature, e = .call callee arguments ∧
      functions.find? callee = some signature ∧ signature.returnTy = .void := by
  cases e with
  | call callee arguments => simp [isVoidCall, Option.any_eq_true]
  | _ => simp [isVoidCall]

namespace Lower

variable {s s' : LowerState}

/-- A literal stays one when its type changes. -/
lemma retypeLiteral_isComputed {v w : Value} {ty : Ty} {context : String} {n : Nat}
    (h : retypeLiteral v ty context = .ok w) (hv : v.IsComputed n) : w.IsComputed n := by
  rcases retypeLiteral_ok.mp h with ⟨-, rfl⟩ | ⟨-, ⟨k, ty', -, -, -, rfl⟩ | ⟨b, ty', -, -, rfl⟩⟩
  · exact hv
  · exact .inl rfl
  · exact .inl rfl

lemma coerce_isComputed {v : Value} {ty : Ty} {context : String} {r : Code × Value}
    (h : coerce v ty context s = .ok r s') (hv : v.IsComputed s.next) : r.2.IsComputed s'.next := by
  rcases coerce_ok h with ⟨w, hw, rfl, rfl⟩ | ⟨-, -, -, -, rfl, rfl⟩
  · exact retypeLiteral_isComputed hw hv
  · exact Value.isComputed_temp s.next ty

end Lower

namespace Expr

open Lower

variable {env : LowerEnv} {scope : ScopeId} {e : Expr} {s s' : LowerState} {seg : Segment}

/-- What a result may be: there is none behind a call of a `void` function, and otherwise there is a
computed value of the type that the form of the expression tells, if it tells one. -/
def ResultOf (functions : FunctionTable) (e : Expr) (n : Nat) : Option Value → Prop
  | none => e.isVoidCall functions = true
  | some v => e.isVoidCall functions = false ∧ v.IsComputed n ∧
      ∀ ty, e.staticTy? = some ty → v.ty = ty

/-- The result of each form is as its operands and its last step make it. Only a cast of a boolean and
an assignment hand on the value of a part. -/
lemma lower_result (h : e.lower env scope s = .ok seg s') :
    e.ResultOf env.functions s'.next seg.result := by
  induction e using Expr.induction generalizing s seg s' with
  | int value =>
    obtain ⟨rfl, rfl⟩ := pure_ok.mp h
    exact ⟨rfl, .inl rfl, fun ty hty => Option.some.inj hty⟩
  | float value =>
    obtain ⟨rfl, rfl⟩ := pure_ok.mp h
    exact ⟨rfl, .inl rfl, fun ty hty => Option.some.inj hty⟩
  | var name =>
    obtain ⟨id, ty, -, rfl, rfl⟩ := readVariable_ok h
    exact ⟨rfl, Value.isComputed_temp s.next ty, nofun⟩
  | preIncrement name delta =>
    obtain ⟨id, ty, -, -, rfl, rfl⟩ := increment_ok h
    exact ⟨rfl, Value.isComputed_temp (s.next + 1) ty, nofun⟩
  | postIncrement name delta =>
    obtain ⟨id, ty, -, -, rfl, rfl⟩ := increment_ok h
    exact ⟨rfl, .inr ⟨s.next, ty, rfl, Nat.lt_add_of_pos_right Nat.two_pos⟩, nofun⟩
  | arith op left right =>
    obtain ⟨leftCode, lhs, rightCode, rhs, t, t', -, -, rfl, -, -, -, rfl⟩ := binary_ok h
    exact ⟨rfl, Value.isComputed_temp t'.next .i32, nofun⟩
  | compare op left right =>
    obtain ⟨leftCode, lhs, rightCode, rhs, leftConversion, lhs', rightConversion, rhs', ty, t₁, t₂,
      t₃, t₄, -, -, -, -, -, rfl, -, -, rfl⟩ := comparison_ok h
    exact ⟨rfl, Value.isComputed_temp t₄.next .bool, fun ty hty => Option.some.inj hty⟩
  | logicalAnd left right | logicalOr left right =>
    obtain ⟨leftCode, lhs, rightCode, rhs, t, t', -, -, rfl, -, -, -, rfl⟩ := binary_ok h
    exact ⟨rfl, Value.isComputed_temp t'.next .bool, fun ty hty => Option.some.inj hty⟩
  | boolCast operand ih =>
    obtain ⟨code, v, t, hlow, ⟨hbool, rfl, rfl⟩ | ⟨-, -, rfl, rfl⟩⟩ := booleanCast_ok h
    · obtain ⟨-, hv, -⟩ := ih hlow
      exact ⟨rfl, hv, fun ty hty => hbool.trans (Option.some.inj hty)⟩
    · exact ⟨rfl, Value.isComputed_temp t.next .bool, fun ty hty => Option.some.inj hty⟩
  | conditional condition onTrue onFalse =>
    obtain ⟨test, v, trueCode, trueValue, trueJump, falseCode, falseValue, falseJump, trueValue',
      falseValue', ty, t, t₁, t₂, log₁, log₂, n, -, -, -, -, -, -, -, -, -, -, -, -, -, -, rfl,
      rfl⟩ := conditional_ok h
    exact ⟨rfl, Value.isComputed_temp (t₂.next + 1) ty, nofun⟩
  | assign target value ih =>
    obtain ⟨id, ty, code, v, -, -, hv, -, rfl⟩ := assignment_ok h
    obtain ⟨first, w, conversion, t, hlow, hc, -⟩ := operandAs_ok hv
    obtain ⟨-, hw, -⟩ := ih hlow
    exact ⟨rfl, coerce_isComputed hc hw, nofun⟩
  | call callee arguments =>
    obtain ⟨signature, code, values, t, hfind, -, -, ⟨hvoid, rfl, rfl⟩ | ⟨hvoid, rfl, rfl⟩⟩ :=
      call_ok h
    · simp [ResultOf, isVoidCall, hfind, hvoid]
    · refine ⟨by simp [isVoidCall, hfind, hvoid], Value.isComputed_temp t.next _, nofun⟩

/-- From any state, the code of an expression binds no name and changes no label that was there before,
and every label that it allocated has a name. Control arrives at its end, in the block that it started
last, or in the old one if it starts none. It has a result unless the expression calls a `void`
function; the result is a literal or a temporary, and has the type that the form of the expression
tells. -/
theorem lower_frame (env : LowerEnv) (scope : ScopeId) (e : Expr) (s s' : LowerState) (seg : Segment)
    (h : e.lower env scope s = .ok seg s') :
    (s'.scopes.scopes = s.scopes.scopes ∧
      ∀ inner name, s'.scopes.lookup inner name = s.scopes.lookup inner name) ∧
    (s.labels.size ≤ s'.labels.size ∧
      (∀ id < s.labels.size, s'.labels.names[id]? = s.labels.names[id]?) ∧
      ∀ id, s.labels.size ≤ id → id < s'.labels.size → s'.labels.Fixes id) ∧
    (∀ last, seg.instructions.getLast? = some last → last.isTerminator = false) ∧
    s'.block = (Code.markers seg.instructions).getLast?.getD s.block ∧
    (seg.result = none ↔ ∃ callee arguments signature, e = .call callee arguments ∧
      env.functions.find? callee = some signature ∧ signature.returnTy = .void) ∧
    (∀ v, seg.result = some v →
      v.isLiteral = true ∨ ∃ id ty, v = .temp id ty ∧ id < s'.next) ∧
    ∀ ty, e.staticTy? = some ty → ∃ v, seg.result = some v ∧ v.ty = ty := by
  have hscopes : s'.scopes.scopes = s.scopes.scopes := e.lower_keeps h
  have howes : Owes s [] s' := Settles.owes_of_ok e.lower_settles h
  have hresult : e.ResultOf env.functions s'.next seg.result := lower_result h
  refine ⟨⟨hscopes, fun inner name => ?lookup⟩, ⟨howes.size_le, howes.kept, fun id => ?placed⟩,
    fun last hlast => ?arrives, (e.lower_emits h).block_eq, ?absent, fun v hv => ?computed,
    fun ty hty => ?typed⟩
  case lookup => exact Scopes.lookup_congr (Scopes.visible_of_scopes_eq hscopes) name
  case placed => exact howes.fixes_recent
  case arrives =>
    have hopen := e.lower_open h
    rwa [Code.endsWithTerminator, hlast] at hopen
  case absent =>
    rw [← isVoidCall_iff]
    cases hv : seg.result with
    | none =>
      rw [hv] at hresult
      exact iff_of_true rfl hresult
    | some v =>
      rw [hv] at hresult
      exact iff_of_false (Option.some_ne_none v) (Bool.eq_false_iff.mp hresult.1)
  case computed =>
    rw [hv] at hresult
    exact hresult.2.1
  case typed =>
    cases hv : seg.result with
    | none =>
      rw [hv] at hresult
      obtain ⟨callee, arguments, signature, rfl, -⟩ := isVoidCall_iff.mp hresult
      cases hty
    | some v =>
      rw [hv] at hresult
      exact ⟨v, rfl, hresult.2.2 ty hty⟩

/-- A function `void f()`. -/
def emptyEnv : LowerEnv := .ofSignature {} {} ⟨.void, []⟩

/-- A conditional with another one in its first arm. -/
def nested : Expr :=
  .conditional (.compare .less (.int 1) (.int 2))
    (.conditional (.compare .less (.int 3) (.int 4)) (.int 5) (.int 6)) (.int 7)

lemma nested_markers : ∃ seg s', nested.lower emptyEnv 0 emptyEnv.start = .ok seg s' ∧
    Code.markers seg.instructions =
      [.fixed 1 2, .fixed 4 4, .fixed 5 5, .fixed 6 6, .fixed 2 8, .fixed 3 9] ∧
    s'.labels.size = 7 := by
  have hrun : EStateM.run' (nested.lower emptyEnv 0 >>= fun seg => get >>= fun s' =>
      pure (Code.markers seg.instructions, s'.labels.size)) emptyEnv.start =
        some ([.fixed 1 2, .fixed 4 4, .fixed 5 5, .fixed 6 6, .fixed 2 8, .fixed 3 9], 7) := by
    decide +kernel
  cases hlower : nested.lower emptyEnv 0 emptyEnv.start with
  | ok seg s' =>
    simp only [EStateM.run', EStateM.run, Bind.bind, EStateM.bind, hlower] at hrun
    exact ⟨seg, s', rfl, Prod.mk.inj (Option.some.inj hrun)⟩
  | error e s' =>
    simp only [EStateM.run', EStateM.run, Bind.bind, EStateM.bind, hlower] at hrun
    cases hrun

/-- Each of the two allocates three labels, and the join of the outer one comes last. -/
theorem nested_frame : ∃ seg s', nested.lower emptyEnv 0 emptyEnv.start = .ok seg s' ∧
    s'.block = .fixed 3 9 ∧ s'.labels.names[0]? = some (some 0) ∧
    (∀ id, 1 ≤ id → id < 7 → s'.labels.Fixes id) ∧
    ∃ v, seg.result = some v ∧
      (v.isLiteral = true ∨ ∃ id ty, v = .temp id ty ∧ id < s'.next) := by
  obtain ⟨seg, s', h, hmarkers, hsize⟩ := nested_markers
  obtain ⟨-, ⟨-, hkept, hplaced⟩, -, hblock, habsent, hcomputed, -⟩ := lower_frame _ _ _ _ _ _ h
  have hvalue : seg.result ≠ none := fun hnone => by
    obtain ⟨callee, arguments, signature, hcall, -⟩ := habsent.mp hnone
    cases hcall
  obtain ⟨v, hv⟩ := Option.ne_none_iff_exists'.mp hvalue
  refine ⟨seg, s', h, ?_, hkept 0 Nat.one_pos, ?_, v, hv, hcomputed v hv⟩
  · rw [hblock, hmarkers]
    rfl
  · exact fun id hold hid => hplaced id hold (hsize ▸ hid)

end Expr

end MiniC
