import MiniC.Proofs.Simulation

/-!
# Code of expressions computes their values

From a state that matches memory, the code of an expression takes the machine to the code behind it.
Memory is then as evaluation leaves it, and the result of the code has the value of the expression.
-/

namespace MiniC

namespace Code

lemma endsWithTerminator_append {code code' : Code} (h : endsWithTerminator code = false)
    (h' : endsWithTerminator code' = false) : endsWithTerminator (code ++ code') = false := by
  rw [endsWithTerminator, List.getLast?_append]
  rw [endsWithTerminator] at h h'
  cases hlast : code'.getLast? with
  | none => simpa [hlast] using h
  | some i => simpa [hlast] using h'

@[simp] lemma endsWithTerminator_concat (code : Code) (i : Instr) :
    endsWithTerminator (code ++ [i]) = i.isTerminator := by
  rw [endsWithTerminator, List.getLast?_concat]

/-- Behind a label, only the code of its block counts. -/
lemma endsWithTerminator_label (before : Code) (l : Label) {code : Code}
    (h : endsWithTerminator code = false) :
    endsWithTerminator (before ++ .label l :: code) = false := by
  have hlabel : before ++ .label l :: code = before ++ [.label l] ++ code := by simp
  rw [hlabel]
  exact endsWithTerminator_append (endsWithTerminator_concat before (.label l)) h

end Code

namespace Lower

variable {s s' : LowerState} {env : LowerEnv}

/-- Whether control arrives at the end of the code. -/
def SegmentOpen (x : Lower Segment) : Prop :=
  ∀ ⦃s seg s'⦄, x s = .ok seg s' → Code.endsWithTerminator seg.instructions = false

lemma coerce_open {v : Value} {ty : Ty} {context : String} {r : Code × Value}
    (h : coerce v ty context s = .ok r s') : Code.endsWithTerminator r.1 = false := by
  rcases coerce_ok h with ⟨w, -, rfl, rfl⟩ | ⟨-, -, -, -, rfl, rfl⟩
  · rfl
  · rfl

lemma arm_open {x : Lower Segment} (hx : SegmentOpen x) {keepBoolean : Bool} {r : Code × Value}
    (h : arm keepBoolean x s = .ok r s') : Code.endsWithTerminator r.1 = false := by
  obtain ⟨code, v, conversion, t, hlow, hr, ⟨-, rfl, -, rfl⟩ | ⟨-, -, hc⟩⟩ := arm_ok h
  · rw [hr, List.append_nil]
    exact hx hlow
  · rw [hr]
    exact Code.endsWithTerminator_append (hx hlow) (coerce_open hc)

end Lower

open Lower in
theorem Expr.lower_open {env : LowerEnv} {scope : ScopeId} (e : Expr) :
    SegmentOpen (e.lower env scope) := by
  refine Expr.lower_induction (Φ := SegmentOpen) ?constant ?readVariable ?increment ?binary
    ?comparison ?booleanCast ?conditional ?assignment ?call e
  case constant =>
    intro v hv s seg s' h
    obtain ⟨rfl, rfl⟩ := pure_ok.mp h
    rfl
  case readVariable =>
    intro name s seg s' h
    obtain ⟨id, ty, -, -, rfl⟩ := readVariable_ok h
    rfl
  case increment =>
    intro name delta before s seg s' h
    obtain ⟨id, ty, -, -, -, rfl⟩ := increment_ok h
    rfl
  case binary =>
    intro op ty left right hl hr s seg s' h
    obtain ⟨leftCode, lhs, rightCode, rhs, t, t', -, -, -, -, -, -, rfl⟩ := binary_ok h
    exact Code.endsWithTerminator_concat _ _
  case comparison =>
    intro relation left right hl hr s seg s' h
    obtain ⟨leftCode, lhs, rightCode, rhs, leftConversion, lhs', rightConversion, rhs', ty, t₁, t₂,
      t₃, t₄, -, -, -, -, -, -, -, -, rfl⟩ := comparison_ok h
    exact Code.endsWithTerminator_concat _ _
  case booleanCast =>
    intro inner hx s seg s' h
    obtain ⟨code, v, t, hlow, ⟨-, -, rfl⟩ | ⟨-, -, -, rfl⟩⟩ := booleanCast_ok h
    · exact hx hlow
    · exact Code.endsWithTerminator_concat _ _
  case conditional =>
    intro keepBoolean condition onTrue onFalse hcond htrue hfalse s seg s' h
    obtain ⟨test, v, trueCode, trueValue, trueJump, falseCode, falseValue, falseJump, trueValue',
      falseValue', ty, t, t₁, t₂, log₁, log₂, n, -, -, -, -, -, -, -, -, -, -, -, -, -, -, -,
      rfl⟩ := conditional_ok h
    exact Code.endsWithTerminator_label _ _ rfl
  case assignment =>
    intro target value hx s seg s' h
    obtain ⟨id, ty, code, v, -, -, -, -, rfl⟩ := assignment_ok h
    exact Code.endsWithTerminator_concat _ _
  case call =>
    intro callee args hargs s seg s' h
    obtain ⟨signature, code, values, t, -, -, -, ⟨-, -, rfl⟩ | ⟨-, -, rfl⟩⟩ := call_ok h
    · exact Code.endsWithTerminator_concat _ _
    · exact Code.endsWithTerminator_concat _ _

namespace Program

open Lower

variable {W : Program} {s s' : LowerState} {env : LowerEnv} {scope : ScopeId} {m m' : Memory}
  {M : Machine} {code k : Code}

/-- Whether the code of a lowering does what an evaluation does. -/
def Simulates (W : Program) (scope : ScopeId) (x : Lower Segment) (ev : Eval (Option Val)) : Prop :=
  ∀ ⦃s seg s'⦄, x s = .ok seg s' → ∀ ⦃k M m r m'⦄, M.rest = W.resolved seg.instructions ++ k →
    W.Matches s scope m M → ev m = some (r, m') →
    ∃ M', W.Reached M s.next k s' scope m' M' ∧ Gives M' s'.next seg.result r

/-- An instruction that gives the next temporary a value of its type. -/
lemma define_simulates {i : Instr} {ty : Ty} {x : Val} (hm : W.Matches s scope m M)
    (hrest : M.rest = i :: k) (hstep : M.step W.result W.code = some (M.define k s.next x))
    (hx : x.HasTy ty) : ∃ M', W.Reached M s.next k s.drawn scope m M' ∧
      Denotes M' s.drawn.next (.temp s.next ty) x :=
  ⟨_, .define hm hrest hstep, .temp hx (Nat.lt_succ_self _)⟩

/-- A conversion keeps the value. -/
lemma coerce_simulates {v w : Value} {ty : Ty} {context : String} {x : Val}
    (h : coerce v ty context s = .ok (code, w) s') (hrest : M.rest = W.resolved code ++ k)
    (hm : W.Matches s scope m M) (hv : Denotes M s.next v x) :
    ∃ M', W.Reached M s.next k s' scope m M' ∧ Denotes M' s'.next w x ∧ w.ty = ty := by
  rcases coerce_ok h with ⟨w', hw, hr, rfl⟩ | ⟨hbool, -, hint, -, rfl, hr⟩
  · cases hr
    obtain ⟨hw, hty⟩ := hv.retype hw
    exact ⟨M, .refl hm hrest, hw, hty⟩
  · cases hr
    obtain ⟨hx, hstep⟩ := hv.step_zext hbool hint hrest
    obtain ⟨M', hreached, hw⟩ := define_simulates hm hrest hstep hx
    exact ⟨M', hreached, hw, rfl⟩

lemma operandAs_simulates {x : Lower Segment} {ev : Eval (Option Val)} (hx : W.Simulates scope x ev)
    {ty : Ty} {context : String} {w : Value} {val : Val}
    (h : operandAs x ty context s = .ok (code, w) s') (hrest : M.rest = W.resolved code ++ k)
    (hm : W.Matches s scope m M) (hev : ev m = some (some val, m')) :
    ∃ M', W.Reached M s.next k s' scope m' M' ∧ Denotes M' s'.next w val ∧ w.ty = ty := by
  obtain ⟨first, v, conversion, t, hlow, hc, hcode⟩ := operandAs_ok h
  simp only at hcode hc
  rw [hcode, resolved_append, List.append_assoc] at hrest
  obtain ⟨M₁, h₁, hv⟩ := hx hlow hrest hm hev
  obtain ⟨M₂, h₂, hw, hty⟩ := coerce_simulates hc h₁.rest h₁.matched hv
  exact ⟨M₂, h₁.next h₂, hw, hty⟩

/-- An operation on two numbers does what evaluation does with the values of the operands. -/
lemma binary_simulates {op : BinaryOp} {ty : Ty} {left right : Lower Segment}
    {evl evr ev : Eval (Option Val)} (hl : W.Simulates scope left evl)
    (hr : W.Simulates scope right evr)
    (hev : ∀ ⦃m r m'⦄, ev m = some (r, m') → ∃ a b c m₁, evl m = some (some (.int a), m₁) ∧
      evr m₁ = some (some (.int b), m') ∧ r = some (.int c) ∧
      (ty.wrap a = a → ty.wrap b = b → op.apply ty a b = some c ∧ ty.wrap c = c)) :
    W.Simulates scope (binary op ty left right) ev := by
  intro s seg s' h k M m r m' hrest hm he
  obtain ⟨leftCode, lhs, rightCode, rhs, t, t', hleft, hright, rfl, hint, -, -, rfl⟩ := binary_ok h
  obtain ⟨a, b, c, m₁, hel, her, rfl, hop⟩ := hev he
  simp only [resolved_append, List.append_assoc] at hrest
  obtain ⟨M₁, h₁, ha, hlty⟩ := operandAs_simulates hl hleft hrest hm hel
  obtain ⟨M₂, h₂, hb, hrty⟩ := operandAs_simulates hr hright h₁.rest h₁.matched her
  have ha' := ha.mono h₂.kept h₂.next_le
  obtain ⟨_, ⟨⟩, hia, hwa⟩ := ha'.exists_integer (by rw [hlty]; exact hint)
  obtain ⟨_, ⟨⟩, hib, hwb⟩ := hb.exists_integer (by rw [hrty]; exact hint)
  rw [hlty] at hwa
  rw [hrty] at hwb
  obtain ⟨happly, hwc⟩ := hop hwa hwb
  have hx : (Val.int c).HasTy ty := ⟨hint, hwc⟩
  obtain ⟨M₃, h₃, hresult⟩ := define_simulates h₂.matched h₂.rest
    (Machine.step_binary h₂.rest hia hib happly) hx
  exact ⟨M₃, (h₁.next h₂).next h₃, hresult⟩

lemma literal_simulates {v : Value} {ev : Eval (Option Val)}
    (hev : ∀ ⦃m r m'⦄, ev m = some (r, m') → m' = m ∧ ∃ x, r = some x ∧ ∀ M n, Denotes M n v x) :
    W.Simulates scope (pure (.ofValue v)) ev := by
  intro s seg s' h k M m r m' hrest hm he
  obtain ⟨rfl, rfl⟩ := pure_ok.mp h
  obtain ⟨rfl, x, rfl, hx⟩ := hev he
  exact ⟨M, .refl hm hrest, hx M s.next⟩

/-- A variable is loaded into the next temporary. -/
lemma load_simulates {name : String} {cell : Cell} {x : Val} {id align : Nat} {ty : Ty}
    (hrest : M.rest = .load (.temp s.next ty) (.slot id ty) align :: k)
    (hm : W.Matches s scope m M) (hslot : s.scopes.lookup scope name = .ok (.slot id ty))
    (hcell : m.vars.lookup name = some cell) (hx : cell.value = some x) :
    ty = cell.ty ∧ ∃ M', W.Reached M s.next k s.drawn scope m M' ∧
      Denotes M' s.drawn.next (.temp s.next ty) x := by
  obtain ⟨cell', id', hcell', hid, hcontent, htyped⟩ :=
    exists_cell hm.vars (Scopes.lookup_ok.mp hslot)
  rw [hcell, Option.some.injEq] at hcell'
  subst hcell'
  cases hid
  have hstep : M.step W.result W.code = some (M.define k s.next x) := by
    simp only [Machine.step, hrest, hcontent, hx, Option.join_some, Option.bind_eq_bind,
      Option.bind_some]
    rfl
  exact ⟨rfl, define_simulates hm hrest hstep (htyped x hx)⟩

lemma readVariable_simulates {name : String} {ev : Eval (Option Val)}
    (hev : ∀ ⦃m r m'⦄, ev m = some (r, m') → ∃ x, r = some x ∧
      Eval.read name m = some (x, m')) :
    W.Simulates scope (readVariable env scope name) ev := by
  intro s seg s' h k M m r m' hrest hm he
  obtain ⟨id, ty, hslot, rfl, rfl⟩ := readVariable_ok h
  obtain ⟨x, rfl, hread⟩ := hev he
  obtain ⟨cell, hcell, hx, rfl⟩ := Eval.read_some.mp hread
  exact (load_simulates hrest hm hslot hcell hx).2

/-- The sum is taken at the width of the variable, so the literal may wrap first. -/
lemma increment_simulates {name : String} {delta : Int} {before : Bool} {ev : Eval (Option Val)}
    (hev : ∀ ⦃m r m'⦄, ev m = some (r, m') → ∃ p : Val × Val,
      r = some (if before then p.2 else p.1) ∧ Eval.increment name delta m = some (p, m')) :
    W.Simulates scope (increment env scope name delta before) ev := by
  intro s seg s' h k M m r m' hrest hm he
  obtain ⟨id, ty, hslot, hint, rfl, rfl⟩ := increment_ok h
  obtain ⟨p, rfl, hincrement⟩ := hev he
  obtain ⟨cell, old, hcell, hold, rfl, rfl⟩ := Eval.increment_some hincrement
  obtain ⟨rfl, M₁, h₁, hold₁⟩ := load_simulates hrest hm hslot hcell hold
  obtain ⟨_, ⟨⟩, hinteger, -⟩ := hold₁.exists_integer hint
  have hrest₁ : M₁.rest = .binary (.temp s.drawn.next cell.ty) .add (.temp s.next cell.ty)
      (.int delta cell.ty) :: .store (.temp s.drawn.next cell.ty) (.slot id cell.ty)
        (env.options.alignmentFor cell.ty) :: k := h₁.rest
  have hsum : BinaryOp.add.apply cell.ty old (cell.ty.wrap delta) =
      some (cell.ty.wrap (old + delta)) := by rw [BinaryOp.apply, Ty.wrap_add_wrap]
  obtain ⟨M₂, h₂, hnew⟩ := define_simulates h₁.matched hrest₁
    (Machine.step_binary hrest₁ hinteger rfl hsum) (Val.hasTy_wrap hint _)
  have hslot₂ : (s.drawn.drawn.scopes.visible scope).lookup name = some (.slot id cell.ty) := by
    have hvisible : s.drawn.drawn.scopes.visible scope = s.scopes.visible scope :=
      Scopes.visible_of_scopes_eq rfl
    rw [hvisible]
    exact Scopes.lookup_ok.mp hslot
  have h₃ := Reached.store h₂.matched h₂.rest hslot₂ hnew rfl
  refine ⟨_, (h₁.next h₂).next h₃, ?_⟩
  cases before with
  | true => exact hnew.mono h₃.kept h₃.next_le
  | false => exact (hold₁.mono h₂.kept h₂.next_le).mono h₃.kept h₃.next_le

lemma comparison_simulates {op : CompareOp} {left right : Lower Segment}
    {evl evr ev : Eval (Option Val)} (hl : W.Simulates scope left evl)
    (hr : W.Simulates scope right evr)
    (hev : ∀ ⦃m r m'⦄, ev m = some (r, m') → ∃ a b m₁, evl m = some (some (.int a), m₁) ∧
      evr m₁ = some (some (.int b), m') ∧ r = some (.ofBool (op.holds a b))) :
    W.Simulates scope (comparison op.toRelation left right) ev := by
  intro s seg s' h k M m r m' hrest hm he
  obtain ⟨leftCode, lhs, rightCode, rhs, leftConversion, lhs', rightConversion, rhs', ty, t₁, t₂,
    t₃, t₄, hleft, hright, -, hcl, hcr, rfl, hint, heq, rfl⟩ := comparison_ok h
  obtain ⟨a, b, m₁, hel, her, rfl⟩ := hev he
  simp only [resolved_append, List.append_assoc] at hrest
  obtain ⟨M₁, h₁, ha⟩ := hl hleft hrest hm hel
  obtain ⟨M₂, h₂, hb⟩ := hr hright h₁.rest h₁.matched her
  have ha₂ := Denotes.mono ha h₂.kept h₂.next_le
  obtain ⟨M₃, h₃, ha₃, -⟩ := coerce_simulates hcl h₂.rest h₂.matched ha₂
  have hb₃ := Denotes.mono hb h₃.kept h₃.next_le
  obtain ⟨M₄, h₄, hb₄, -⟩ := coerce_simulates hcr h₃.rest h₃.matched hb₃
  have ha₄ := ha₃.mono h₄.kept h₄.next_le
  obtain ⟨_, ⟨⟩, hia, -⟩ := ha₄.exists_integer hint
  obtain ⟨_, ⟨⟩, hib, -⟩ := hb₄.exists_integer (by rw [heq]; exact hint)
  have hholds : op.toRelation.holds a b = op.holds a b := by cases op <;> rfl
  obtain ⟨M₅, h₅, hresult⟩ := define_simulates h₄.matched h₄.rest
    (Machine.step_icmp h₄.rest hia hib) (Val.ofBool_hasTy _)
  rw [hholds] at hresult
  exact ⟨M₅, (((h₁.next h₂).next h₃).next h₄).next h₅, hresult⟩

/-- A boolean is its own truth value. -/
lemma ofBool_of_boolean {a : Int} (h : a = 0 ∨ a = 1) : Val.ofBool (decide (a ≠ 0)) = .int a := by
  rcases h with rfl | rfl <;> rfl

lemma booleanCast_simulates {inner : Lower Segment} {evi ev : Eval (Option Val)}
    (hi : W.Simulates scope inner evi)
    (hev : ∀ ⦃m r m'⦄, ev m = some (r, m') → ∃ a : Int, evi m = some (some (.int a), m') ∧
      r = some (.ofBool (decide (a ≠ 0)))) :
    W.Simulates scope (booleanCast inner) ev := by
  intro s seg s' h k M m r m' hrest hm he
  obtain ⟨a, hei, rfl⟩ := hev he
  obtain ⟨code, v, t, hlow, ⟨hbool, rfl, rfl⟩ | ⟨-, hint, rfl, rfl⟩⟩ := booleanCast_ok h
  · obtain ⟨M₁, h₁, hv⟩ := hi hlow hrest hm hei
    obtain ⟨_, ⟨⟩, -, hwrap⟩ := Denotes.exists_integer hv (by rw [hbool]; rfl)
    rw [hbool, Ty.wrap_bool_iff] at hwrap
    rw [ofBool_of_boolean hwrap]
    exact ⟨M₁, h₁, hv⟩
  · simp only [resolved_append, List.append_assoc] at hrest
    obtain ⟨M₁, h₁, hv⟩ := hi hlow hrest hm hei
    obtain ⟨_, ⟨⟩, hinteger, -⟩ := Denotes.exists_integer hv hint
    have hzero : M₁.integer (.int 0 v.ty) = some 0 := by
      rw [Machine.integer, Machine.value, Ty.wrap_of_boolean (Or.inl rfl)]
    obtain ⟨M₂, h₂, hresult⟩ := define_simulates h₁.matched h₁.rest
      (Machine.step_icmp h₁.rest hinteger hzero) (Val.ofBool_hasTy _)
    exact ⟨M₂, h₁.next h₂, hresult⟩

/-- What is assigned already has the type of the variable. -/
lemma store_simulates {name : String} {v : Value} {id align : Nat} {ty : Ty} {x y : Val}
    (hrest : M.rest = .store v (.slot id ty) align :: k) (hm : W.Matches s scope m M)
    (hslot : (s.scopes.visible scope).lookup name = some (.slot id ty))
    (hx : Denotes M s.next v x) (hty : v.ty = ty) (hassign : Eval.assign name x m = some (y, m')) :
    y = x ∧ ∃ M', W.Reached M s.next k s scope m' M' := by
  obtain ⟨cell, hcell, rfl, rfl⟩ := Eval.assign_some.mp hassign
  obtain ⟨cell', id', hcell', hid, -⟩ := exists_cell hm.vars hslot
  rw [hcell, Option.some.injEq] at hcell'
  subst hcell'
  cases hid
  have hconvert : cell.ty.convert x = x := Ty.convert_of_hasTy (hty ▸ hx.typed)
  rw [hconvert]
  exact ⟨rfl, _, Reached.store hm hrest hslot hx hty⟩

lemma assignment_simulates {target : String} {value : Lower Segment} {evv ev : Eval (Option Val)}
    (hv : W.Simulates scope value evv) (hkeeps : SegmentKeeps value)
    (hev : ∀ ⦃m r m'⦄, ev m = some (r, m') → ∃ x y m₁, evv m = some (some x, m₁) ∧
      Eval.assign target x m₁ = some (y, m') ∧ r = some y) :
    W.Simulates scope (assignment env scope target value) ev := by
  intro s seg s' h k M m r m' hrest hm he
  obtain ⟨id, ty, code, v, hslot, -, hvalue, -, rfl⟩ := assignment_ok h
  obtain ⟨x, y, m₁, hex, hassign, rfl⟩ := hev he
  simp only [resolved_append, List.append_assoc] at hrest
  obtain ⟨M₁, h₁, hx, hty⟩ := operandAs_simulates hv hvalue hrest hm hex
  have hslot₁ : (s'.scopes.visible scope).lookup target = some (.slot id ty) := by
    rw [Scopes.visible_of_scopes_eq (operandAs_keeps hkeeps hvalue)]
    exact Scopes.lookup_ok.mp hslot
  obtain ⟨rfl, M₂, h₂⟩ := store_simulates h₁.rest h₁.matched hslot₁ hx hty hassign
  exact ⟨M₂, h₁.next h₂, hx.mono h₂.kept h₂.next_le⟩

lemma arm_simulates {x : Lower Segment} {ev : Eval (Option Val)} (hx : W.Simulates scope x ev)
    {keepBoolean : Bool} {w : Value} {val : Val} (h : arm keepBoolean x s = .ok (code, w) s')
    (hrest : M.rest = W.resolved code ++ k) (hm : W.Matches s scope m M)
    (hev : ev m = some (some val, m')) :
    ∃ M', W.Reached M s.next k s' scope m' M' ∧ Denotes M' s'.next w val := by
  obtain ⟨first, v, conversion, t, hlow, hcode, hconverted⟩ := arm_ok h
  simp only at hcode hconverted
  rw [hcode, resolved_append, List.append_assoc] at hrest
  obtain ⟨M₁, h₁, hv⟩ := hx hlow hrest hm hev
  rcases hconverted with ⟨-, rfl, rfl, rfl⟩ | ⟨-, -, hc⟩
  · exact ⟨M₁, h₁, hv⟩
  · obtain ⟨M₂, h₂, hw, -⟩ := coerce_simulates hc h₁.rest h₁.matched hv
    exact ⟨M₂, h₁.next h₂, hw⟩

/-- A jump to a block that starts with a `phi`, where `v` stands beside the block of the machine. -/
lemma join_simulates (s₁ : LowerState) {target : Label} {v : Value} {ty : Ty} {x : Val}
    {incoming : List (Value × Label)} {rest : Code} (hm : W.Matches s scope m M)
    (hrest : M.rest = .jump (W.labels.named target) :: rest)
    (hlabel : .label (W.labels.named target) :: .phi (.temp s₁.next ty) incoming :: k <:+ W.code)
    (hvisible : s₁.scopes.visible scope = s.scopes.visible scope) (hnext : s.next ≤ s₁.next)
    (hblock : W.labels.named s₁.block = W.labels.named target)
    (hfind : incoming.find? (fun entry => entry.2 = M.block) = some (v, M.block))
    (hx : Denotes M s.next v x) (hty : v.ty = ty) :
    ∃ M', W.Reached M s.next k s₁.drawn scope m M' ∧
      Denotes M' s₁.drawn.next (.temp s₁.next ty) x := by
  obtain ⟨M₁, h₁, hprevious, htemps⟩ :=
    Reached.goto s₁ hm (Machine.step_jump hrest) hlabel hvisible hnext hblock
  have hx₁ : Denotes M₁ s₁.next v x := hx.mono (fun _ _ => by rw [htemps]) hnext
  have hstep : M₁.step W.result W.code = some (M₁.define k s₁.next x) := by
    simp only [Machine.step, h₁.rest, hprevious, hfind, hx₁.value, Option.bind_eq_bind,
      Option.bind_some]
    rfl
  obtain ⟨M₂, h₂, hresult⟩ := define_simulates h₁.matched h₁.rest hstep (hty ▸ hx₁.typed)
  exact ⟨M₂, h₁.next h₂, hresult⟩

/-- The blocks in which the two arms of a conditional end are different ones. -/
lemma conditional_blocks {t t₁ t₂ : LowerState} {log : List Event} {n : Nat}
    {trueCode falseCode : Code} (hn : t.labels.names[n]? = some none)
    (htrue : Emits (t.placed (.pending n)) trueCode t₁)
    (hp : t₁.labels.names[n + 1]? = some none)
    (hfalse : Emits ((t₁.logged log).placed (.pending (n + 1))) falseCode t₂) (labels : LabelTable) :
    labels.named t₁.block ≠ labels.named t₂.block := by
  intro heq
  exact Emits.blocks_ne hn htrue hp hfalse (Label.fixed.inj heq).1

/-- Control goes through one of the arms, and the `phi` takes the value of that one. -/
lemma conditional_simulates {keepBoolean : Bool} {condition onTrue onFalse : Expr}
    {evc ev₁ ev₂ ev : Eval (Option Val)} (hc : W.Simulates scope (condition.lower env scope) evc)
    (h₁ : W.Simulates scope (onTrue.lower env scope) ev₁)
    (h₂ : W.Simulates scope (onFalse.lower env scope) ev₂)
    (hev : ∀ ⦃m r m'⦄, ev m = some (r, m') → ∃ (a : Int) (m₁ : Memory) (x : Val),
      evc m = some (some (.int a), m₁) ∧ r = some x ∧
      (if a ≠ 0 then ev₁ m₁ else ev₂ m₁) = some (some x, m')) :
    W.Simulates scope (conditional env keepBoolean (condition.lower env scope)
      (onTrue.lower env scope) (onFalse.lower env scope)) ev := by
  intro s seg s' h k M m r m' hrest hm he
  obtain ⟨test, v, trueCode, trueValue, trueJump, falseCode, falseValue, falseJump, trueValue',
    falseValue', ty, t, t₁, t₂, log₁, log₂, n, rfl, htest, hv, ht, hp₁, hf, hp₂, -, hretype₁,
    hretype₂, hty₁, hty₂, hj₁, hj₂, rfl, rfl⟩ := conditional_ok h
  obtain ⟨a, m₁, x, hec, rfl, hex⟩ := hev he
  have hpending : t.allocated.allocated.allocated.labels.names[t.labels.size]? = some none := by
    simp [LowerState.allocated, LabelTable.allocate, LabelTable.size]
  have hemits₁ := arm_emits onTrue.lower_emits ht
  have hemits₂ := arm_emits onFalse.lower_emits hf
  have hblocks := conditional_blocks hpending hemits₁ hp₁ hemits₂ W.labels
  have hnext₁ : t.next + 1 ≤ t₁.next := hemits₁.next_le
  have hnext₂ : t₁.next + 1 ≤ t₂.next := hemits₂.next_le
  -- Control arrives at the end of both arms, so neither jump is left out.
  have hopen₁ : Code.endsWithTerminator (test ++ .branch v (.pending t.labels.size)
      (.pending (t.labels.size + 1)) :: .label (.fixed t.labels.size t.next) :: trueCode) = false := by
    have hopen := Code.endsWithTerminator_label (test ++ [.branch v (.pending t.labels.size)
      (.pending (t.labels.size + 1))]) (.fixed t.labels.size t.next) (arm_open onTrue.lower_open ht)
    simpa using hopen
  have hopen₂ := Code.endsWithTerminator_label (test ++ .branch v (.pending t.labels.size)
    (.pending (t.labels.size + 1)) :: .label (.fixed t.labels.size t.next) :: trueCode ++ trueJump)
    (.fixed (t.labels.size + 1) t₁.next) (arm_open onFalse.lower_open hf)
  rw [hopen₁, Bool.and_false, if_neg Bool.false_ne_true] at hj₁
  rw [hopen₂, Bool.and_false, if_neg Bool.false_ne_true] at hj₂
  subst hj₁ hj₂
  simp only [resolved_append, resolved_cons, resolved_nil, Instr.relabel_branch,
    Instr.relabel_label, Instr.relabel_jump, Instr.relabel_phi, List.append_assoc, List.cons_append,
    List.nil_append] at hrest
  obtain ⟨M₁, hreached₁, hx, -⟩ := operandAs_simulates hc htest hrest hm hec
  have hs₁ := hreached₁.matched.suffix_of_rest hreached₁.rest
  have hs₂ := Code.suffix_of_block hs₁
  have hs₃ := Code.suffix_of_block hs₂
  have hinteger := hx.exists_integer (by rw [hv]; rfl)
  obtain ⟨_, ⟨⟩, ha, hwrap⟩ := hinteger
  rw [hv, Ty.wrap_bool_iff] at hwrap
  have hbranch : M₁.step W.result W.code = _ := Machine.step_branch hreached₁.rest ha hwrap
  have hscopes₁ := arm_keeps onTrue.lower_keeps ht
  have hscopes₂ := arm_keeps onFalse.lower_keeps hf
  by_cases hcond : a ≠ 0
  · rw [if_pos hcond] at hex hbranch
    obtain ⟨M₂, hreached₂, -, -⟩ := Reached.goto
      (t.allocated.allocated.allocated.placed (.pending t.labels.size))
      hreached₁.matched hbranch hs₁ (Scopes.visible_of_scopes_eq rfl) (Nat.le_succ _) rfl
    obtain ⟨M₃, hreached₃, hval⟩ := arm_simulates h₁ ht hreached₂.rest hreached₂.matched hex
    obtain ⟨hval', -⟩ := hval.retype hretype₁
    obtain ⟨M₄, hreached₄, hresult⟩ := join_simulates
      ((t₂.logged log₂).placed (.pending (t.labels.size + 2))) hreached₃.matched
      hreached₃.rest hs₃ (Scopes.visible_of_scopes_eq hscopes₂)
      (by simp only [LowerState.placed_next, LowerState.logged_next]; omega) rfl
      (by simp [hreached₃.matched.block]) hval' hty₁
    exact ⟨M₄, (((hreached₁.next hreached₂).next hreached₃).next hreached₄), hresult⟩
  · rw [if_neg hcond] at hex hbranch
    obtain ⟨M₂, hreached₂, -, -⟩ := Reached.goto
      ((t₁.logged log₁).placed (.pending (t.labels.size + 1)))
      hreached₁.matched hbranch hs₂ (Scopes.visible_of_scopes_eq hscopes₁)
      (by simp only [LowerState.placed_next, LowerState.logged_next]; omega) rfl
    obtain ⟨M₃, hreached₃, hval⟩ := arm_simulates h₂ hf hreached₂.rest hreached₂.matched hex
    obtain ⟨hval', -⟩ := hval.retype hretype₂
    obtain ⟨M₄, hreached₄, hresult⟩ := join_simulates
      ((t₂.logged log₂).placed (.pending (t.labels.size + 2))) hreached₃.matched
      hreached₃.rest hs₃ (Scopes.visible_of_scopes_eq rfl) (Nat.le_succ _) rfl
      (by simp [hreached₃.matched.block, hblocks]) hval' hty₂
    exact ⟨M₄, (((hreached₁.next hreached₂).next hreached₃).next hreached₄), hresult⟩

/-- The values of operands, read one after the other. -/
lemma mapM_value {n : Nat} {values : List Value} {vs : List Val}
    (h : List.Forall₂ (Denotes M n) values vs) : values.mapM M.value = some vs := by
  induction h with
  | nil => rfl
  | cons hv _ ih =>
    rw [List.mapM_cons, hv.value, ih]
    rfl

/-- Values of the types that they are converted to. -/
lemma zipWith_convert {n : Nat} {values : List Value} {vs : List Val}
    (h : List.Forall₂ (Denotes M n) values vs) :
    List.zipWith Ty.convert (values.map Value.ty) vs = vs := by
  induction h with
  | nil => rfl
  | cons hv _ ih => rw [List.map_cons, List.zipWith_cons_cons, Ty.convert_of_hasTy hv.typed, ih]

lemma arguments_simulates {callees : Callees env.functions} {es : List Expr}
    (hes : ∀ e ∈ es, W.Simulates scope (e.lower env scope) (e.eval env.functions callees))
    {tys : List Ty} (hlength : tys.length = es.length) {values : List Value} {vs : List Val}
    (h : arguments (Expr.lowerAll env scope es) tys s = .ok (code, values) s')
    (hrest : M.rest = W.resolved code ++ k) (hm : W.Matches s scope m M)
    (hev : Expr.evalAll env.functions callees es m = some (vs, m')) :
    ∃ M', W.Reached M s.next k s' scope m' M' ∧ List.Forall₂ (Denotes M' s'.next) values vs ∧
      values.map Value.ty = tys := by
  induction es generalizing tys s code values vs m M with
  | nil =>
    obtain rfl : tys = [] := List.eq_nil_of_length_eq_zero hlength
    obtain ⟨hr, rfl⟩ := pure_ok.mp h
    cases hr
    rw [Expr.evalAll] at hev
    obtain ⟨rfl, rfl⟩ := Eval.pure_some.mp hev
    exact ⟨M, .refl hm hrest, .nil, rfl⟩
  | cons e rest ih =>
    cases tys with
    | nil => cases hlength
    | cons ty tys =>
      obtain ⟨first, v, more, others, t, hfirst, hmore, hr⟩ := arguments_cons_ok h
      cases hr
      simp only [Expr.evalAll, Eval.bind_some, Eval.operand_some, Eval.pure_some] at hev
      obtain ⟨x, m₁, hx, xs, m₂, hxs, rfl, rfl⟩ := hev
      rw [resolved_append, List.append_assoc] at hrest
      obtain ⟨M₁, h₁, hv, hty⟩ :=
        operandAs_simulates (hes e List.mem_cons_self) hfirst hrest hm hx
      obtain ⟨M₂, h₂, hvs, htys⟩ := ih (fun y hy => hes y (List.mem_cons_of_mem e hy))
        (Nat.succ.inj hlength) hmore h₁.rest h₁.matched hxs
      refine ⟨M₂, h₁.next h₂, .cons (hv.mono h₂.kept h₂.next_le) hvs, ?_⟩
      rw [List.map_cons, hty, htys]

lemma length_lowerAll (es : List Expr) : (Expr.lowerAll env scope es).length = es.length := by
  induction es with
  | nil => rfl
  | cons e rest ih => rw [Expr.lowerAll, List.length_cons, List.length_cons, ih]

/-- A call with the same arguments gives the same result. -/
lemma call_simulates {callees : Callees env.functions} (hresult : W.result = callees.result)
    {callee : String} {es : List Expr}
    (hes : ∀ e ∈ es, W.Simulates scope (e.lower env scope) (e.eval env.functions callees)) :
    W.Simulates scope ((Expr.call callee es).lower env scope)
      ((Expr.call callee es).eval env.functions callees) := by
  intro s seg s' h k M m r m' hrest hm hev
  rw [Expr.lower] at h
  simp only [Expr.eval, Eval.bind_some, Eval.lift_some] at hev
  obtain ⟨signature, code, values, t, hfind, hlength, hargs, hcall⟩ := call_ok h
  obtain ⟨_, _, ⟨hfind', rfl⟩, vs, m₁, hvs, _, m₂, hrecord, hreturn⟩ := hev
  rw [hfind, Option.some.injEq] at hfind'
  subst hfind'
  rw [length_lowerAll] at hlength
  have hcode : ∃ i, seg.instructions = code ++ [i] := by
    rcases hcall with ⟨-, -, rfl⟩ | ⟨-, -, rfl⟩ <;> exact ⟨_, rfl⟩
  obtain ⟨i, hi⟩ := hcode
  rw [hi, resolved_append, List.append_assoc] at hrest
  obtain ⟨M₁, h₁, hdenotes, htys⟩ := arguments_simulates hes hlength hargs hrest hm hvs
  have hconvert := zipWith_convert hdenotes
  rw [htys] at hconvert
  rw [hconvert, Eval.record, Eval.modify_some] at hrecord
  rw [hconvert] at hreturn
  have hvalues := mapM_value hdenotes
  have hrecorded := h₁.matched.record ⟨callee, vs⟩
  rw [hrecord] at hrecorded
  rcases hcall with ⟨hvoid, rfl, rfl⟩ | ⟨hvoid, rfl, rfl⟩
  · rw [hvoid] at hreturn
    obtain ⟨rfl, rfl⟩ := Eval.pure_some.mp hreturn
    cases List.append_cancel_left hi
    have hrest₁ : M₁.rest = .call none callee .void values :: k := h₁.rest
    have hstep : M₁.step W.result W.code = some ((M₁.record ⟨callee, vs⟩).proceed k) := by
      simp only [Machine.step, hrest₁, hvalues, Option.bind_eq_bind, Option.bind_some]
      rfl
    have hmatched : W.Matches t scope _ ((M₁.record ⟨callee, vs⟩).proceed k) := hrecorded.of_same
      rfl (Nat.le_refl _) hrecorded.block rfl rfl (h₁.matched.suffix_of_rest hrest₁)
    exact ⟨_, h₁.next ⟨⟨.single W hstep, rfl, hmatched⟩, Nat.le_refl _, fun _ _ => rfl⟩, trivial⟩
  · have hnot : signature.returnTy.isVoid = false := by
      cases hty : signature.returnTy <;> simp_all [Ty.isVoid]
    rw [hnot, if_neg Bool.false_ne_true] at hreturn
    obtain ⟨rfl, rfl⟩ := Eval.pure_some.mp hreturn
    cases List.append_cancel_left hi
    have hrest₁ : M₁.rest = .call (some (.temp t.next signature.returnTy)) callee
        signature.returnTy values :: k := h₁.rest
    have hstep : M₁.step W.result W.code = some ((M₁.record ⟨callee, vs⟩).define k t.next
        (callees.result callee vs)) := by
      simp only [Machine.step, hrest₁, hvalues, hresult, Option.bind_eq_bind, Option.bind_some]
      rfl
    have hmatched : W.Matches t.drawn scope _ ((M₁.record ⟨callee, vs⟩).define k t.next
        (callees.result callee vs)) := hrecorded.of_same (Scopes.visible_of_scopes_eq rfl)
      (Nat.le_succ _) hrecorded.block rfl rfl (h₁.matched.suffix_of_rest hrest₁)
    have hkept : ∀ id < t.next, ((M₁.record ⟨callee, vs⟩).define k t.next
        (callees.result callee vs)).temps id = M₁.temps id :=
      fun id hid => if_neg (Nat.ne_of_lt hid)
    exact ⟨_, h₁.next ⟨⟨.single W hstep, rfl, hmatched⟩, Nat.le_succ _, hkept⟩,
      .temp (callees.typed hfind hvoid vs) (Nat.lt_succ_self _)⟩

/-- An operation on numbers of type `int` is the one of its instruction. -/
lemma arith_apply {op : ArithOp} {a b c : Int} (h : op.apply a b = some c)
    (ha : Ty.wrap .i32 a = a) :
    op.toBinaryOp.apply .i32 a b = some c ∧ Ty.wrap .i32 c = c := by
  refine ⟨?_, ?_⟩
  · rw [← h]
    cases op <;> rfl
  · cases op with
    | add | sub | mul =>
      cases h
      exact Ty.wrap_wrap _ _
    | div =>
      rw [ArithOp.apply, Option.ite_none_right_eq_some] at h
      obtain ⟨⟨-, hwrap⟩, ⟨⟩⟩ := h
      exact hwrap
    | rem =>
      rw [ArithOp.apply, Option.ite_none_right_eq_some] at h
      obtain ⟨-, ⟨⟩⟩ := h
      exact Ty.wrap_tmod b ha

/-- The code of an expression does what its evaluation does. -/
theorem simulates_lower {callees : Callees env.functions} (hresult : W.result = callees.result)
    (e : Expr) : W.Simulates scope (e.lower env scope) (e.eval env.functions callees) := by
  induction e using Expr.induction with
  | int value =>
    rw [Expr.lower]
    refine literal_simulates ?_
    intro m r m' h
    rw [Expr.eval] at h
    split at h
    · rename_i hfits
      obtain ⟨rfl, rfl⟩ := Eval.pure_some.mp h
      have hwrap : Ty.wrap .i32 value = value := by
        simp only [Ty.fits, Bool.and_eq_true, decide_eq_true_eq] at hfits
        exact Ty.wrap_i32_iff.mpr (by omega)
      refine ⟨rfl, _, rfl, fun M n => ⟨?_, ⟨rfl, hwrap⟩, ?_, by simp⟩⟩
      · rw [Machine.value, hwrap]
      · rintro _ _ ⟨⟩
        exact hwrap
    · exact (Eval.failure_some.mp h).elim
  | float value =>
    rw [Expr.lower]
    refine literal_simulates ?_
    intro m r m' h
    rw [Expr.eval] at h
    obtain ⟨rfl, rfl⟩ := Eval.pure_some.mp h
    exact ⟨rfl, _, rfl, fun M n => ⟨rfl, rfl, by simp, by simp⟩⟩
  | var name =>
    rw [Expr.lower]
    refine readVariable_simulates ?_
    intro m r m' h
    simp only [Expr.eval, Eval.bind_some, Eval.pure_some] at h
    obtain ⟨x, _, hread, rfl, rfl⟩ := h
    exact ⟨x, rfl, hread⟩
  | preIncrement name delta =>
    rw [Expr.lower]
    refine increment_simulates ?_
    intro m r m' h
    simp only [Expr.eval, Eval.bind_some, Eval.pure_some] at h
    obtain ⟨p, _, hincrement, rfl, rfl⟩ := h
    exact ⟨p, rfl, hincrement⟩
  | postIncrement name delta =>
    rw [Expr.lower]
    refine increment_simulates ?_
    intro m r m' h
    simp only [Expr.eval, Eval.bind_some, Eval.pure_some] at h
    obtain ⟨p, _, hincrement, rfl, rfl⟩ := h
    exact ⟨p, rfl, hincrement⟩
  | arith op left right hl hr =>
    rw [Expr.lower]
    refine binary_simulates hl hr ?_
    intro m r m' h
    simp only [Expr.eval, Eval.bind_some, Eval.integer_some, Eval.lift_some, Eval.pure_some] at h
    obtain ⟨a, m₁, ha, b, _, hb, c, _, ⟨hc, rfl⟩, rfl, rfl⟩ := h
    exact ⟨a, b, c, m₁, ha, hb, rfl, fun hwrap _ => arith_apply hc hwrap⟩
  | compare op left right hl hr =>
    rw [Expr.lower]
    refine comparison_simulates hl hr ?_
    intro m r m' h
    simp only [Expr.eval, Eval.bind_some, Eval.integer_some, Eval.pure_some] at h
    obtain ⟨a, m₁, ha, b, _, hb, rfl, rfl⟩ := h
    exact ⟨a, b, m₁, ha, hb, rfl⟩
  | logicalAnd left right hl hr =>
    rw [Expr.lower]
    refine binary_simulates hl hr ?_
    intro m r m' h
    simp only [Expr.eval, Eval.bind_some, Eval.test_some, Eval.pure_some] at h
    obtain ⟨_, m₁, ⟨a, ha, rfl⟩, _, _, ⟨b, hb, rfl⟩, rfl, rfl⟩ := h
    refine ⟨a, b, _, m₁, ha, hb, rfl, fun hwa hwb => ?_⟩
    rw [Ty.wrap_bool_iff] at hwa hwb
    rcases hwa with rfl | rfl <;> rcases hwb with rfl | rfl <;> exact ⟨rfl, rfl⟩
  | logicalOr left right hl hr =>
    rw [Expr.lower]
    refine binary_simulates hl hr ?_
    intro m r m' h
    simp only [Expr.eval, Eval.bind_some, Eval.test_some, Eval.pure_some] at h
    obtain ⟨_, m₁, ⟨a, ha, rfl⟩, _, _, ⟨b, hb, rfl⟩, rfl, rfl⟩ := h
    refine ⟨a, b, _, m₁, ha, hb, rfl, fun hwa hwb => ?_⟩
    rw [Ty.wrap_bool_iff] at hwa hwb
    rcases hwa with rfl | rfl <;> rcases hwb with rfl | rfl <;> exact ⟨rfl, rfl⟩
  | boolCast operand ho =>
    rw [Expr.lower]
    refine booleanCast_simulates ho ?_
    intro m r m' h
    simp only [Expr.eval, Eval.bind_some, Eval.test_some, Eval.pure_some] at h
    obtain ⟨_, _, ⟨a, ha, rfl⟩, rfl, rfl⟩ := h
    exact ⟨a, ha, rfl⟩
  | conditional condition onTrue onFalse hc ht hf =>
    rw [Expr.lower]
    refine conditional_simulates hc ht hf ?_
    intro m r m' h
    simp only [Expr.eval, Eval.bind_some, Eval.test_some] at h
    obtain ⟨_, m₁, ⟨a, ha, rfl⟩, h⟩ := h
    by_cases hcond : a ≠ 0
    · simp only [hcond, decide_true, if_true, ne_eq, not_false_eq_true, Eval.bind_some, Eval.operand_some,
        Eval.pure_some] at h
      obtain ⟨x, _, hx, rfl, rfl⟩ := h
      exact ⟨a, m₁, x, ha, rfl, by rwa [if_pos hcond]⟩
    · simp only [hcond, decide_false, Bool.false_eq_true, if_false, Eval.bind_some, Eval.operand_some,
        Eval.pure_some] at h
      obtain ⟨x, _, hx, rfl, rfl⟩ := h
      exact ⟨a, m₁, x, ha, rfl, by rwa [if_neg hcond]⟩
  | assign target value hv =>
    rw [Expr.lower]
    refine assignment_simulates hv value.lower_keeps ?_
    intro m r m' h
    simp only [Expr.eval, Eval.bind_some, Eval.operand_some, Eval.pure_some] at h
    obtain ⟨x, m₁, hx, y, _, hassign, rfl, rfl⟩ := h
    exact ⟨x, y, m₁, hx, hassign, rfl⟩
  | call callee es hes => exact call_simulates hresult hes

end Program

end MiniC
