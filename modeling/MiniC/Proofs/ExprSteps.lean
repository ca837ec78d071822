import MiniC.Proofs.LoweringSteps

/-!
# Successful lowerings of expressions

For each form of expression, the lowerings of its parts that its own lowering went through, and the
code that came out.
-/

namespace MiniC

namespace Lower

variable {s s' : LowerState} {env : LowerEnv} {scope : ScopeId} {seg : Segment}

lemma readVariable_ok {name : String} (h : readVariable env scope name s = .ok seg s') :
    ∃ id ty, s.scopes.lookup scope name = .ok (.slot id ty) ∧ s.drawn = s' ∧
      seg = ⟨[.load (.temp s.next ty) (.slot id ty) (env.options.alignmentFor ty)],
        some (.temp s.next ty)⟩ := by
  simp only [readVariable, bind_ok, lookup_ok, pure_ok] at h
  obtain ⟨slot, t, ⟨hl, rfl⟩, r, t', hload, rfl, rfl⟩ := h
  obtain ⟨⟨id, ty, rfl, -⟩, rfl, rfl⟩ := load_ok hload
  exact ⟨id, ty, hl, rfl, rfl⟩

lemma increment_ok {name : String} {delta : Int} {before : Bool}
    (h : increment env scope name delta before s = .ok seg s') :
    ∃ id ty, s.scopes.lookup scope name = .ok (.slot id ty) ∧ ty.isInteger = true ∧
      s.drawn.drawn = s' ∧
      seg = ⟨[.load (.temp s.next ty) (.slot id ty) (env.options.alignmentFor ty),
          .binary (.temp (s.next + 1) ty) .add (.temp s.next ty) (.int delta ty),
          .store (.temp (s.next + 1) ty) (.slot id ty) (env.options.alignmentFor ty)],
        some (if before then .temp (s.next + 1) ty else .temp s.next ty)⟩ := by
  simp only [increment, bind_ok, lookup_ok, newTemp_ok, ofLowering_ok, Instr.mkBinary_ok,
    pure_ok] at h
  obtain ⟨slot, t, ⟨hl, rfl⟩, r, t', hload, h⟩ := h
  obtain ⟨⟨id, ty, rfl, -⟩, rfl, rfl⟩ := load_ok hload
  obtain ⟨v, t, ⟨rfl, rfl⟩, i, t', ⟨⟨hint, -, -, rfl⟩, rfl⟩, storing, t'', hstore, rfl, rfl⟩ := h
  obtain ⟨-, -, rfl, rfl⟩ := store_ok hstore
  exact ⟨id, ty, hl, hint, rfl, rfl⟩

lemma binary_ok {op : BinaryOp} {ty : Ty} {left right : Lower Segment}
    (h : binary op ty left right s = .ok seg s') :
    ∃ leftCode lhs rightCode rhs t t', operandAs left ty op.text s = .ok (leftCode, lhs) t ∧
      operandAs right ty op.text t = .ok (rightCode, rhs) t' ∧ t'.drawn = s' ∧
      ty.isInteger = true ∧ lhs.ty = ty ∧ rhs.ty = ty ∧
      seg = ⟨leftCode ++ rightCode ++ [.binary (.temp t'.next ty) op lhs rhs],
        some (.temp t'.next ty)⟩ := by
  simp only [binary, bind_ok, newTemp_ok, ofLowering_ok, Instr.mkBinary_ok, pure_ok] at h
  obtain ⟨⟨leftCode, lhs⟩, t, hl, ⟨rightCode, rhs⟩, t', hr, v, u, ⟨rfl, rfl⟩, i, u',
    ⟨⟨hint, hlty, hrty, rfl⟩, rfl⟩, rfl, rfl⟩ := h
  exact ⟨leftCode, lhs, rightCode, rhs, t, t', hl, hr, rfl, hint, hlty, hrty, rfl⟩

lemma comparison_ok {relation : Relation} {left right : Lower Segment}
    (h : comparison relation left right s = .ok seg s') :
    ∃ leftCode lhs rightCode rhs leftConversion lhs' rightConversion rhs' ty t₁ t₂ t₃ t₄,
      left s = .ok ⟨leftCode, some lhs⟩ t₁ ∧ right t₁ = .ok ⟨rightCode, some rhs⟩ t₂ ∧
      commonTy lhs rhs = .ok ty ∧ coerce lhs ty "icmp" t₂ = .ok (leftConversion, lhs') t₃ ∧
      coerce rhs ty "icmp" t₃ = .ok (rightConversion, rhs') t₄ ∧ t₄.drawn = s' ∧
      lhs'.ty.isInteger = true ∧ rhs'.ty = lhs'.ty ∧
      seg = ⟨leftCode ++ rightCode ++ leftConversion ++ rightConversion ++
        [.icmp (.temp t₄.next .bool) relation lhs' rhs'], some (.temp t₄.next .bool)⟩ := by
  simp only [comparison, bind_ok, operand_ok, newTemp_ok, ofLowering_ok, Instr.mkIcmp_ok,
    pure_ok] at h
  obtain ⟨⟨leftCode, lhs⟩, t₁, hl, ⟨rightCode, rhs⟩, t₂, hr, ty, u, ⟨hty, rfl⟩,
    ⟨leftConversion, lhs'⟩, t₃, hcl, ⟨rightConversion, rhs'⟩, t₄, hcr, v, u', ⟨rfl, rfl⟩, i, u'',
    ⟨⟨-, hint, heq, rfl⟩, rfl⟩, rfl, rfl⟩ := h
  exact ⟨leftCode, lhs, rightCode, rhs, leftConversion, lhs', rightConversion, rhs', ty, t₁, t₂,
    t₃, t₄, hl, hr, hty, hcl, hcr, rfl, hint, heq, rfl⟩

lemma booleanCast_ok {inner : Lower Segment} (h : booleanCast inner s = .ok seg s') :
    ∃ code v t, inner s = .ok ⟨code, some v⟩ t ∧
      (v.ty = .bool ∧ t = s' ∧ seg = ⟨code, some v⟩ ∨
        v.ty ≠ .bool ∧ v.ty.isInteger = true ∧ t.drawn = s' ∧
          seg = ⟨code ++ [.icmp (.temp t.next .bool) .ne v (.int 0 v.ty)],
            some (.temp t.next .bool)⟩) := by
  simp only [booleanCast, bind_ok, operand_ok] at h
  obtain ⟨⟨code, v⟩, t, hx, h⟩ := h
  refine ⟨code, v, t, hx, ?_⟩
  split at h
  · rename_i hb
    obtain ⟨rfl, rfl⟩ := pure_ok.mp h
    exact Or.inl ⟨hb, rfl, rfl⟩
  · rename_i hb
    split at h
    · rename_i hi
      simp only [bind_ok, newTemp_ok, ofLowering_ok, Instr.mkIcmp_ok, pure_ok] at h
      obtain ⟨w, u, ⟨rfl, rfl⟩, i, u', ⟨⟨-, -, -, rfl⟩, rfl⟩, rfl, rfl⟩ := h
      exact Or.inr ⟨hb, hi, rfl, rfl⟩
    · exact (throw_ok.mp h).elim

lemma arm_ok {keepBoolean : Bool} {lowered : Lower Segment} {r : Code × Value}
    (h : arm keepBoolean lowered s = .ok r s') :
    ∃ code v conversion t, lowered s = .ok ⟨code, some v⟩ t ∧ r.1 = code ++ conversion ∧
      ((keepBoolean = true ∨ v.ty ≠ .bool) ∧ conversion = [] ∧ r.2 = v ∧ t = s' ∨
        keepBoolean = false ∧ v.ty = .bool ∧
          coerce v .i32 "conditional" t = .ok (conversion, r.2) s') := by
  simp only [arm, bind_ok, operand_ok] at h
  obtain ⟨⟨code, v⟩, t, hx, h⟩ := h
  split at h
  · rename_i hb
    simp only [Bool.and_eq_true, Bool.not_eq_true', beq_iff_eq] at hb
    simp only [bind_ok, pure_ok] at h
    obtain ⟨⟨conversion, w⟩, u, hc, rfl, rfl⟩ := h
    exact ⟨code, v, conversion, t, hx, rfl, Or.inr ⟨hb.1, hb.2, hc⟩⟩
  · rename_i hb
    have hkeep : keepBoolean = true ∨ v.ty ≠ .bool := by
      cases keepBoolean <;> simp_all
    obtain ⟨rfl, rfl⟩ := pure_ok.mp h
    exact ⟨code, v, [], t, hx, (List.append_nil code).symm, Or.inl ⟨hkeep, rfl, rfl, rfl⟩⟩

/-- The arms of a conditional run in blocks of their own, behind the code of the condition, and both
end in a jump to the block of the `phi`. -/
lemma conditional_ok {keepBoolean : Bool} {condition onTrue onFalse : Lower Segment}
    (h : conditional env keepBoolean condition onTrue onFalse s = .ok seg s') :
    ∃ test v trueCode trueValue trueJump falseCode falseValue falseJump trueValue' falseValue' ty
        t t₁ t₂ log₁ log₂ n,
      n = t.labels.size ∧ operandAs condition .bool "conditional" s = .ok (test, v) t ∧
      v.ty = .bool ∧
      arm keepBoolean onTrue (t.allocated.allocated.allocated.placed (.pending n)) =
        .ok (trueCode, trueValue) t₁ ∧
      t₁.labels.names[n + 1]? = some none ∧
      arm keepBoolean onFalse ((t₁.logged log₁).placed (.pending (n + 1))) =
        .ok (falseCode, falseValue) t₂ ∧
      t₂.labels.names[n + 2]? = some none ∧
      ty = (if trueValue.isLiteral then falseValue.ty else trueValue.ty) ∧
      retypeLiteral trueValue ty "conditional" = .ok trueValue' ∧
      retypeLiteral falseValue ty "conditional" = .ok falseValue' ∧
      trueValue'.ty = ty ∧ falseValue'.ty = ty ∧
      (trueJump = if env.options.elideUnreachableJumps && Code.endsWithTerminator
          (test ++ .branch v (.pending n) (.pending (n + 1)) :: .label (.fixed n t.next) ::
            trueCode) then [] else [.jump (.pending (n + 2))]) ∧
      (falseJump = if env.options.elideUnreachableJumps && Code.endsWithTerminator
          (test ++ .branch v (.pending n) (.pending (n + 1)) :: .label (.fixed n t.next) ::
            trueCode ++ trueJump ++ .label (.fixed (n + 1) t₁.next) :: falseCode) then []
          else [.jump (.pending (n + 2))]) ∧
      ((t₂.logged log₂).placed (.pending (n + 2))).drawn = s' ∧
      seg = ⟨test ++ .branch v (.pending n) (.pending (n + 1)) :: .label (.fixed n t.next) ::
          trueCode ++ trueJump ++ .label (.fixed (n + 1) t₁.next) :: falseCode ++ falseJump ++
          [.label (.fixed (n + 2) t₂.next), .phi (.temp (t₂.next + 1) ty)
            [(trueValue', t₁.block), (falseValue', t₂.block)]],
        some (.temp (t₂.next + 1) ty)⟩ := by
  simp only [conditional, bind_ok, newLabel_ok, newTemp_ok, ofLowering_ok, Instr.mkBranch_ok,
    placeLabel_ok, currentBlock_ok, Instr.mkPhi_ok, pure_ok] at h
  obtain ⟨⟨test, v⟩, t, hc, l₁, u₁, ⟨rfl, rfl⟩, l₂, u₂, ⟨rfl, rfl⟩, l₃, u₃, ⟨rfl, rfl⟩, i, u₄,
    ⟨⟨hv, rfl⟩, rfl⟩, i₁, u₅, ⟨-, rfl, rfl⟩, h⟩ := h
  obtain ⟨⟨trueCode, trueValue⟩, t₁, ht, b₁, u₆, ⟨rfl, rfl⟩, trueJump, u₇, hj₁, h⟩ := h
  obtain ⟨i₂, u₈, ⟨⟨_, hl₂, hp₂⟩, rfl, rfl⟩, h⟩ := h
  obtain ⟨⟨falseCode, falseValue⟩, t₂, hf, b₂, u₉, ⟨rfl, rfl⟩, falseJump, u₁₀, hj₂, h⟩ := h
  obtain ⟨i₃, u₁₁, ⟨⟨_, hl₃, hp₃⟩, rfl, rfl⟩, h⟩ := h
  obtain ⟨trueValue', u₁₂, ⟨htrue, rfl⟩, falseValue', u₁₃, ⟨hfalse, rfl⟩, h⟩ := h
  obtain ⟨w, u₁₄, ⟨rfl, rfl⟩, i₄, u₁₅, ⟨⟨hty₁, hty₂, rfl⟩, rfl⟩, rfl, rfl⟩ := h
  obtain ⟨⟨log₁, rfl⟩, hd₁⟩ := jumpAfter_ok hj₁
  obtain ⟨⟨log₂, rfl⟩, hd₂⟩ := jumpAfter_ok hj₂
  simp only [LowerState.allocated_size, Label.pending.injEq] at hl₂ hl₃
  subst hl₂ hl₃
  simp only [LowerState.allocated_size, LowerState.allocated_next, LowerState.logged_next,
    Label.id] at hf hd₁ hd₂ ⊢
  exact ⟨test, v, trueCode, trueValue, trueJump, falseCode, falseValue, falseJump, trueValue',
    falseValue', _, t, t₁, t₂, log₁, log₂, _, rfl, hc, hv, ht, hp₂, hf, hp₃, rfl, htrue, hfalse,
    hty₁, hty₂, hd₁, hd₂, rfl, rfl⟩

lemma assignment_ok {target : String} {value : Lower Segment}
    (h : assignment env scope target value s = .ok seg s') :
    ∃ id ty code v, s.scopes.lookup scope target = .ok (.slot id ty) ∧ ty ≠ .void ∧
      operandAs value ty "assignment" s = .ok (code, v) s' ∧ v.ty = ty ∧
      seg = ⟨code ++ [.store v (.slot id ty) (env.options.alignmentFor ty)], some v⟩ := by
  simp only [assignment, bind_ok, lookup_ok, pure_ok] at h
  obtain ⟨slot, t, ⟨hl, rfl⟩, ⟨code, v⟩, t', hv, storing, t'', hstore, rfl, rfl⟩ := h
  obtain ⟨⟨id, ty, rfl, hty⟩, hvty, rfl, rfl⟩ := store_ok hstore
  exact ⟨id, ty, code, v, hl, hty, hv, hvty, rfl⟩

lemma arguments_cons_ok {argument : Lower Segment} {rest : List (Lower Segment)} {ty : Ty}
    {tys : List Ty} {r : Code × List Value}
    (h : arguments (argument :: rest) (ty :: tys) s = .ok r s') :
    ∃ code v more vs t, operandAs argument ty "argument" s = .ok (code, v) t ∧
      arguments rest tys t = .ok (more, vs) s' ∧ r = (code ++ more, v :: vs) := by
  simp only [arguments, bind_ok, pure_ok] at h
  obtain ⟨⟨code, v⟩, t, hv, ⟨more, vs⟩, t', hrest, rfl, rfl⟩ := h
  exact ⟨code, v, more, vs, t, hv, hrest, rfl⟩

lemma call_ok {callee : String} {args : List (Lower Segment)}
    (h : call env callee args s = .ok seg s') :
    ∃ signature code values t, env.functions.find? callee = some signature ∧
      signature.params.length = args.length ∧
      arguments args signature.params s = .ok (code, values) t ∧
      (signature.returnTy = .void ∧ t = s' ∧ seg = ⟨code ++ [.call none callee .void values], none⟩ ∨
        signature.returnTy ≠ .void ∧ t.drawn = s' ∧
          seg = ⟨code ++ [.call (some (.temp t.next signature.returnTy)) callee
            signature.returnTy values], some (.temp t.next signature.returnTy)⟩) := by
  simp only [call, bind_ok, ofScope_ok, FunctionTable.lookup] at h
  obtain ⟨signature, t, ⟨hfind, rfl⟩, h⟩ := h
  have hfound : env.functions.find? callee = some signature := by
    cases hf : env.functions.find? callee <;> simp_all
  split at h
  · rename_i harity
    obtain ⟨⟨code, values⟩, t, hargs, h⟩ := bind_ok.mp h
    refine ⟨signature, code, values, t, hfound, harity, hargs, ?_⟩
    split at h
    · simp only [bind_ok, ofLowering_ok, Instr.mkCall_ok, pure_ok] at h
      obtain ⟨_, _, ⟨rfl, rfl⟩, i, t', ⟨⟨hty, rfl⟩, rfl⟩, rfl, rfl⟩ := h
      have hret : signature.returnTy = .void := by simpa using hty.symm
      exact Or.inl ⟨hret, rfl, by rw [hret]⟩
    · rename_i hvoid
      simp only [bind_ok, newTemp_ok, ofLowering_ok, Instr.mkCall_ok, pure_ok] at h
      obtain ⟨v, u, ⟨rfl, rfl⟩, _, _, ⟨rfl, rfl⟩, i, t', ⟨⟨-, rfl⟩, rfl⟩, rfl, rfl⟩ := h
      refine Or.inr ⟨?_, rfl, rfl⟩
      intro hret
      simp [hret, Ty.isVoid] at hvoid
  · exact (throw_ok.mp h).elim

end Lower

end MiniC
