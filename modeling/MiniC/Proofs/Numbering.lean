import MiniC.Proofs.Markers

/-!
# Dense numbering

Parameters, slots, temporaries and blocks share one counter. In the order of the text, the code of a
function defines the numbers 0, 1, 2 and so on, each once and none left out.
-/

namespace MiniC

/-- The numbers that code defines, in the order of its text. -/
def Code.definitions (code : Code) : List (Option Nat) := code.flatMap Instr.definitions

namespace Code

@[simp] lemma definitions_append (code code' : Code) :
    definitions (code ++ code') = definitions code ++ definitions code' :=
  List.flatMap_append

lemma definitions_cons (i : Instr) (code : Code) :
    definitions (i :: code) = i.definitions ++ definitions code := rfl

end Code

/-- Other labels in an instruction that is no marker change no definition. -/
lemma Instr.definitions_relabel {f : Label → Label} {i : Instr} (h : ∀ l ∈ i.marker?, f l = l) :
    (i.relabel f).definitions = i.definitions := by
  cases i with
  | label l => rw [relabel_label, h l rfl]
  | phi result incoming => rw [relabel_phi]; rfl
  | _ => rfl

lemma Code.definitions_relabel {f : Label → Label} {code : Code} (h : ∀ l ∈ markers code, f l = l) :
    definitions (code.map (Instr.relabel f)) = definitions code := by
  induction code with
  | nil => rfl
  | cons i rest ih =>
    have hi : ∀ l ∈ i.marker?, f l = l := by
      intro l hl
      exact h l (List.mem_filterMap.mpr ⟨i, List.mem_cons_self, hl⟩)
    have hrest : ∀ l ∈ markers rest, f l = l := by
      intro l hl
      obtain ⟨j, hj, hjl⟩ := List.mem_filterMap.mp hl
      exact h l (List.mem_filterMap.mpr ⟨j, List.mem_cons_of_mem i hj, hjl⟩)
    rw [List.map_cons, definitions_cons, definitions_cons, Instr.definitions_relabel hi, ih hrest]

/-- Emitted code defines exactly the numbers that were drawn for it, in order. -/
theorem Emits.definitions_eq {s s' : LowerState} {code : Code} (h : Emits s code s') :
    ∃ count, s'.next = s.next + count ∧
      code.definitions = (List.range' s.next count).map some := by
  induction h with
  | quiet next labels block => exact ⟨0, next, rfl⟩
  | allocate s => exact ⟨0, rfl, rfl⟩
  | place s id pending => exact ⟨1, rfl, rfl⟩
  | instr i count unmarked known numbers next labels block =>
    refine ⟨count, next, ?_⟩
    rw [Code.definitions_cons, numbers]
    exact List.append_nil _
  | append first second ih₁ ih₂ =>
    obtain ⟨m, hm, hfirst⟩ := ih₁
    obtain ⟨n, hn, hsecond⟩ := ih₂
    refine ⟨m + n, by omega, ?_⟩
    rw [Code.definitions_append, hfirst, hsecond, hm, ← List.map_append, List.range'_append_1]

lemma Emits.next_le {s s' : LowerState} {code : Code} (h : Emits s code s') : s.next ≤ s'.next := by
  obtain ⟨count, hcount, -⟩ := h.definitions_eq
  omega

namespace Lower

variable {s s' : LowerState} {env : LowerEnv} {scope : ScopeId} {ctx : Context} {code : Code}

/-- Whether a lowering only draws numbers and gives none back. -/
def CodeDraws (x : Lower Code) : Prop := ∀ ⦃s code s'⦄, x s = .ok code s' → s.next ≤ s'.next

lemma branchOn_draws {condition : Expr} {onTrue onFalse : Label} :
    CodeDraws (branchOn (condition.lower env scope) onTrue onFalse) := by
  intro s code s' h
  obtain ⟨test, v, hv, -, -⟩ := branchOn_ok h
  exact (operandAs_emits condition.lower_emits hv).next_le

lemma ifElse_none_draws {condition : Expr} {onTrue : Lower Code} (htrue : CodeDraws onTrue) :
    CodeDraws (ifElse env (condition.lower env scope) onTrue none) := by
  intro s code s' h
  obtain ⟨test, trueCode, jump, t, t₁, log, n, -, htest, -, ht, -, -, rfl, -⟩ := ifElse_none_ok h
  have h₁ := branchOn_draws htest
  have h₂ := htrue ht
  simp only [LowerState.allocated_next, LowerState.placed_next, LowerState.logged_next] at h₁ h₂ ⊢
  omega

lemma ifElse_some_draws {condition : Expr} {onTrue onFalse : Lower Code} (htrue : CodeDraws onTrue)
    (hfalse : CodeDraws onFalse) :
    CodeDraws (ifElse env (condition.lower env scope) onTrue (some onFalse)) := by
  intro s code s' h
  obtain ⟨test, trueCode, trueJump, falseCode, falseJump, t, t₁, t₂, log₁, log₂, n, m, -, htest, -,
    ht, -, -, hf, -, -, -, rfl, -⟩ := ifElse_some_ok h
  have h₁ := branchOn_draws htest
  have h₂ := htrue ht
  have h₃ := hfalse hf
  simp only [LowerState.allocated_next, LowerState.placed_next, LowerState.logged_next] at h₁ h₂ h₃ ⊢
  omega

lemma whileLoop_draws {condition : Expr} {body : Context → Lower Code}
    (hbody : ∀ ctx, CodeDraws (body ctx)) :
    CodeDraws (whileLoop env ctx (condition.lower env scope) body) := by
  intro s code s' h
  obtain ⟨test, bodyCode, back, t, t₁, log₀, log, n, -, htest, -, hb, -, -, rfl, -⟩ :=
    whileLoop_ok h
  have h₁ := branchOn_draws htest
  have h₂ := hbody _ hb
  simp only [LowerState.allocated_next, LowerState.placed_next, LowerState.logged_next] at h₁ h₂ ⊢
  omega

lemma stepAfter_draws {step : Option Expr} :
    CodeDraws (stepAfter code (step.map fun e => e.lower env scope)) := by
  intro s code' s' h
  obtain ⟨added, -, hadded⟩ :=
    stepAfter_emits (Option.forall_mem_map.mpr fun e _ => e.lower_emits) h
  exact hadded.next_le

lemma loopTest_draws {condition : Option Expr} {bodyLabel exitLabel : Label} :
    CodeDraws (loopTest env code (condition.map fun e => e.lower env scope) bodyLabel exitLabel) := by
  intro s code' s' h
  rcases loopTest_ok h with ⟨-, ⟨log, rfl⟩, -⟩ | ⟨c, hc, htest⟩
  · exact Nat.le_refl _
  · obtain ⟨e, -, rfl⟩ := Option.map_eq_some_iff.mp hc
    exact branchOn_draws htest

lemma forLoop_draws {init : Option (Context → Lower Code)}
    (hinit : ∀ x ∈ init, ∀ ctx, CodeDraws (x ctx)) {condition step : Option Expr}
    {body : Context → Lower Code} (hbody : ∀ ctx, CodeDraws (body ctx)) :
    CodeDraws (forLoop env ctx init (condition.map fun e scope => e.lower env scope)
      (step.map fun e scope => e.lower env scope) body) := by
  intro s code s' h
  obtain ⟨initCode, entering, test, bodyCode, stepped, back, t₀, t, t₁, t₂, log₀, log, n, scope,
    -, hi, -, -, htest, -, hb, hst, -, -, rfl, -⟩ := forLoop_ok h
  rw [Option.map_map] at htest hst
  have h₀ : s.next ≤ t₀.next := by
    rcases initial_ok hi with ⟨-, -, rfl⟩ | ⟨x, rfl, hx⟩
    · exact Nat.le_refl _
    · have hdraws := hinit x rfl _ hx
      exact hdraws
  have h₁ := loopTest_draws htest
  have h₂ := hbody _ hb
  have h₃ := stepAfter_draws hst
  simp only [LowerState.allocated_next, LowerState.placed_next, LowerState.logged_next] at h₁ h₂ ⊢
  omega

end Lower

namespace Stmt

open Lower

variable {env : LowerEnv}

lemma lowerAll_draws {body : List Stmt} {ctx : Context}
    (hbody : ∀ x ∈ body, CodeDraws (x.lower env ctx)) (before : Code) :
    CodeDraws (lowerAll env body ctx before) := by
  induction body generalizing before with
  | nil =>
    intro s code s' h
    obtain ⟨-, rfl⟩ := lowerAll_nil_ok h
    exact Nat.le_refl _
  | cons x rest ih =>
    intro s code s' h
    obtain ⟨opened, added, t, t', ho, hx, hrest⟩ := lowerAll_cons_ok h
    have h₁ := (openBlockAfter_emits ho).next_le
    have h₂ := hbody x List.mem_cons_self hx
    have h₃ := ih (fun y hy => hbody y (List.mem_cons_of_mem x hy)) _ hrest
    omega

/-- Statements only draw numbers. -/
theorem lower_draws (x : Stmt) : ∀ ctx, CodeDraws (x.lower env ctx) := by
  induction x using Stmt.induction with
  | expression e =>
    intro ctx s code s' h
    obtain ⟨seg, he, -⟩ := lower_expression_ok h
    exact (e.lower_emits he).next_le
  | declaration ds =>
    intro ctx s code s' h
    exact (declaration_emits h).next_le
  | compound body hbody =>
    intro ctx s code s' h
    have hdraws := lowerAll_draws (fun x hx => hbody x hx _) [] (lower_compound_ok h)
    exact hdraws
  | ifElse condition onTrue onFalse htrue hfalse =>
    intro ctx
    cases onFalse with
    | none => exact ifElse_none_draws (htrue ctx)
    | some onFalse => exact ifElse_some_draws (htrue ctx) (hfalse onFalse rfl ctx)
  | whileLoop condition body hbody =>
    intro ctx
    exact whileLoop_draws hbody
  | forLoop init condition step body hinit hbody =>
    intro ctx
    cases init with
    | none =>
      rw [lower]
      exact forLoop_draws (by simp) hbody
    | some init =>
      rw [lower]
      refine forLoop_draws ?_ hbody
      rintro x ⟨⟩
      exact hinit init rfl
  | ret value =>
    intro ctx s code s' h
    exact (ret_emits (Option.forall_mem_map.mpr fun e _ => e.lower_emits) h).next_le
  | brk | cont =>
    intro ctx s code s' h
    obtain ⟨l, -, rfl, -⟩ := leave_ok h
    exact Nat.le_refl _

end Stmt

/-- The parameters of a function have the first numbers. -/
lemma LowerEnv.definitions_params (functions : FunctionTable) (options : Options) (s : Signature) :
    (ofSignature functions options s).params.map Value.id? =
      (List.range (ofSignature functions options s).params.length).map some := by
  have hid : Value.id? ∘ (fun p : Ty × Nat => Value.temp p.2 p.1) = some ∘ Prod.snd := rfl
  rw [ofSignature, List.length_map, List.length_zipIdx, List.map_map, hid, ← List.map_map,
    List.zipIdx_map_snd, List.range_eq_range']

/-- A function whose parameters have the first numbers goes on with the number of its first block. -/
lemma Definition.Lowered.definitions_eq {d : Definition} {env : LowerEnv} {seg : Segment}
    (w : d.Lowered env seg)
    (hparams : env.params.map Value.id? = (List.range env.params.length).map some) :
    ∃ count, Code.definitions seg.instructions = (List.range count).map some := by
  obtain ⟨count, -, hcode⟩ := w.emits.definitions_eq
  have hending : ∀ code, Code.definitions (Lower.ending env.returnTy code ++ [.functionEnd]) = [] := by
    intro code
    rw [Lower.ending]
    split <;> rfl
  have hlabels : ∀ l ∈ Code.markers (d.wholeCode env w.paramCode w.body),
      w.final.labels.named l = l := by
    rw [w.wholeCode_markers]
    exact fun l => w.named_marker
  refine ⟨env.params.length + (1 + count), ?_⟩
  rw [w.code, Code.definitions_relabel hlabels, wholeCode, List.append_assoc,
    Code.definitions_append, hending, List.append_nil, frame, List.cons_append,
    List.cons_append, Code.definitions_cons, Code.definitions_cons, hcode, w.entry]
  change env.params.map Value.id? ++ (some env.params.length ::
    (List.range' (env.params.length + 1) count).map some) = _
  rw [hparams, List.range_eq_range', List.range_eq_range', ← List.range'_append_1, Nat.zero_add,
    Nat.add_comm 1 count, List.range'_succ, List.map_append, List.map_cons]

lemma Code.nodup_of_dense {code : Code} {count : Nat}
    (h : definitions code = (List.range count).map some) : (definitions code).Nodup := by
  rw [h]
  exact List.nodup_range.map (Option.some_injective Nat)

/-- The definitions of a function are numbered densely in the order of its text: its parameters, its
blocks, its slots and its temporaries together. -/
theorem Compiler.lowerDefinition_definitions {c : Compiler} {d : Definition} {seg : Segment}
    (h : (c.lowerDefinition d).result = .ok seg) :
    ∃ count, Code.definitions seg.instructions = (List.range count).map some := by
  obtain ⟨env, henv, w, -⟩ := lowerDefinition_lowered h
  refine w.definitions_eq ?_
  rw [henv]
  exact LowerEnv.definitions_params _ _ _

theorem sumUpTo_definitions_dense : ∃ seg,
    (Compiler.lowerDefinition {} Definition.sumUpTo).result = .ok seg ∧
      ∃ count, Code.definitions seg.instructions = (List.range count).map some := by
  obtain ⟨seg, h⟩ := Definition.sumUpTo_accepted
  exact ⟨seg, h, Compiler.lowerDefinition_definitions h⟩

end MiniC
