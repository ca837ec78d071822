import MiniC.Proofs.BlockStructure
import MiniC.Proofs.StmtRegions

/-!
# Blocks that run into the end of a function

All blocks of a function but the last end with a terminator. The last one does where the function
has no result, since a `return` is added to it, and else just where the last statement of the body
is a `return`, possibly inside of braces. That the body returns on every path is not enough: behind
an `if` whose parts both return, and behind statements that follow a `return`, stands a block that
nothing ends.
-/

namespace MiniC

namespace Stmt

mutual

/-- Whether the statement returns on every path, as far as its form tells. -/
def definitelyReturns : Stmt → Bool
  | .ret _ => true
  | .compound body => anyReturns body
  | .ifElse _ onTrue (some onFalse) => onTrue.definitelyReturns && onFalse.definitelyReturns
  | _ => false

/-- Whether one of the statements returns on every path. -/
def anyReturns : List Stmt → Bool
  | [] => false
  | x :: rest => x.definitelyReturns || anyReturns rest

end

mutual

/-- Whether the statement is a `return` or ends with one, inside of braces. -/
def endsWithReturn : Stmt → Bool
  | .ret _ => true
  | .compound body => lastReturns body
  | _ => false

/-- Whether the last of the statements is a `return` or ends with one. -/
def lastReturns : List Stmt → Bool
  | [] => false
  | x :: rest => if rest.isEmpty then x.endsWithReturn else lastReturns rest

end

lemma anyReturns_of_lastReturns {body : List Stmt}
    (hbody : ∀ x ∈ body, x.endsWithReturn = true → x.definitelyReturns = true)
    (h : lastReturns body = true) : anyReturns body = true := by
  induction body with
  | nil => cases h
  | cons x rest ih =>
    rw [lastReturns] at h
    rw [anyReturns, Bool.or_eq_true]
    split at h
    · exact .inl (hbody x List.mem_cons_self h)
    · exact .inr (ih (fun y hy => hbody y (List.mem_cons_of_mem x hy)) h)

lemma definitelyReturns_of_endsWithReturn (x : Stmt) (h : x.endsWithReturn = true) :
    x.definitelyReturns = true := by
  induction x using Stmt.induction with
  | ret value => rfl
  | compound body hbody =>
    rw [endsWithReturn] at h
    rw [definitelyReturns]
    exact anyReturns_of_lastReturns hbody h
  | _ => cases h

end Stmt

/-- Whether code comes to a terminator before the next label and before the end of the function. -/
def Code.Terminates (code : Code) : Prop :=
  ∃ body i rest, code = body ++ i :: rest ∧ i.isTerminator = true ∧
    ∀ j ∈ body, (∀ l, j ≠ .label l) ∧ j ≠ .functionEnd

/-- Whether all blocks of the code have a terminator. -/
def Code.BlocksTerminated (code : Code) : Prop :=
  ∀ before l after, code = before ++ .label l :: after → Terminates after

lemma Code.Terminates.append {code : Code} (h : Terminates code) (code' : Code) :
    Terminates (code ++ code') := by
  obtain ⟨body, i, rest, rfl, hi, hbody⟩ := h
  exact ⟨body, i, rest ++ code', by simp, hi, hbody⟩

/-- The code behind a label of a function, without its frame. -/
lemma Code.split_frame {code before after : Code} {name : String} {ty : Ty} {params : List Value}
    {l : Label} (h : .functionBegin name ty params :: code ++ [.functionEnd] =
      before ++ .label l :: after) :
    ∃ front back, code = front ++ .label l :: back ∧ after = back ++ [.functionEnd] := by
  cases before with
  | nil => cases h
  | cons i front =>
    obtain ⟨-, h⟩ := List.cons.inj h
    rcases List.append_eq_append_iff.mp h with ⟨more, rfl, hmore⟩ | ⟨more, rfl, hmore⟩
    · cases more with
      | nil => cases hmore
      | cons j more => cases more <;> cases hmore
    · cases more with
      | nil => cases hmore
      | cons j back =>
        obtain ⟨rfl, rfl⟩ := List.cons.inj hmore
        exact ⟨front, back, rfl, rfl⟩

namespace Fills

variable {before after opened : Bool} {code : Code}

/-- Behind a label, a block is open. -/
lemma behind_label {front back : Code} {l : Label}
    (h : Fills before (front ++ .label l :: back) after) : Fills true back after := by
  induction front generalizing before with
  | nil =>
    cases h with
    | ordinary hi => cases hi
    | terminator hi => cases hi
    | label l rest => exact rest
  | cons i front ih =>
    cases h with
    | ordinary hi rest => exact ih rest
    | terminator hi rest => exact ih rest
    | label l rest => exact ih rest

/-- An open block is closed before the next one begins. -/
lemma terminates (h : Fills opened code after) (hopen : opened = true)
    (hclosed : after = false ∨ ∃ l, .label l ∈ code) : Code.Terminates code := by
  induction h with
  | nil opened => simp [hopen] at hclosed
  | @ordinary i code after hi rest ih =>
    have hnext : ∀ l, i ≠ .label l := by
      rintro l rfl
      cases hi
    have hrest : after = false ∨ ∃ l, .label l ∈ code := by
      refine hclosed.imp_right fun ⟨l, hl⟩ => ⟨l, ?_⟩
      exact (List.mem_cons.mp hl).resolve_left (Ne.symm (hnext l))
    obtain ⟨body, j, more, rfl, hj, hbody⟩ := ih rfl hrest
    refine ⟨i :: body, j, more, rfl, hj, List.forall_mem_cons.mpr ⟨⟨hnext, ?_⟩, hbody⟩⟩
    rintro rfl
    cases hi
  | @terminator i code after hi rest ih => exact ⟨[], i, code, rfl, hi, by simp⟩
  | label l rest ih => cases hopen

/-- The blocks of a function all have terminators just if the last one is closed. -/
lemma blocksTerminated_iff {name : String} {ty : Ty} {params : List Value}
    (h : Fills false code after) :
    Code.BlocksTerminated (.functionBegin name ty params :: code ++ [.functionEnd]) ↔
      after = false := by
  constructor
  · intro hterminated
    obtain ⟨blocks, last, hcode, ⟨-, hclosed⟩ | ⟨-, l, body, rfl, hbody⟩⟩ := h.inBlocks
    · exact hclosed
    · -- all that stands behind the last label is ordinary, up to the end of the function
      obtain ⟨body', i, rest, heq, hi, -⟩ := hterminated
        (.functionBegin name ty params :: List.flatMap Block.code blocks) l (body ++ [.functionEnd])
        (by rw [hcode]; simp)
      have hmem : i ∈ body ++ [.functionEnd] := heq ▸ List.mem_append_right body' List.mem_cons_self
      rcases List.mem_append.mp hmem with hmem | hmem
      · rw [Instr.isTerminator_of_isOrdinary (hbody i hmem)] at hi
        cases hi
      · rw [List.mem_singleton.mp hmem] at hi
        cases hi
  · rintro rfl front l back hcode
    obtain ⟨front, back, rfl, rfl⟩ := Code.split_frame hcode
    exact (h.behind_label.terminates rfl (.inl rfl)).append _

end Fills

namespace Stmt

open Lower

variable {env : LowerEnv} {ctx : Context} {s s' : LowerState} {code : Code}

lemma lowerAll_endsWithTerminator_aux (helide : env.options.elideUnreachableJumps = true)
    {body : List Stmt}
    (hbody : ∀ x ∈ body, ∀ s code s', x.lower env ctx s = .ok code s' →
      Code.endsWithTerminator code = x.endsWithReturn)
    {before : Code} {opened : Bool} (hbefore : Fills true before opened)
    (h : lowerAll env body ctx before s = .ok code s') :
    Code.endsWithTerminator code =
      if body.isEmpty then Code.endsWithTerminator before else lastReturns body := by
  induction body generalizing before s opened with
  | nil =>
    obtain ⟨rfl, rfl⟩ := lowerAll_nil_ok h
    rfl
  | cons x rest ih =>
    obtain ⟨added, code', t, t', ho, hx, hrest⟩ := lowerAll_cons_ok h
    have hopen := openBlockAfter_fills hbefore ho
    obtain ⟨opened', hcode'⟩ := x.lower_fills helide ctx hx
    have hends := ih (fun y hy => hbody y (List.mem_cons_of_mem x hy)) (hopen.append hcode') hrest
    rw [Code.endsWithTerminator_append_eq hopen.endsWithTerminator_eq,
      hbody x List.mem_cons_self t code' t' hx] at hends
    simpa [lastReturns] using hends

lemma lowerAll_endsWithTerminator (helide : env.options.elideUnreachableJumps = true)
    {body : List Stmt}
    (hbody : ∀ x ∈ body, ∀ s code s', x.lower env ctx s = .ok code s' →
      Code.endsWithTerminator code = x.endsWithReturn)
    (h : lowerAll env body ctx [] s = .ok code s') :
    Code.endsWithTerminator code = lastReturns body := by
  have hends := lowerAll_endsWithTerminator_aux helide hbody (.nil true) h
  cases body with
  | nil => exact hends
  | cons x rest => exact hends

/-- Outside of loops, control leaves at the end of the code of a statement just if the statement
ends with a `return`. -/
lemma lower_endsWithTerminator (helide : env.options.elideUnreachableJumps = true) (x : Stmt)
    (hloop : ctx.loop = none) (h : x.lower env ctx s = .ok code s') :
    Code.endsWithTerminator code = x.endsWithReturn := by
  induction x using Stmt.induction generalizing ctx s code s' with
  | expression e =>
    obtain ⟨seg, he, rfl⟩ := lower_expression_ok h
    exact (e.lower_fills helide he).endsWithTerminator_eq
  | declaration ds => exact (declaration_fills helide h).endsWithTerminator_eq
  | compound body hbody =>
    refine lowerAll_endsWithTerminator helide ?_ (lower_compound_ok h)
    exact fun x hx s code s' h => hbody x hx (by exact hloop) h
  | ifElse condition onTrue onFalse =>
    -- a statement that places a label behind itself leaves a block open
    cases onFalse with
    | none =>
      obtain ⟨_, _, _, _, _, _, _, -, -, -, -, -, -, -, rfl⟩ := ifElse_none_ok h
      exact Code.endsWithTerminator_concat _ _
    | some onFalse =>
      obtain ⟨_, _, _, _, _, _, _, _, _, _, _, _, -, -, -, -, -, -, -, -, -, -, -, rfl⟩ :=
        ifElse_some_ok h
      exact Code.endsWithTerminator_concat _ _
  | whileLoop condition body =>
    obtain ⟨_, _, _, _, _, _, _, _, -, -, -, -, -, -, -, rfl⟩ := whileLoop_ok h
    exact Code.endsWithTerminator_concat _ _
  | forLoop init condition step body =>
    cases init <;>
    · rw [lower] at h
      obtain ⟨_, _, _, _, _, _, _, _, _, _, _, _, _, _, -, -, -, -, -, -, -, -, -, -, -, rfl⟩ :=
        forLoop_ok h
      exact Code.endsWithTerminator_concat _ _
  | ret value =>
    rcases ret_ok h with ⟨-, -, -, rfl⟩ | ⟨_, _, _, _, _, _, -, -, -, -, rfl⟩
    · rfl
    · exact Code.endsWithTerminator_concat _ _
  | brk =>
    obtain ⟨l, hl, -⟩ := leave_ok h
    simp [hloop] at hl
  | cont =>
    obtain ⟨l, hl, -⟩ := leave_ok h
    simp [hloop] at hl

end Stmt

/-- The last block of a function is closed where the function has no result or its body ends with a
`return`. -/
lemma Definition.Lowered.fills_of_body {d : Definition} {env : LowerEnv} {seg : Segment}
    (w : d.Lowered env seg) (helide : env.options.elideUnreachableJumps = true) :
    ∃ code opened, d.wholeCode env w.paramCode w.body =
        .functionBegin d.name d.returnTy env.params :: code ++ [.functionEnd] ∧
      Fills false code opened ∧
      (opened = false ↔ env.returnTy = .void ∨ Stmt.lastReturns d.body = true) := by
  obtain ⟨code, opened, hwhole, hfills, hvoid⟩ := w.fills helide
  refine ⟨code, opened, hwhole, hfills, ?_⟩
  by_cases hret : env.returnTy = .void
  · simpa [hret] using hvoid
  · have hcode : code = .label env.entry :: w.paramCode ++ w.body := by
      have hending : Lower.ending env.returnTy (d.frame env w.paramCode w.body) = [] := by
        simp [Lower.ending, hret]
      rw [wholeCode, hending, List.append_nil, frame] at hwhole
      exact (List.cons.inj (List.append_cancel_right hwhole)).2.symm
    have hbody : Code.endsWithTerminator w.body = Stmt.lastReturns d.body :=
      Stmt.lowerAll_endsWithTerminator helide
        (fun x _ s code s' h => x.lower_endsWithTerminator helide rfl h) w.body_ok
    have hparams : Fills false (.label env.entry :: w.paramCode) true :=
      .label env.entry (Lower.paramSlots_fills w.params_ok)
    obtain ⟨hnil, -⟩ | ⟨-, hopen⟩ := hparams.endsWithTerminator_or
    · cases hnil
    · obtain ⟨hnil, -⟩ | ⟨-, hends⟩ := hfills.endsWithTerminator_or
      · rw [hcode] at hnil
        cases hnil
      · rw [hcode, Code.endsWithTerminator_append_eq hopen, hbody] at hends
        simp [hret, hends]

/-- In code of a function, every block but the last has a terminator. All of them do just if the
function has no result or its body ends with a `return`, which is one way to return on every path.
-/
theorem Compiler.lowerDefinition_terminated {c : Compiler} {d : Definition} {seg : Segment}
    (helide : c.options.elideUnreachableJumps = true)
    (h : (c.lowerDefinition d).result = .ok seg) :
    (∀ before l after, seg.instructions = before ++ .label l :: after →
      (∃ l', .label l' ∈ after) → Code.Terminates after) ∧
    (Code.BlocksTerminated seg.instructions ↔
      d.returnTy = .void ∨ Stmt.lastReturns d.body = true) ∧
    (Stmt.lastReturns d.body = true → Stmt.anyReturns d.body = true) := by
  obtain ⟨env, henv, w, -⟩ := lowerDefinition_lowered h
  have hret : env.returnTy = d.returnTy := by rw [henv]; rfl
  have helide' : env.options.elideUnreachableJumps = true := by rw [henv]; exact helide
  obtain ⟨code, opened, hwhole, hfills, hopened⟩ := w.fills_of_body helide'
  have hresolved := hfills.relabel w.final.labels.named
  have hseg : seg.instructions = .functionBegin d.name d.returnTy env.params ::
      code.map (Instr.relabel w.final.labels.named) ++ [.functionEnd] := by
    rw [w.code, hwhole, List.map_append, List.map_cons]
    rfl
  rw [hseg]
  refine ⟨fun before l after hcode ⟨l', hl'⟩ => ?_, ?_, ?_⟩
  · obtain ⟨front, back, hback, rfl⟩ := Code.split_frame hcode
    rw [hback] at hresolved
    have hmem : .label l' ∈ back := by simpa using hl'
    exact (hresolved.behind_label.terminates rfl (.inr ⟨l', hmem⟩)).append _
  · rw [hresolved.blocksTerminated_iff, hopened, hret]
  · exact Stmt.anyReturns_of_lastReturns fun x _ => x.definitelyReturns_of_endsWithReturn

theorem sumUpTo_blocks_closed : ∃ seg,
    (Compiler.lowerDefinition {} Definition.sumUpTo).result = .ok seg ∧
      Stmt.anyReturns Definition.sumUpTo.body = true ∧ Code.BlocksTerminated seg.instructions := by
  obtain ⟨seg, h⟩ := Definition.sumUpTo_accepted
  obtain ⟨-, hblocks, hreturns⟩ := Compiler.lowerDefinition_terminated rfl h
  have hlast : Stmt.lastReturns Definition.sumUpTo.body = true := by decide
  exact ⟨seg, h, hreturns hlast, hblocks.mpr (.inr hlast)⟩

/-- A choice between two results. -/
def Definition.choice : Definition where
  name := "f"
  returnTy := .i32
  params := [⟨"a", .i32⟩]
  body := [.ifElse (.boolCast (.var "a")) (.ret (some (.int 1))) (some (.ret (some (.int 2))))]

/-- The code of the choice, with a label behind the two results that no terminator follows. -/
def Code.choice : Code := [
  .functionBegin "f" .i32 [.temp 0 .i32],
  .label (.fixed 0 1),
  .alloca (.slot 2 .i32) 4,
  .store (.temp 0 .i32) (.slot 2 .i32) 4,
  .load (.temp 3 .i32) (.slot 2 .i32) 4,
  .icmp (.temp 4 .bool) .ne (.temp 3 .i32) (.int 0 .i32),
  .branch (.temp 4 .bool) (.fixed 1 5) (.fixed 2 6),
  .label (.fixed 1 5),
  .ret (some (.int 1 .i32)),
  .label (.fixed 2 6),
  .ret (some (.int 2 .i32)),
  .label (.fixed 3 7),
  .functionEnd]

/-- A function that returns on both ways of an `if` ends with a block without a terminator. -/
theorem choice_unterminated :
    parseSource "int f(int a) \x7b if (a) return 1; else return 2; \x7d" = .ok [Definition.choice] ∧
      Stmt.anyReturns Definition.choice.body = true ∧ ∃ seg,
        compileSource {} "int f(int a) \x7b if (a) return 1; else return 2; \x7d" = .ok [seg] ∧
          ¬Code.BlocksTerminated seg.instructions := by
  refine ⟨by cbv, by decide, ⟨Code.choice, none⟩, by decide +kernel, fun h => ?_⟩
  obtain ⟨body, i, rest, hcode, hi, -⟩ := h (Code.choice.take 11) (.fixed 3 7) [.functionEnd] rfl
  have hmem : i ∈ [Instr.functionEnd] := hcode ▸ List.mem_append_right body List.mem_cons_self
  rw [List.mem_singleton.mp hmem] at hi
  cases hi

end MiniC
