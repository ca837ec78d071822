import MiniC.Proofs.ErrorKinds
import MiniC.Proofs.Numbering

/-!
# Labels are placed once

A construct allocates its labels before it needs them and places each of them once, in the order in
which it allocated them. `Owes s₀ ids s` says which labels that were allocated since `s₀` still wait
for their block. Constructs owe nothing in the end, so a label is never placed twice or left out, and
lowering does not fail because of one.
-/

namespace MiniC

/-- The labels that were allocated since `s₀` and have no name in `s` are `ids`, the oldest first. The
labels of `s₀` are as they were. -/
structure Owes (s₀ : LowerState) (ids : List Nat) (s : LowerState) : Prop where
  nodup : ids.Nodup
  size_le : s₀.labels.size ≤ s.labels.size
  kept : ∀ id < s₀.labels.size, s.labels.names[id]? = s₀.labels.names[id]?
  recent : ∀ id ∈ ids, s₀.labels.size ≤ id
  owed : ∀ id, s₀.labels.size ≤ id → (s.labels.names[id]? = some none ↔ id ∈ ids)

namespace Owes

variable {s₀ s s' : LowerState} {ids : List Nat}

lemma of_labels_eq (h : s'.labels = s.labels) : Owes s [] s' where
  nodup := List.nodup_nil
  size_le := Nat.le_of_eq (congrArg LabelTable.size h.symm)
  kept id _ := by rw [h]
  recent id hid := by cases hid
  owed id hid := by
    rw [h, List.getElem?_eq_none hid]
    simp

lemma lt_size (h : Owes s₀ ids s) {id : Nat} (hid : id ∈ ids) : id < s.labels.size := by
  have hnone := (h.owed id (h.recent id hid)).mpr hid
  exact (List.getElem?_eq_some_iff.mp hnone).1

lemma trans (h : Owes s₀ ids s) (h' : Owes s [] s') : Owes s₀ ids s' where
  nodup := h.nodup
  size_le := Nat.le_trans h.size_le h'.size_le
  kept id hid := by rw [h'.kept id (Nat.lt_of_lt_of_le hid h.size_le), h.kept id hid]
  recent := h.recent
  owed id hid := by
    by_cases hlt : id < s.labels.size
    · rw [h'.kept id hlt, h.owed id hid]
    · have hnew : id ∉ ids := fun hmem => hlt (h.lt_size hmem)
      have hnone := (h'.owed id (Nat.le_of_not_lt hlt)).not.mpr List.not_mem_nil
      exact iff_of_false hnone hnew

lemma allocate (h : Owes s₀ ids s) : Owes s₀ (ids ++ [s.labels.size]) s.allocated where
  nodup := by
    refine List.nodup_append.mpr ⟨h.nodup, List.nodup_singleton _, ?_⟩
    intro id hid id' hid'
    rw [List.mem_singleton.mp hid']
    exact Nat.ne_of_lt (h.lt_size hid)
  size_le := by
    rw [LowerState.allocated_size]
    exact Nat.le_succ_of_le h.size_le
  kept id hid := by
    have hlt : id < s.labels.size := Nat.lt_of_lt_of_le hid h.size_le
    rw [LowerState.getElem?_allocated, if_neg (Nat.ne_of_lt hlt), h.kept id hid]
  recent id hid := by
    rcases List.mem_append.mp hid with hid | hid
    · exact h.recent id hid
    · rw [List.mem_singleton.mp hid]
      exact h.size_le
  owed id hid := by
    rw [LowerState.getElem?_allocated, List.mem_append, ← h.owed id hid, List.mem_singleton]
    by_cases hnew : id = s.labels.size <;> simp [hnew]

/-- The oldest label is placed. -/
lemma place {id : Nat} (h : Owes s₀ (id :: ids) s) : Owes s₀ ids (s.placed (.pending id)) where
  nodup := (List.nodup_cons.mp h.nodup).2
  size_le := by
    rw [LowerState.placed_size]
    exact h.size_le
  kept id' hid' := by
    have hne : id ≠ id' := by
      have := h.recent id List.mem_cons_self
      omega
    rw [← h.kept id' hid']
    exact List.getElem?_set_ne hne
  recent id' hid' := h.recent id' (List.mem_cons_of_mem id hid')
  owed id' hid' := by
    have hget : (s.placed (.pending id)).labels.names[id']? =
      (s.labels.names.set id (some s.next))[id']? := rfl
    rw [hget]
    by_cases heq : id = id'
    · rw [← heq, List.getElem?_set_self (h.lt_size List.mem_cons_self)]
      simp [(List.nodup_cons.mp h.nodup).1]
    · rw [List.getElem?_set_ne heq, h.owed id' hid', List.mem_cons]
      simp [Ne.symm heq]

end Owes

namespace Lower

variable {α β : Type} {s : LowerState} {env : LowerEnv}

/-- Whether a step from `s` ends with `Q`, if it does not fail for a reason other than a label. -/
def Yields (x : Lower α) (s : LowerState) (Q : α → LowerState → Prop) : Prop :=
  match x s with
  | .ok a s' => Q a s'
  | .error e _ => e.concernsLabels = false

lemma Yields.bind {x : Lower α} {f : α → Lower β} {P : α → LowerState → Prop}
    {Q : β → LowerState → Prop} (hx : Yields x s P) (hf : ∀ a t, P a t → Yields (f a) t Q) :
    Yields (x >>= f) s Q := by
  have hbind : (x >>= f) s = EStateM.bind x f s := rfl
  rw [Yields, hbind, EStateM.bind]
  rw [Yields] at hx
  cases hrun : x s with
  | ok a t =>
    rw [hrun] at hx
    exact hf a t hx
  | error e t =>
    rw [hrun] at hx
    exact hx

lemma Yields.pure {a : α} {Q : α → LowerState → Prop} (h : Q a s) :
    Yields (Pure.pure a) s Q := h

lemma Yields.mono {x : Lower α} {P Q : α → LowerState → Prop} (hx : Yields x s P)
    (h : ∀ a t, P a t → Q a t) : Yields x s Q := by
  rw [Yields] at hx ⊢
  cases hrun : x s with
  | ok a t =>
    rw [hrun] at hx
    exact h a t hx
  | error e t =>
    rw [hrun] at hx
    exact hx

/-- Whether a step places all labels that it allocates and no other, and does not fail because of a
label. -/
def Settles (x : Lower α) : Prop := ∀ s, Yields x s fun _ s' => Owes s [] s'

namespace Settles

lemma pure (a : α) : Settles (Pure.pure a : Lower α) := fun _ => Owes.of_labels_eq rfl

lemma throw {e : CompileError} (he : e.concernsLabels = false) : Settles (throw e : Lower α) :=
  fun _ => he

lemma bind {x : Lower α} {f : α → Lower β} (hx : Settles x) (hf : ∀ a, Settles (f a)) :
    Settles (x >>= f) := by
  intro s
  refine (hx s).bind fun a t ht => ?_
  exact (hf a t).mono fun _ _ => ht.trans

lemma ite {p : Prop} [Decidable p] {x y : Lower α} (hx : Settles x) (hy : Settles y) :
    Settles (if p then x else y) := by
  split
  · exact hx
  · exact hy

lemma ofLowering {x : Except LoweringError α} (hx : RaisesOnly LoweringError.concernsOperands x) :
    Settles (ofLowering x) := by
  cases x with
  | ok a => exact pure a
  | error e => exact throw (LoweringError.concernsLabels_of_operands (hx e rfl))

lemma ofScope (x : Except ScopeError α) : Settles (ofScope x) := by
  cases x with
  | ok a => exact pure a
  | error e => exact throw rfl

/-- A step that cannot fail and leaves labels alone. -/
lemma of_ok {x : Lower α} {f : LowerState → α} {g : LowerState → LowerState}
    (hx : ∀ s, x s = .ok (f s) (g s)) (hg : ∀ s, (g s).labels = s.labels) : Settles x := by
  intro s
  rw [Yields, hx s]
  exact Owes.of_labels_eq (hg s)

lemma emit (e : Event) : Settles (emit e) := of_ok (fun _ => rfl) fun _ => rfl

lemma newTemp (ty : Ty) : Settles (newTemp ty) := of_ok (fun _ => rfl) fun _ => rfl

lemma newSlot (ty : Ty) : Settles (newSlot ty) := of_ok (fun _ => rfl) fun _ => rfl

lemma openScope (parent : ScopeId) : Settles (openScope parent) := of_ok (fun _ => rfl) fun _ => rfl

lemma currentBlock : Settles currentBlock := of_ok (fun _ => rfl) fun _ => rfl

lemma lookup (scope : ScopeId) (name : String) : Settles (lookup scope name) :=
  bind (of_ok (fun _ => rfl) fun _ => rfl) fun _ => ofScope _

lemma jumpAfter (code : Code) (target : Label) : Settles (jumpAfter env code target) :=
  ite (bind (emit _) fun _ => pure _) (pure _)

lemma load (slot : Value) : Settles (load env slot) :=
  bind (newTemp _) fun _ => bind (ofLowering (.mkLoad _ _ _)) fun _ => pure _

lemma store (value slot : Value) : Settles (store env value slot) :=
  bind (ofLowering (.mkStore _ _ _)) fun _ => pure _

lemma declareSlot (scope : ScopeId) (name : String) (ty : Ty) :
    Settles (declareSlot env scope name ty) := by
  refine bind (newSlot ty) fun slot => ?_
  refine bind (of_ok (fun _ => rfl) fun _ => rfl) fun t => ?_
  refine bind (ofScope _) fun scopes => bind (of_ok (fun _ => rfl) fun _ => rfl) fun _ => ?_
  exact bind (ofLowering (.mkAlloca _ _)) fun _ => pure _

lemma coerce (value : Value) (target : Ty) (context : String) :
    Settles (coerce value target context) := by
  refine ite (pure _) (ite (bind (ofLowering (.retypeLiteral _ _ _)) fun _ => pure _) (ite ?_ ?_))
  · exact bind (newTemp _) fun _ => bind (ofLowering (.mkZext _ _)) fun _ => pure _
  · exact throw rfl

lemma operand {x : Lower Segment} (hx : Settles x) (context : String) :
    Settles (operand x context) := by
  refine bind hx fun seg => ?_
  cases seg.result with
  | none => exact throw rfl
  | some v => exact pure _

lemma operandAs {x : Lower Segment} (hx : Settles x) (ty : Ty) (context : String) :
    Settles (operandAs x ty context) :=
  bind (operand hx _) fun _ => bind (coerce _ _ _) fun _ => pure _

end Settles

/-- The next label is owed behind those that are owed already. -/
lemma newLabel_yields {s₀ : LowerState} {ids : List Nat} (h : Owes s₀ ids s) :
    Yields newLabel s fun l s' => ∃ id, l = .pending id ∧ Owes s₀ (ids ++ [id]) s' :=
  ⟨s.labels.size, rfl, h.allocate⟩

/-- The label that is owed longest can be placed. -/
lemma placeLabel_yields {s₀ : LowerState} {id : Nat} {ids : List Nat} (h : Owes s₀ (id :: ids) s) :
    Yields (placeLabel (.pending id)) s fun _ s' => Owes s₀ ids s' := by
  have hid : id ∈ id :: ids := List.mem_cons_self
  have hpending := (h.owed id (h.recent id hid)).mpr hid
  have hrun : placeLabel (.pending id) s = .ok _ _ :=
    placeLabel_ok.mpr ⟨⟨id, rfl, hpending⟩, rfl, rfl⟩
  rw [Yields, hrun]
  exact h.place

/-- A step that settles in the middle of a construct changes nothing of what the construct owes. -/
lemma Settles.yields {x : Lower α} (hx : Settles x) {s₀ : LowerState} {ids : List Nat}
    (h : Owes s₀ ids s) : Yields x s fun _ s' => Owes s₀ ids s' :=
  (hx s).mono fun _ _ => h.trans

namespace Settles

lemma arm {x : Lower Segment} (hx : Settles x) (keepBoolean : Bool) :
    Settles (arm keepBoolean x) :=
  bind (operand hx _) fun _ => ite (bind (coerce _ _ _) fun _ => pure _) (pure _)

/-- The labels of a conditional are placed one behind the other, as the arms settle theirs. -/
lemma conditional {condition onTrue onFalse : Lower Segment} (hcond : Settles condition)
    (htrue : Settles onTrue) (hfalse : Settles onFalse) (keepBoolean : Bool) :
    Settles (conditional env keepBoolean condition onTrue onFalse) := by
  intro s
  refine (operandAs hcond _ _ s).bind fun ⟨test, v⟩ t h => ?_
  refine (newLabel_yields h).bind ?_
  rintro _ t ⟨trueId, rfl, h⟩
  refine (newLabel_yields h).bind ?_
  rintro _ t ⟨falseId, rfl, h⟩
  refine (newLabel_yields h).bind ?_
  rintro _ t ⟨joinId, rfl, h⟩
  refine ((ofLowering (.mkBranch _ _ _)).yields h).bind fun branch t h => ?_
  refine (placeLabel_yields h).bind fun trueMark t h => ?_
  refine ((arm htrue _).yields h).bind fun ⟨trueCode, trueValue⟩ t h => ?_
  refine (currentBlock.yields h).bind fun trueBlock t h => ?_
  refine ((jumpAfter _ _).yields h).bind fun trueJump t h => ?_
  refine (placeLabel_yields h).bind fun falseMark t h => ?_
  refine ((arm hfalse _).yields h).bind fun ⟨falseCode, falseValue⟩ t h => ?_
  refine (currentBlock.yields h).bind fun falseBlock t h => ?_
  refine ((jumpAfter _ _).yields h).bind fun falseJump t h => ?_
  refine (placeLabel_yields h).bind fun joinMark t h => ?_
  refine Settles.yields ?_ h
  refine bind (ofLowering (.retypeLiteral _ _ _)) fun trueValue => ?_
  refine bind (ofLowering (.retypeLiteral _ _ _)) fun falseValue => bind (newTemp _) fun result => ?_
  exact bind (ofLowering (.mkPhi _ _)) fun phi => pure _

lemma arguments {args : List (Lower Segment)} (hargs : ∀ x ∈ args, Settles x) (tys : List Ty) :
    Settles (arguments args tys) := by
  induction args generalizing tys with
  | nil => exact pure _
  | cons x rest ih =>
    cases tys with
    | nil => exact pure _
    | cons ty tys =>
      refine bind (operandAs (hargs x List.mem_cons_self) _ _) fun first => ?_
      exact bind (ih (fun y hy => hargs y (List.mem_cons_of_mem x hy)) tys) fun more => pure _

lemma call (callee : String) {args : List (Lower Segment)} (hargs : ∀ x ∈ args, Settles x) :
    Settles (call env callee args) := by
  refine bind (ofScope _) fun signature => ite ?_ (throw rfl)
  refine bind (arguments hargs _) fun values => ?_
  have hcall : ∀ result, Settles (do
      let i ← Lower.ofLowering (Instr.mkCall result callee signature.returnTy values.2)
      return (⟨values.1 ++ [i], result⟩ : Segment)) :=
    fun result => bind (ofLowering (.mkCall _ _ _ _)) fun _ => pure _
  exact ite (bind (pure none) hcall) (bind (newTemp _) fun v => bind (pure (some v)) hcall)

end Settles

end Lower

open Lower in
theorem Expr.lower_settles {env : LowerEnv} {scope : ScopeId} (e : Expr) :
    Settles (e.lower env scope) := by
  refine Expr.lower_induction (Φ := Settles) ?constant ?readVariable ?increment ?binary
    ?comparison ?booleanCast ?conditional ?assignment ?call e
  case constant => exact fun v _ => .pure _
  case readVariable =>
    intro name
    exact .bind (.lookup _ _) fun slot => .bind (.load _) fun r => .pure _
  case increment =>
    intro name delta before
    refine .bind (.lookup _ _) fun slot => .bind (.load _) fun r => .bind (.newTemp _) fun v => ?_
    exact .bind (.ofLowering (.mkBinary _ _ _ _)) fun i => .bind (.store _ _) fun storing => .pure _
  case binary =>
    intro op ty left right hl hr
    refine .bind (.operandAs hl _ _) fun l => .bind (.operandAs hr _ _) fun r => ?_
    exact .bind (.newTemp _) fun v => .bind (.ofLowering (.mkBinary _ _ _ _)) fun i => .pure _
  case comparison =>
    intro relation left right hl hr
    refine .bind (.operand hl _) fun l => .bind (.operand hr _) fun r => ?_
    refine .bind (.ofLowering (.commonTy _ _)) fun ty => .bind (.coerce _ _ _) fun l => ?_
    refine .bind (.coerce _ _ _) fun r => .bind (.newTemp _) fun v => ?_
    exact .bind (.ofLowering (.mkIcmp _ _ _ _)) fun i => .pure _
  case booleanCast =>
    intro inner hx
    refine .bind (.operand hx _) fun r => .ite (.pure _) (.ite ?_ (.throw rfl))
    exact .bind (.newTemp _) fun v => .bind (.ofLowering (.mkIcmp _ _ _ _)) fun i => .pure _
  case conditional =>
    intro keepBoolean condition onTrue onFalse hc ht hf
    exact .conditional hc ht hf keepBoolean
  case assignment =>
    intro target value hx
    refine .bind (.lookup _ _) fun slot => .bind (.operandAs hx _ _) fun r => ?_
    exact .bind (.store _ _) fun storing => .pure _
  case call =>
    intro callee args hargs
    exact .call callee hargs

namespace Lower.Settles

variable {env : LowerEnv} {ctx : Context}

lemma declaration (scope : ScopeId) (ds : List Declarator) :
    Settles (declaration env scope ds) := by
  induction ds with
  | nil => exact pure _
  | cons d rest ih =>
    refine bind (bind (declareSlot _ _ _) fun slot => ?_) fun code => bind ih fun more => pure _
    cases d.initializer with
    | none => exact pure _
    | some e =>
      exact bind (operandAs e.lower_settles _ _) fun v => bind (store _ _) fun storing => pure _

lemma branchOn {condition : Lower Segment} (hcond : Settles condition) (onTrue onFalse : Label) :
    Settles (branchOn condition onTrue onFalse) :=
  bind (operandAs hcond _ _) fun _ => bind (ofLowering (.mkBranch _ _ _)) fun _ => pure _

lemma ifElse {condition : Lower Segment} (hcond : Settles condition) {onTrue : Lower Code}
    (htrue : Settles onTrue) {onFalse : Option (Lower Code)} (hfalse : ∀ x ∈ onFalse, Settles x) :
    Settles (ifElse env condition onTrue onFalse) := by
  intro s
  refine (newLabel_yields (.of_labels_eq rfl)).bind ?_
  rintro _ t ⟨trueId, rfl, h⟩
  refine (newLabel_yields h).bind ?_
  rintro _ t ⟨falseId, rfl, h⟩
  refine ((branchOn hcond _ _).yields h).bind fun test t h => ?_
  refine (placeLabel_yields h).bind fun trueMark t h => ?_
  refine (htrue.yields h).bind fun trueCode t h => ?_
  cases onFalse with
  | none =>
    refine ((jumpAfter _ _).yields h).bind fun jump t h => ?_
    exact (placeLabel_yields h).bind fun falseMark t h => .pure h
  | some onFalse =>
    refine (newLabel_yields h).bind ?_
    rintro _ t ⟨endId, rfl, h⟩
    refine ((jumpAfter _ _).yields h).bind fun trueJump t h => ?_
    refine (placeLabel_yields h).bind fun falseMark t h => ?_
    refine ((hfalse onFalse rfl).yields h).bind fun falseCode t h => ?_
    refine ((jumpAfter _ _).yields h).bind fun falseJump t h => ?_
    exact (placeLabel_yields h).bind fun endMark t h => .pure h

lemma whileLoop {condition : Lower Segment} (hcond : Settles condition)
    {body : Context → Lower Code} (hbody : ∀ ctx, Settles (body ctx)) :
    Settles (whileLoop env ctx condition body) := by
  intro s
  refine (newLabel_yields (.of_labels_eq rfl)).bind ?_
  rintro _ t ⟨checkId, rfl, h⟩
  refine (newLabel_yields h).bind ?_
  rintro _ t ⟨bodyId, rfl, h⟩
  refine (newLabel_yields h).bind ?_
  rintro _ t ⟨exitId, rfl, h⟩
  refine ((jumpAfter _ _).yields h).bind fun entering t h => ?_
  refine (placeLabel_yields h).bind fun checkMark t h => ?_
  refine ((branchOn hcond _ _).yields h).bind fun test t h => ?_
  refine (placeLabel_yields h).bind fun bodyMark t h => ?_
  refine ((hbody _).yields h).bind fun bodyCode t h => ?_
  refine ((jumpAfter _ _).yields h).bind fun back t h => ?_
  exact (placeLabel_yields h).bind fun exitMark t h => .pure h

lemma openBlockAfter (code : Code) : Settles (openBlockAfter code) := by
  refine ite (bind (emit _) fun _ => ?_) (pure _)
  intro s
  refine (newLabel_yields (.of_labels_eq rfl)).bind ?_
  rintro _ t ⟨id, rfl, h⟩
  exact (placeLabel_yields h).bind fun mark t h => .pure h

lemma stepAfter (code : Code) {step : Option (Lower Segment)} (hstep : ∀ x ∈ step, Settles x) :
    Settles (stepAfter code step) := by
  cases step with
  | none => exact pure _
  | some x => exact bind (openBlockAfter _) fun opened => bind (hstep x rfl) fun seg => pure _

lemma initial {init : Option (Context → Lower Code)} (hinit : ∀ x ∈ init, ∀ ctx, Settles (x ctx)) :
    Settles (initial init ctx) := by
  cases init with
  | none => exact pure _
  | some x => exact hinit x rfl ctx

lemma loopTest (code : Code) {condition : Option (Lower Segment)}
    (hcond : ∀ x ∈ condition, Settles x) (bodyLabel exitLabel : Label) :
    Settles (loopTest env code condition bodyLabel exitLabel) := by
  cases condition with
  | none => exact jumpAfter _ _
  | some c => exact branchOn (hcond c rfl) _ _

lemma forLoop {init : Option (Context → Lower Code)} (hinit : ∀ x ∈ init, ∀ ctx, Settles (x ctx))
    {condition step : Option (ScopeId → Lower Segment)}
    (hcond : ∀ x ∈ condition, ∀ scope, Settles (x scope))
    (hstep : ∀ x ∈ step, ∀ scope, Settles (x scope))
    {body : Context → Lower Code} (hbody : ∀ ctx, Settles (body ctx)) :
    Settles (forLoop env ctx init condition step body) := by
  have hpart : ∀ {part : Option (ScopeId → Lower Segment)} {scope : ScopeId},
      (∀ x ∈ part, ∀ scope, Settles (x scope)) → ∀ x ∈ part.map (· scope), Settles x :=
    fun h => Option.forall_mem_map.mpr fun x hx => h x hx _
  rw [forLoop_eq]
  refine bind (openScope _) fun scope => bind (initial hinit) fun initCode => ?_
  intro s
  refine (newLabel_yields (.of_labels_eq rfl)).bind ?_
  rintro _ t ⟨checkId, rfl, h⟩
  refine (newLabel_yields h).bind ?_
  rintro _ t ⟨bodyId, rfl, h⟩
  refine (newLabel_yields h).bind ?_
  rintro _ t ⟨exitId, rfl, h⟩
  refine ((jumpAfter _ _).yields h).bind fun entering t h => ?_
  refine (placeLabel_yields h).bind fun checkMark t h => ?_
  refine ((loopTest _ (hpart hcond) _ _).yields h).bind fun test t h => ?_
  refine (placeLabel_yields h).bind fun bodyMark t h => ?_
  refine ((hbody _).yields h).bind fun bodyCode t h => ?_
  refine ((stepAfter _ (hpart hstep)).yields h).bind fun stepped t h => ?_
  refine ((jumpAfter _ _).yields h).bind fun back t h => ?_
  exact (placeLabel_yields h).bind fun exitMark t h => .pure h

lemma ret {value : Option (Lower Segment)} (hvalue : ∀ x ∈ value, Settles x) :
    Settles (ret env value) := by
  cases value with
  | none => exact ite (pure _) (throw rfl)
  | some x =>
    refine bind (operand (hvalue x rfl) _) fun r => ite (throw rfl) ?_
    exact bind (coerce _ _ _) fun _ => pure _

lemma leave {target : Option Label} {outside : LoweringError}
    (houtside : outside.concernsLabels = false) : Settles (leave target outside) := by
  cases target with
  | none => exact throw houtside
  | some l => exact pure _

end Lower.Settles

namespace Stmt

open Lower

variable {env : LowerEnv}

lemma lowerAll_settles {body : List Stmt} (hbody : ∀ x ∈ body, ∀ ctx, Settles (x.lower env ctx))
    (ctx : Context) (code : Code) : Settles (lowerAll env body ctx code) := by
  induction body generalizing code with
  | nil => exact .pure _
  | cons x rest ih =>
    refine .bind (.openBlockAfter _) fun opened => ?_
    refine .bind (hbody x List.mem_cons_self ctx) fun added => ?_
    exact ih (fun y hy => hbody y (List.mem_cons_of_mem x hy)) _

theorem lower_settles (x : Stmt) : ∀ ctx, Settles (x.lower env ctx) := by
  have hpart : ∀ (part : Option Expr), ∀ x ∈ part.map (fun e scope => e.lower env scope),
      ∀ scope, Settles (x scope) := fun part =>
    Option.forall_mem_map.mpr fun e _ scope => e.lower_settles
  induction x using Stmt.induction with
  | expression e => exact fun ctx => .bind e.lower_settles fun seg => .pure _
  | declaration ds => exact fun ctx => .declaration _ ds
  | compound body hbody =>
    exact fun ctx => .bind (.openScope _) fun scope => lowerAll_settles hbody _ _
  | ifElse condition onTrue onFalse htrue hfalse =>
    intro ctx
    cases onFalse with
    | none => exact .ifElse condition.lower_settles (htrue ctx) (by simp)
    | some onFalse =>
      refine .ifElse condition.lower_settles (htrue ctx) ?_
      rintro x ⟨⟩
      exact hfalse onFalse rfl ctx
  | whileLoop condition body hbody =>
    exact fun ctx => .whileLoop condition.lower_settles hbody
  | forLoop init condition step body hinit hbody =>
    intro ctx
    cases init with
    | none =>
      rw [lower]
      exact .forLoop (by simp) (hpart condition) (hpart step) hbody
    | some init =>
      rw [lower]
      refine .forLoop ?_ (hpart condition) (hpart step) hbody
      rintro x ⟨⟩
      exact hinit init rfl
  | ret value =>
    intro ctx
    exact .ret (Option.forall_mem_map.mpr fun e _ => e.lower_settles)
  | brk => exact fun ctx => .leave rfl
  | cont => exact fun ctx => .leave rfl

end Stmt

lemma Lower.Settles.paramSlots {env : LowerEnv} (pairs : List (Param × Value)) :
    Settles (paramSlots env pairs) := by
  induction pairs with
  | nil => exact pure _
  | cons pair rest ih =>
    refine bind (declareSlot _ _ _) fun slot => bind (store _ _) fun storing => ?_
    exact bind ih fun more => pure _

/-- Where nothing is owed, every label allocated meanwhile has a name. -/
lemma Owes.fixes_recent {s₀ s : LowerState} (h : Owes s₀ [] s) {id : Nat} (hold : s₀.labels.size ≤ id)
    (hid : id < s.labels.size) : s.labels.Fixes id := by
  have hnamed := (h.owed id hold).not.mpr List.not_mem_nil
  rw [List.getElem?_eq_getElem hid, Option.some.injEq] at hnamed
  obtain ⟨name, hname⟩ := Option.ne_none_iff_exists'.mp hnamed
  exact ⟨name, by rw [List.getElem?_eq_getElem hid, hname]⟩

/-- Where nothing is owed, every label has a name. -/
lemma Owes.fixes {s₀ s : LowerState} (h : Owes s₀ [] s)
    (h₀ : ∀ id < s₀.labels.size, s₀.labels.Fixes id) : ∀ id < s.labels.size, s.labels.Fixes id := by
  intro id hid
  by_cases hold : id < s₀.labels.size
  · obtain ⟨name, hname⟩ := h₀ id hold
    exact ⟨name, by rw [h.kept id hold, hname]⟩
  · exact h.fixes_recent (Nat.le_of_not_lt hold) hid

namespace Lower

variable {α : Type} {s : LowerState} {env : LowerEnv}

lemma Yields.run {x : Lower α} {Q : α → LowerState → Prop} (hx : Yields x s Q) :
    Yields x s fun a s' => Q a s' ∧ x s = .ok a s' := by
  rw [Yields] at hx ⊢
  cases hrun : x s with
  | ok a t =>
    rw [hrun] at hx
    exact ⟨hx, rfl⟩
  | error e t =>
    rw [hrun] at hx
    exact hx

lemma Settles.endingAfter (function : String) (code : Code) :
    Settles (endingAfter env function code) :=
  ite (pure _) (ite (pure _) (bind (emit _) fun _ => pure _))

/-- Resolving code succeeds where all labels of the table have names and those of the code are in
the table. -/
lemma resolve_yields {code : Code} (hfixes : ∀ id < s.labels.size, s.labels.Fixes id)
    (hknows : ∀ i ∈ code, ∀ l ∈ i.labels, s.Knows l) : Yields (resolve code) s fun _ _ => True := by
  have hcheck := LabelTable.checkAllFixed_ok.mpr hfixes
  have hcode := LabelTable.resolveCode_of_fixes fun i hi l hl => hfixes l.id (hknows i hi l hl)
  have hget : Yields (get : Lower LowerState) s fun a s' => s = a ∧ s = s' := ⟨rfl, rfl⟩
  refine hget.bind ?_
  rintro _ _ ⟨rfl, rfl⟩
  have hofLowering : Yields (ofLowering s.labels.checkAllFixed) s fun _ s' => s = s' := by
    rw [hcheck]
    rfl
  refine hofLowering.bind ?_
  rintro _ _ rfl
  rw [hcode]
  trivial

end Lower

namespace Definition

open Lower

/-- All labels of a function have names when its code is complete. -/
lemma lowerIn_yields (d : Definition) (env : LowerEnv) (hentry : env.entry.id = 0) :
    Yields (d.lowerIn env) env.start fun _ _ => True := by
  have hstart : ∀ id < env.start.labels.size, env.start.labels.Fixes id := by
    intro id hid
    have hzero : id = 0 := Nat.lt_one_iff.mp hid
    rw [hzero]
    exact ⟨env.params.length, rfl⟩
  rw [lowerIn]
  refine (Settles.paramSlots _ env.start).run.bind ?_
  rintro paramCode t ⟨h, hp⟩
  refine ((Settles.openScope _).yields h).run.bind ?_
  rintro scope u ⟨h, hscope⟩
  obtain ⟨rfl, rfl⟩ := openScope_ok.mp hscope
  refine ((Stmt.lowerAll_settles (fun x _ => x.lower_settles) _ _).yields h).run.bind ?_
  rintro body t₁ ⟨h, hb⟩
  have he := emits_of_ok hp hb
  refine ((Settles.endingAfter _ _).yields h).run.bind ?_
  rintro added u ⟨h, hadded⟩
  obtain ⟨⟨log, rfl⟩, rfl⟩ := endingAfter_ok hadded
  have he' := he.before (.logged t₁ log)
  refine (resolve_yields (h.fixes hstart) (wholeCode_knows (d := d) he' hentry)).bind ?_
  intro code u _
  trivial

end Definition

/-- A definition is never refused because of a label. -/
lemma Compiler.lowerDefinition_noLabelError {c : Compiler} {d : Definition} {e : CompileError}
    (h : (c.lowerDefinition d).result = .error e) : e.concernsLabels = false := by
  rw [lowerDefinition] at h
  cases hreg : c.functions.register d.name d.signature with
  | error e' =>
    simp only [hreg, Except.error.injEq] at h
    rw [← h]
    rfl
  | ok functions =>
    simp only [hreg, Definition.lower] at h
    have hyields := d.lowerIn_yields (.ofSignature functions c.options d.signature) rfl
    rw [Lower.Yields] at hyields
    cases hlow : d.lowerIn (.ofSignature functions c.options d.signature)
        (LowerEnv.ofSignature functions c.options d.signature).start with
    | ok seg t => simp [hlow] at h
    | error e' t =>
      simp only [hlow, Except.error.injEq] at h hyields
      rwa [← h]

/-- The names of blocks are among the numbers that code defines. -/
lemma Code.map_name?_sublist (code : Code) :
    ((markers code).map Label.name?).Sublist (definitions code) := by
  induction code with
  | nil => exact .slnil
  | cons i rest ih =>
    rw [definitions_cons]
    cases hm : i.marker? with
    | none =>
      rw [markers_cons_of_none hm]
      exact ih.trans (List.sublist_append_right _ _)
    | some l =>
      rw [Instr.eq_label_of_marker? hm, markers_label, List.map_cons]
      exact ih.cons_cons l.name?

/-- Code whose labels have names is printed line by line. -/
lemma Segment.render_eq {seg : Segment}
    (h : ∀ i ∈ seg.instructions, ∀ l ∈ i.labels, l.isFixed = true) :
    seg.render = .ok (String.intercalate "\n" (seg.instructions.map line)) := by
  have hnames : ∀ ls : List Label, (∀ l ∈ ls, l.isFixed = true) →
      (ls.forM fun l => discard l.name) = (.ok () : Except LoweringError PUnit) := by
    intro ls hls
    induction ls with
    | nil => rfl
    | cons l rest ih =>
      cases l with
      | pending id => cases hls _ List.mem_cons_self
      | fixed id name => exact ih fun m hm => hls m (List.mem_cons_of_mem _ hm)
  have hlines : ∀ code : Code, (∀ i ∈ code, ∀ l ∈ i.labels, l.isFixed = true) →
      (code.mapM fun i => do
        i.labels.forM fun l => discard l.name
        return line i) = (.ok (code.map line) : Except LoweringError (List String)) := by
    intro code hcode
    induction code with
    | nil => rfl
    | cons i rest ih =>
      have hrest := ih fun j hj => hcode j (List.mem_cons_of_mem i hj)
      rw [List.mapM_cons, hrest, hnames i.labels (hcode i List.mem_cons_self)]
      rfl
  rw [render, hlines seg.instructions h]
  rfl

/-- Code can be rendered if its labels have names. -/
lemma Segment.render_ok {seg : Segment}
    (h : ∀ i ∈ seg.instructions, ∀ l ∈ i.labels, l.isFixed = true) :
    ∃ text, seg.render = .ok text := ⟨_, render_eq h⟩

/-- Lowering a definition does not fail because of a label. In the code that it gives, every label has
a name, the blocks have different labels and names, they start with exactly the labels that are in
the table at the end, under the names that they have there, every label that an instruction names
starts one block, and the code can be rendered. -/
theorem Compiler.lowerDefinition_labels (c : Compiler) (d : Definition) :
    (∀ id, (c.lowerDefinition d).result ≠ .error (.lowering (.unfixedLabel id)) ∧
      (c.lowerDefinition d).result ≠ .error (.lowering (.labelRefixed id)) ∧
      (c.lowerDefinition d).result ≠ .error (.lowering (.unknownLabel id))) ∧
    ∀ seg, (c.lowerDefinition d).result = .ok seg →
      (∀ i ∈ seg.instructions, ∀ l ∈ i.labels, l.isFixed = true) ∧
      ((Code.markers seg.instructions).map Label.id).Nodup ∧
      ((Code.markers seg.instructions).map Label.name?).Nodup ∧
      (∃ env final, env = .ofSignature (c.lowerDefinition d).compiler.functions c.options
          d.signature ∧ d.lowerIn env env.start = .ok seg final ∧
        (c.lowerDefinition d).log.getLast? = some (.lowered d.name seg.size final.labels.size) ∧
        (∀ id, id ∈ (Code.markers seg.instructions).map Label.id ↔ id < final.labels.size) ∧
        ∀ l, l ∈ Code.markers seg.instructions ↔
          ∃ id name, l = .fixed id name ∧ final.labels.names[id]? = some (some name)) ∧
      (∀ i ∈ seg.instructions, ∀ l ∈ i.labels, (Code.markers seg.instructions).count l = 1) ∧
      ∃ text, seg.render = .ok text := by
  constructor
  · intro id
    have hno : ∀ e : LoweringError, e.concernsLabels = true →
        (c.lowerDefinition d).result ≠ .error (.lowering e) := by
      intro e he hresult
      have := lowerDefinition_noLabelError hresult
      rw [CompileError.concernsLabels, he] at this
      cases this
    exact ⟨hno _ rfl, hno _ rfl, hno _ rfl⟩
  · intro seg h
    obtain ⟨env, henv, w, final, hrun, hlabels, hlog⟩ := lowerDefinition_lowered h
    have hparams : env.params.map Value.id? = (List.range env.params.length).map some := by
      rw [henv]
      exact LowerEnv.definitions_params _ _ _
    obtain ⟨count, hcount⟩ := w.definitions_eq hparams
    have hfixed : ∀ i ∈ seg.instructions, ∀ l ∈ i.labels, l.isFixed = true := by
      intro i hi l hl
      obtain ⟨id, name, rfl, -⟩ := w.mem_markers_iff.mp (w.labels_subset_markers hi hl)
      rfl
    have hnumbers : (Code.definitions seg.instructions).Nodup := by
      rw [hcount]
      exact List.nodup_range.map fun _ _ => Option.some.inj
    refine ⟨hfixed, w.nodup_ids, (Code.map_name?_sublist _).nodup hnumbers, ?_, ?_, ?_⟩
    · refine ⟨env, final, henv, hrun, hlog, ?_, ?_⟩
      · rw [hlabels]
        exact fun id => w.mem_ids_iff
      · rw [hlabels]
        exact fun l => w.mem_markers_iff
    · intro i hi l hl
      exact List.count_eq_one_of_mem w.nodup_ids.of_map (w.labels_subset_markers hi hl)
    · exact Segment.render_ok hfixed

theorem sumUpTo_labels_placed : ∃ seg,
    (Compiler.lowerDefinition {} Definition.sumUpTo).result = .ok seg ∧
      (∀ i ∈ seg.instructions, ∀ l ∈ i.labels, (Code.markers seg.instructions).count l = 1) ∧
      ∃ text, seg.render = .ok text := by
  obtain ⟨seg, h⟩ := Definition.sumUpTo_accepted
  obtain ⟨-, -, -, -, hcount, hrender⟩ :=
    (Compiler.lowerDefinition_labels {} Definition.sumUpTo).2 seg h
  exact ⟨seg, h, hcount, hrender⟩

end MiniC
