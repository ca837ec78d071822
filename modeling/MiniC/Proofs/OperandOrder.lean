import Mathlib.Data.Option.Basic
import MiniC.Proofs.LabelPlacement
import MiniC.Proofs.OperandChecks

/-!
# The order of compared operands

Whether an expression is accepted depends on the variables that its scope sees, and not on the numbers
and labels that were given away before: `Follows R x y` says that a step succeeds where another one
does that started with the same scopes, and how their results are related. So each operand of a
comparison is accepted, and gives the same value up to a number, whichever of the two comes first. The
type in which two values are compared is the same in both orders too, unless both are literals. Then
the first one has to fit the type of the second.
-/

namespace MiniC

/-- The comparison that exchanged operands need. -/
def CompareOp.mirror : CompareOp → CompareOp
  | .less => .greater
  | .lessEqual => .greaterEqual
  | .greater => .less
  | .greaterEqual => .lessEqual
  | .equal => .equal
  | .notEqual => .notEqual

/-- Values that an expression can have, which differ in the number of a temporary at most. -/
inductive Value.Alike : Value → Value → Prop where
  | temp (id id' : Nat) (ty : Ty) : Alike (.temp id ty) (.temp id' ty)
  | int (n : Int) {ty : Ty} (h : ty.isInteger = true) : Alike (.int n ty) (.int n ty)
  | float (x : Binary64) {ty : Ty} (h : ty.isFloating = true) : Alike (.float x ty) (.float x ty)

namespace Value.Alike

variable {v w : Value}

lemma ty_eq (h : Alike v w) : v.ty = w.ty := by
  cases h <;> rfl

lemma isLiteral_eq (h : Alike v w) : v.isLiteral = w.isLiteral := by
  cases h <;> rfl

lemma commonTy_congr {v' w' : Value} (hv : Alike v v') (hw : Alike w w') :
    Lower.commonTy v w = Lower.commonTy v' w' := by
  rw [Lower.commonTy, Lower.commonTy, hv.ty_eq, hw.ty_eq, hv.isLiteral_eq, hw.isLiteral_eq]

/-- Literals stay alike when their type changes. -/
lemma retype (h : Alike v w) {v' : Value} {target : Ty} {context : String}
    (hv : Lower.retypeLiteral v target context = .ok v') :
    ∃ w', Lower.retypeLiteral w target context = .ok w' ∧ Alike v' w' := by
  rcases Lower.retypeLiteral_ok.mp hv with
    ⟨hty, rfl⟩ | ⟨hne, ⟨n, ty, rfl, hint, hfits, rfl⟩ | ⟨x, ty, rfl, hfloating, rfl⟩⟩
  · exact ⟨w, Lower.retypeLiteral_ok.mpr (.inl ⟨h.ty_eq ▸ hty, rfl⟩), h⟩
  · cases h
    exact ⟨_, hv, .int n hint⟩
  · cases h
    exact ⟨_, hv, .float x hfloating⟩

end Value.Alike

namespace Lower

variable {α α' β β' γ γ' : Type} {env : LowerEnv} {scope : ScopeId}

/-- Whether `y` succeeds where `x` did, from a state with the same scopes, and the results are related
by `R`. Only a label may make a difference. -/
def Follows (R : α → β → Prop) (x : Lower α) (y : Lower β) : Prop :=
  ∀ ⦃s t : LowerState⦄ ⦃a : α⦄ ⦃s' : LowerState⦄, s.scopes.scopes = t.scopes.scopes →
    x s = .ok a s' →
      match y t with
      | .ok b t' => R a b ∧ s'.scopes.scopes = t'.scopes.scopes
      | .error e _ => e.concernsLabels = true

namespace Follows

variable {R : α → β → Prop} {Q : γ → γ' → Prop}

lemma pure {a : α} {b : β} (h : R a b) : Follows R (Pure.pure a) (Pure.pure b) := by
  intro s t a' s' hscopes hx
  obtain ⟨rfl, rfl⟩ := pure_ok.mp hx
  exact ⟨h, hscopes⟩

lemma throw {e : CompileError} {y : Lower β} : Follows R (throw e) y := by
  intro s t a s' _ hx
  exact (throw_ok.mp hx).elim

lemma bind {x : Lower α} {y : Lower β} {f : α → Lower γ} {g : β → Lower γ'} (hx : Follows R x y)
    (hf : ∀ a b, R a b → Follows Q (f a) (g b)) : Follows Q (x >>= f) (y >>= g) := by
  intro s t c s' hscopes hrun
  obtain ⟨a, s₁, ha, hc⟩ := bind_ok.mp hrun
  have hfollows := hx hscopes ha
  change match EStateM.bind y g t with
    | .ok b t' => Q c b ∧ s'.scopes.scopes = t'.scopes.scopes
    | .error e _ => e.concernsLabels = true
  rw [EStateM.bind]
  cases hy : y t with
  | ok b t₁ =>
    rw [hy] at hfollows
    exact hf a b hfollows.1 hfollows.2 hc
  | error e t₁ =>
    rw [hy] at hfollows
    exact hfollows

lemma ite {p q : Prop} [Decidable p] [Decidable q] {x x' : Lower α} {y y' : Lower β} (h : p ↔ q)
    (hx : p → Follows R x y) (hx' : ¬p → Follows R x' y') :
    Follows R (if p then x else x') (if q then y else y') := by
  by_cases hp : p
  · rw [if_pos hp, if_pos (h.mp hp)]
    exact hx hp
  · rw [if_neg hp, if_neg (h.not.mp hp)]
    exact hx' hp

lemma ofLowering {x : Except LoweringError α} {y : Except LoweringError β}
    (h : ∀ a, x = .ok a → ∃ b, y = .ok b ∧ R a b) : Follows R (ofLowering x) (ofLowering y) := by
  intro s t a s' hscopes hx
  obtain ⟨hok, rfl⟩ := ofLowering_ok.mp hx
  obtain ⟨b, rfl, hR⟩ := h a hok
  exact ⟨hR, hscopes⟩

lemma ofScope (x : Except ScopeError α) : Follows Eq (ofScope x) (ofScope x) := by
  intro s t a s' hscopes hx
  obtain ⟨rfl, rfl⟩ := ofScope_ok.mp hx
  exact ⟨rfl, hscopes⟩

/-- Steps that never fail and leave the scopes alone. -/
lemma total {x : Lower α} {y : Lower β}
    (hx : ∀ s, ∃ a s', x s = .ok a s' ∧ s.scopes.scopes = s'.scopes.scopes)
    (hy : ∀ t, ∃ b t', y t = .ok b t' ∧ t.scopes.scopes = t'.scopes.scopes) :
    Follows (fun _ _ => True) x y := by
  intro s t a s' hscopes hrun
  obtain ⟨a', s₁, hx, hs⟩ := hx s
  obtain ⟨b, t₁, hy, ht⟩ := hy t
  rw [hx] at hrun
  cases hrun
  rw [hy]
  exact ⟨trivial, hs.symm.trans (hscopes.trans ht)⟩

lemma freshNumber : Follows (fun _ _ => True) freshNumber freshNumber :=
  total (fun _ => ⟨_, _, rfl, rfl⟩) fun _ => ⟨_, _, rfl, rfl⟩

lemma newLabel : Follows (fun _ _ => True) newLabel newLabel :=
  total (fun _ => ⟨_, _, rfl, rfl⟩) fun _ => ⟨_, _, rfl, rfl⟩

lemma currentBlock : Follows (fun _ _ => True) currentBlock currentBlock :=
  total (fun _ => ⟨_, _, rfl, rfl⟩) fun _ => ⟨_, _, rfl, rfl⟩

lemma newTemp (ty : Ty) : Follows Value.Alike (newTemp ty) (newTemp ty) :=
  bind freshNumber fun _ _ _ => pure (.temp _ _ ty)

lemma lookup (name : String) : Follows Eq (lookup scope name) (lookup scope name) := by
  intro s t v s' hscopes hx
  obtain ⟨hv, rfl⟩ := lookup_ok.mp hx
  have hsame : t.scopes.lookup scope name = .ok v := by
    rw [Scopes.lookup_ok, Scopes.visible_of_scopes_eq hscopes.symm]
    exact Scopes.lookup_ok.mp hv
  have hy : Lower.lookup scope name t = .ok v t := lookup_ok.mpr ⟨hsame, rfl⟩
  rw [hy]
  exact ⟨rfl, hscopes⟩

lemma placeLabel (l l' : Label) : Follows (fun _ _ => True) (placeLabel l) (placeLabel l') := by
  have hget : Follows (fun _ _ => True) (get : Lower LowerState) (get : Lower LowerState) :=
    total (fun _ => ⟨_, _, rfl, rfl⟩) fun _ => ⟨_, _, rfl, rfl⟩
  have hfix : ∀ (labels labels' : LabelTable) (name name' : Nat), Follows (fun _ _ => True)
      (Lower.ofLowering (labels.fix l name)) (Lower.ofLowering (labels'.fix l' name')) := by
    intro labels labels' name name' s t a s' hscopes hx
    obtain ⟨-, rfl⟩ := ofLowering_ok.mp hx
    cases hy : labels'.fix l' name' with
    | ok b => exact ⟨trivial, hscopes⟩
    | error e => exact RaisesOnly.fix labels' l' name' e hy
  refine bind freshNumber fun name name' _ => bind hget fun s t _ => ?_
  refine bind (hfix _ _ name name') fun r r' _ => ?_
  exact bind (total (fun _ => ⟨_, _, rfl, rfl⟩) fun _ => ⟨_, _, rfl, rfl⟩) fun _ _ _ => pure trivial

lemma jumpAfter (code code' : Code) (target target' : Label) :
    Follows (fun _ _ => True) (jumpAfter env code target) (jumpAfter env code' target') := by
  have htotal : ∀ (code : Code) (target : Label) (s : LowerState), ∃ a s',
      Lower.jumpAfter env code target s = .ok a s' ∧ s.scopes.scopes = s'.scopes.scopes := by
    intro code target s
    rw [Lower.jumpAfter]
    split
    · exact ⟨_, _, rfl, rfl⟩
    · exact ⟨_, _, rfl, rfl⟩
  exact total (htotal code target) (htotal code' target')

end Follows

/-- Whether results of code are alike. -/
def ResultsAlike (a b : Code × Value) : Prop := a.2.Alike b.2

/-- Whether segments have results that are alike, or none. -/
def SegmentsAlike (a b : Segment) : Prop := Option.Rel Value.Alike a.result b.result

namespace Follows

variable {v w : Value}

lemma load (slot : Value) : Follows ResultsAlike (load env slot) (load env slot) := by
  refine bind (newTemp slot.ty) fun v w h => ?_
  refine bind (R := fun _ _ => True) (ofLowering fun i hi => ?_) fun _ _ _ => pure h
  obtain ⟨hslot, hty, -⟩ := Instr.mkLoad_ok.mp hi
  exact ⟨_, Instr.mkLoad_ok.mpr ⟨hslot, h.ty_eq ▸ hty, rfl⟩, trivial⟩

lemma store (h : v.Alike w) (slot : Value) :
    Follows (fun _ _ => True) (store env v slot) (store env w slot) := by
  refine bind (R := fun _ _ => True) (ofLowering fun i hi => ?_) fun _ _ _ => pure trivial
  obtain ⟨hslot, hty, -⟩ := Instr.mkStore_ok.mp hi
  exact ⟨_, Instr.mkStore_ok.mpr ⟨hslot, h.ty_eq ▸ hty, rfl⟩, trivial⟩

lemma mkIcmp {v' w' r r' : Value} (hr : r.Alike r') (hv : v.Alike v') (hw : w.Alike w')
    (relation : Relation) :
    Follows (fun _ _ => True) (Lower.ofLowering (Instr.mkIcmp r relation v w))
      (Lower.ofLowering (Instr.mkIcmp r' relation v' w')) := by
  refine ofLowering fun i hi => ?_
  obtain ⟨hbool, hint, hty, -⟩ := Instr.mkIcmp_ok.mp hi
  rw [hw.ty_eq, hv.ty_eq] at hty
  exact ⟨_, Instr.mkIcmp_ok.mpr ⟨hr.ty_eq ▸ hbool, hv.ty_eq ▸ hint, hty, rfl⟩, trivial⟩

lemma retypeLiteral (h : v.Alike w) (target : Ty) (context : String) :
    Follows Value.Alike (Lower.ofLowering (retypeLiteral v target context))
      (Lower.ofLowering (Lower.retypeLiteral w target context)) :=
  ofLowering fun _ hv' => h.retype hv'

lemma coerce (h : v.Alike w) (target : Ty) (context : String) :
    Follows ResultsAlike (coerce v target context) (coerce w target context) := by
  have hty := h.ty_eq
  rw [Lower.coerce, Lower.coerce]
  refine ite (by rw [hty]) (fun _ => pure h) fun _ => ?_
  refine ite (by rw [h.isLiteral_eq]) (fun _ => ?_) fun _ => ite (by rw [hty]) (fun _ => ?_) fun _ => ?_
  · exact bind (retypeLiteral h target context) fun _ _ h' => pure h'
  · refine bind (newTemp target) fun r r' hr => ?_
    refine bind (R := fun _ _ => True) (ofLowering fun i hi => ?_) fun _ _ _ => pure hr
    obtain ⟨hint, hint', hwidth, -⟩ := Instr.mkZext_ok.mp hi
    rw [hr.ty_eq] at hint' hwidth
    rw [hty] at hint hwidth
    exact ⟨_, Instr.mkZext_ok.mpr ⟨hint, hint', hwidth, rfl⟩, trivial⟩
  · exact throw

variable {x y : Lower Segment}

lemma operand (h : Follows SegmentsAlike x y) (context : String) :
    Follows ResultsAlike (operand x context) (operand y context) := by
  refine bind h fun a b hab => ?_
  rw [SegmentsAlike] at hab
  revert hab
  cases a.result with
  | none => exact fun _ => throw
  | some v =>
    cases b.result with
    | none => exact nofun
    | some w =>
      intro hab
      have hvw : v.Alike w := Option.rel_some_some.mp hab
      exact pure hvw

lemma operandAs (h : Follows SegmentsAlike x y) (ty : Ty) (context : String) :
    Follows ResultsAlike (operandAs x ty context) (operandAs y ty context) :=
  bind (operand h context) fun _ _ hv => bind (coerce hv ty context) fun _ _ hw => pure hw

lemma arm (h : Follows SegmentsAlike x y) (keepBoolean : Bool) :
    Follows ResultsAlike (arm keepBoolean x) (arm keepBoolean y) := by
  refine bind (operand h _) fun a b hv => ?_
  refine ite (by rw [hv.ty_eq]) (fun _ => ?_) fun _ => pure hv
  exact bind (coerce hv _ _) fun _ _ hw => pure hw

lemma conditional {condition onTrue onFalse : Lower Segment}
    (hcond : Follows SegmentsAlike condition condition)
    (htrue : Follows SegmentsAlike onTrue onTrue) (hfalse : Follows SegmentsAlike onFalse onFalse)
    (keepBoolean : Bool) :
    Follows SegmentsAlike (conditional env keepBoolean condition onTrue onFalse)
      (conditional env keepBoolean condition onTrue onFalse) := by
  refine bind (operandAs hcond _ _) fun test test' htest => ?_
  refine bind newLabel fun l l' _ => bind newLabel fun m m' _ => bind newLabel fun n n' _ => ?_
  have hbranch : Follows (fun _ _ => True) (Lower.ofLowering (Instr.mkBranch test.2 l m))
      (Lower.ofLowering (Instr.mkBranch test'.2 l' m')) := by
    refine ofLowering fun i hi => ?_
    obtain ⟨hbool, -⟩ := Instr.mkBranch_ok.mp hi
    exact ⟨_, Instr.mkBranch_ok.mpr ⟨htest.ty_eq ▸ hbool, rfl⟩, trivial⟩
  refine bind hbranch fun _ _ _ => bind (placeLabel _ _) fun _ _ _ => ?_
  refine bind (arm htrue _) fun trueArm trueArm' ht => bind currentBlock fun b b' _ => ?_
  refine bind (jumpAfter _ _ _ _) fun _ _ _ => bind (placeLabel _ _) fun _ _ _ => ?_
  refine bind (arm hfalse _) fun falseArm falseArm' hf => bind currentBlock fun c c' _ => ?_
  refine bind (jumpAfter _ _ _ _) fun _ _ _ => bind (placeLabel _ _) fun _ _ _ => ?_
  have hty : (if trueArm.2.isLiteral then falseArm.2.ty else trueArm.2.ty) =
      if trueArm'.2.isLiteral then falseArm'.2.ty else trueArm'.2.ty := by
    rw [ht.isLiteral_eq, ht.ty_eq, hf.ty_eq]
  rw [hty]
  refine bind (retypeLiteral ht _ _) fun v v' hv => bind (retypeLiteral hf _ _) fun w w' hw => ?_
  refine bind (newTemp _) fun r r' hr => ?_
  refine bind (R := fun _ _ => True) (ofLowering fun i hi => ?_) fun _ _ _ =>
    pure (Option.rel_some_some.mpr hr)
  obtain ⟨hvr, hwr, -⟩ := Instr.mkPhi_ok.mp hi
  rw [hv.ty_eq, hr.ty_eq] at hvr
  rw [hw.ty_eq, hr.ty_eq] at hwr
  exact ⟨_, Instr.mkPhi_ok.mpr ⟨hvr, hwr, rfl⟩, trivial⟩

lemma arguments {args : List (Lower Segment)} (hargs : ∀ x ∈ args, Follows SegmentsAlike x x)
    (tys : List Ty) : Follows (fun _ _ => True) (arguments args tys) (arguments args tys) := by
  induction args generalizing tys with
  | nil => exact pure trivial
  | cons x rest ih =>
    cases tys with
    | nil => exact pure trivial
    | cons ty tys =>
      refine bind (operandAs (hargs x List.mem_cons_self) _ _) fun _ _ _ => ?_
      exact bind (ih (fun y hy => hargs y (List.mem_cons_of_mem x hy)) tys) fun _ _ _ => pure trivial

lemma call (callee : String) {args : List (Lower Segment)}
    (hargs : ∀ x ∈ args, Follows SegmentsAlike x x) :
    Follows SegmentsAlike (call env callee args) (call env callee args) := by
  refine bind (ofScope _) fun signature _ heq => ?_
  subst heq
  refine ite Iff.rfl (fun _ => ?_) fun _ => throw
  refine bind (arguments hargs _) fun values values' _ => ?_
  have hcall : ∀ r r', Option.Rel Value.Alike r r' → Follows SegmentsAlike
      (do
        let i ← Lower.ofLowering (Instr.mkCall r callee signature.returnTy values.2)
        return (⟨values.1 ++ [i], r⟩ : Segment))
      (do
        let i ← Lower.ofLowering (Instr.mkCall r' callee signature.returnTy values'.2)
        return (⟨values'.1 ++ [i], r'⟩ : Segment)) := by
    intro r r' hr
    refine bind (R := fun _ _ => True) (ofLowering fun i hi => ?_) fun _ _ _ => pure hr
    obtain ⟨hty, -⟩ := Instr.mkCall_ok.mp hi
    cases hr with
    | none => exact ⟨_, Instr.mkCall_ok.mpr ⟨hty, rfl⟩, trivial⟩
    | some h =>
      rw [Option.map_some, h.ty_eq] at hty
      exact ⟨_, Instr.mkCall_ok.mpr ⟨hty, rfl⟩, trivial⟩
  refine ite Iff.rfl (fun _ => ?_) fun _ => ?_
  · exact bind (pure .none) hcall
  · exact bind (newTemp _) fun _ _ hr => bind (pure (.some hr)) hcall

lemma readVariable (name : String) :
    Follows SegmentsAlike (readVariable env scope name) (readVariable env scope name) := by
  refine bind (lookup name) fun slot _ heq => ?_
  subst heq
  exact bind (load slot) fun _ _ h => pure (Option.rel_some_some.mpr h)

lemma increment (name : String) (delta : Int) (before : Bool) :
    Follows SegmentsAlike (increment env scope name delta before)
      (increment env scope name delta before) := by
  refine bind (lookup name) fun slot _ heq => ?_
  subst heq
  refine bind (load slot) fun old old' hold => bind (newTemp _) fun new new' hnew => ?_
  have hsum : Follows (fun _ _ => True)
      (Lower.ofLowering (Instr.mkBinary new .add old.2 (.int delta slot.ty)))
      (Lower.ofLowering (Instr.mkBinary new' .add old'.2 (.int delta slot.ty))) := by
    refine ofLowering fun i hi => ?_
    obtain ⟨hint, hl, hr, -⟩ := Instr.mkBinary_ok.mp hi
    rw [hnew.ty_eq] at hint hl hr
    rw [hold.ty_eq] at hl
    exact ⟨_, Instr.mkBinary_ok.mpr ⟨hint, hl, hr, rfl⟩, trivial⟩
  refine bind hsum fun _ _ _ => bind (store hnew slot) fun _ _ _ => ?_
  cases before with
  | true => exact pure (Option.rel_some_some.mpr hnew)
  | false => exact pure (Option.rel_some_some.mpr hold)

lemma binary (op : BinaryOp) (ty : Ty) {left right : Lower Segment}
    (hl : Follows SegmentsAlike left left) (hr : Follows SegmentsAlike right right) :
    Follows SegmentsAlike (binary op ty left right) (binary op ty left right) := by
  refine bind (operandAs hl _ _) fun l l' hl => bind (operandAs hr _ _) fun r r' hr => ?_
  refine bind (newTemp _) fun v v' hv => ?_
  refine bind (R := fun _ _ => True) (ofLowering fun i hi => ?_) fun _ _ _ =>
    pure (Option.rel_some_some.mpr hv)
  obtain ⟨hint, hlty, hrty, -⟩ := Instr.mkBinary_ok.mp hi
  rw [hv.ty_eq] at hint hlty hrty
  rw [hl.ty_eq] at hlty
  rw [hr.ty_eq] at hrty
  exact ⟨_, Instr.mkBinary_ok.mpr ⟨hint, hlty, hrty, rfl⟩, trivial⟩

lemma comparison (relation : Relation) {left right : Lower Segment}
    (hl : Follows SegmentsAlike left left) (hr : Follows SegmentsAlike right right) :
    Follows SegmentsAlike (comparison relation left right) (comparison relation left right) := by
  refine bind (operand hl _) fun l l' hl => bind (operand hr _) fun r r' hr => ?_
  have hcommon : Follows Eq (Lower.ofLowering (commonTy l.2 r.2))
      (Lower.ofLowering (commonTy l'.2 r'.2)) := by
    rw [Value.Alike.commonTy_congr hl hr]
    exact ofLowering fun ty hty => ⟨ty, hty, rfl⟩
  refine bind hcommon fun ty _ heq => ?_
  subst heq
  refine bind (coerce hl _ _) fun l l' hl => bind (coerce hr _ _) fun r r' hr => ?_
  refine bind (newTemp _) fun v v' hv => bind (mkIcmp hv hl hr relation) fun _ _ _ => ?_
  exact pure (Option.rel_some_some.mpr hv)

lemma booleanCast {inner : Lower Segment} (hx : Follows SegmentsAlike inner inner) :
    Follows SegmentsAlike (booleanCast inner) (booleanCast inner) := by
  refine bind (operand hx _) fun r r' hr => ?_
  refine ite (by rw [hr.ty_eq]) (fun _ => pure (Option.rel_some_some.mpr hr)) fun _ => ?_
  refine ite (by rw [hr.ty_eq]) (fun hint => ?_) fun _ => throw
  refine bind (newTemp _) fun v v' hv => ?_
  have hzero : (Value.int 0 r.2.ty).Alike (.int 0 r'.2.ty) := hr.ty_eq ▸ .int 0 hint
  exact bind (mkIcmp hv hr hzero .ne) fun _ _ _ => pure (Option.rel_some_some.mpr hv)

lemma assignment (target : String) {value : Lower Segment}
    (hx : Follows SegmentsAlike value value) :
    Follows SegmentsAlike (assignment env scope target value)
      (assignment env scope target value) := by
  refine bind (lookup target) fun slot _ heq => ?_
  subst heq
  refine bind (operandAs hx _ _) fun r r' hr => ?_
  exact bind (store hr slot) fun _ _ _ => pure (Option.rel_some_some.mpr hr)

end Follows

end Lower

namespace Expr

open Lower

variable {env : LowerEnv} {scope : ScopeId}

/-- An expression is accepted, and has the same value up to a number, from every state with the same
scopes. -/
theorem lower_follows (e : Expr) : Follows SegmentsAlike (e.lower env scope) (e.lower env scope) := by
  induction e using Expr.induction with
  | int n => exact .pure (Option.rel_some_some.mpr (.int n rfl))
  | float x => exact .pure (Option.rel_some_some.mpr (.float x rfl))
  | var name => exact .readVariable name
  | preIncrement name delta => exact .increment name delta true
  | postIncrement name delta => exact .increment name delta false
  | arith op left right hl hr => exact .binary _ _ hl hr
  | compare op left right hl hr => exact .comparison _ hl hr
  | logicalAnd left right hl hr => exact .binary _ _ hl hr
  | logicalOr left right hl hr => exact .binary _ _ hl hr
  | boolCast operand h => exact .booleanCast h
  | conditional condition onTrue onFalse hc ht hf => exact .conditional hc ht hf _
  | assign target value h => exact .assignment target h
  | call callee arguments h =>
    rw [lower]
    refine .call callee fun x hx => ?_
    obtain ⟨e, hmem, rfl⟩ := mem_lowerAll hx
    exact h e hmem

/-- Whether the expression is accepted in this state. -/
def Accepted (env : LowerEnv) (scope : ScopeId) (s : LowerState) (e : Expr) : Prop :=
  ∃ seg s', e.lower env scope s = .ok seg s'

/-- Whether the expression is accepted in this state and has this value. -/
def Gives (env : LowerEnv) (scope : ScopeId) (s : LowerState) (e : Expr) (v : Value) : Prop :=
  ∃ code s', e.lower env scope s = .ok ⟨code, some v⟩ s'

variable {s t : LowerState} {e : Expr} {v : Value}

/-- Numbers and labels that were given away before make no difference. -/
lemma Gives.of_scopes_eq (h : e.Gives env scope s v) (hscopes : s.scopes.scopes = t.scopes.scopes) :
    ∃ w, e.Gives env scope t w ∧ v.Alike w := by
  obtain ⟨code, s', hrun⟩ := h
  have hfollows := e.lower_follows hscopes hrun
  have hsettles : Settles (e.lower env scope) := e.lower_settles
  have hyields := hsettles t
  rw [Yields] at hyields
  cases ht : e.lower env scope t with
  | error err t' =>
    rw [ht] at hfollows hyields
    have hlabel : err.concernsLabels = true := hfollows
    have hnone : err.concernsLabels = false := hyields
    rw [hlabel] at hnone
    cases hnone
  | ok seg t' =>
    rw [ht] at hfollows
    obtain ⟨code', result⟩ := seg
    have hresult : Option.Rel Value.Alike (some v) result := hfollows.1
    cases hresult with
    | some hvw => exact ⟨_, ⟨code', t', ht⟩, hvw⟩

lemma Gives.unique {w : Value} (h : e.Gives env scope s v) (h' : e.Gives env scope s w) : v = w := by
  obtain ⟨code, s', hrun⟩ := h
  obtain ⟨code', s'', hrun'⟩ := h'
  rw [hrun] at hrun'
  cases hrun'
  rfl

/-- Values of expressions are temporaries and literals of their class. -/
lemma Gives.alike (h : e.Gives env scope s v) : v.Alike v := by
  obtain ⟨w, hw, hvw⟩ := h.of_scopes_eq (t := s) rfl
  rwa [← h.unique hw] at hvw

end Expr

namespace Value

open Lower

variable {v w v' w' : Value} {ty : Ty}

/-- Whether a value can become one of this type: a literal changes its type, and a computed boolean is
extended. -/
def ConvertsTo (v : Value) (ty : Ty) : Prop :=
  (∃ w, retypeLiteral v ty "icmp" = .ok w) ∨
    v.ty = .bool ∧ v.isLiteral = false ∧ ty.isInteger = true

/-- Whether two values can be compared: there is a common type, and both become values of it. -/
def Comparable (v w : Value) : Prop :=
  ∃ ty, commonTy v w = .ok ty ∧ v.ConvertsTo ty ∧ w.ConvertsTo ty

lemma Alike.convertsTo (h : v.Alike w) (hv : v.ConvertsTo ty) : w.ConvertsTo ty := by
  rcases hv with ⟨v', hv'⟩ | ⟨hbool, hliteral, hint⟩
  · obtain ⟨w', hw', -⟩ := h.retype hv'
    exact .inl ⟨w', hw'⟩
  · exact .inr ⟨h.ty_eq ▸ hbool, h.isLiteral_eq ▸ hliteral, hint⟩

lemma Comparable.congr (h : v.Comparable w) (hv : v.Alike v') (hw : w.Alike w') :
    v'.Comparable w' := by
  obtain ⟨ty, hty, hvty, hwty⟩ := h
  exact ⟨ty, hv.commonTy_congr hw ▸ hty, hv.convertsTo hvty, hw.convertsTo hwty⟩

/-- The type to which the guards of a comparison lead. -/
def chosenTy (v w : Value) : Option Ty :=
  if v.ty = w.ty then some v.ty
  else if v.ty = .bool ∧ ¬v.isLiteral then some w.ty
  else if w.ty = .bool ∧ ¬w.isLiteral then some v.ty
  else if v.isLiteral then some w.ty
  else if w.isLiteral then some v.ty
  else none

lemma commonTy_ok : commonTy v w = .ok ty ↔ chosenTy v w = some ty ∧ ty.isInteger = true := by
  have hchosen : ∀ chosen : Ty, (pure chosen >>= fun ty =>
      if ty.isInteger then pure ty else throw (.unsupportedType ty "icmp")) =
        (.ok ty : Except LoweringError Ty) ↔ some chosen = some ty ∧ ty.isInteger = true := by
    intro chosen
    change (if chosen.isInteger then Except.ok chosen else .error _) = .ok ty ↔ _
    split <;> grind
  rw [commonTy, chosenTy]
  split_ifs
  case neg => exact iff_of_false nofun (by simp)
  all_goals exact hchosen _

/-- The type does not depend on the order, unless both values are literals. -/
lemma chosenTy_comm (h : v.ty = w.ty ∨ v.isLiteral = false ∨ w.isLiteral = false) :
    chosenTy v w = chosenTy w v := by
  unfold chosenTy
  grind

lemma isFloating_of_isInteger (h : ty.isInteger = true) : ty.isFloating = false := by
  cases ty <;> first | rfl | cases h

lemma not_convertsTo_of_float {x : Binary64} {ty' : Ty} (hx : ty'.isFloating = true)
    (hint : ty.isInteger = true) : ¬(Value.float x ty').ConvertsTo ty := by
  have hfloating := isFloating_of_isInteger hint
  rintro (⟨w, hw⟩ | ⟨-, hliteral, -⟩)
  · rcases retypeLiteral_ok.mp hw with ⟨rfl, -⟩ | ⟨-, ⟨n, _, h, -⟩ | ⟨_, _, -, h, -⟩⟩
    · rw [Value.ty, hx] at hfloating
      cases hfloating
    · cases h
    · rw [h] at hfloating
      cases hfloating
  · cases hliteral

/-- Values can be compared in both orders or in none, unless they are integer literals of different
types. -/
lemma Comparable.swap (hv : v.Alike v) (hw : w.Alike w)
    (hlit : ∀ m a n b, v = .int m a → w = .int n b → a = b) (h : v.Comparable w) :
    w.Comparable v := by
  obtain ⟨ty, hty, hvty, hwty⟩ := h
  obtain ⟨hchosen, hint⟩ := commonTy_ok.mp hty
  have hswap : v.ty = w.ty ∨ v.isLiteral = false ∨ w.isLiteral = false := by
    cases hv with
    | temp id id' ty => exact .inr (.inl rfl)
    | float x hx => exact absurd hvty (not_convertsTo_of_float hx hint)
    | int m ha =>
      cases hw with
      | temp id id' ty => exact .inr (.inr rfl)
      | float x hx => exact absurd hwty (not_convertsTo_of_float hx hint)
      | int n hb => exact .inl (hlit _ _ _ _ rfl rfl)
  rw [chosenTy_comm hswap] at hchosen
  exact ⟨ty, commonTy_ok.mpr ⟨hchosen, hint⟩, hwty, hvty⟩

/-- Of two integer literals of different types, the first one takes the type of the second. -/
lemma comparable_int {m n : Int} {a b : Ty} (hne : a ≠ b) :
    (Value.int m a).Comparable (.int n b) ↔ b.fits m = true := by
  have hchosen : chosenTy (.int m a) (.int n b) = some b := by
    simp [chosenTy, Value.ty, Value.isLiteral, hne]
  have hint : b.fits m = true → b.isInteger = true := by
    intro hfits
    cases b <;> first | rfl | cases hfits
  constructor
  · rintro ⟨ty, hty, ⟨w, hw⟩ | ⟨-, hliteral, -⟩, -⟩
    · obtain ⟨hty, -⟩ := commonTy_ok.mp hty
      obtain rfl : b = ty := by simpa [hchosen] using hty
      rcases retypeLiteral_ok.mp hw with ⟨heq, -⟩ | ⟨-, ⟨_, _, h, -, hfits, -⟩ | ⟨_, _, h, -⟩⟩
      · exact absurd heq hne
      · cases h
        exact hfits
      · cases h
    · cases hliteral
  · intro hfits
    refine ⟨b, commonTy_ok.mpr ⟨hchosen, hint hfits⟩, .inl ⟨.int m b, ?_⟩, .inl ⟨.int n b, ?_⟩⟩
    · exact retypeLiteral_ok.mpr (.inr ⟨hne, .inl ⟨m, a, rfl, hint hfits, hfits, rfl⟩⟩)
    · exact retypeLiteral_ok.mpr (.inl ⟨rfl, rfl⟩)

end Value

namespace Lower

variable {s s' : LowerState} {v : Value} {ty : Ty} {r : Code × Value}

lemma coerce_convertsTo (h : coerce v ty "icmp" s = .ok r s') : v.ConvertsTo ty := by
  rcases coerce_ok h with ⟨w, hw, -⟩ | ⟨hbool, hliteral, hint, -⟩
  · exact .inl ⟨w, hw⟩
  · exact .inr ⟨hbool, hliteral, hint⟩

lemma exists_coerce (h : v.ConvertsTo ty) (s : LowerState) :
    ∃ code w s', coerce v ty "icmp" s = .ok (code, w) s' ∧ w.ty = ty := by
  rw [coerce]
  by_cases hty : v.ty = ty
  · rw [if_pos hty]
    exact ⟨_, _, _, rfl, hty⟩
  · rw [if_neg hty]
    rcases h with ⟨w, hw⟩ | ⟨hbool, hliteral, hint⟩
    · have hretyped : v.isLiteral = true ∧ w.ty = ty := by
        rcases retypeLiteral_ok.mp hw with
          ⟨heq, -⟩ | ⟨-, ⟨n, a, rfl, -, -, rfl⟩ | ⟨x, a, rfl, -, rfl⟩⟩
        · exact absurd heq hty
        · exact ⟨rfl, rfl⟩
        · exact ⟨rfl, rfl⟩
      have hrun : ofLowering (retypeLiteral v ty "icmp") s = .ok w s := ofLowering_ok.mpr ⟨hw, rfl⟩
      rw [if_pos hretyped.1]
      exact ⟨[], w, s, bind_ok.mpr ⟨w, s, hrun, pure_ok.mpr ⟨rfl, rfl⟩⟩, hretyped.2⟩
    · have hzext : Instr.mkZext (.temp s.next ty) v = .ok (.zext (.temp s.next ty) v) :=
        Instr.mkZext_of_bool hbool hint fun h => hty (hbool.trans h.symm)
      rw [if_neg (Bool.eq_false_iff.mp hliteral), if_pos ⟨hbool, hint⟩]
      refine ⟨[.zext (.temp s.next ty) v], .temp s.next ty, s.drawn, ?_, rfl⟩
      simp only [bind_ok, newTemp_ok, ofLowering_ok, pure_ok]
      exact ⟨_, _, ⟨rfl, rfl⟩, _, _, ⟨hzext, rfl⟩, rfl, rfl⟩

end Lower

namespace Expr

open Lower

variable {env : LowerEnv} {scope : ScopeId} {s : LowerState}

/-- A comparison is accepted if its operands are, each on its own, and their values can be
compared. -/
lemma accepted_compare {op : CompareOp} {l r : Expr} :
    (compare op l r).Accepted env scope s ↔
      ∃ v w, l.Gives env scope s v ∧ r.Gives env scope s w ∧ v.Comparable w := by
  constructor
  · rintro ⟨seg, s', hrun⟩
    obtain ⟨leftCode, v, rightCode, w, _, _, _, _, ty, t₁, t₂, t₃, t₄, hl, hr, hty, hcl, hcr, -⟩ :=
      comparison_ok hrun
    have hscopes : t₁.scopes.scopes = s.scopes.scopes := l.lower_keeps hl
    obtain ⟨w', hw', halike⟩ := Gives.of_scopes_eq ⟨rightCode, t₂, hr⟩ hscopes
    have hcomparable : v.Comparable w := ⟨ty, hty, coerce_convertsTo hcl, coerce_convertsTo hcr⟩
    have hleft : l.Gives env scope s v := ⟨leftCode, t₁, hl⟩
    exact ⟨v, w', hleft, hw', hcomparable.congr hleft.alike halike⟩
  · rintro ⟨v, w, ⟨leftCode, t₁, hl⟩, hr, hcomparable⟩
    have hscopes : s.scopes.scopes = t₁.scopes.scopes := (l.lower_keeps hl).symm
    have hleft : l.Gives env scope s v := ⟨leftCode, t₁, hl⟩
    obtain ⟨w', ⟨rightCode, t₂, hr'⟩, halike⟩ := hr.of_scopes_eq hscopes
    obtain ⟨ty, hty, hv, hw⟩ := hcomparable.congr hleft.alike halike
    obtain ⟨leftConversion, v', t₃, hcl, hvty⟩ := exists_coerce hv t₂
    obtain ⟨rightConversion, w'', t₄, hcr, hwty⟩ := exists_coerce hw t₃
    have hint : v'.ty.isInteger = true := hvty ▸ (Value.commonTy_ok.mp hty).2
    have hicmp : Instr.mkIcmp (.temp t₄.next .bool) op.toRelation v' w'' = .ok _ :=
      Instr.mkIcmp_ok.mpr ⟨rfl, hint, hwty.trans hvty.symm, rfl⟩
    refine ⟨⟨leftCode ++ rightCode ++ leftConversion ++ rightConversion ++
      [.icmp (.temp t₄.next .bool) op.toRelation v' w''], some (.temp t₄.next .bool)⟩, t₄.drawn, ?_⟩
    simp only [lower, comparison, bind_ok, operand_ok, ofLowering_ok, newTemp_ok, pure_ok]
    exact ⟨(leftCode, v), t₁, hl, (rightCode, w'), t₂, hr', ty, t₂, ⟨hty, rfl⟩, _, t₃, hcl, _, t₄,
      hcr, _, _, ⟨rfl, rfl⟩, _, _, ⟨hicmp, rfl⟩, rfl, rfl⟩

/-- The acceptance of a comparison does not depend on the order of its operands, unless they are
integer literals of different types: the comparison is accepted if the literal that comes first fits
the type of the other one. -/
theorem compare_mirror (env : LowerEnv) (scope : ScopeId) (s : LowerState) (op : CompareOp)
    (l r : Expr) :
    ((∀ m a n b, l.Gives env scope s (.int m a) → r.Gives env scope s (.int n b) → a = b) →
      ((compare op l r).Accepted env scope s ↔ (compare op.mirror r l).Accepted env scope s)) ∧
    ∀ m a n b, l.Gives env scope s (.int m a) → r.Gives env scope s (.int n b) → a ≠ b →
      ((compare op l r).Accepted env scope s ↔ b.fits m = true) ∧
      ((compare op.mirror r l).Accepted env scope s ↔ a.fits n = true) := by
  constructor
  · intro hlit
    rw [accepted_compare, accepted_compare]
    constructor
    · rintro ⟨v, w, hv, hw, h⟩
      refine ⟨w, v, hw, hv, h.swap hv.alike hw.alike ?_⟩
      rintro m a n b rfl rfl
      exact hlit m a n b hv hw
    · rintro ⟨w, v, hw, hv, h⟩
      refine ⟨v, w, hv, hw, h.swap hw.alike hv.alike ?_⟩
      rintro n b m a rfl rfl
      exact (hlit m a n b hv hw).symm
  · intro m a n b hl hr hne
    have hiff : ∀ {op : CompareOp} {l r : Expr} {m n : Int} {a b : Ty},
        l.Gives env scope s (.int m a) → r.Gives env scope s (.int n b) → a ≠ b →
          ((compare op l r).Accepted env scope s ↔ b.fits m = true) := by
      intro op l r m n a b hl hr hne
      rw [accepted_compare, ← Value.comparable_int hne]
      constructor
      · rintro ⟨v, w, hv, hw, h⟩
        rwa [← hl.unique hv, ← hr.unique hw] at h
      · exact fun h => ⟨_, _, hl, hr, h⟩
    exact ⟨hiff hl hr hne, hiff hr hl hne.symm⟩

/-- An assignment to a variable of one byte has a literal as its value. -/
def assignedChar : Expr := .assign "c" (.int 5)

end Expr

/-- A state in which `c` is a variable of one byte. -/
def LowerState.oneChar : LowerState where
  scopes := { scopes := [⟨none, [("c", .slot 0 .i8)]⟩], nextNumber := 1 }
  block := .fixed 0 1

namespace Expr

/-- 5 fits 32 bits, but 300 does not fit a byte. -/
theorem assignedChar_mirror :
    (compare .equal assignedChar (.int 300)).Accepted (.ofSignature {} {} ⟨.i32, []⟩) 0 .oneChar ∧
    ¬(compare .equal (.int 300) assignedChar).Accepted (.ofSignature {} {} ⟨.i32, []⟩) 0 .oneChar := by
  have hassigned : assignedChar.Gives (.ofSignature {} {} ⟨.i32, []⟩) 0 .oneChar (.int 5 .i8) :=
    ⟨_, _, rfl⟩
  have hliteral : (Expr.int 300).Gives (.ofSignature {} {} ⟨.i32, []⟩) 0 .oneChar (.int 300 .i32) :=
    ⟨_, _, rfl⟩
  have hmirror := (compare_mirror (.ofSignature {} {} ⟨.i32, []⟩) 0 .oneChar .equal assignedChar
    (.int 300)).2 5 .i8 300 .i32 hassigned hliteral (by decide)
  exact ⟨hmirror.1.mpr (by decide), fun h => absurd (hmirror.2.mp h) (by decide)⟩

/-- One order of the operands is accepted and the other one refused, alone and as part of a source. -/
theorem literals_accepted_one_way :
    (∃ env scope s op l r, (compare op l r).Accepted env scope s ∧
      ¬(compare op.mirror r l).Accepted env scope s) ∧
    (compileSource {} "int f(char c) \x7b return (c = 5) == 300; \x7d").isOk = true ∧
    compileSource {} "int f(char c) \x7b return 300 == (c = 5); \x7d" =
      .error (.lowering (.literalOutOfRange 300 .i8)) := by
  refine ⟨⟨.ofSignature {} {} ⟨.i32, []⟩, 0, .oneChar, .equal, assignedChar, .int 300,
    ⟨_, _, rfl⟩, ?_⟩, by decide +kernel, by decide +kernel⟩
  rintro ⟨seg, s', h⟩
  cases h

end Expr

end MiniC
