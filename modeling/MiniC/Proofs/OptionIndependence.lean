import Mathlib.Data.List.Induction
import MiniC.Proofs.BlockStructure
import MiniC.Proofs.LabelPlacement

/-!
# What options can change

Options choose the alignment of memory operations and whether a jump that control cannot reach is
written. `Code.core` is code without either. Two lowerings of a tree under different options run in
step: they fail with the same error, or they end in the same state, up to the log, with code of the
same core. So whether code ends with a terminator, which decides about jumps and new blocks, never
differs between the two.
-/

namespace MiniC

namespace Instr

def isJump : Instr → Bool
  | .jump _ => true
  | _ => false

/-- The instruction with all alignments zero. -/
def unaligned : Instr → Instr
  | .alloca slot _ => .alloca slot 0
  | .store value slot _ => .store value slot 0
  | .load result slot _ => .load result slot 0
  | i => i

lemma isTerminator_of_isJump {i : Instr} (h : i.isJump = true) : i.isTerminator = true := by
  cases i with
  | jump target => rfl
  | _ => cases h

@[simp] lemma isJump_unaligned (i : Instr) : i.unaligned.isJump = i.isJump := by
  cases i <;> rfl

@[simp] lemma isTerminator_unaligned (i : Instr) : i.unaligned.isTerminator = i.isTerminator := by
  cases i <;> rfl

lemma isJump_relabel (f : Label → Label) (i : Instr) : (i.relabel f).isJump = i.isJump := by
  cases i with
  | phi result incoming => rw [relabel_phi]; rfl
  | _ => rfl

lemma unaligned_relabel (f : Label → Label) (i : Instr) :
    (i.relabel f).unaligned = i.unaligned.relabel f := by
  cases i with
  | phi result incoming =>
    rw [relabel_phi]
    exact (relabel_phi f result incoming).symm
  | _ => rfl

end Instr

namespace Code

/-- Code with alignments zero and without each jump that directly follows a terminator; `dead` says
whether a terminator stands in front of the code. -/
def coreFrom : (dead : Bool) → Code → Code
  | _, [] => []
  | dead, i :: rest =>
    if dead && i.isJump then coreFrom true rest else i.unaligned :: coreFrom i.isTerminator rest

/-- What options leave of code: alignments are zero, and no jump directly follows a terminator. -/
def core (code : Code) : Code := coreFrom false code

/-- Whether a terminator stands directly in front of what comes behind `code`. -/
def deadAfter (dead : Bool) (code : Code) : Bool := code.foldl (fun _ i => i.isTerminator) dead

lemma deadAfter_false (code : Code) : deadAfter false code = endsWithTerminator code := by
  induction code using List.reverseRecOn with
  | nil => rfl
  | append_singleton code i _ =>
    rw [deadAfter, List.foldl_append, endsWithTerminator, List.getLast?_concat]
    rfl

lemma coreFrom_append (dead : Bool) (code code' : Code) :
    coreFrom dead (code ++ code') = coreFrom dead code ++ coreFrom (deadAfter dead code) code' := by
  induction code generalizing dead with
  | nil => rfl
  | cons i rest ih =>
    rw [List.cons_append, coreFrom, coreFrom]
    split
    · rename_i hjump
      have hterm := Instr.isTerminator_of_isJump (Bool.and_eq_true_iff.mp hjump).2
      rw [ih, deadAfter, deadAfter, List.foldl_cons, hterm]
    · rw [ih, List.cons_append]
      rfl

/-- A deleted jump stands behind a terminator, which takes its place. -/
lemma deadAfter_coreFrom (dead : Bool) (code : Code) :
    deadAfter dead (coreFrom dead code) = deadAfter dead code := by
  induction code generalizing dead with
  | nil => rfl
  | cons i rest ih =>
    have hcons : deadAfter dead (i :: rest) = deadAfter i.isTerminator rest := rfl
    rw [hcons, coreFrom]
    split
    · rename_i hjump
      obtain ⟨hdead, hjump⟩ := Bool.and_eq_true_iff.mp hjump
      rw [hdead, Instr.isTerminator_of_isJump hjump, ih]
    · have hkept : deadAfter dead (i.unaligned :: coreFrom i.isTerminator rest) =
        deadAfter i.unaligned.isTerminator (coreFrom i.isTerminator rest) := rfl
      rw [hkept, Instr.isTerminator_unaligned, ih]

lemma coreFrom_relabel (f : Label → Label) (dead : Bool) (code : Code) :
    coreFrom dead (code.map (Instr.relabel f)) = (coreFrom dead code).map (Instr.relabel f) := by
  induction code generalizing dead with
  | nil => rfl
  | cons i rest ih =>
    rw [List.map_cons, coreFrom, coreFrom, Instr.isJump_relabel, Instr.isTerminator_relabel]
    split
    · rw [ih]
    · rw [ih, Instr.unaligned_relabel, List.map_cons]

/-- Whether no jump directly follows a terminator. -/
def NoDeadJump (code : Code) : Prop :=
  List.IsChain (fun i j => i.isTerminator = true → j.isJump = false) code

/-- Whether two codes have the same core, wherever they stand. -/
def SameCore (code code' : Code) : Prop := ∀ dead, coreFrom dead code = coreFrom dead code'

namespace SameCore

variable {a a' b b' : Code}

lemma refl (a : Code) : SameCore a a := fun _ => rfl

lemma symm (h : SameCore a a') : SameCore a' a := fun dead => (h dead).symm

lemma deadAfter_eq (h : SameCore a a') (dead : Bool) : deadAfter dead a = deadAfter dead a' := by
  rw [← deadAfter_coreFrom, h dead, deadAfter_coreFrom]

lemma endsWithTerminator_eq (h : SameCore a a') :
    Code.endsWithTerminator a = Code.endsWithTerminator a' := by
  rw [← deadAfter_false, ← deadAfter_false, h.deadAfter_eq]

lemma append (ha : SameCore a a') (hb : SameCore b b') : SameCore (a ++ b) (a' ++ b') := by
  intro dead
  rw [coreFrom_append, coreFrom_append, ha dead, ha.deadAfter_eq, hb]

lemma cons (i : Instr) (h : SameCore a a') : SameCore (i :: a) (i :: a') := (refl [i]).append h

lemma concat (h : SameCore a a') (i : Instr) : SameCore (a ++ [i]) (a' ++ [i]) :=
  h.append (refl [i])

lemma of_unaligned_eq {i i' : Instr} (h : i.unaligned = i'.unaligned) : SameCore [i] [i'] := by
  have hjump : i.isJump = i'.isJump := by rw [← Instr.isJump_unaligned, h, Instr.isJump_unaligned]
  intro dead
  rw [coreFrom, coreFrom, hjump, h]
  rfl

lemma relabel (h : SameCore a a') (f : Label → Label) :
    SameCore (a.map (Instr.relabel f)) (a'.map (Instr.relabel f)) := by
  intro dead
  rw [coreFrom_relabel, coreFrom_relabel, h dead]

/-- Behind a terminator, a jump may stand or not. -/
lemma jump_of_endsWithTerminator (h : SameCore a a') (hends : Code.endsWithTerminator a = true)
    (target : Label) : SameCore a (a' ++ [.jump target]) := by
  intro dead
  have hdead : deadAfter dead a' = true := by
    cases dead with
    | false => rw [deadAfter_false, ← h.endsWithTerminator_eq, hends]
    | true =>
      cases a' with
      | nil => rfl
      | cons i rest =>
        rw [h.endsWithTerminator_eq, ← deadAfter_false] at hends
        exact hends
  rw [coreFrom_append, hdead, h dead]
  exact (List.append_nil _).symm

end SameCore

end Code

namespace Lower

variable {α β γ δ : Type}

/-- Whether two outcomes are the same error, or results that `R` relates in states that differ in
nothing but the log. -/
def SameOutcome (R : α → β → Prop) :
    EStateM.Result CompileError LowerState α → EStateM.Result CompileError LowerState β → Prop
  | .ok a s, .ok b t => R a b ∧ ∃ log, s.logged log = t
  | .error e _, .error e' _ => e = e'
  | _, _ => False

/-- What follows two steps with the same outcome is compared only where both succeed. -/
lemma SameOutcome.bind {R : α → β → Prop} {S : γ → δ → Prop} {x : Lower α} {y : Lower β}
    {f : α → Lower γ} {g : β → Lower δ} {s t : LowerState} (hx : SameOutcome R (x s) (y t))
    (hf : ∀ a b s' log, R a b → x s = .ok a s' → y t = .ok b (s'.logged log) →
      SameOutcome S (f a s') (g b (s'.logged log))) :
    SameOutcome S ((x >>= f) s) ((y >>= g) t) := by
  have hbind : (x >>= f) s = EStateM.bind x f s := rfl
  have hbind' : (y >>= g) t = EStateM.bind y g t := rfl
  rw [hbind, hbind', EStateM.bind, EStateM.bind]
  cases hrun : x s with
  | ok a s' =>
    cases hrun' : y t with
    | ok b t' =>
      rw [hrun, hrun'] at hx
      obtain ⟨hab, log, rfl⟩ := hx
      exact hf a b s' log hab hrun hrun'
    | error e t' =>
      rw [hrun, hrun'] at hx
      exact hx.elim
  | error e s' =>
    cases hrun' : y t with
    | ok b t' =>
      rw [hrun, hrun'] at hx
      exact hx.elim
    | error e' t' =>
      rw [hrun, hrun'] at hx
      exact hx

/-- Whether two steps have the same outcome from states that differ in nothing but the log. -/
def Agree (R : α → β → Prop) (x : Lower α) (y : Lower β) : Prop :=
  ∀ s log, SameOutcome R (x s) (y (s.logged log))

namespace Agree

variable {R : α → β → Prop} {S : γ → δ → Prop} {x : Lower α} {y : Lower β}

lemma pure {a : α} {b : β} (h : R a b) : Agree R (Pure.pure a) (Pure.pure b) :=
  fun _ log => ⟨h, log, rfl⟩

lemma throw (e : CompileError) : Agree R (throw e) (throw e) := fun _ _ => rfl

lemma bind {f : α → Lower γ} {g : β → Lower δ} (hx : Agree R x y)
    (hf : ∀ a b, R a b → Agree S (f a) (g b)) : Agree S (x >>= f) (y >>= g) :=
  fun s log => (hx s log).bind fun a b s' log' hab _ _ => hf a b hab s' log'

lemma mono {R' : α → β → Prop} (hx : Agree R x y) (h : ∀ a b, R a b → R' a b) : Agree R' x y := by
  intro s log
  have hsame := hx s log
  cases hrun : x s <;> cases hrun' : y (s.logged log) <;> rw [hrun, hrun'] at hsame
  · exact ⟨h _ _ hsame.1, hsame.2⟩
  · exact hsame.elim
  · exact hsame.elim
  · exact hsame

/-- Where both steps give the same value, the rest may be compared for that value. -/
lemma bind_eq {x y : Lower α} {f : α → Lower γ} {g : α → Lower δ} (hx : Agree Eq x y)
    (hf : ∀ a, Agree S (f a) (g a)) : Agree S (x >>= f) (y >>= g) := by
  refine hx.bind ?_
  rintro a _ rfl
  exact hf a

lemma ite {p : Prop} [Decidable p] {x' : Lower α} {y' : Lower β} (h : Agree R x y)
    (h' : Agree R x' y') : Agree R (if p then x else x') (if p then y else y') := by
  split
  · exact h
  · exact h'

lemma ofLowering (x : Except LoweringError α) : Agree Eq (ofLowering x) (ofLowering x) := by
  cases x with
  | ok a => exact pure rfl
  | error e => exact throw _

/-- Checks that come first may be compared one by one. -/
lemma ofLowering_bind {x : Except LoweringError α} {f : α → Except LoweringError γ}
    {g : α → Except LoweringError δ}
    (h : ∀ a, Agree S (Lower.ofLowering (f a)) (Lower.ofLowering (g a))) :
    Agree S (Lower.ofLowering (x >>= f)) (Lower.ofLowering (x >>= g)) := by
  cases x with
  | ok a => exact h a
  | error e => exact throw _

lemma ofScope (x : Except ScopeError α) : Agree Eq (ofScope x) (ofScope x) := by
  cases x with
  | ok a => exact pure rfl
  | error e => exact throw _

lemma emit (e e' : Event) : Agree Eq (emit e) (emit e') := fun _ _ => ⟨rfl, _, rfl⟩

lemma newTemp (ty : Ty) : Agree Eq (newTemp ty) (newTemp ty) := fun _ log => ⟨rfl, log, rfl⟩

lemma newSlot (ty : Ty) : Agree Eq (newSlot ty) (newSlot ty) := fun _ log => ⟨rfl, log, rfl⟩

lemma newLabel : Agree Eq newLabel newLabel := fun _ log => ⟨rfl, log, rfl⟩

lemma openScope (parent : ScopeId) : Agree Eq (openScope parent) (openScope parent) :=
  fun _ log => ⟨rfl, log, rfl⟩

lemma currentBlock : Agree Eq currentBlock currentBlock := fun _ log => ⟨rfl, log, rfl⟩

/-- Both runs read the same scopes and labels. -/
lemma get : Agree (fun s t : LowerState => s.scopes = t.scopes ∧ s.labels = t.labels) get get :=
  fun _ log => ⟨⟨rfl, rfl⟩, log, rfl⟩

lemma lookup (scope : ScopeId) (name : String) :
    Agree Eq (lookup scope name) (lookup scope name) := by
  refine get.bind ?_
  rintro s t ⟨hscopes, -⟩
  rw [hscopes]
  exact ofScope _

lemma placeLabel (l : Label) : Agree Eq (placeLabel l) (placeLabel l) := by
  have hnumber : Agree Eq freshNumber freshNumber := fun _ log => ⟨rfl, log, rfl⟩
  refine bind_eq hnumber fun name => get.bind ?_
  rintro s t ⟨-, hlabels⟩
  rw [hlabels]
  refine bind_eq (ofLowering _) fun r s log => ?_
  exact ⟨rfl, _, rfl⟩

end Agree

/-- Whether two codes with a result have the same core and result. -/
def SameResult (r r' : Code × α) : Prop := Code.SameCore r.1 r'.1 ∧ r.2 = r'.2

def SameSegment (seg seg' : Segment) : Prop :=
  Code.SameCore seg.instructions seg'.instructions ∧ seg.result = seg'.result

namespace Agree

variable {env env' : LowerEnv} {code code' : Code}

/-- Jumps may differ, but not the core of the code that ends with them. -/
lemma jumpAfter (h : Code.SameCore code code') (target : Label) :
    Agree (fun jump jump' => Code.SameCore (code ++ jump) (code' ++ jump'))
      (jumpAfter env code target) (jumpAfter env' code' target) := by
  have hkept := h.concat (.jump target)
  intro s log
  rw [Lower.jumpAfter, Lower.jumpAfter, ← h.endsWithTerminator_eq]
  cases hends : Code.endsWithTerminator code with
  | false =>
    simp only [Bool.and_false, Bool.false_eq_true, ↓reduceIte]
    exact ⟨hkept, log, rfl⟩
  | true =>
    have hdropped : Code.SameCore (code ++ []) (code' ++ []) := by simpa using h
    have hleft : Code.SameCore (code ++ []) (code' ++ [.jump target]) := by
      simpa using h.jump_of_endsWithTerminator hends target
    have hright : Code.SameCore (code ++ [.jump target]) (code' ++ []) := by
      simpa using (h.symm.jump_of_endsWithTerminator (h.endsWithTerminator_eq ▸ hends) target).symm
    cases env.options.elideUnreachableJumps <;> cases env'.options.elideUnreachableJumps
    · exact ⟨hkept, _, rfl⟩
    · exact ⟨hright, _, rfl⟩
    · exact ⟨hleft, _, rfl⟩
    · exact ⟨hdropped, _, rfl⟩

/-- A new block is opened in both runs or in none. -/
lemma openBlockAfter (h : Code.SameCore code code') :
    Agree Eq (openBlockAfter code) (openBlockAfter code') := by
  rw [Lower.openBlockAfter, Lower.openBlockAfter, h.endsWithTerminator_eq]
  refine ite (bind_eq (emit _ _) fun _ => bind_eq newLabel fun l => ?_) (pure rfl)
  exact bind_eq (placeLabel l) fun mark => pure rfl

lemma load (slot : Value) : Agree SameResult (load env slot) (load env' slot) := by
  refine bind_eq (newTemp _) fun result => ?_
  have hcheck : Agree (fun i i' => i.unaligned = i'.unaligned)
      (Lower.ofLowering (Instr.mkLoad result slot (env.options.alignmentFor slot.ty)))
      (Lower.ofLowering (Instr.mkLoad result slot (env'.options.alignmentFor slot.ty))) :=
    ofLowering_bind fun _ => ofLowering_bind fun _ => pure rfl
  exact hcheck.bind fun i i' hi => pure ⟨.of_unaligned_eq hi, rfl⟩

lemma store (value slot : Value) :
    Agree Code.SameCore (store env value slot) (store env' value slot) := by
  have hcheck : Agree (fun i i' => i.unaligned = i'.unaligned)
      (Lower.ofLowering (Instr.mkStore value slot (env.options.alignmentFor slot.ty)))
      (Lower.ofLowering (Instr.mkStore value slot (env'.options.alignmentFor slot.ty))) :=
    ofLowering_bind fun _ => ofLowering_bind fun _ => pure rfl
  exact hcheck.bind fun i i' hi => pure (.of_unaligned_eq hi)

lemma declareSlot (scope : ScopeId) (name : String) (ty : Ty) :
    Agree SameResult (declareSlot env scope name ty) (declareSlot env' scope name ty) := by
  have hcheck : ∀ slot, Agree (fun i i' => i.unaligned = i'.unaligned)
      (Lower.ofLowering (Instr.mkAlloca slot (env.options.alignmentFor ty)))
      (Lower.ofLowering (Instr.mkAlloca slot (env'.options.alignmentFor ty))) :=
    fun slot => ofLowering_bind fun _ => pure rfl
  refine bind_eq (newSlot ty) fun slot => get.bind ?_
  rintro s t ⟨hscopes, -⟩
  rw [hscopes]
  refine bind_eq (ofScope _) fun scopes => ?_
  have hmodify : Agree Eq (modify fun s => { s with scopes } : Lower PUnit)
      (modify fun s => { s with scopes }) := fun _ _ => ⟨rfl, _, rfl⟩
  exact bind_eq hmodify fun _ => (hcheck slot).bind fun i i' hi => pure ⟨.of_unaligned_eq hi, rfl⟩

lemma coerce (value : Value) (target : Ty) (context : String) :
    Agree SameResult (coerce value target context) (coerce value target context) := by
  refine ite (pure ⟨.refl _, rfl⟩) (ite ?_ (ite ?_ (throw _)))
  · exact bind_eq (ofLowering _) fun v => pure ⟨.refl _, rfl⟩
  · exact bind_eq (newTemp _) fun v => bind_eq (ofLowering _) fun i => pure ⟨.refl _, rfl⟩

lemma operand {x y : Lower Segment} (h : Agree SameSegment x y) (context : String) :
    Agree SameResult (operand x context) (operand y context) := by
  refine h.bind ?_
  rintro ⟨code, result⟩ ⟨code', _⟩ ⟨hcode, rfl⟩
  cases result with
  | none => exact throw _
  | some v => exact pure ⟨hcode, rfl⟩

lemma operandAs {x y : Lower Segment} (h : Agree SameSegment x y) (ty : Ty) (context : String) :
    Agree SameResult (operandAs x ty context) (operandAs y ty context) := by
  refine (operand h context).bind ?_
  rintro ⟨code, v⟩ ⟨code', _⟩ ⟨hcode, rfl⟩
  refine (coerce v ty context).bind ?_
  rintro ⟨conversion, w⟩ ⟨conversion', _⟩ ⟨hconversion, rfl⟩
  exact pure ⟨hcode.append hconversion, rfl⟩

lemma arm {x y : Lower Segment} (h : Agree SameSegment x y) (keepBoolean : Bool) :
    Agree SameResult (arm keepBoolean x) (arm keepBoolean y) := by
  refine (operand h _).bind ?_
  rintro ⟨code, v⟩ ⟨code', _⟩ ⟨hcode, rfl⟩
  refine ite ((coerce v .i32 "conditional").bind ?_) (pure ⟨hcode, rfl⟩)
  rintro ⟨conversion, w⟩ ⟨conversion', _⟩ ⟨hconversion, rfl⟩
  exact pure ⟨hcode.append hconversion, rfl⟩

lemma conditional {condition condition' onTrue onTrue' onFalse onFalse' : Lower Segment}
    (hcond : Agree SameSegment condition condition') (htrue : Agree SameSegment onTrue onTrue')
    (hfalse : Agree SameSegment onFalse onFalse') (keepBoolean : Bool) :
    Agree SameSegment (conditional env keepBoolean condition onTrue onFalse)
      (conditional env' keepBoolean condition' onTrue' onFalse') := by
  refine (operandAs hcond _ _).bind ?_
  rintro ⟨test, v⟩ ⟨test', _⟩ ⟨htest, rfl⟩
  refine bind_eq newLabel fun trueLabel => bind_eq newLabel fun falseLabel => ?_
  refine bind_eq newLabel fun joinLabel => bind_eq (ofLowering _) fun branch => ?_
  refine bind_eq (placeLabel _) fun trueMark => (arm htrue _).bind ?_
  rintro ⟨trueCode, trueValue⟩ ⟨trueCode', _⟩ ⟨htrueCode, rfl⟩
  have h₁ := htest.append ((htrueCode.cons trueMark).cons branch)
  refine bind_eq currentBlock fun trueBlock => (jumpAfter h₁ joinLabel).bind ?_
  intro trueJump trueJump' h₂
  refine bind_eq (placeLabel _) fun falseMark => (arm hfalse _).bind ?_
  rintro ⟨falseCode, falseValue⟩ ⟨falseCode', _⟩ ⟨hfalseCode, rfl⟩
  have h₃ := h₂.append (hfalseCode.cons falseMark)
  refine bind_eq currentBlock fun falseBlock => (jumpAfter h₃ joinLabel).bind ?_
  intro falseJump falseJump' h₄
  refine bind_eq (placeLabel _) fun joinMark => bind_eq (ofLowering _) fun v₁ => ?_
  refine bind_eq (ofLowering _) fun v₂ => bind_eq (newTemp _) fun result => ?_
  exact bind_eq (ofLowering _) fun phi => pure ⟨h₄.append (.refl _), rfl⟩

lemma arguments {xs ys : List (Lower Segment)} (h : List.Forall₂ (Agree SameSegment) xs ys)
    (tys : List Ty) : Agree SameResult (arguments xs tys) (arguments ys tys) := by
  induction h generalizing tys with
  | nil => exact pure ⟨.refl _, rfl⟩
  | cons hx _ ih =>
    cases tys with
    | nil => exact pure ⟨.refl _, rfl⟩
    | cons ty tys =>
      refine (operandAs hx _ _).bind ?_
      rintro ⟨code, v⟩ ⟨code', _⟩ ⟨hcode, rfl⟩
      refine (ih tys).bind ?_
      rintro ⟨more, vs⟩ ⟨more', _⟩ ⟨hmore, rfl⟩
      exact pure ⟨hcode.append hmore, rfl⟩

lemma call (henv : env.functions = env'.functions) (callee : String)
    {xs ys : List (Lower Segment)} (h : List.Forall₂ (Agree SameSegment) xs ys) :
    Agree SameSegment (call env callee xs) (call env' callee ys) := by
  rw [Lower.call, Lower.call, henv]
  refine bind_eq (ofScope _) fun signature => ?_
  rw [h.length_eq]
  refine ite ((arguments h _).bind ?_) (throw _)
  rintro ⟨code, values⟩ ⟨code', _⟩ ⟨hcode, rfl⟩
  have hcall : ∀ result, Agree SameSegment (do
      let i ← Lower.ofLowering (Instr.mkCall result callee signature.returnTy values)
      return ⟨code ++ [i], result⟩) (do
      let i ← Lower.ofLowering (Instr.mkCall result callee signature.returnTy values)
      return ⟨code' ++ [i], result⟩) :=
    fun result => bind_eq (ofLowering _) fun i => pure ⟨hcode.concat i, rfl⟩
  refine ite (bind_eq (pure rfl) hcall) (bind_eq (newTemp _) fun v => bind_eq (pure rfl) hcall)

end Agree

end Lower

open Lower in
/-- The code of an expression has the same core under all options. -/
theorem Expr.lower_agree {env env' : LowerEnv} (henv : env.functions = env'.functions)
    {scope : ScopeId} (e : Expr) :
    Agree SameSegment (e.lower env scope) (e.lower env' scope) := by
  have hbinary : ∀ (op : BinaryOp) (ty : Ty) {x x' y y' : Lower Segment}, Agree SameSegment x x' →
      Agree SameSegment y y' → Agree SameSegment (binary op ty x y) (binary op ty x' y') := by
    intro op ty x x' y y' hx hy
    refine (Agree.operandAs hx _ _).bind ?_
    rintro ⟨leftCode, lhs⟩ ⟨leftCode', _⟩ ⟨hleft, rfl⟩
    refine (Agree.operandAs hy _ _).bind ?_
    rintro ⟨rightCode, rhs⟩ ⟨rightCode', _⟩ ⟨hright, rfl⟩
    refine .bind_eq (.newTemp _) fun result => .bind_eq (.ofLowering _) fun i => .pure ?_
    exact ⟨(hleft.append hright).concat i, rfl⟩
  have hincrement : ∀ name delta before, Agree SameSegment (increment env scope name delta before)
      (increment env' scope name delta before) := by
    intro name delta before
    refine .bind_eq (.lookup _ _) fun slot => (Agree.load slot).bind ?_
    rintro ⟨loading, old⟩ ⟨loading', _⟩ ⟨hloading, rfl⟩
    refine .bind_eq (.newTemp _) fun new => .bind_eq (.ofLowering _) fun sum => ?_
    refine (Agree.store _ _).bind fun storing storing' hstoring => .pure ?_
    exact ⟨hloading.append (hstoring.cons sum), rfl⟩
  induction e using Expr.induction with
  | int value => exact .pure ⟨.refl _, rfl⟩
  | float value => exact .pure ⟨.refl _, rfl⟩
  | var name =>
    refine .bind_eq (.lookup _ _) fun slot => (Agree.load slot).bind ?_
    rintro ⟨code, v⟩ ⟨code', _⟩ ⟨hcode, rfl⟩
    exact .pure ⟨hcode, rfl⟩
  | preIncrement name delta => exact hincrement name delta true
  | postIncrement name delta => exact hincrement name delta false
  | arith op left right hl hr => exact hbinary _ _ hl hr
  | compare op left right hl hr =>
    refine (Agree.operand hl _).bind ?_
    rintro ⟨leftCode, lhs⟩ ⟨leftCode', _⟩ ⟨hleft, rfl⟩
    refine (Agree.operand hr _).bind ?_
    rintro ⟨rightCode, rhs⟩ ⟨rightCode', _⟩ ⟨hright, rfl⟩
    refine .bind_eq (.ofLowering _) fun ty => (Agree.coerce lhs ty "icmp").bind ?_
    rintro ⟨leftConversion, lhs'⟩ ⟨_, _⟩ ⟨hleft', rfl⟩
    refine (Agree.coerce rhs ty "icmp").bind ?_
    rintro ⟨rightConversion, rhs'⟩ ⟨_, _⟩ ⟨hright', rfl⟩
    refine .bind_eq (.newTemp _) fun result => .bind_eq (.ofLowering _) fun i => .pure ?_
    exact ⟨(((hleft.append hright).append hleft').append hright').concat i, rfl⟩
  | logicalAnd left right hl hr => exact hbinary _ _ hl hr
  | logicalOr left right hl hr => exact hbinary _ _ hl hr
  | boolCast operand h =>
    refine (Agree.operand h _).bind ?_
    rintro ⟨code, v⟩ ⟨code', _⟩ ⟨hcode, rfl⟩
    refine .ite (.pure ⟨hcode, rfl⟩) (.ite ?_ (.throw _))
    refine .bind_eq (.newTemp _) fun result => .bind_eq (.ofLowering _) fun i => .pure ?_
    exact ⟨hcode.concat i, rfl⟩
  | conditional condition onTrue onFalse hc ht hf => exact .conditional hc ht hf _
  | assign target value h =>
    refine .bind_eq (.lookup _ _) fun slot => (Agree.operandAs h _ _).bind ?_
    rintro ⟨code, v⟩ ⟨code', _⟩ ⟨hcode, rfl⟩
    refine (Agree.store _ _).bind fun storing storing' hstoring => .pure ?_
    exact ⟨hcode.append hstoring, rfl⟩
  | call callee arguments h =>
    have hargs : ∀ es : List Expr,
        (∀ e ∈ es, Agree SameSegment (e.lower env scope) (e.lower env' scope)) →
        List.Forall₂ (Agree SameSegment) (lowerAll env scope es) (lowerAll env' scope es) := by
      intro es hes
      induction es with
      | nil => exact .nil
      | cons e rest ih =>
        exact .cons (hes e List.mem_cons_self)
          (ih fun e' he' => hes e' (List.mem_cons_of_mem e he'))
    rw [lower, lower]
    exact .call henv callee (hargs arguments h)

namespace Lower.Agree

variable {env env' : LowerEnv} {code code' : Code}

lemma declaration (henv : env.functions = env'.functions) (scope : ScopeId) (ds : List Declarator) :
    Agree Code.SameCore (declaration env scope ds) (declaration env' scope ds) := by
  have hdeclarator : ∀ d,
      Agree Code.SameCore (declarator env scope d) (declarator env' scope d) := by
    intro d
    rw [declarator, declarator]
    refine (declareSlot _ _ _).bind ?_
    rintro ⟨allocation, slot⟩ ⟨allocation', _⟩ ⟨hallocation, rfl⟩
    cases d.initializer with
    | none => exact pure hallocation
    | some e =>
      refine (operandAs (e.lower_agree henv) _ _).bind ?_
      rintro ⟨code, v⟩ ⟨code', _⟩ ⟨hcode, rfl⟩
      refine (store _ _).bind fun storing storing' hstoring => pure ?_
      exact (hallocation.append hcode).append hstoring
  induction ds with
  | nil => exact pure (.refl _)
  | cons d rest ih =>
    refine (hdeclarator d).bind fun first first' hfirst => ?_
    exact ih.bind fun more more' hmore => pure (hfirst.append hmore)

lemma branchOn {condition condition' : Lower Segment} (h : Agree SameSegment condition condition')
    (onTrue onFalse : Label) :
    Agree Code.SameCore (branchOn condition onTrue onFalse)
      (branchOn condition' onTrue onFalse) := by
  refine (operandAs h _ _).bind ?_
  rintro ⟨code, v⟩ ⟨code', _⟩ ⟨hcode, rfl⟩
  exact bind_eq (ofLowering _) fun i => pure (hcode.concat i)

/-- Where the end of the code decides about a jump, it is in front of the label that follows. -/
lemma jumpToMark (h : Code.SameCore code code') (target label : Label) :
    Agree Code.SameCore
      (do return code ++ (← Lower.jumpAfter env code target) ++ [← Lower.placeLabel label])
      (do return code' ++ (← Lower.jumpAfter env' code' target) ++ [← Lower.placeLabel label]) := by
  refine (jumpAfter h target).bind fun jump jump' hjump => ?_
  exact bind_eq (placeLabel label) fun mark => pure (hjump.concat mark)

lemma ifElse {condition condition' : Lower Segment} {onTrue onTrue' : Lower Code}
    {onFalse onFalse' : Option (Lower Code)} (hcond : Agree SameSegment condition condition')
    (htrue : Agree Code.SameCore onTrue onTrue')
    (hfalse : Option.Rel (Agree Code.SameCore) onFalse onFalse') :
    Agree Code.SameCore (ifElse env condition onTrue onFalse)
      (ifElse env' condition' onTrue' onFalse') := by
  refine bind_eq newLabel fun trueLabel => bind_eq newLabel fun falseLabel => ?_
  refine (branchOn hcond _ _).bind fun test test' htest => ?_
  refine bind_eq (placeLabel _) fun trueMark => htrue.bind fun trueCode trueCode' htrueCode => ?_
  have h₁ := htest.append (htrueCode.cons trueMark)
  cases hfalse with
  | none => exact jumpToMark h₁ _ _
  | some hfalse =>
    refine bind_eq newLabel fun endLabel => (jumpAfter h₁ endLabel).bind ?_
    intro trueJump trueJump' h₂
    refine bind_eq (placeLabel _) fun falseMark => hfalse.bind fun falseCode falseCode' hcode => ?_
    exact jumpToMark (h₂.append (hcode.cons falseMark)) _ _

lemma whileLoop {ctx : Context} {condition condition' : Lower Segment}
    {body body' : Context → Lower Code} (hcond : Agree SameSegment condition condition')
    (hbody : ∀ ctx, Agree Code.SameCore (body ctx) (body' ctx)) :
    Agree Code.SameCore (whileLoop env ctx condition body)
      (whileLoop env' ctx condition' body') := by
  refine bind_eq newLabel fun checkLabel => bind_eq newLabel fun bodyLabel => ?_
  refine bind_eq newLabel fun exitLabel => (jumpAfter (.refl []) checkLabel).bind ?_
  intro entering entering' hentering
  refine bind_eq (placeLabel _) fun checkMark => ?_
  refine (branchOn hcond _ _).bind fun test test' htest => ?_
  refine bind_eq (placeLabel _) fun bodyMark => (hbody _).bind fun bodyCode bodyCode' hcode => ?_
  exact jumpToMark ((hentering.append (htest.cons checkMark)).append (hcode.cons bodyMark)) _ _

lemma stepAfter (h : Code.SameCore code code') {step step' : Option (Lower Segment)}
    (hstep : Option.Rel (Agree SameSegment) step step') :
    Agree Code.SameCore (stepAfter code step) (stepAfter code' step') := by
  cases hstep with
  | none => exact pure h
  | some hstep =>
    refine bind_eq (openBlockAfter h) fun opened => hstep.bind fun seg seg' hseg => pure ?_
    exact (h.append (.refl opened)).append hseg.1

lemma initial {ctx : Context} {init init' : Option (Context → Lower Code)}
    (hinit : Option.Rel (fun x y => ∀ ctx, Agree Code.SameCore (x ctx) (y ctx)) init init') :
    Agree Code.SameCore (initial init ctx) (initial init' ctx) := by
  cases hinit with
  | none => exact pure (.refl _)
  | some hinit => exact hinit ctx

lemma loopTest (h : Code.SameCore code code') {condition condition' : Option (Lower Segment)}
    (hcond : Option.Rel (Agree SameSegment) condition condition') (bodyLabel exitLabel : Label) :
    Agree (fun test test' => Code.SameCore (code ++ test) (code' ++ test'))
      (loopTest env code condition bodyLabel exitLabel)
      (loopTest env' code' condition' bodyLabel exitLabel) := by
  cases hcond with
  | none => exact jumpAfter h bodyLabel
  | some hcond => exact (branchOn hcond _ _).mono fun test test' htest => h.append htest

lemma forLoop {ctx : Context} {init init' : Option (Context → Lower Code)}
    {condition condition' step step' : Option (ScopeId → Lower Segment)}
    {body body' : Context → Lower Code}
    (hinit : Option.Rel (fun x y => ∀ ctx, Agree Code.SameCore (x ctx) (y ctx)) init init')
    (hcond : ∀ scope,
      Option.Rel (Agree SameSegment) (condition.map (· scope)) (condition'.map (· scope)))
    (hstep : ∀ scope, Option.Rel (Agree SameSegment) (step.map (· scope)) (step'.map (· scope)))
    (hbody : ∀ ctx, Agree Code.SameCore (body ctx) (body' ctx)) :
    Agree Code.SameCore (forLoop env ctx init condition step body)
      (forLoop env' ctx init' condition' step' body') := by
  rw [forLoop_eq, forLoop_eq]
  refine bind_eq (openScope _) fun scope => (initial hinit).bind fun initCode initCode' h₀ => ?_
  refine bind_eq newLabel fun checkLabel => bind_eq newLabel fun bodyLabel => ?_
  refine bind_eq newLabel fun exitLabel => (jumpAfter h₀ checkLabel).bind ?_
  intro entering entering' h₁
  refine bind_eq (placeLabel _) fun checkMark => ?_
  refine (loopTest (h₁.concat checkMark) (hcond scope) _ _).bind fun test test' h₂ => ?_
  refine bind_eq (placeLabel _) fun bodyMark => (hbody _).bind fun bodyCode bodyCode' hcode => ?_
  refine (stepAfter (h₂.append (hcode.cons bodyMark)) (hstep scope)).bind ?_
  intro stepped stepped' h₃
  exact jumpToMark h₃ _ _

lemma ret (henv : env.returnTy = env'.returnTy) {value value' : Option (Lower Segment)}
    (hvalue : Option.Rel (Agree SameSegment) value value') :
    Agree Code.SameCore (ret env value) (ret env' value') := by
  cases hvalue with
  | none =>
    rw [Lower.ret, Lower.ret, henv]
    exact ite (pure (.refl _)) (throw _)
  | some hvalue =>
    rw [Lower.ret, Lower.ret, henv]
    refine (operand hvalue _).bind ?_
    rintro ⟨code, v⟩ ⟨code', _⟩ ⟨hcode, rfl⟩
    refine ite (throw _) ((coerce v _ _).bind ?_)
    rintro ⟨conversion, w⟩ ⟨conversion', _⟩ ⟨hconversion, rfl⟩
    exact pure ((hcode.append hconversion).concat _)

lemma leave (target : Option Label) (outside : LoweringError) :
    Agree Code.SameCore (leave target outside) (leave target outside) := by
  cases target with
  | none => exact throw _
  | some l => exact pure (.refl _)

end Lower.Agree

namespace Stmt

open Lower

variable {env env' : LowerEnv}

lemma lowerAll_agree {body : List Stmt}
    (hbody : ∀ x ∈ body, ∀ ctx, Agree Code.SameCore (x.lower env ctx) (x.lower env' ctx))
    (ctx : Context) {code code' : Code} (h : Code.SameCore code code') :
    Agree Code.SameCore (lowerAll env body ctx code) (lowerAll env' body ctx code') := by
  induction body generalizing code code' with
  | nil => exact .pure h
  | cons x rest ih =>
    refine .bind_eq (.openBlockAfter h) fun opened => ?_
    refine (hbody x List.mem_cons_self ctx).bind fun added added' hadded => ?_
    exact ih (fun y hy => hbody y (List.mem_cons_of_mem x hy))
      ((h.append (.refl opened)).append hadded)

/-- The code of a statement has the same core under all options. -/
theorem lower_agree (hfunctions : env.functions = env'.functions)
    (hreturn : env.returnTy = env'.returnTy) (x : Stmt) :
    ∀ ctx, Agree Code.SameCore (x.lower env ctx) (x.lower env' ctx) := by
  have hexpr : ∀ (e : Expr) scope, Agree SameSegment (e.lower env scope) (e.lower env' scope) :=
    fun e scope => e.lower_agree hfunctions
  have hpart : ∀ (part : Option Expr) scope, Option.Rel (Agree SameSegment)
      ((part.map fun e scope => e.lower env scope).map (· scope))
      ((part.map fun e scope => e.lower env' scope).map (· scope)) := by
    intro part scope
    cases part with
    | none => exact .none
    | some e => exact .some (hexpr e scope)
  induction x using Stmt.induction with
  | expression e => exact fun ctx => (hexpr e ctx.scope).bind fun seg seg' hseg => .pure hseg.1
  | declaration ds => exact fun ctx => .declaration hfunctions _ ds
  | compound body hbody =>
    exact fun ctx => .bind_eq (.openScope _) fun scope => lowerAll_agree hbody _ (.refl _)
  | ifElse condition onTrue onFalse htrue hfalse =>
    intro ctx
    cases onFalse with
    | none => exact .ifElse (hexpr _ _) (htrue ctx) .none
    | some onFalse => exact .ifElse (hexpr _ _) (htrue ctx) (.some (hfalse onFalse rfl ctx))
  | whileLoop condition body hbody => exact fun ctx => .whileLoop (hexpr _ _) hbody
  | forLoop init condition step body hinit hbody =>
    intro ctx
    cases init with
    | none =>
      rw [lower, lower]
      exact .forLoop .none (hpart condition) (hpart step) hbody
    | some init =>
      rw [lower, lower]
      exact .forLoop (.some (hinit init rfl)) (hpart condition) (hpart step) hbody
  | ret value =>
    intro ctx
    refine .ret hreturn ?_
    cases value with
    | none => exact .none
    | some e => exact .some (hexpr e ctx.scope)
  | brk => exact fun ctx => .leave _ _
  | cont => exact fun ctx => .leave _ _

end Stmt

namespace Lower

variable {env env' : LowerEnv} {code code' : Code}

lemma Agree.paramSlots (pairs : List (Param × Value)) :
    Agree Code.SameCore (paramSlots env pairs) (paramSlots env' pairs) := by
  induction pairs with
  | nil => exact pure (.refl _)
  | cons pair rest ih =>
    obtain ⟨p, argument⟩ := pair
    refine (declareSlot _ _ _).bind ?_
    rintro ⟨allocation, slot⟩ ⟨allocation', _⟩ ⟨hallocation, rfl⟩
    refine (store _ _).bind fun storing storing' hstoring => ?_
    refine ih.bind fun more more' hmore => pure ?_
    exact (hallocation.append hstoring).append hmore

lemma Agree.endingAfter (henv : env.returnTy = env'.returnTy) (function : String)
    (h : Code.SameCore code code') :
    Agree Eq (endingAfter env function code) (endingAfter env' function code') := by
  rw [Lower.endingAfter, Lower.endingAfter, h.endsWithTerminator_eq, henv]
  exact ite (pure rfl) (ite (pure rfl) (bind_eq (emit _ _) fun _ => pure rfl))

lemma Settles.owes_of_ok {α : Type} {x : Lower α} (hx : Settles x) {a : α} {s s' : LowerState}
    (h : x s = .ok a s') : Owes s [] s' := by
  have howes := hx s
  rw [Yields, h] at howes
  exact howes

/-- Resolving succeeds where all labels of the table have names and those of the code are in it. -/
lemma resolve_of_fixes {s : LowerState} (hfixes : ∀ id < s.labels.size, s.labels.Fixes id)
    (hknows : ∀ i ∈ code, ∀ l ∈ i.labels, s.Knows l) :
    resolve code s = .ok (code.map (Instr.relabel s.labels.named)) s := by
  have hcheck := LabelTable.checkAllFixed_ok.mpr hfixes
  have hcode := LabelTable.resolveCode_of_fixes fun i hi l hl => hfixes l.id (hknows i hi l hl)
  simp only [resolve, bind_ok, get_ok, ofLowering_ok]
  refine ⟨s, s, ⟨rfl, rfl⟩, (), s, ⟨hcheck, rfl⟩, ?_⟩
  rw [hcode]
  rfl

/-- Both codes get the same names, also the jump that one of them may have left out. -/
lemma SameOutcome.resolve {s : LowerState} {log : List Event} (h : Code.SameCore code code')
    (hfixes : ∀ id < s.labels.size, s.labels.Fixes id)
    (hknows : ∀ i ∈ code, ∀ l ∈ i.labels, s.Knows l)
    (hknows' : ∀ i ∈ code', ∀ l ∈ i.labels, s.Knows l) :
    SameOutcome Code.SameCore (resolve code s) (resolve code' (s.logged log)) := by
  have hresolve : Lower.resolve code s = _ := resolve_of_fixes hfixes hknows
  have hresolve' : Lower.resolve code' (s.logged log) = _ := resolve_of_fixes hfixes hknows'
  rw [hresolve, hresolve']
  exact ⟨h.relabel _, log, rfl⟩

end Lower

namespace Definition

open Lower

variable {d : Definition} {env env' : LowerEnv}

/-- Behind the body of a function all labels have names, and its code names no others. -/
lemma labels_of_ok {paramCode body : Code} {declared final : LowerState} (hentry : env.entry.id = 0)
    (hp : paramSlots env (d.params.zip env.params) env.start = .ok paramCode declared)
    (hb : Stmt.lowerAll env d.body { scope := declared.scopes.scopes.length } []
      (declared.opened Scopes.root) = .ok body final) :
    (∀ id < final.labels.size, final.labels.Fixes id) ∧
      ∀ i ∈ d.wholeCode env paramCode body, ∀ l ∈ i.labels, final.Knows l := by
  have hparams := (Settles.paramSlots _).owes_of_ok hp
  have hopened : Owes declared [] (declared.opened Scopes.root) := .of_labels_eq rfl
  have hbody := (Stmt.lowerAll_settles (fun x _ => x.lower_settles) _ _).owes_of_ok hb
  have howes := (hparams.trans hopened).trans hbody
  refine ⟨howes.fixes fun id hid => ?_, wholeCode_knows (emits_of_ok hp hb) hentry⟩
  have hzero : id = 0 := Nat.lt_one_iff.mp hid
  rw [hzero]
  exact ⟨env.params.length, rfl⟩

/-- The lowerings of a definition under different options fail with the same error or give code of
the same core. -/
theorem lowerIn_sameOutcome (functions : FunctionTable) (options options' : Options)
    (henv : env = .ofSignature functions options d.signature)
    (henv' : env' = .ofSignature functions options' d.signature) :
    SameOutcome SameSegment (d.lowerIn env env.start) (d.lowerIn env' env'.start) := by
  have hfunctions : env.functions = env'.functions := by rw [henv, henv']; rfl
  have hreturn : env.returnTy = env'.returnTy := by rw [henv, henv']; rfl
  have hparams : env.params = env'.params := by rw [henv, henv']; rfl
  have hentry : env.entry = env'.entry := by rw [henv, henv']; rfl
  have hzero : env.entry.id = 0 := by rw [henv]; rfl
  have hstart : env'.start = env.start.logged env.start.log := by rw [henv, henv']; rfl
  have hslots : SameOutcome Code.SameCore (paramSlots env (d.params.zip env.params) env.start)
      (paramSlots env' (d.params.zip env'.params) env'.start) := by
    rw [hstart, hparams]
    exact Agree.paramSlots _ _ _
  refine hslots.bind fun paramCode paramCode' declared log hparam hp hp' => ?_
  refine (Agree.openScope Scopes.root declared log).bind ?_
  rintro scope _ t log' - hscope hscope'
  obtain ⟨rfl, rfl⟩ := openScope_ok.mp hscope
  obtain ⟨rfl, hlog⟩ := openScope_ok.mp hscope'
  have hstmts : ∀ x ∈ d.body, ∀ ctx, Agree Code.SameCore (x.lower env ctx) (x.lower env' ctx) :=
    fun x _ => x.lower_agree hfunctions hreturn
  refine (Stmt.lowerAll_agree hstmts _ (.refl _) _ log').bind ?_
  intro body body' final log hbody hb hb'
  have hframe : Code.SameCore (d.frame env paramCode body) (d.frame env' paramCode' body') := by
    rw [frame, frame, hparams, hentry]
    exact ((hparam.cons _).cons _).append hbody
  refine (Agree.endingAfter hreturn d.name hframe final log).bind ?_
  rintro added _ t log' rfl hadded hadded'
  obtain ⟨⟨log₁, rfl⟩, hending⟩ := endingAfter_ok hadded
  obtain ⟨-, hending'⟩ := endingAfter_ok hadded'
  obtain ⟨hfixes, hknows⟩ := labels_of_ok hzero hp hb
  rw [← hlog] at hb'
  obtain ⟨-, hknows'⟩ := labels_of_ok (hentry ▸ hzero) hp' hb'
  rw [wholeCode, ← hending] at hknows
  rw [wholeCode, ← hending'] at hknows'
  have hwhole := (hframe.append (.refl added)).concat .functionEnd
  refine (SameOutcome.resolve (s := final.logged log₁) hwhole hfixes hknows hknows').bind ?_
  intro code code' t log'' hcode _ _
  exact ⟨⟨hcode, rfl⟩, _, rfl⟩

end Definition

/-- What options leave of a segment. -/
def Segment.core (seg : Segment) : Segment := ⟨Code.core seg.instructions, seg.result⟩

namespace Compiler

/-- The code of an accepted definition holds no dead jump if they are dropped. -/
lemma lowerDefinition_noDeadJump {c : Compiler} {d : Definition} {seg : Segment}
    (helide : c.options.elideUnreachableJumps = true) (h : (c.lowerDefinition d).result = .ok seg) :
    Code.NoDeadJump seg.instructions := by
  obtain ⟨env, henv, w, -⟩ := lowerDefinition_lowered h
  have helide' : env.options.elideUnreachableJumps = true := by rw [henv]; exact helide
  obtain ⟨code, opened, hwhole, hfills, -⟩ := w.fills helide'
  have hseg : seg.instructions = .functionBegin d.name d.returnTy env.params ::
      (code.map (Instr.relabel w.final.labels.named) ++ [.functionEnd]) := by
    rw [w.code, hwhole, List.map_append, List.map_cons]
    rfl
  have hchain : Code.NoDeadJump (code.map (Instr.relabel w.final.labels.named)) := by
    refine (hfills.relabel _).isChain.imp ?_
    rintro i j ⟨hafter, -⟩ hi
    rcases hafter hi with ⟨l, rfl⟩ | rfl <;> rfl
  rw [hseg]
  refine List.isChain_cons.mpr ⟨?_, List.isChain_append.mpr ⟨hchain, .singleton _, ?_⟩⟩
  · intro j _ hbegin
    exact (Bool.false_ne_true hbegin).elim
  · rintro i - j hj -
    rw [← Option.mem_some_iff.mp hj]
    rfl

/-- Options change nothing but alignments and dead jumps. Under any two options a definition is
refused with the same error, or it is accepted with segments of the same core; and where dead jumps
are dropped, no jump directly follows a terminator. -/
theorem lowerDefinition_options (functions : FunctionTable) (d : Definition) (o o' : Options) :
    ((∃ e, (lowerDefinition ⟨functions, o⟩ d).result = .error e ∧
        (lowerDefinition ⟨functions, o'⟩ d).result = .error e) ∨
      ∃ seg seg', (lowerDefinition ⟨functions, o⟩ d).result = .ok seg ∧
        (lowerDefinition ⟨functions, o'⟩ d).result = .ok seg' ∧ seg.core = seg'.core) ∧
    (o.elideUnreachableJumps = true → ∀ seg, (lowerDefinition ⟨functions, o⟩ d).result = .ok seg →
      Code.NoDeadJump seg.instructions) := by
  refine ⟨?_, fun helide seg h => lowerDefinition_noDeadJump helide h⟩
  rw [lowerDefinition, lowerDefinition]
  cases hreg : functions.register d.name d.signature with
  | error e => exact Or.inl ⟨.scope e, rfl, rfl⟩
  | ok functions' =>
    have hsame := Definition.lowerIn_sameOutcome (d := d) functions' o o' rfl rfl
    simp only [Definition.lower]
    cases hrun : d.lowerIn (.ofSignature functions' o d.signature)
        (LowerEnv.ofSignature functions' o d.signature).start with
    | ok seg s =>
      cases hrun' : d.lowerIn (.ofSignature functions' o' d.signature)
          (LowerEnv.ofSignature functions' o' d.signature).start with
      | ok seg' s' =>
        rw [hrun, hrun'] at hsame
        refine Or.inr ⟨seg, seg', rfl, rfl, ?_⟩
        rw [Segment.core, Segment.core, Code.core, Code.core, hsame.1.1 false, hsame.1.2]
      | error e' s' =>
        rw [hrun, hrun'] at hsame
        exact hsame.elim
    | error e s =>
      cases hrun' : d.lowerIn (.ofSignature functions' o' d.signature)
          (LowerEnv.ofSignature functions' o' d.signature).start with
      | ok seg' s' =>
        rw [hrun, hrun'] at hsame
        exact hsame.elim
      | error e' s' =>
        rw [hrun, hrun'] at hsame
        have heq : e = e' := hsame
        exact Or.inl ⟨e, rfl, by rw [heq]⟩

end Compiler

theorem sumUpTo_dead_jump_dropped : ∃ seg seg',
    (Compiler.lowerDefinition {} Definition.sumUpTo).result = .ok seg ∧
      (Compiler.lowerDefinition ⟨{}, ⟨some 16, false⟩⟩ Definition.sumUpTo).result = .ok seg' ∧
      seg.core = seg'.core ∧ seg.size + 1 = seg'.size ∧ Code.NoDeadJump seg.instructions := by
  have hsize : (Compiler.lowerDefinition {} Definition.sumUpTo).result.map (fun s => s.size + 1) =
      (Compiler.lowerDefinition ⟨{}, ⟨some 16, false⟩⟩ Definition.sumUpTo).result.map
        Segment.size := by decide +kernel
  obtain ⟨seg, h⟩ := Definition.sumUpTo_accepted
  obtain ⟨⟨e, he, -⟩ | ⟨_, seg', hseg, hseg', hcore⟩, hchain⟩ :=
    Compiler.lowerDefinition_options {} Definition.sumUpTo {} ⟨some 16, false⟩
  · rw [h] at he
    cases he
  · obtain rfl := Except.ok.inj (h.symm.trans hseg)
    rw [h, hseg'] at hsize
    exact ⟨seg, seg', h, hseg', hcore, Except.ok.inj hsize, hchain rfl seg h⟩

end MiniC
