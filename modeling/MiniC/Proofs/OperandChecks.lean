import MiniC.Proofs.ErrorKinds
import MiniC.Proofs.Staging
import MiniC.Proofs.Visibility

/-!
# Checks that never fail

The constructors of instructions check the types of their operands. Lowering converts operands
before it puts them into a store, a branch or an extension, a variable stands for a slot that holds
something as long as lowering goes on, and a call and a join are built with what they need. So some
of the checks never fail: `Ensures x Q` says that a step does not fail with one of them, and what
its result satisfies, from states in which every variable stands for memory.
-/

namespace MiniC

/-- The contexts of checks on operands that were converted or made for the instruction. -/
def LoweringError.operandContexts : List String :=
  ["store", "load", "call result", "branch condition", "zext"]

/-- Whether the error is that of a join with less than two entries, of a wrong type of an operand in
one of the contexts above, or of a store, a load or an extension at a type that has none. -/
def LoweringError.isOperandCheck : LoweringError → Bool
  | .incompletePhi _ => true
  | .typeMismatch _ _ context => operandContexts.contains context
  | .unsupportedType _ context => ["store", "load", "zext"].contains context
  | _ => false

def CompileError.isOperandCheck : CompileError → Bool
  | .lowering cause => cause.isOperandCheck
  | _ => false

/-- Whether the value is a slot that holds something. -/
def Value.IsMemory (v : Value) : Prop := ∃ id ty, v = .slot id ty ∧ ty ≠ .void

namespace Instr

/-- Whether an error of a constructor is not one of those checks. -/
def SparesChecks {α : Type} (x : Except LoweringError α) : Prop :=
  ∀ e, x = .error e → e.isOperandCheck = false

lemma sparesChecks_ok {α : Type} (a : α) : SparesChecks (.ok a) := by
  intro e h
  cases h

lemma sparesChecks_error {α : Type} {e : LoweringError} (he : e.isOperandCheck = false) :
    SparesChecks (.error e : Except LoweringError α) := by
  rintro _ ⟨⟩
  exact he

lemma SparesChecks.bind {α β : Type} {x : Except LoweringError α} {f : α → Except LoweringError β}
    (hx : SparesChecks x) (hf : ∀ a, SparesChecks (f a)) : SparesChecks (x >>= f) := by
  cases x with
  | error e => exact sparesChecks_error (hx e rfl)
  | ok a => exact hf a

lemma SparesChecks.ite {α : Type} {p : Prop} [Decidable p] {x y : Except LoweringError α}
    (hx : SparesChecks x) (hy : SparesChecks y) : SparesChecks (if p then x else y) := by
  split
  · exact hx
  · exact hy

lemma isOperandCheck_of_labels {e : LoweringError} (h : e.concernsLabels = true) :
    e.isOperandCheck = false := by
  cases e <;> first | rfl | cases h

/-- Labels are no operands. -/
lemma SparesChecks.of_labels {α : Type} {x : Except LoweringError α}
    (hx : RaisesOnly LoweringError.concernsLabels x) : SparesChecks x :=
  fun e he => isOperandCheck_of_labels (hx e he)

lemma isOperandCheck_typeMismatch {context : String}
    (hcontext : context ∉ LoweringError.operandContexts) (expected found : Ty) :
    (LoweringError.typeMismatch expected found context).isOperandCheck = false := by
  simpa [LoweringError.isOperandCheck] using hcontext

lemma isOperandCheck_unsupportedType {context : String}
    (hcontext : context ∉ LoweringError.operandContexts) (ty : Ty) :
    (LoweringError.unsupportedType ty context).isOperandCheck = false := by
  simp only [LoweringError.operandContexts, List.mem_cons, List.not_mem_nil, not_or] at hcontext
  simp [LoweringError.isOperandCheck, hcontext]

lemma expectTy_spares {context : String} (hcontext : context ∉ LoweringError.operandContexts)
    (found expected : Ty) : SparesChecks (expectTy found expected context) :=
  .ite (sparesChecks_ok _) (sparesChecks_error (isOperandCheck_typeMismatch hcontext _ _))

lemma expectInteger_spares {context : String} (hcontext : context ∉ LoweringError.operandContexts)
    (ty : Ty) : SparesChecks (expectInteger ty context) :=
  .ite (sparesChecks_ok _) (sparesChecks_error (isOperandCheck_unsupportedType hcontext _))

/-- The text of an operation is none of the contexts above. -/
lemma text_notMem_operandContexts (op : BinaryOp) : op.text ∉ LoweringError.operandContexts := by
  cases op <;> decide

lemma mkBinary_spares (result : Value) (op : BinaryOp) (lhs rhs : Value) :
    SparesChecks (mkBinary result op lhs rhs) := by
  have hcontext := text_notMem_operandContexts op
  refine (expectInteger_spares hcontext _).bind fun _ => ?_
  refine (expectTy_spares hcontext _ _).bind fun _ => ?_
  exact (expectTy_spares hcontext _ _).bind fun _ => sparesChecks_ok _

lemma mkIcmp_spares (result : Value) (relation : Relation) (lhs rhs : Value) :
    SparesChecks (mkIcmp result relation lhs rhs) := by
  have hcontext : "icmp" ∉ LoweringError.operandContexts := by decide
  refine (expectTy_spares hcontext _ _).bind fun _ => ?_
  refine (expectInteger_spares hcontext _).bind fun _ => ?_
  exact (expectTy_spares hcontext _ _).bind fun _ => sparesChecks_ok _

lemma mkPhi_spares (result v w : Value) (l m : Label) :
    SparesChecks (mkPhi result [(v, l), (w, m)]) := by
  have hcontext : "phi" ∉ LoweringError.operandContexts := by decide
  have hentry := fun v : Value => expectTy_spares hcontext v.ty result.ty
  have hentries : SparesChecks ([(v, l), (w, m)].forM fun entry =>
      expectTy entry.1.ty result.ty "phi") :=
    (hentry v).bind fun _ => (hentry w).bind fun _ => sparesChecks_ok _
  exact hentries.bind fun _ => sparesChecks_ok _

/-- A boolean can be extended to every other integer type. -/
lemma mkZext_of_bool {result value : Value} (hvalue : value.ty = .bool)
    (hresult : result.ty.isInteger = true) (hne : result.ty ≠ .bool) :
    mkZext result value = .ok (.zext result value) := by
  refine mkZext_ok.mpr ⟨by rw [hvalue]; rfl, hresult, ?_, rfl⟩
  rw [hvalue]
  cases hty : result.ty <;> simp_all [Ty.isInteger, Ty.bitWidth?]

/-- An error of a constructor of stores, loads, branches, extensions or calls, or that of a join
with less than two entries. -/
inductive CheckFails : LoweringError → Prop where
  | store {value slot : Value} {align : Nat} {e : LoweringError}
      (h : mkStore value slot align = .error e) : CheckFails e
  | load {result slot : Value} {align : Nat} {e : LoweringError}
      (h : mkLoad result slot align = .error e) : CheckFails e
  | branch {condition : Value} {onTrue onFalse : Label} {e : LoweringError}
      (h : mkBranch condition onTrue onFalse = .error e) : CheckFails e
  | zext {result value : Value} {e : LoweringError} (h : mkZext result value = .error e) :
      CheckFails e
  | call {result : Option Value} {callee : String} {returnTy : Ty} {arguments : List Value}
      {e : LoweringError} (h : mkCall result callee returnTy arguments = .error e) : CheckFails e
  | phi (entries : Nat) : CheckFails (.incompletePhi entries)

lemma except_bind_error {ε α β : Type} {x : Except ε α} {f : α → Except ε β} {e : ε} :
    (x >>= f) = .error e ↔ x = .error e ∨ ∃ a, x = .ok a ∧ f a = .error e := by
  cases x with
  | error e' => simp [Bind.bind, Except.bind]
  | ok a => simp [Bind.bind, Except.bind]

lemma expectTy_error {found expected : Ty} {context : String} {e : LoweringError}
    (h : expectTy found expected context = .error e) :
    e = .typeMismatch expected found context := by
  rw [expectTy] at h
  split at h <;> cases h
  rfl

lemma expectInteger_error {ty : Ty} {context : String} {e : LoweringError}
    (h : expectInteger ty context = .error e) : e = .unsupportedType ty context := by
  rw [expectInteger] at h
  split at h <;> cases h
  rfl

lemma expectSlot_error {slot : Value} {context : String} {e : LoweringError}
    (h : expectSlot slot context = .error e) : e = .unsupportedType slot.ty context := by
  cases slot with
  | slot id ty =>
    rw [expectSlot] at h
    split at h <;> cases h
    rfl
  | _ =>
    cases h
    rfl

/-- All that these constructors check is counted. -/
lemma CheckFails.isOperandCheck {e : LoweringError} (h : CheckFails e) :
    e.isOperandCheck = true := by
  cases h with
  | store h =>
    rcases except_bind_error.mp h with h | ⟨_, -, h⟩
    · rw [expectSlot_error h]
      rfl
    · rcases except_bind_error.mp h with h | ⟨_, -, h⟩
      · rw [expectTy_error h]
        rfl
      · cases h
  | load h =>
    rcases except_bind_error.mp h with h | ⟨_, -, h⟩
    · rw [expectSlot_error h]
      rfl
    · rcases except_bind_error.mp h with h | ⟨_, -, h⟩
      · rw [expectTy_error h]
        rfl
      · cases h
  | branch h =>
    rcases except_bind_error.mp h with h | ⟨_, -, h⟩
    · rw [expectTy_error h]
      rfl
    · cases h
  | zext h =>
    rcases except_bind_error.mp h with h | ⟨_, -, h⟩
    · rw [expectInteger_error h]
      rfl
    · rcases except_bind_error.mp h with h | ⟨_, -, h⟩
      · rw [expectInteger_error h]
        rfl
      · split at h <;> cases h
        rfl
  | call h =>
    rcases except_bind_error.mp h with h | ⟨_, -, h⟩
    · rw [expectTy_error h]
      rfl
    · cases h
  | phi entries => rfl

end Instr

namespace Lower

variable {α β : Type} {env : LowerEnv} {ctx : Context} {scope : ScopeId}

/-- Whether a step from a state in which every variable stands for memory leaves such a state and
gives a result with `Q`, or fails with something else than one of those checks. -/
def Ensures (x : Lower α) (Q : α → Prop) : Prop :=
  ∀ s, s.scopes.Binds Value.IsMemory →
    match x s with
    | .ok a s' => s'.scopes.Binds Value.IsMemory ∧ Q a
    | .error e _ => e.isOperandCheck = false

/-- Whether a step does not fail with one of those checks. -/
abbrev Safe (x : Lower α) : Prop := Ensures x fun _ => True

namespace Ensures

variable {P Q : α → Prop} {R : β → Prop}

lemma pure {a : α} (ha : Q a) : Ensures (pure a : Lower α) Q := fun _ hs => ⟨hs, ha⟩

lemma throw {e : LoweringError} (he : e.isOperandCheck = false) :
    Ensures (throw (.lowering e) : Lower α) Q := fun _ _ => he

lemma mono {x : Lower α} (hx : Ensures x P) (h : ∀ a, P a → Q a) : Ensures x Q := by
  intro s hs
  have hrun := hx s hs
  split at hrun
  · exact ⟨hrun.1, h _ hrun.2⟩
  · exact hrun

lemma bind {x : Lower α} {f : α → Lower β} (hx : Ensures x P) (hf : ∀ a, P a → Ensures (f a) R) :
    Ensures (x >>= f) R := by
  intro s hs
  have hfirst := hx s hs
  rw [bind_run]
  cases hrun : x s with
  | ok a t =>
    rw [hrun] at hfirst
    exact hf a hfirst.2 t hfirst.1
  | error e t =>
    rw [hrun] at hfirst
    exact hfirst

lemma ite {p : Prop} [Decidable p] {x y : Lower α} (hx : p → Ensures x Q)
    (hy : ¬p → Ensures y Q) : Ensures (if p then x else y) Q := by
  split
  · exact hx ‹_›
  · exact hy ‹_›

lemma ofLowering {x : Except LoweringError α} (hx : Instr.SparesChecks x) :
    Ensures (ofLowering x) fun a => x = .ok a := by
  cases x with
  | ok a => exact pure rfl
  | error e => exact throw (hx e rfl)

/-- A check that does not fail. -/
lemma ofLowering_ok {x : Except LoweringError α} {a : α} (hx : x = .ok a) (ha : Q a) :
    Ensures (Lower.ofLowering x) Q := by
  rw [hx]
  exact pure ha

lemma ofScope (x : Except ScopeError α) : Ensures (ofScope x) fun a => x = .ok a := by
  cases x with
  | ok a => exact pure rfl
  | error e => exact fun _ _ => rfl

lemma get : Safe (get : Lower LowerState) := fun _ hs => ⟨hs, trivial⟩

/-- A change of the state that leaves the variables as they are. -/
lemma modifyGet {f : LowerState → α × LowerState}
    (hf : ∀ s, (f s).2.scopes.scopes = s.scopes.scopes) (hQ : ∀ s, Q (f s).1) :
    Ensures (modifyGet f : Lower α) Q := fun s hs => ⟨hs.of_eq (hf s), hQ s⟩

lemma emit (e : Event) : Safe (emit e) := modifyGet (fun _ => rfl) fun _ => trivial

lemma newTemp (ty : Ty) : Ensures (newTemp ty) fun v => v.ty = ty :=
  bind (P := fun _ => True) (modifyGet (fun _ => rfl) fun _ => trivial) fun _ _ => pure rfl

lemma newLabel : Safe newLabel := modifyGet (fun _ => rfl) fun _ => trivial

lemma openScope (parent : ScopeId) : Safe (openScope parent) := fun _ hs =>
  ⟨hs.openChild parent, trivial⟩

lemma currentBlock : Safe currentBlock := bind get fun _ _ => pure trivial

lemma lookup (name : String) : Ensures (lookup scope name) Value.IsMemory := by
  intro s hs
  have hrun : Lower.lookup scope name s = Lower.ofScope (s.scopes.lookup scope name) s := rfl
  rw [hrun]
  cases hl : s.scopes.lookup scope name with
  | ok slot => exact ⟨hs, hs.lookup hl⟩
  | error e => rfl

lemma placeLabel (l : Label) : Safe (placeLabel l) := by
  refine bind (P := fun _ => True) (modifyGet (fun _ => rfl) fun _ => trivial) fun name _ => ?_
  refine bind get fun s _ => bind (ofLowering (.of_labels (.fix _ l _))) fun fixed _ => ?_
  exact bind (P := fun _ => True) (modifyGet (fun _ => rfl) fun _ => trivial) fun _ _ =>
    pure trivial

lemma jumpAfter (code : Code) (target : Label) : Safe (jumpAfter env code target) :=
  ite (fun _ => bind (emit _) fun _ _ => pure trivial) fun _ => pure trivial

lemma openBlockAfter (code : Code) : Safe (openBlockAfter code) := by
  refine ite (fun _ => bind (emit _) fun _ _ => bind newLabel fun l _ => ?_) fun _ => pure trivial
  exact bind (placeLabel l) fun mark _ => pure trivial

/-- Memory can be read at its type. -/
lemma load {slot : Value} (hslot : slot.IsMemory) :
    Ensures (load env slot) fun r => r.2.ty = slot.ty := by
  refine bind (newTemp slot.ty) fun v hv => ?_
  have hload : Instr.mkLoad v slot (env.options.alignmentFor slot.ty) = .ok _ :=
    Instr.mkLoad_ok.mpr ⟨hslot, hv, rfl⟩
  exact bind (P := fun _ => True) (ofLowering_ok hload trivial) fun i _ => pure hv

/-- Memory takes a value of its type. -/
lemma store {value slot : Value} (hslot : slot.IsMemory) (hty : value.ty = slot.ty) :
    Safe (store env value slot) := by
  have hstore : Instr.mkStore value slot (env.options.alignmentFor slot.ty) = .ok _ :=
    Instr.mkStore_ok.mpr ⟨hslot, hty, rfl⟩
  exact bind (P := fun _ => True) (ofLowering_ok hstore trivial) fun i _ => pure trivial

/-- A slot that holds nothing is refused as it is made, so no variable stands for one behind its
declaration. -/
lemma declareSlot (name : String) (ty : Ty) :
    Ensures (declareSlot env scope name ty) fun r => r.2.IsMemory ∧ r.2.ty = ty := by
  intro s hs
  have hdrawn : s.drawn.scopes.Binds Value.IsMemory := hs.of_eq rfl
  have hrun : Lower.declareSlot env scope name ty s =
      (do
        let scopes ← Lower.ofScope (s.drawn.scopes.declare scope name (.slot s.next ty))
        modify fun s => { s with scopes }
        let i ← Lower.ofLowering (Instr.mkAlloca (.slot s.next ty) (env.options.alignmentFor ty))
        return ([i], .slot s.next ty) : Lower (Code × Value)) s.drawn := rfl
  rw [hrun, bind_run]
  cases hdeclare : s.drawn.scopes.declare scope name (.slot s.next ty) with
  | error e => rfl
  | ok scopes =>
    by_cases hty : ty = .void
    · subst hty
      rfl
    · have hmem : Value.IsMemory (.slot s.next ty) := ⟨_, _, rfl, hty⟩
      have halloca : Instr.mkAlloca (.slot s.next ty) (env.options.alignmentFor ty) =
          .ok (.alloca (.slot s.next ty) (env.options.alignmentFor ty)) :=
        Instr.mkAlloca_ok.mpr ⟨hmem, rfl⟩
      rw [halloca]
      exact ⟨hdrawn.declare hdeclare hmem, hmem, rfl⟩

variable {context : String} (hcontext : context ∉ LoweringError.operandContexts)

include hcontext

lemma retypeLiteral (value : Value) (target : Ty) :
    Ensures (Lower.ofLowering (retypeLiteral value target context)) fun v => v.ty = target := by
  have hspares : Instr.SparesChecks (Lower.retypeLiteral value target context) := by
    have hmismatch : ∀ found, Instr.SparesChecks
        (.error (.typeMismatch target found context) : Except LoweringError Value) := fun found =>
      Instr.sparesChecks_error (Instr.isOperandCheck_typeMismatch hcontext target found)
    refine .ite (Instr.sparesChecks_ok _) ?_
    cases value with
    | int v ty =>
      have hrange : Instr.SparesChecks
          (.error (.literalOutOfRange v target) : Except LoweringError Value) :=
        Instr.sparesChecks_error rfl
      exact .ite (.ite (Instr.sparesChecks_ok _) hrange) (hmismatch _)
    | float v ty => exact .ite (Instr.sparesChecks_ok _) (hmismatch _)
    | _ => exact hmismatch _
  refine mono (ofLowering hspares) fun v hv => ?_
  rcases retypeLiteral_ok.mp hv with ⟨hty, rfl⟩ | ⟨-, ⟨n, ty, -, -, -, rfl⟩ | ⟨b, ty, -, -, rfl⟩⟩
  · exact hty
  · rfl
  · rfl

/-- A conversion gives a value of the type, or says that there is none in its own context. -/
lemma coerce (value : Value) (target : Ty) :
    Ensures (coerce value target context) fun r => r.2.ty = target := by
  refine ite pure fun hty => ite (fun _ => ?_) fun _ => ite (fun hbool => ?_) fun _ => ?_
  · exact bind (retypeLiteral hcontext value target) fun v hv => pure hv
  · refine bind (newTemp target) fun v hv => ?_
    have hne : v.ty ≠ .bool := by
      rw [hv, ← hbool.1]
      exact Ne.symm hty
    have hzext := Instr.mkZext_of_bool hbool.1 (by rw [hv]; exact hbool.2) hne
    exact bind (P := fun _ => True) (ofLowering_ok hzext trivial) fun i _ => pure hv
  · exact throw (Instr.isOperandCheck_typeMismatch hcontext _ _)

omit hcontext in
lemma operand {x : Lower Segment} (hx : Safe x) (context : String) : Safe (operand x context) := by
  refine bind hx fun seg _ => ?_
  cases seg.result with
  | none => exact throw rfl
  | some v => exact pure trivial

lemma operandAs {x : Lower Segment} (hx : Safe x) (ty : Ty) :
    Ensures (operandAs x ty context) fun r => r.2.ty = ty :=
  bind (operand hx _) fun _ _ => bind (coerce hcontext _ ty) fun _ hv => pure hv

omit hcontext

/-- A branch on a boolean. -/
lemma branch {condition : Value} (hcond : condition.ty = .bool) (onTrue onFalse : Label) :
    Safe (Lower.ofLowering (Instr.mkBranch condition onTrue onFalse)) :=
  ofLowering_ok (Instr.mkBranch_ok.mpr ⟨hcond, rfl⟩) trivial

lemma increment (name : String) (delta : Int) (before : Bool) :
    Safe (increment env scope name delta before) := by
  refine bind (lookup name) fun slot hslot => bind (load hslot) fun old _ => ?_
  refine bind (newTemp slot.ty) fun new hnew => ?_
  refine bind (ofLowering (Instr.mkBinary_spares _ _ _ _)) fun sum _ => ?_
  exact bind (store hslot hnew) fun storing _ => pure trivial

lemma binary (op : BinaryOp) (ty : Ty) {left right : Lower Segment} (hleft : Safe left)
    (hright : Safe right) : Safe (binary op ty left right) := by
  have hcontext := Instr.text_notMem_operandContexts op
  refine bind (operandAs hcontext hleft ty) fun lhs _ => ?_
  refine bind (operandAs hcontext hright ty) fun rhs _ => bind (newTemp ty) fun result _ => ?_
  exact bind (ofLowering (Instr.mkBinary_spares _ _ _ _)) fun i _ => pure trivial

lemma comparison (relation : Relation) {left right : Lower Segment} (hleft : Safe left)
    (hright : Safe right) : Safe (comparison relation left right) := by
  have hcontext : "icmp" ∉ LoweringError.operandContexts := by decide
  have hinteger : ∀ ty : Ty, Instr.SparesChecks (if ty.isInteger then Pure.pure ty
      else MonadExcept.throw (.unsupportedType ty "icmp") : Except LoweringError Ty) := fun ty =>
    .ite (Instr.sparesChecks_ok _) (Instr.sparesChecks_error rfl)
  have hcommon : ∀ lhs rhs, Instr.SparesChecks (commonTy lhs rhs) := by
    intro lhs rhs
    have hchosen : ∀ ty : Ty, Instr.SparesChecks (Pure.pure ty >>= fun ty : Ty =>
        (if ty.isInteger then Pure.pure ty
          else MonadExcept.throw (.unsupportedType ty "icmp") : Except LoweringError Ty)) :=
      fun ty => .bind (Instr.sparesChecks_ok _) hinteger
    have hmismatch := Instr.isOperandCheck_typeMismatch hcontext lhs.ty rhs.ty
    exact .ite (hchosen _) (.ite (hchosen _) (.ite (hchosen _) (.ite (hchosen _) (.ite (hchosen _)
      (Instr.sparesChecks_error hmismatch)))))
  refine bind (operand hleft _) fun lhs _ => bind (operand hright _) fun rhs _ => ?_
  refine bind (ofLowering (hcommon _ _)) fun ty _ => bind (coerce hcontext _ ty) fun lhs _ => ?_
  refine bind (coerce hcontext _ ty) fun rhs _ => bind (newTemp .bool) fun result _ => ?_
  exact bind (ofLowering (Instr.mkIcmp_spares _ _ _ _)) fun i _ => pure trivial

lemma booleanCast {inner : Lower Segment} (hinner : Safe inner) : Safe (booleanCast inner) := by
  refine bind (operand hinner _) fun v _ => ite (fun _ => pure trivial) fun _ => ?_
  refine ite (fun _ => bind (newTemp .bool) fun result _ => ?_) fun _ => throw rfl
  exact bind (ofLowering (Instr.mkIcmp_spares _ _ _ _)) fun i _ => pure trivial

lemma arm (keepBoolean : Bool) {x : Lower Segment} (hx : Safe x) : Safe (arm keepBoolean x) := by
  have hcontext : "conditional" ∉ LoweringError.operandContexts := by decide
  refine bind (operand hx _) fun v _ => ite (fun _ => ?_) fun _ => pure trivial
  exact bind (coerce hcontext _ _) fun _ _ => pure trivial

/-- A join is made of two entries. -/
lemma conditional (keepBoolean : Bool) {condition onTrue onFalse : Lower Segment}
    (hcond : Safe condition) (htrue : Safe onTrue) (hfalse : Safe onFalse) :
    Safe (conditional env keepBoolean condition onTrue onFalse) := by
  have hcontext : "conditional" ∉ LoweringError.operandContexts := by decide
  refine bind (operandAs hcontext hcond .bool) fun test htest => bind newLabel fun trueLabel _ => ?_
  refine bind newLabel fun falseLabel _ => bind newLabel fun joinLabel _ => ?_
  refine bind (branch htest _ _) fun branch _ => bind (placeLabel _) fun trueMark _ => ?_
  refine bind (arm _ htrue) fun trueArm _ => bind currentBlock fun trueBlock _ => ?_
  refine bind (jumpAfter _ _) fun trueJump _ => bind (placeLabel _) fun falseMark _ => ?_
  refine bind (arm _ hfalse) fun falseArm _ => bind currentBlock fun falseBlock _ => ?_
  refine bind (jumpAfter _ _) fun falseJump _ => bind (placeLabel _) fun joinMark _ => ?_
  refine bind (retypeLiteral hcontext _ _) fun trueValue _ => ?_
  refine bind (retypeLiteral hcontext _ _) fun falseValue _ => bind (newTemp _) fun result _ => ?_
  exact bind (ofLowering (Instr.mkPhi_spares _ _ _ _ _)) fun phi _ => pure trivial

lemma assignment (target : String) {value : Lower Segment} (hvalue : Safe value) :
    Safe (assignment env scope target value) := by
  have hcontext : "assignment" ∉ LoweringError.operandContexts := by decide
  refine bind (lookup target) fun slot hslot => ?_
  refine bind (operandAs hcontext hvalue slot.ty) fun v hv => ?_
  exact bind (store hslot hv) fun storing _ => pure trivial

lemma arguments {args : List (Lower Segment)} (hargs : ∀ x ∈ args, Safe x) (tys : List Ty) :
    Safe (arguments args tys) := by
  have hcontext : "argument" ∉ LoweringError.operandContexts := by decide
  induction args generalizing tys with
  | nil => exact pure trivial
  | cons x rest ih =>
    cases tys with
    | nil => exact pure trivial
    | cons ty tys =>
      refine bind (operandAs hcontext (hargs x List.mem_cons_self) ty) fun first _ => ?_
      exact bind (ih (fun y hy => hargs y (List.mem_cons_of_mem x hy)) tys) fun more _ =>
        pure trivial

/-- A call has a result of the type that the function returns, or none if that is `void`. -/
lemma call (callee : String) {args : List (Lower Segment)} (hargs : ∀ x ∈ args, Safe x) :
    Safe (call env callee args) := by
  refine bind (ofScope _) fun signature _ => ite (fun _ => ?_) fun _ => throw rfl
  refine bind (arguments hargs _) fun values _ => ?_
  have hcall : ∀ result : Option Value, (result.map Value.ty).getD .void = signature.returnTy →
      Safe (do
        let i ← Lower.ofLowering (Instr.mkCall result callee signature.returnTy values.2)
        return (⟨values.1 ++ [i], result⟩ : Segment)) := fun result hresult =>
    bind (P := fun _ => True) (ofLowering_ok (Instr.mkCall_ok.mpr ⟨hresult, rfl⟩) trivial)
      fun _ _ => pure trivial
  refine ite (fun hvoid => ?_) fun _ => ?_
  · refine bind (P := (· = none)) (pure rfl) fun result hresult => hcall result ?_
    subst hresult
    cases hret : signature.returnTy <;> simp_all [Ty.isVoid]
  · refine bind (newTemp signature.returnTy) fun v hv => ?_
    refine bind (P := (· = some v)) (pure rfl) fun result hresult => hcall result ?_
    subst hresult
    exact hv

end Ensures

end Lower

open Lower in
/-- No expression meets one of those checks. -/
theorem Expr.lower_safe {env : LowerEnv} {scope : ScopeId} (e : Expr) :
    Safe (e.lower env scope) := by
  refine Expr.lower_induction (Φ := Safe) ?constant ?readVariable ?increment ?binary ?comparison
    ?booleanCast ?conditional ?assignment ?call e
  case constant => exact fun v _ => .pure trivial
  case readVariable =>
    intro name
    exact .bind (.lookup name) fun slot hslot => .bind (.load hslot) fun r _ => .pure trivial
  case increment => exact fun name delta before => .increment name delta before
  case binary => exact fun op ty left right hl hr => .binary op ty hl hr
  case comparison => exact fun relation left right hl hr => .comparison relation hl hr
  case booleanCast => exact fun inner hinner => .booleanCast hinner
  case conditional => exact fun keep condition onTrue onFalse hc ht hf => .conditional keep hc ht hf
  case assignment => exact fun target value hvalue => .assignment target hvalue
  case call => exact fun callee args hargs => .call callee hargs

namespace Lower.Ensures

variable {env : LowerEnv} {ctx : Context} {scope : ScopeId}

lemma declarator (d : Declarator) : Safe (declarator env scope d) := by
  have hcontext : "initializer" ∉ LoweringError.operandContexts := by decide
  refine bind (declareSlot d.name d.ty) fun r hslot => ?_
  cases d.initializer with
  | none => exact pure trivial
  | some e =>
    refine bind (operandAs hcontext e.lower_safe d.ty) fun v hv => ?_
    exact bind (store hslot.1 (hv.trans hslot.2.symm)) fun storing _ => pure trivial

lemma declaration (ds : List Declarator) : Safe (declaration env scope ds) := by
  induction ds with
  | nil => exact pure trivial
  | cons d rest ih => exact bind (declarator d) fun code _ => bind ih fun more _ => pure trivial

lemma branchOn {condition : Lower Segment} (hcond : Safe condition) (onTrue onFalse : Label) :
    Safe (branchOn condition onTrue onFalse) := by
  have hcontext : "condition" ∉ LoweringError.operandContexts := by decide
  refine bind (operandAs hcontext hcond .bool) fun v hv => ?_
  exact bind (branch hv _ _) fun i _ => pure trivial

lemma ifElse {condition : Lower Segment} (hcond : Safe condition) {onTrue : Lower Code}
    (htrue : Safe onTrue) {onFalse : Option (Lower Code)} (hfalse : ∀ x ∈ onFalse, Safe x) :
    Safe (ifElse env condition onTrue onFalse) := by
  refine bind newLabel fun trueLabel _ => bind newLabel fun falseLabel _ => ?_
  refine bind (branchOn hcond _ _) fun test _ => bind (placeLabel _) fun trueMark _ => ?_
  refine bind htrue fun trueCode _ => ?_
  cases onFalse with
  | none =>
    exact bind (jumpAfter _ _) fun jump _ => bind (placeLabel _) fun falseMark _ => pure trivial
  | some onFalse =>
    refine bind newLabel fun endLabel _ => bind (jumpAfter _ _) fun trueJump _ => ?_
    refine bind (placeLabel _) fun falseMark _ => bind (hfalse onFalse rfl) fun falseCode _ => ?_
    exact bind (jumpAfter _ _) fun falseJump _ => bind (placeLabel _) fun endMark _ => pure trivial

lemma whileLoop {condition : Lower Segment} (hcond : Safe condition) {body : Context → Lower Code}
    (hbody : ∀ ctx, Safe (body ctx)) : Safe (whileLoop env ctx condition body) := by
  refine bind newLabel fun checkLabel _ => bind newLabel fun bodyLabel _ => ?_
  refine bind newLabel fun exitLabel _ => bind (jumpAfter _ _) fun entering _ => ?_
  refine bind (placeLabel _) fun checkMark _ => bind (branchOn hcond _ _) fun test _ => ?_
  refine bind (placeLabel _) fun bodyMark _ => bind (hbody _) fun bodyCode _ => ?_
  exact bind (jumpAfter _ _) fun back _ => bind (placeLabel _) fun exitMark _ => pure trivial

lemma stepAfter (code : Code) {step : Option (Lower Segment)} (hstep : ∀ x ∈ step, Safe x) :
    Safe (stepAfter code step) := by
  cases step with
  | none => exact pure trivial
  | some x =>
    exact bind (openBlockAfter _) fun opened _ => bind (hstep x rfl) fun seg _ => pure trivial

lemma initial {init : Option (Context → Lower Code)} (hinit : ∀ x ∈ init, ∀ ctx, Safe (x ctx)) :
    Safe (initial init ctx) := by
  cases init with
  | none => exact pure trivial
  | some x => exact hinit x rfl ctx

lemma loopTest (code : Code) {condition : Option (Lower Segment)} (hcond : ∀ x ∈ condition, Safe x)
    (bodyLabel exitLabel : Label) : Safe (loopTest env code condition bodyLabel exitLabel) := by
  cases condition with
  | none => exact jumpAfter _ _
  | some x => exact branchOn (hcond x rfl) _ _

lemma forLoop {init : Option (Context → Lower Code)} (hinit : ∀ x ∈ init, ∀ ctx, Safe (x ctx))
    {condition step : Option (ScopeId → Lower Segment)}
    (hcond : ∀ x ∈ condition, ∀ scope, Safe (x scope))
    (hstep : ∀ x ∈ step, ∀ scope, Safe (x scope)) {body : Context → Lower Code}
    (hbody : ∀ ctx, Safe (body ctx)) : Safe (forLoop env ctx init condition step body) := by
  have hpart : ∀ {part : Option (ScopeId → Lower Segment)} {scope : ScopeId},
      (∀ x ∈ part, ∀ scope, Safe (x scope)) → ∀ x ∈ part.map (· scope), Safe x :=
    fun h => Option.forall_mem_map.mpr fun x hx => h x hx _
  rw [forLoop_eq]
  refine bind (openScope _) fun scope _ => bind (initial hinit) fun initCode _ => ?_
  refine bind newLabel fun checkLabel _ => bind newLabel fun bodyLabel _ => ?_
  refine bind newLabel fun exitLabel _ => bind (jumpAfter _ _) fun entering _ => ?_
  refine bind (placeLabel _) fun checkMark _ => bind (loopTest _ (hpart hcond) _ _) fun test _ => ?_
  refine bind (placeLabel _) fun bodyMark _ => bind (hbody _) fun bodyCode _ => ?_
  refine bind (stepAfter _ (hpart hstep)) fun stepped _ => bind (jumpAfter _ _) fun back _ => ?_
  exact bind (placeLabel _) fun exitMark _ => pure trivial

lemma ret {value : Option (Lower Segment)} (hvalue : ∀ x ∈ value, Safe x) :
    Safe (ret env value) := by
  have hcontext : "return" ∉ LoweringError.operandContexts := by decide
  have hmismatch := Instr.isOperandCheck_typeMismatch hcontext
  cases value with
  | none => exact ite (fun _ => pure trivial) fun _ => throw (hmismatch _ _)
  | some x =>
    refine bind (operand (hvalue x rfl) _) fun r _ => ?_
    refine ite (fun _ => throw (hmismatch _ _)) fun _ => ?_
    exact bind (coerce hcontext _ _) fun _ _ => pure trivial

lemma leave (target : Option Label) {outside : LoweringError}
    (houtside : outside.isOperandCheck = false) : Safe (leave target outside) := by
  cases target with
  | none => exact throw houtside
  | some l => exact pure trivial

end Lower.Ensures

namespace Stmt

open Lower

variable {env : LowerEnv}

lemma lowerAll_safe {body : List Stmt} (hbody : ∀ x ∈ body, ∀ ctx, Safe (x.lower env ctx))
    (ctx : Context) (code : Code) : Safe (lowerAll env body ctx code) := by
  induction body generalizing code with
  | nil => exact .pure trivial
  | cons x rest ih =>
    refine .bind (.openBlockAfter _) fun opened _ => ?_
    refine .bind (hbody x List.mem_cons_self ctx) fun added _ => ?_
    exact ih (fun y hy => hbody y (List.mem_cons_of_mem x hy)) _

/-- No statement meets one of those checks. -/
theorem lower_safe (x : Stmt) : ∀ ctx, Safe (x.lower env ctx) := by
  have hpart : ∀ (part : Option Expr), ∀ x ∈ part.map (fun e scope => e.lower env scope),
      ∀ scope, Safe (x scope) := fun part =>
    Option.forall_mem_map.mpr fun e _ scope => e.lower_safe
  induction x using Stmt.induction with
  | expression e => exact fun ctx => .bind e.lower_safe fun seg _ => .pure trivial
  | declaration ds => exact fun ctx => .declaration ds
  | compound body hbody =>
    exact fun ctx => .bind (.openScope _) fun scope _ => lowerAll_safe hbody _ _
  | ifElse condition onTrue onFalse htrue hfalse =>
    intro ctx
    cases onFalse with
    | none => exact .ifElse condition.lower_safe (htrue ctx) (by simp)
    | some onFalse =>
      refine .ifElse condition.lower_safe (htrue ctx) ?_
      rintro x ⟨⟩
      exact hfalse onFalse rfl ctx
  | whileLoop condition body hbody => exact fun ctx => .whileLoop condition.lower_safe hbody
  | forLoop init condition step body hinit hbody =>
    intro ctx
    cases init with
    | none =>
      rw [lower]
      exact .forLoop (by simp) (hpart condition) (hpart step) hbody
    | some init =>
      rw [lower]
      refine .forLoop ?_ (hpart condition) (hpart step) hbody
      rintro x ⟨⟩
      exact hinit init rfl
  | ret value =>
    intro ctx
    exact .ret (Option.forall_mem_map.mpr fun e _ => e.lower_safe)
  | brk => exact fun ctx => .leave _ rfl
  | cont => exact fun ctx => .leave _ rfl

end Stmt

namespace Lower.Ensures

variable {env : LowerEnv}

/-- Arguments have the types of the parameters that they are stored for. -/
lemma paramSlots {pairs : List (Param × Value)} (hpairs : ∀ pair ∈ pairs, pair.2.ty = pair.1.ty) :
    Safe (paramSlots env pairs) := by
  induction pairs with
  | nil => exact pure trivial
  | cons pair rest ih =>
    refine bind (declareSlot pair.1.name pair.1.ty) fun r hslot => ?_
    have hty := (hpairs pair List.mem_cons_self).trans hslot.2.symm
    refine bind (store hslot.1 hty) fun storing _ => ?_
    exact bind (ih fun p hp => hpairs p (List.mem_cons_of_mem pair hp)) fun more _ => pure trivial

lemma endingAfter (function : String) (code : Code) : Safe (endingAfter env function code) := by
  refine ite (fun _ => pure trivial) fun _ => ite (fun _ => pure trivial) fun _ => ?_
  exact bind (emit _) fun _ _ => pure trivial

lemma resolve (code : Code) : Safe (resolve code) := by
  refine bind get fun s _ => bind (ofLowering (.of_labels (.checkAllFixed _))) fun _ _ => ?_
  split
  · exact pure trivial
  · rename_i hcode
    have hlabels := LabelTable.resolveCode_error (congrArg Prod.snd hcode)
    exact throw (Instr.isOperandCheck_of_labels hlabels)

end Lower.Ensures

namespace Definition

open Lower

lemma lowerIn_safe (d : Definition) (functions : FunctionTable) (options : Options) :
    Safe (d.lowerIn (.ofSignature functions options d.signature)) := by
  have hparams : ∀ pair ∈ d.params.zip (LowerEnv.ofSignature functions options d.signature).params,
      pair.2.ty = pair.1.ty := by
    intro pair hpair
    obtain ⟨k, hk, rfl⟩ := List.mem_iff_getElem.mp hpair
    simp [LowerEnv.ofSignature, signature, paramTys, Value.ty]
  refine .bind (.paramSlots hparams) fun paramCode _ => .bind (.openScope _) fun scope _ => ?_
  refine .bind (Stmt.lowerAll_safe (fun x _ => x.lower_safe) _ _) fun body _ => ?_
  refine .bind (.endingAfter _ _) fun ending _ => .bind (.resolve _) fun code _ => ?_
  exact .bind .get fun s _ => .bind (.emit _) fun _ _ => .pure trivial

end Definition

namespace Compiler

/-- No definition fails with one of those checks, whatever it consists of and whatever functions are
known. -/
lemma lowerDefinition_error {c : Compiler} {d : Definition} {e : CompileError}
    (h : (c.lowerDefinition d).result = .error e) : e.isOperandCheck = false := by
  rw [lowerDefinition] at h
  cases hreg : c.functions.register d.name d.signature with
  | error e' =>
    rw [hreg] at h
    cases h
    rfl
  | ok functions =>
    have hstart : (LowerEnv.ofSignature functions c.options d.signature).start.scopes.Binds
        Value.IsMemory := by
      intro scope hscope b hb
      rw [List.mem_singleton.mp hscope] at hb
      cases hb
    have hsafe := d.lowerIn_safe functions c.options _ hstart
    simp only [hreg, Definition.lower] at h
    split at h
    · cases h
    · rename_i e' s hrun
      cases h
      rw [hrun] at hsafe
      exact hsafe

/-- A definition, of whatever trees and after whatever other definitions, may be refused for its
names and its types, but no store, load, branch, extension, call or join is ever refused for the
operands that lowering gives it. -/
theorem lowerDefinition_checks_pass (c : Compiler) (d : Definition) (e : LoweringError)
    (h : (c.lowerDefinition d).result = .error (.lowering e)) :
    (∀ entries, e ≠ .incompletePhi entries) ∧
    (∀ context ∈ ["store", "load", "call result", "branch condition", "zext"], ∀ expected found,
      e ≠ .typeMismatch expected found context) ∧
    (∀ context ∈ ["store", "load", "zext"], ∀ ty, e ≠ .unsupportedType ty context) ∧
    ¬Instr.CheckFails e := by
  have hpass : e.isOperandCheck = false := lowerDefinition_error h
  have hother : ∀ e' : LoweringError, e'.isOperandCheck = true → e ≠ e' := by
    rintro _ hcheck rfl
    exact Bool.false_ne_true (hpass.symm.trans hcheck)
  refine ⟨fun entries => hother _ rfl, ?_, ?_, fun hfails => hother e hfails.isOperandCheck rfl⟩
  · intro context hcontext expected found
    exact hother _ (List.contains_iff_mem.mpr hcontext)
  · intro context hcontext ty
    exact hother _ (List.contains_iff_mem.mpr hcontext)

/-- A function with a variable of type `void` that has an initializer. -/
def voidVariable : Definition :=
  ⟨"f", .void, [], [.declaration [⟨"x", .void, some (.int 1)⟩]]⟩

/-- The variable is refused as its slot is made, before anything is stored in it. -/
theorem voidVariable_checks_pass :
    (lowerDefinition {} voidVariable).result =
        .error (.lowering (.unsupportedType .void "alloca")) ∧
      ¬Instr.CheckFails (.unsupportedType .void "alloca") :=
  have hrefused : (lowerDefinition {} voidVariable).result =
      .error (.lowering (.unsupportedType .void "alloca")) := rfl
  ⟨hrefused, (lowerDefinition_checks_pass {} voidVariable _ hrefused).2.2.2⟩

end Compiler

end MiniC
