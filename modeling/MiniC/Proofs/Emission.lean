import MiniC.Proofs.Resolution
import MiniC.Proofs.StmtSteps
import MiniC.Proofs.TreeInduction

/-!
# How code grows

Lowering puts one instruction behind the other. An instruction that defines a value takes the next
number, a label takes its number when it is placed, and no instruction names a label that was not
allocated before. `Emits s code s'` says that `code` came about in this way between two states. It
holds of every construct, so what each kind of instruction keeps is kept by all code.
-/

namespace MiniC

/-- The name of a label that has one. -/
def Label.name? : Label → Option Nat
  | .fixed _ name => some name
  | .pending _ => none

/-- The numbers that an instruction defines, in order: that of its result, of its slot, of each
parameter of a function, or the name of a label. There is a place for each definition, also where
it has no number. -/
def Instr.definitions : Instr → List (Option Nat)
  | .alloca slot _ => [slot.id?]
  | .load result .. | .binary result .. | .icmp result .. | .phi result _ | .zext result _ =>
    [result.id?]
  | .call result .. => result.toList.map Value.id?
  | .label l => [l.name?]
  | .functionBegin _ _ params => params.map Value.id?
  | .store .. | .jump _ | .branch .. | .ret _ | .functionEnd => []

/-- Whether the label belongs to the labels that were allocated so far. -/
def LowerState.Knows (s : LowerState) (l : Label) : Prop := l.id < s.labels.size

/-- A label that was just placed is known. -/
lemma LowerState.knows_placed {s : LowerState} {id : Nat} (h : s.labels.names[id]? = some none) :
    (s.placed (.pending id)).Knows (s.placed (.pending id)).block := by
  rw [Knows, placed_size, placed_block]
  exact (List.getElem?_eq_some_iff.mp h).1

inductive Emits : LowerState → Code → LowerState → Prop where
  /-- Nothing is added: scopes and the log may change. -/
  | quiet {s s' : LowerState} (next : s'.next = s.next) (labels : s'.labels = s.labels)
      (block : s'.block = s.block) : Emits s [] s'
  | allocate (s : LowerState) : Emits s [] s.allocated
  | place (s : LowerState) (id : Nat) (pending : s.labels.names[id]? = some none) :
      Emits s [.label (.fixed id s.next)] (s.placed (.pending id))
  | instr {s s' : LowerState} (i : Instr) (count : Nat) (unmarked : ∀ l, i ≠ .label l)
      (known : ∀ l ∈ i.labels, s.Knows l)
      (numbers : i.definitions = (List.range' s.next count).map some)
      (next : s'.next = s.next + count) (labels : s'.labels = s.labels)
      (block : s'.block = s.block) : Emits s [i] s'
  | append {s t s' : LowerState} {code code' : Code} (first : Emits s code t)
      (second : Emits t code' s') : Emits s (code ++ code') s'

namespace Emits

variable {s s' t : LowerState} {code : Code}

lemma refl (s : LowerState) : Emits s [] s := .quiet rfl rfl rfl

lemma logged (s : LowerState) (log : List Event) : Emits s [] (s.logged log) := .quiet rfl rfl rfl

/-- Silent changes in front of code. -/
lemma after (h : Emits t code s') (h₀ : Emits s [] t) : Emits s code s' := .append h₀ h

/-- Silent changes behind code. -/
lemma before (h : Emits s code t) (h₀ : Emits t [] s') : Emits s code s' := by
  have := h.append h₀
  rwa [List.append_nil] at this

/-- An instruction without labels that defines nothing. -/
lemma plain (s : LowerState) (i : Instr) (labels : i.labels = []) (numbers : i.definitions = []) :
    Emits s [i] s := by
  refine .instr i 0 ?_ (by simp [labels]) numbers rfl rfl rfl
  rintro l rfl
  cases labels

/-- An instruction without labels that defines the next number. -/
lemma define (s : LowerState) (i : Instr) (labels : i.labels = [])
    (numbers : i.definitions = [some s.next]) : Emits s [i] s.drawn := by
  refine .instr i 1 ?_ (by simp [labels]) numbers rfl rfl rfl
  rintro l rfl
  cases labels

lemma size_le (h : Emits s code s') : s.labels.size ≤ s'.labels.size := by
  induction h with
  | quiet next labels block => exact Nat.le_of_eq (congrArg LabelTable.size labels.symm)
  | allocate s => simp
  | place s id pending => simp
  | instr i count unmarked known numbers next labels block =>
    exact Nat.le_of_eq (congrArg LabelTable.size labels.symm)
  | append first second ih₁ ih₂ => exact Nat.le_trans ih₁ ih₂

lemma knows (h : Emits s code s') {l : Label} (hl : s.Knows l) : s'.Knows l :=
  Nat.lt_of_lt_of_le hl h.size_le

/-- The block that is being filled is always one of a known label. -/
lemma knows_block (h : Emits s code s') (hs : s.Knows s.block) : s'.Knows s'.block := by
  induction h with
  | quiet next labels block => rwa [LowerState.Knows, labels, block]
  | allocate s => exact Nat.lt_of_lt_of_le hs (allocate s).size_le
  | place s id pending => exact LowerState.knows_placed pending
  | instr i count unmarked known numbers next labels block =>
    rwa [LowerState.Knows, labels, block]
  | append first second ih₁ ih₂ => exact ih₂ (ih₁ hs)

/-- Emitted code names only labels that were allocated. -/
lemma knows_labels (h : Emits s code s') : ∀ i ∈ code, ∀ l ∈ i.labels, s'.Knows l := by
  induction h with
  | quiet | allocate => simp
  | place s id pending =>
    simp only [List.mem_singleton, forall_eq, Instr.labels]
    exact LowerState.knows_placed pending
  | instr i count unmarked known numbers next labels block =>
    simpa [LowerState.Knows, labels] using known
  | append first second ih₁ ih₂ =>
    intro i hi l hl
    rcases List.mem_append.mp hi with hi | hi
    · exact second.knows (ih₁ i hi l hl)
    · exact ih₂ i hi l hl

end Emits

namespace Lower

variable {s s' : LowerState} {env : LowerEnv} {scope : ScopeId}

/-- Whether a lowering gives its code by emission. -/
def SegmentEmits (x : Lower Segment) : Prop :=
  ∀ ⦃s seg s'⦄, x s = .ok seg s' → Emits s seg.instructions s'

lemma coerce_emits {v : Value} {ty : Ty} {context : String} {r : Code × Value}
    (h : coerce v ty context s = .ok r s') : Emits s r.1 s' := by
  rcases coerce_ok h with ⟨w, -, rfl, rfl⟩ | ⟨-, -, -, -, rfl, rfl⟩
  · exact .refl s
  · exact .define s _ rfl rfl

lemma operandAs_emits {x : Lower Segment} (hx : SegmentEmits x) {ty : Ty} {context : String}
    {r : Code × Value} (h : operandAs x ty context s = .ok r s') : Emits s r.1 s' := by
  obtain ⟨code, v, conversion, t, hlow, hc, hr⟩ := operandAs_ok h
  rw [hr]
  exact (hx hlow).append (coerce_emits hc)

lemma arm_emits {x : Lower Segment} (hx : SegmentEmits x) {keepBoolean : Bool} {r : Code × Value}
    (h : arm keepBoolean x s = .ok r s') : Emits s r.1 s' := by
  obtain ⟨code, v, conversion, t, hlow, hr, ⟨-, rfl, -, rfl⟩ | ⟨-, -, hc⟩⟩ := arm_ok h
  · rw [hr]
    exact (hx hlow).append (.refl t)
  · rw [hr]
    exact (hx hlow).append (coerce_emits hc)

lemma jump_emits {target : Label} (hs : s.Knows target) : Emits s [.jump target] s :=
  .instr _ 0 (by simp) (by simpa [Instr.labels] using hs) rfl rfl rfl rfl

lemma optionalJump_emits {target : Label} (hs : s.Knows target) {omitted : Bool} :
    Emits s (if omitted then [] else [.jump target]) s := by
  cases omitted with
  | true => exact .refl s
  | false => exact jump_emits hs

lemma conditional_emits {keepBoolean : Bool} {condition onTrue onFalse : Lower Segment}
    (hcond : SegmentEmits condition) (htrue : SegmentEmits onTrue) (hfalse : SegmentEmits onFalse) :
    SegmentEmits (conditional env keepBoolean condition onTrue onFalse) := by
  intro s seg s' h
  obtain ⟨test, v, trueCode, trueValue, trueJump, falseCode, falseValue, falseJump, trueValue',
    falseValue', ty, t, t₁, t₂, log₁, log₂, n, hn, hc, -, ht, hp₁, hf, hp₂, -, -, -, -, -, hj₁,
    hj₂, rfl, rfl⟩ := conditional_ok h
  subst hn
  have hsize : t.allocated.allocated.allocated.labels.size = t.labels.size + 3 := by simp
  have hallocated : Emits t [] t.allocated.allocated.allocated :=
    ((Emits.allocate t).before (.allocate _)).before (.allocate _)
  have hbranch : Emits t.allocated.allocated.allocated
      [.branch v (.pending t.labels.size) (.pending (t.labels.size + 1))]
      t.allocated.allocated.allocated :=
    .instr _ 0 (by simp) (by simp [Instr.labels, LowerState.Knows, Label.id, hsize]) rfl rfl rfl rfl
  have hp : t.allocated.allocated.allocated.labels.names[t.labels.size]? = some none := by
    simp [LowerState.allocated, LabelTable.allocate, LabelTable.size]
  have hmark : Emits t.allocated.allocated.allocated [.label (.fixed t.labels.size t.next)] _ :=
    .place _ _ hp
  have harm₁ := arm_emits htrue ht
  have harm₂ := arm_emits hfalse hf
  have hmark₁ : Emits t₁ [.label (.fixed (t.labels.size + 1) t₁.next)] _ :=
    (Emits.place (t₁.logged log₁) _ hp₁).after (.logged t₁ log₁)
  have hmark₂ : Emits t₂ [.label (.fixed (t.labels.size + 2) t₂.next)] _ :=
    (Emits.place (t₂.logged log₂) _ hp₂).after (.logged t₂ log₂)
  have hjoin₁ : t₁.Knows (.pending (t.labels.size + 2)) := by
    have := harm₁.size_le
    simp only [LowerState.placed_size, hsize] at this
    simp only [LowerState.Knows, Label.id]
    omega
  have hblock₁ : t₁.Knows t₁.block := harm₁.knows_block (LowerState.knows_placed hp)
  have hblock₂ : t₂.Knows t₂.block := harm₂.knows_block (LowerState.knows_placed hp₁)
  have hknown : ∀ l ∈ [t₁.block, t₂.block],
      ((t₂.logged log₂).placed (.pending (t.labels.size + 2))).Knows l := by
    simp only [List.mem_cons, List.not_mem_nil, or_false]
    rintro l (rfl | rfl)
    · exact hmark₂.knows (harm₂.knows (hmark₁.knows hblock₁))
    · exact hmark₂.knows hblock₂
  have hphi : Emits ((t₂.logged log₂).placed (.pending (t.labels.size + 2)))
      [.phi (.temp (t₂.next + 1) ty) [(trueValue', t₁.block), (falseValue', t₂.block)]]
      ((t₂.logged log₂).placed (.pending (t.labels.size + 2))).drawn :=
    .instr _ 1 (by simp) hknown rfl rfl rfl rfl
  have htest := (operandAs_emits hcond hc).before hallocated
  have hjump₁ : Emits t₁ trueJump t₁ := hj₁ ▸ optionalJump_emits hjoin₁
  have hjump₂ : Emits t₂ falseJump t₂ := hj₂ ▸ optionalJump_emits (harm₂.knows (hmark₁.knows hjoin₁))
  exact ((((htest.append (hbranch.append (hmark.append harm₁))).append hjump₁).append
    (hmark₁.append harm₂)).append hjump₂).append (hmark₂.append hphi)

lemma arguments_emits {args : List (Lower Segment)} (hargs : ∀ x ∈ args, SegmentEmits x)
    {tys : List Ty} {r : Code × List Value} (h : arguments args tys s = .ok r s') :
    Emits s r.1 s' := by
  induction args generalizing tys s r with
  | nil =>
    obtain ⟨rfl, rfl⟩ := pure_ok.mp h
    exact .refl s
  | cons x rest ih =>
    cases tys with
    | nil =>
      obtain ⟨rfl, rfl⟩ := pure_ok.mp h
      exact .refl s
    | cons ty tys =>
      obtain ⟨code, v, more, vs, t, hx, hrest, rfl⟩ := arguments_cons_ok h
      have hcode : Emits s code t := operandAs_emits (hargs x List.mem_cons_self) hx
      exact hcode.append (ih (fun y hy => hargs y (List.mem_cons_of_mem x hy)) hrest)

lemma call_emits {callee : String} {args : List (Lower Segment)}
    (hargs : ∀ x ∈ args, SegmentEmits x) : SegmentEmits (call env callee args) := by
  intro s seg s' h
  obtain ⟨signature, code, values, t, -, -, ha, ⟨-, rfl, rfl⟩ | ⟨-, rfl, rfl⟩⟩ := call_ok h
  · exact (arguments_emits hargs ha).append (.plain t _ rfl rfl)
  · exact (arguments_emits hargs ha).append (.define t _ rfl rfl)

end Lower

open Lower in
theorem Expr.lower_emits {env : LowerEnv} {scope : ScopeId} (e : Expr) :
    SegmentEmits (e.lower env scope) := by
  refine Expr.lower_induction (Φ := SegmentEmits) ?constant ?readVariable ?increment ?binary
    ?comparison ?booleanCast ?conditional ?assignment ?call e
  case constant =>
    intro v hv s seg s' h
    obtain ⟨rfl, rfl⟩ := pure_ok.mp h
    exact .refl s
  case readVariable =>
    intro name s seg s' h
    obtain ⟨id, ty, -, rfl, rfl⟩ := readVariable_ok h
    exact .define s _ rfl rfl
  case increment =>
    intro name delta before s seg s' h
    obtain ⟨id, ty, -, -, rfl, rfl⟩ := increment_ok h
    have hload : Emits s [.load (.temp s.next ty) (.slot id ty) (env.options.alignmentFor ty)] _ :=
      .define s _ rfl rfl
    have hsum : Emits s.drawn [.binary (.temp (s.next + 1) ty) .add (.temp s.next ty)
        (.int delta ty)] _ := .define s.drawn _ rfl rfl
    exact hload.append (hsum.append (.plain _ _ rfl rfl))
  case binary =>
    intro op ty left right hl hr s seg s' h
    obtain ⟨leftCode, lhs, rightCode, rhs, t, t', hleft, hright, rfl, -, -, -, rfl⟩ := binary_ok h
    have hcode := (operandAs_emits hl hleft).append (operandAs_emits hr hright)
    exact hcode.append (.define t' _ rfl rfl)
  case comparison =>
    intro relation left right hl hr s seg s' h
    obtain ⟨leftCode, lhs, rightCode, rhs, leftConversion, lhs', rightConversion, rhs', ty, t₁, t₂,
      t₃, t₄, hleft, hright, -, hcl, hcr, rfl, -, -, rfl⟩ := comparison_ok h
    have hcode := (((hl hleft).append (hr hright)).append (coerce_emits hcl)).append
      (coerce_emits hcr)
    exact hcode.append (.define t₄ _ rfl rfl)
  case booleanCast =>
    intro inner hx s seg s' h
    obtain ⟨code, v, t, hlow, ⟨-, rfl, rfl⟩ | ⟨-, -, rfl, rfl⟩⟩ := booleanCast_ok h
    · exact hx hlow
    · exact (hx hlow).append (.define t _ rfl rfl)
  case conditional =>
    intro keepBoolean condition onTrue onFalse hc ht hf
    exact conditional_emits hc ht hf
  case assignment =>
    intro target value hx s seg s' h
    obtain ⟨id, ty, code, v, -, -, hv, -, rfl⟩ := assignment_ok h
    exact (operandAs_emits hx hv).append (.plain s' _ rfl rfl)
  case call =>
    intro callee args hargs
    exact call_emits hargs

/-- Whether the labels that `break` and `continue` jump to are known. -/
def Context.TargetsKnown (ctx : Context) (s : LowerState) : Prop :=
  ∀ targets ∈ ctx.loop, s.Knows targets.1 ∧ s.Knows targets.2

/-- A new scope changes no label. -/
lemma Context.TargetsKnown.opened {ctx : Context} {s : LowerState} (h : ctx.TargetsKnown s)
    (scope : ScopeId) : Context.TargetsKnown { ctx with scope } (s.opened ctx.scope) := h

lemma Context.TargetsKnown.mono {ctx : Context} {s s' : LowerState} {code : Code}
    (h : ctx.TargetsKnown s) (he : Emits s code s') : ctx.TargetsKnown s' :=
  fun targets hmem => ⟨he.knows (h targets hmem).1, he.knows (h targets hmem).2⟩

namespace Lower

variable {s s' : LowerState} {env : LowerEnv} {scope : ScopeId} {ctx : Context} {code : Code}

/-- Whether a lowering of a statement gives its code by emission wherever its context is known. -/
def CodeEmits (ctx : Context) (x : Lower Code) : Prop :=
  ∀ ⦃s code s'⦄, ctx.TargetsKnown s → x s = .ok code s' → Emits s code s'

/-- A declared variable takes the number that its allocation defines. -/
lemma declare_emits (env : LowerEnv) {name : String} {ty : Ty} {scopes : Scopes}
    (h : s.drawn.scopes.declare scope name (.slot s.next ty) = .ok scopes) :
    Emits s [.alloca (.slot s.next ty) (env.options.alignmentFor ty)] { s with scopes } := by
  rw [Scopes.declare] at h
  split at h
  · cases h
  · cases h
    exact .instr _ 1 (by simp) (by simp [Instr.labels]) rfl rfl rfl rfl

lemma declarator_emits {d : Declarator} (h : declarator env scope d s = .ok code s') :
    Emits s code s' := by
  obtain ⟨-, scopes, hs, h⟩ := declarator_ok h
  have halloca := declare_emits env hs
  rcases h with ⟨-, rfl, rfl⟩ | ⟨e, init, v, -, hv, -, rfl⟩
  · exact halloca
  · exact (halloca.append (operandAs_emits e.lower_emits hv)).append (.plain s' _ rfl rfl)

lemma declaration_emits {ds : List Declarator} (h : declaration env scope ds s = .ok code s') :
    Emits s code s' := by
  induction ds generalizing s code with
  | nil =>
    obtain ⟨rfl, rfl⟩ := pure_ok.mp h
    exact .refl s
  | cons d rest ih =>
    obtain ⟨first, more, t, hd, hrest, rfl⟩ := declaration_cons_ok h
    exact (declarator_emits hd).append (ih hrest)

lemma branchOn_emits {condition : Lower Segment} (hcond : SegmentEmits condition)
    {onTrue onFalse : Label} (h : branchOn condition onTrue onFalse s = .ok code s')
    (htrue : s.Knows onTrue) (hfalse : s.Knows onFalse) : Emits s code s' := by
  obtain ⟨test, v, hv, -, rfl⟩ := branchOn_ok h
  have htest : Emits s test s' := operandAs_emits hcond hv
  have hknown : ∀ l ∈ [onTrue, onFalse], s'.Knows l := by
    simp only [List.mem_cons, List.not_mem_nil, or_false]
    rintro l (rfl | rfl)
    · exact htest.knows htrue
    · exact htest.knows hfalse
  exact htest.append (.instr _ 0 (by simp) hknown rfl rfl rfl rfl)

lemma ifElse_none_emits {condition : Lower Segment} (hcond : SegmentEmits condition)
    {onTrue : Lower Code} (htrue : CodeEmits ctx onTrue) :
    CodeEmits ctx (ifElse env condition onTrue none) := by
  intro s code s' hctx h
  obtain ⟨test, trueCode, jump, t, t₁, log, n, rfl, htest, hp, ht, hp₁, hj, rfl, rfl⟩ :=
    ifElse_none_ok h
  have hallocated : Emits s [] s.allocated.allocated := (Emits.allocate s).before (.allocate _)
  have hknown : ∀ id < s.labels.size + 2, s.allocated.allocated.Knows (.pending id) := by
    intro id hid
    rw [LowerState.Knows, LowerState.allocated_size, LowerState.allocated_size]
    exact hid
  have h₁ : Emits s.allocated.allocated test t :=
    branchOn_emits hcond htest (hknown _ (by omega)) (hknown _ (by omega))
  have h₂ : Emits t [.label (.fixed s.labels.size t.next)] _ := .place t _ hp
  have h₃ : Emits _ trueCode t₁ := htrue (((hctx.mono hallocated).mono h₁).mono h₂) ht
  have h₄ : Emits t₁ jump t₁ :=
    hj ▸ optionalJump_emits (h₃.knows (h₂.knows (h₁.knows (hknown _ (by omega)))))
  have h₅ : Emits t₁ [.label (.fixed (s.labels.size + 1) t₁.next)] _ :=
    (Emits.place (t₁.logged log) _ hp₁).after (.logged t₁ log)
  exact (((h₁.after hallocated).append (h₂.append h₃)).append h₄).append h₅

lemma ifElse_some_emits {condition : Lower Segment} (hcond : SegmentEmits condition)
    {onTrue onFalse : Lower Code} (htrue : CodeEmits ctx onTrue) (hfalse : CodeEmits ctx onFalse) :
    CodeEmits ctx (ifElse env condition onTrue (some onFalse)) := by
  intro s code s' hctx h
  obtain ⟨test, trueCode, trueJump, falseCode, falseJump, t, t₁, t₂, log₁, log₂, n, m, rfl, htest,
    hp, ht, rfl, hp₁, hf, hp₂, hj₁, hj₂, rfl, rfl⟩ := ifElse_some_ok h
  have hallocated : Emits s [] s.allocated.allocated := (Emits.allocate s).before (.allocate _)
  have hknown : ∀ id < s.labels.size + 2, s.allocated.allocated.Knows (.pending id) := by
    intro id hid
    rw [LowerState.Knows, LowerState.allocated_size, LowerState.allocated_size]
    exact hid
  have h₁ : Emits s.allocated.allocated test t :=
    branchOn_emits hcond htest (hknown _ (by omega)) (hknown _ (by omega))
  have h₂ : Emits t [.label (.fixed s.labels.size t.next)] _ := .place t _ hp
  have hctx₁ := ((hctx.mono hallocated).mono h₁).mono h₂
  have h₃ : Emits _ trueCode t₁ := htrue hctx₁ ht
  have hend : t₁.allocated.Knows (.pending t₁.labels.size) := by simp [LowerState.Knows, Label.id]
  have h₄ : Emits t₁ trueJump t₁.allocated := hj₁ ▸ (optionalJump_emits hend).after (.allocate t₁)
  have h₅ : Emits t₁.allocated [.label (.fixed (s.labels.size + 1) t₁.next)] _ :=
    (Emits.place (t₁.allocated.logged log₁) _ hp₁).after (.logged _ log₁)
  have h₆ : Emits _ falseCode t₂ := hfalse (((hctx₁.mono h₃).mono h₄).mono h₅) hf
  have h₇ : Emits t₂ falseJump t₂ := hj₂ ▸ optionalJump_emits (h₆.knows (h₅.knows hend))
  have h₈ : Emits t₂ [.label (.fixed t₁.labels.size t₂.next)] _ :=
    (Emits.place (t₂.logged log₂) _ hp₂).after (.logged t₂ log₂)
  exact (((((h₁.after hallocated).append (h₂.append h₃)).append h₄).append
    (h₅.append h₆)).append h₇).append h₈

lemma whileLoop_emits {condition : Lower Segment} (hcond : SegmentEmits condition)
    {body : Context → Lower Code} (hbody : ∀ ctx, CodeEmits ctx (body ctx)) :
    CodeEmits ctx (whileLoop env ctx condition body) := by
  intro s code s' hctx h
  obtain ⟨test, bodyCode, back, t, t₁, log₀, log, n, rfl, htest, hp, hb, hp₁, hback, rfl, rfl⟩ :=
    whileLoop_ok h
  have hallocated : Emits s [] s.allocated.allocated.allocated :=
    ((Emits.allocate s).before (.allocate _)).before (.allocate _)
  have hknown : ∀ id < s.labels.size + 3,
      s.allocated.allocated.allocated.Knows (.pending id) := by
    intro id hid
    rw [LowerState.Knows, LowerState.allocated_size, LowerState.allocated_size,
      LowerState.allocated_size]
    exact hid
  have hpending : s.allocated.allocated.allocated.labels.names[s.labels.size]? = some none := by
    simp [LowerState.allocated, LabelTable.allocate, LabelTable.size]
  have h₀ : Emits s [.jump (.pending s.labels.size)] s.allocated.allocated.allocated :=
    (jump_emits (hknown _ (by omega))).after hallocated
  have h₁ : Emits s.allocated.allocated.allocated [.label (.fixed s.labels.size s.next)] _ :=
    (Emits.place (s.allocated.allocated.allocated.logged log₀) _ hpending).after (.logged _ log₀)
  have h₂ : Emits _ test t := branchOn_emits hcond htest (h₁.knows (hknown _ (by omega)))
    (h₁.knows (hknown _ (by omega)))
  have h₃ : Emits t [.label (.fixed (s.labels.size + 1) t.next)] _ := .place t _ hp
  have hlabels : ∀ id < s.labels.size + 3,
      (t.placed (.pending (s.labels.size + 1))).Knows (.pending id) :=
    fun id hid => h₃.knows (h₂.knows (h₁.knows (hknown id hid)))
  have h₄ : Emits (t.placed (.pending (s.labels.size + 1))) bodyCode t₁ := by
    refine hbody _ ?_ hb
    rintro targets ⟨⟩
    exact ⟨hlabels _ (by omega), hlabels _ (by omega)⟩
  have h₅ : Emits t₁ back t₁ := hback ▸ optionalJump_emits (h₄.knows (hlabels _ (by omega)))
  have h₆ : Emits t₁ [.label (.fixed (s.labels.size + 2) t₁.next)] _ :=
    (Emits.place (t₁.logged log) _ hp₁).after (.logged t₁ log)
  exact (((h₀.append (h₁.append h₂)).append (h₃.append h₄)).append h₅).append h₆

lemma openBlockAfter_emits {opened : Code} (h : openBlockAfter code s = .ok opened s') :
    Emits s opened s' := by
  rcases openBlockAfter_ok h with ⟨-, rfl, rfl⟩ | ⟨-, rfl, log, rfl⟩
  · exact .refl s
  · have hpending : (s.logged log).allocated.labels.names[s.labels.size]? = some none := by
      simp [LowerState.allocated, LowerState.logged, LabelTable.allocate, LabelTable.size]
    exact (Emits.place _ _ hpending).after ((Emits.logged s log).before (.allocate _))

lemma stepAfter_emits {step : Option (Lower Segment)} (hstep : ∀ x ∈ step, SegmentEmits x)
    {code' : Code} (h : stepAfter code step s = .ok code' s') :
    ∃ added, code' = code ++ added ∧ Emits s added s' := by
  rcases stepAfter_ok h with ⟨-, rfl, rfl⟩ | ⟨x, opened, seg, t, rfl, ho, hx, rfl⟩
  · exact ⟨[], (List.append_nil _).symm, .refl s⟩
  · exact ⟨opened ++ seg.instructions, List.append_assoc .., (openBlockAfter_emits ho).append
      (hstep x rfl hx)⟩

lemma initial_emits {init : Option (Context → Lower Code)}
    (hinit : ∀ x ∈ init, CodeEmits ctx (x ctx)) : CodeEmits ctx (initial init ctx) := by
  intro s code s' hctx h
  rcases initial_ok h with ⟨-, rfl, rfl⟩ | ⟨x, rfl, hx⟩
  · exact .refl s
  · exact hinit x rfl hctx hx

lemma loopTest_emits {before : Code} {condition : Option (Lower Segment)}
    (hcond : ∀ x ∈ condition, SegmentEmits x) {bodyLabel exitLabel : Label}
    (h : loopTest env before condition bodyLabel exitLabel s = .ok code s')
    (hbody : s.Knows bodyLabel) (hexit : s.Knows exitLabel) : Emits s code s' := by
  rcases loopTest_ok h with ⟨-, ⟨log, rfl⟩, rfl⟩ | ⟨c, rfl, hc⟩
  · exact (optionalJump_emits hbody).before (.logged s log)
  · exact branchOn_emits (hcond c rfl) hc hbody hexit

lemma forLoop_emits {init : Option (Context → Lower Code)}
    (hinit : ∀ x ∈ init, ∀ ctx, CodeEmits ctx (x ctx))
    {condition step : Option (ScopeId → Lower Segment)}
    (hcond : ∀ x ∈ condition, ∀ scope, SegmentEmits (x scope))
    (hstep : ∀ x ∈ step, ∀ scope, SegmentEmits (x scope))
    {body : Context → Lower Code} (hbody : ∀ ctx, CodeEmits ctx (body ctx)) :
    CodeEmits ctx (forLoop env ctx init condition step body) := by
  intro s code s' hctx h
  obtain ⟨initCode, entering, test, bodyCode, stepped, back, t₀, t, t₁, t₂, log₀, log, n, scope,
    rfl, hi, rfl, hentering, htest, hp, hb, hst, hp₁, hback, rfl, rfl⟩ := forLoop_ok h
  have h₀ : Emits s initCode t₀ :=
    (initial_emits (fun x hx => hinit x hx _) (hctx.opened _) hi).after (.quiet rfl rfl rfl)
  have hallocated : Emits t₀ [] t₀.allocated.allocated.allocated :=
    ((Emits.allocate t₀).before (.allocate _)).before (.allocate _)
  have hknown : ∀ id < t₀.labels.size + 3,
      t₀.allocated.allocated.allocated.Knows (.pending id) := by
    intro id hid
    rw [LowerState.Knows, LowerState.allocated_size, LowerState.allocated_size,
      LowerState.allocated_size]
    exact hid
  have hpending : t₀.allocated.allocated.allocated.labels.names[t₀.labels.size]? = some none := by
    simp [LowerState.allocated, LabelTable.allocate, LabelTable.size]
  have h₁ : Emits t₀ entering t₀.allocated.allocated.allocated :=
    hentering ▸ (optionalJump_emits (hknown _ (by omega))).after hallocated
  have h₂ : Emits t₀.allocated.allocated.allocated [.label (.fixed t₀.labels.size t₀.next)] _ :=
    (Emits.place (t₀.allocated.allocated.allocated.logged log₀) _ hpending).after (.logged _ log₀)
  have h₃ : Emits _ test t :=
    loopTest_emits (Option.forall_mem_map.mpr fun x hx => hcond x hx _) htest
      (h₂.knows (hknown _ (by omega))) (h₂.knows (hknown _ (by omega)))
  have h₄ : Emits t [.label (.fixed (t₀.labels.size + 1) t.next)] _ := .place t _ hp
  have hlabels : ∀ id < t₀.labels.size + 3,
      (t.placed (.pending (t₀.labels.size + 1))).Knows (.pending id) :=
    fun id hid => h₄.knows (h₃.knows (h₂.knows (hknown id hid)))
  have h₅ : Emits (t.placed (.pending (t₀.labels.size + 1))) bodyCode t₁ := by
    refine hbody _ ?_ hb
    rintro targets ⟨⟩
    exact ⟨hlabels _ (by omega), hlabels _ (by omega)⟩
  obtain ⟨added, rfl, h₆⟩ :=
    stepAfter_emits (Option.forall_mem_map.mpr fun x hx => hstep x hx _) hst
  have h₇ : Emits t₂ back t₂ := hback ▸ optionalJump_emits (h₆.knows (h₅.knows (hlabels _ (by omega))))
  have h₈ : Emits t₂ [.label (.fixed (t₀.labels.size + 2) t₂.next)] _ :=
    (Emits.place (t₂.logged log) _ hp₁).after (.logged t₂ log)
  exact (((((((h₀.append h₁).append h₂).append h₃).append (h₄.append h₅)).append h₆).append
    h₇).append h₈)

lemma ret_emits {value : Option (Lower Segment)} (hvalue : ∀ x ∈ value, SegmentEmits x)
    (h : ret env value s = .ok code s') : Emits s code s' := by
  rcases ret_ok h with ⟨-, -, rfl, rfl⟩ | ⟨x, first, v, conversion, w, t, rfl, -, hx, hc, rfl⟩
  · exact .plain s _ rfl rfl
  · exact ((hvalue x rfl hx).append (coerce_emits hc)).append (.plain s' _ rfl rfl)

end Lower

namespace Stmt

open Lower

variable {env : LowerEnv}

/-- The code of statements behind `before` is `before` and what they emit. -/
lemma lowerAll_emits {body : List Stmt} (hbody : ∀ x ∈ body, ∀ ctx, CodeEmits ctx (x.lower env ctx))
    {ctx : Context} {before code : Code} {s s' : LowerState} (hctx : ctx.TargetsKnown s)
    (h : lowerAll env body ctx before s = .ok code s') :
    ∃ added, code = before ++ added ∧ Emits s added s' := by
  induction body generalizing before s with
  | nil =>
    obtain ⟨rfl, rfl⟩ := lowerAll_nil_ok h
    exact ⟨[], (List.append_nil _).symm, .refl s⟩
  | cons x rest ih =>
    obtain ⟨opened, added, t, t', ho, hx, hrest⟩ := lowerAll_cons_ok h
    have h₁ := openBlockAfter_emits ho
    have h₂ := hbody x List.mem_cons_self ctx (hctx.mono h₁) hx
    obtain ⟨more, rfl, h₃⟩ := ih (fun y hy => hbody y (List.mem_cons_of_mem x hy))
      ((hctx.mono h₁).mono h₂) hrest
    exact ⟨opened ++ added ++ more, by simp, (h₁.append h₂).append h₃⟩

theorem lower_emits (x : Stmt) : ∀ ctx, CodeEmits ctx (x.lower env ctx) := by
  induction x using Stmt.induction with
  | expression e =>
    intro ctx s code s' hctx h
    obtain ⟨seg, he, rfl⟩ := lower_expression_ok h
    exact e.lower_emits he
  | declaration ds =>
    intro ctx s code s' hctx h
    exact declaration_emits h
  | compound body hbody =>
    intro ctx s code s' hctx h
    obtain ⟨added, rfl, he⟩ := lowerAll_emits hbody (hctx.opened _) (lower_compound_ok h)
    exact he.after (.quiet rfl rfl rfl)
  | ifElse condition onTrue onFalse htrue hfalse =>
    intro ctx
    cases onFalse with
    | none => exact ifElse_none_emits condition.lower_emits (htrue ctx)
    | some onFalse =>
      exact ifElse_some_emits condition.lower_emits (htrue ctx) (hfalse onFalse rfl ctx)
  | whileLoop condition body hbody =>
    intro ctx
    exact whileLoop_emits condition.lower_emits hbody
  | forLoop init condition step body hinit hbody =>
    intro ctx
    have hpart : ∀ (part : Option Expr), ∀ x ∈ part.map (fun e scope => e.lower env scope),
        ∀ scope, SegmentEmits (x scope) := fun part =>
      Option.forall_mem_map.mpr fun e _ scope => e.lower_emits
    cases init with
    | none =>
      rw [lower]
      exact forLoop_emits (by simp) (hpart condition) (hpart step) hbody
    | some init =>
      rw [lower]
      refine forLoop_emits ?_ (hpart condition) (hpart step) hbody
      rintro x ⟨⟩
      exact hinit init rfl
  | ret value =>
    intro ctx s code s' hctx h
    exact ret_emits (Option.forall_mem_map.mpr fun e _ => e.lower_emits) h
  | brk =>
    intro ctx s code s' hctx h
    obtain ⟨l, hl, rfl, rfl⟩ := leave_ok h
    obtain ⟨targets, hmem, rfl⟩ := Option.map_eq_some_iff.mp hl
    exact jump_emits (hctx targets hmem).1
  | cont =>
    intro ctx s code s' hctx h
    obtain ⟨l, hl, rfl, rfl⟩ := leave_ok h
    obtain ⟨targets, hmem, rfl⟩ := Option.map_eq_some_iff.mp hl
    exact jump_emits (hctx targets hmem).2

end Stmt

namespace Definition

open Lower

lemma paramSlots_emits {env : LowerEnv} {pairs : List (Param × Value)} {s s' : LowerState}
    {code : Code} (h : paramSlots env pairs s = .ok code s') : Emits s code s' := by
  induction pairs generalizing s code with
  | nil =>
    obtain ⟨rfl, rfl⟩ := pure_ok.mp h
    exact .refl s
  | cons pair rest ih =>
    obtain ⟨-, -, scopes, more, hs, hrest, rfl⟩ := paramSlots_cons_ok h
    have halloca := declare_emits env hs
    have hstore : Emits { s with scopes } [.store pair.2 (.slot s.next pair.1.ty)
        (env.options.alignmentFor pair.1.ty)] { s with scopes } := .plain _ _ rfl rfl
    exact halloca.append (hstore.append (ih hrest))

/-- How the code of a definition came about: the states behind its parameters and behind its body,
and their code, in which every label got a name in the end. -/
structure Lowered (d : Definition) (env : LowerEnv) (seg : Segment) where
  entry : env.entry = .fixed 0 env.params.length
  paramCode : Code
  body : Code
  declared : LowerState
  final : LowerState
  params_ok : paramSlots env (d.params.zip env.params) env.start = .ok paramCode declared
  body_ok : Stmt.lowerAll env d.body { scope := declared.scopes.scopes.length } []
    (declared.opened Scopes.root) = .ok body final
  fixes : ∀ id < final.labels.size, final.labels.Fixes id
  code : seg.instructions = (d.wholeCode env paramCode body).map (Instr.relabel final.labels.named)

/-- All code of a function behind its first label is emitted from the state in which it begins. -/
lemma emits_of_ok {d : Definition} {env : LowerEnv} {paramCode body : Code}
    {s declared final : LowerState}
    (hp : paramSlots env (d.params.zip env.params) s = .ok paramCode declared)
    (hb : Stmt.lowerAll env d.body { scope := declared.scopes.scopes.length } []
      (declared.opened Scopes.root) = .ok body final) : Emits s (paramCode ++ body) final := by
  obtain ⟨added, rfl, he⟩ := Stmt.lowerAll_emits (fun x _ => x.lower_emits)
    (by simp [Context.TargetsKnown]) hb
  exact (paramSlots_emits hp).append (he.after (.quiet rfl rfl rfl))

/-- A function names only labels that it allocated. -/
lemma wholeCode_knows {d : Definition} {env : LowerEnv} {paramCode body : Code} {final : LowerState}
    (he : Emits env.start (paramCode ++ body) final) (hentry : env.entry.id = 0) :
    ∀ i ∈ d.wholeCode env paramCode body, ∀ l ∈ i.labels, final.Knows l := by
  have hsize : 0 < final.labels.size := he.size_le
  intro i hi l hl
  simp only [wholeCode, frame, List.cons_append, List.mem_append, List.mem_cons,
    List.not_mem_nil, or_false] at hi
  rcases hi with rfl | rfl | (hi | hi) | rfl
  · cases hl
  · rw [Instr.labels, List.mem_singleton] at hl
    rwa [hl, LowerState.Knows, hentry]
  · exact he.knows_labels i (List.mem_append.mpr hi) l hl
  · rw [Lower.ending] at hi
    split at hi
    · rw [List.mem_singleton.mp hi] at hl
      cases hl
    · cases hi
  · cases hl

end Definition

/-- Code that the compiler gives for a definition was emitted, and then every label in it was
resolved. Behind the body no label is added to the table, whose size is in the last line of the
log. -/
theorem Compiler.lowerDefinition_lowered {c : Compiler} {d : Definition} {seg : Segment}
    (h : (c.lowerDefinition d).result = .ok seg) :
    ∃ env, env = .ofSignature (c.lowerDefinition d).compiler.functions c.options d.signature ∧
      ∃ w : d.Lowered env seg, ∃ final, d.lowerIn env env.start = .ok seg final ∧
        final.labels = w.final.labels ∧ (c.lowerDefinition d).log.getLast? =
          some (.lowered d.name seg.size final.labels.size) := by
  obtain ⟨functions, s', -, hfunctions, hlog, h⟩ := lowerDefinition_ok h
  obtain ⟨paramCode, body, declared, final, log, hp, hb, hs', hcheck, hcode⟩ :=
    Definition.lowerIn_ok h
  have he := Definition.emits_of_ok hp hb
  have hfixes := LabelTable.checkAllFixed_ok.mp hcheck
  have hresolve := LabelTable.resolveCode_of_fixes fun i hi l hl =>
    hfixes l.id (Definition.wholeCode_knows (d := d) he rfl i hi l hl)
  rw [hcode, Prod.mk.injEq] at hresolve
  have hentry : (LowerEnv.ofSignature functions c.options d.signature).entry = .fixed 0
      (LowerEnv.ofSignature functions c.options d.signature).params.length := by
    simp [LowerEnv.ofSignature]
  refine ⟨_, by rw [hfunctions],
    ⟨hentry, paramCode, body, declared, final, hp, hb, hfixes, hresolve.1⟩, s', h,
    by rw [← hs', LowerState.logged], ?_⟩
  rw [hlog, ← hs', LowerState.logged, List.reverse_cons, ← List.cons_append]
  exact List.getLast?_concat

/-- A definition with nested control flow: it sums up the numbers below `n`, counts a number below 2
as 2, and stops in front of 7. -/
def Definition.sumUpTo : Definition where
  name := "sum"
  returnTy := .i32
  params := [⟨"n", .i32⟩]
  body := [
    .declaration [⟨"sum", .i32, some (.int 0)⟩],
    .forLoop (some (.declaration [⟨"i", .i32, some (.int 0)⟩]))
      (some (.compare .less (.var "i") (.var "n"))) (some (.postIncrement "i" 1))
      (.compound [.ifElse (.compare .equal (.var "i") (.int 7)) .brk none,
        .expression (.assign "sum" (.arith .add (.var "sum")
          (.conditional (.compare .greater (.var "i") (.int 1)) (.var "i") (.int 2))))]),
    .ret (some (.var "sum"))]

lemma Definition.sumUpTo_accepted :
    ∃ seg, (Compiler.lowerDefinition {} sumUpTo).result = .ok seg := by
  have hok : (Compiler.lowerDefinition {} sumUpTo).result.isOk = true := by decide +kernel
  cases hresult : (Compiler.lowerDefinition {} sumUpTo).result with
  | ok seg => exact ⟨seg, rfl⟩
  | error e =>
    rw [hresult] at hok
    cases hok

lemma Definition.Lowered.emits {d : Definition} {env : LowerEnv} {seg : Segment}
    (w : d.Lowered env seg) : Emits env.start (w.paramCode ++ w.body) w.final :=
  emits_of_ok w.params_ok w.body_ok

end MiniC
