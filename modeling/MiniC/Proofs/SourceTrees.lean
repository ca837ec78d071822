import MiniC.Proofs.ProgramGrammar

/-!
# Trees of source text

Not every tree is written down by some source. In those that are, an integer literal has 31 bits, an
increment changes its variable by one, whatever decides a branch is boolean by its form, and no
variable, parameter or result is declared as a boolean, since no keyword names that type.
-/

namespace MiniC

/-- What the expressions of source text obey. -/
inductive Expr.WellFormed : Expr → Prop where
  | int {value : Int} (hlow : 0 ≤ value) (hhigh : value ≤ 2147483647) : WellFormed (.int value)
  | float (value : Binary64) : WellFormed (.float value)
  | var (name : String) : WellFormed (.var name)
  | preIncrement (name : String) {delta : Int} (h : delta = 1 ∨ delta = -1) :
      WellFormed (.preIncrement name delta)
  | postIncrement (name : String) {delta : Int} (h : delta = 1 ∨ delta = -1) :
      WellFormed (.postIncrement name delta)
  | arith (op : ArithOp) {left right : Expr} (hl : WellFormed left) (hr : WellFormed right) :
      WellFormed (.arith op left right)
  | compare (op : CompareOp) {left right : Expr} (hl : WellFormed left) (hr : WellFormed right) :
      WellFormed (.compare op left right)
  | logicalAnd {left right : Expr} (hl : WellFormed left) (hr : WellFormed right)
      (hlb : left.isBoolean = true) (hrb : right.isBoolean = true) :
      WellFormed (.logicalAnd left right)
  | logicalOr {left right : Expr} (hl : WellFormed left) (hr : WellFormed right)
      (hlb : left.isBoolean = true) (hrb : right.isBoolean = true) :
      WellFormed (.logicalOr left right)
  | boolCast {operand : Expr} (h : WellFormed operand) : WellFormed (.boolCast operand)
  | conditional {condition onTrue onFalse : Expr} (hc : WellFormed condition)
      (hcb : condition.isBoolean = true) (ht : WellFormed onTrue) (hf : WellFormed onFalse) :
      WellFormed (.conditional condition onTrue onFalse)
  | assign (target : String) {value : Expr} (h : WellFormed value) :
      WellFormed (.assign target value)
  | call (callee : String) {arguments : List Expr} (h : ∀ e ∈ arguments, WellFormed e) :
      WellFormed (.call callee arguments)

/-- What the declared variables of source text obey. -/
structure Declarator.WellFormed (d : Declarator) : Prop where
  ty : d.ty ≠ .bool
  initializer : ∀ e ∈ d.initializer, e.WellFormed

/-- What the statements of source text obey. -/
inductive Stmt.WellFormed : Stmt → Prop where
  | expression {e : Expr} (h : e.WellFormed) : WellFormed (.expression e)
  | declaration {ds : List Declarator} (h : ∀ d ∈ ds, d.WellFormed) : WellFormed (.declaration ds)
  | compound {body : List Stmt} (h : ∀ x ∈ body, WellFormed x) : WellFormed (.compound body)
  | ifElse {condition : Expr} {onTrue : Stmt} {onFalse : Option Stmt} (hc : condition.WellFormed)
      (hcb : condition.isBoolean = true) (ht : WellFormed onTrue)
      (hf : ∀ x ∈ onFalse, WellFormed x) : WellFormed (.ifElse condition onTrue onFalse)
  | whileLoop {condition : Expr} {body : Stmt} (hc : condition.WellFormed)
      (hcb : condition.isBoolean = true) (hbody : WellFormed body) :
      WellFormed (.whileLoop condition body)
  | forLoop {init : Option Stmt} {condition step : Option Expr} {body : Stmt}
      (hinit : ∀ x ∈ init, WellFormed x)
      (hc : ∀ e ∈ condition, e.WellFormed ∧ e.isBoolean = true)
      (hstep : ∀ e ∈ step, e.WellFormed) (hbody : WellFormed body) :
      WellFormed (.forLoop init condition step body)
  | ret {value : Option Expr} (h : ∀ e ∈ value, e.WellFormed) : WellFormed (.ret value)
  | brk : WellFormed .brk
  | cont : WellFormed .cont

/-- What the definitions of source text obey. -/
structure Definition.WellFormed (d : Definition) : Prop where
  returnTy : d.returnTy ≠ .bool
  params : ∀ p ∈ d.params, p.ty ≠ .bool
  body : ∀ x ∈ d.body, x.WellFormed

/-- No keyword names the type of booleans. -/
lemma TokenKind.ne_bool_of_toTy? {kind : TokenKind} {ty : Ty} (h : kind.toTy? = some ty) :
    ty ≠ .bool := by
  rintro rfl
  cases kind with
  | keyword k => cases k <;> cases h
  | _ => cases h

namespace Grammar

lemma Test.isBoolean {e condition : Expr} (h : Test e condition) : condition.isBoolean = true := by
  cases h with
  | kept h => exact h
  | cast => rfl

lemma Test.wellFormed {e condition : Expr} (h : Test e condition) (he : e.WellFormed) :
    condition.WellFormed := by
  cases h with
  | kept => exact he
  | cast => exact .boolCast he

lemma Joined.wellFormed {left right e : Expr} {tier : Tier} {s : Symbol}
    (h : Joined left right tier s e) (hl : left.WellFormed) (hr : right.WellFormed) :
    e.WellFormed := by
  cases h with
  | mul | div | rem | add | sub => exact .arith _ hl hr
  | less | lessEqual | greater | greaterEqual | equal | notEqual => exact .compare _ hl hr
  | and hlt hrt =>
    exact .logicalAnd (hlt.wellFormed hl) (hrt.wellFormed hr) hlt.isBoolean hrt.isBoolean
  | or hlt hrt =>
    exact .logicalOr (hlt.wellFormed hl) (hrt.wellFormed hr) hlt.isBoolean hrt.isBoolean

lemma Increment.delta_eq {s : Symbol} {delta : Int} (h : Increment s delta) :
    delta = 1 ∨ delta = -1 := by
  cases h with
  | up => exact .inl rfl
  | down => exact .inr rfl

lemma Stored.wellFormed {target : String} {rhs value : Expr} {s : Symbol}
    (h : Stored target rhs s value) (hrhs : rhs.WellFormed) : value.WellFormed := by
  cases h with
  | plain => exact hrhs
  | add | sub | mul | div => exact .arith _ (.var target) hrhs

mutual

/-- The derivations of expressions give well-formed trees. -/
theorem Derives.wellFormed {level : Level} {ts : List Token} {e : Expr} :
    Derives level ts e → e.WellFormed
  | .int _ hvalue => .int (Int.natCast_nonneg _) (Int.ofNat_le.mpr hvalue)
  | .float _ _ => .float _
  | .var _ => .var _
  | .call _ _ harguments _ => .call _ (wellFormedArguments harguments)
  | .parenthesized _ he _ => he.wellFormed
  | .primary h => h.wellFormed
  | .preIncrement _ hs _ => .preIncrement _ hs.delta_eq
  | .postIncrement _ _ hs => .postIncrement _ hs.delta_eq
  | .operand h => h.wellFormed
  | .binary hleft _ hright hs => hs.wellFormed hleft.wellFormed hright.wellFormed
  | .disjunction h => h.wellFormed
  | .conditional he hcondition _ htrue _ hfalse =>
    .conditional (hcondition.wellFormed he.wellFormed) hcondition.isBoolean htrue.wellFormed
      hfalse.wellFormed
  | .unassigned h => h.wellFormed
  | .assignment _ _ hs h => .assign _ (hs.wellFormed h.wellFormed)

theorem wellFormedArguments {ts : List Token} {arguments : Option (List Expr)} :
    Optional (CommaSeparated (Derives .expression)) ts arguments →
      ∀ e ∈ arguments.getD [], e.WellFormed
  | .none => by simp
  | .some h => wellFormedAll h

theorem wellFormedAll {ts : List Token} {es : List Expr} :
    CommaSeparated (Derives .expression) ts es → ∀ e ∈ es, e.WellFormed
  | .single h => List.forall_mem_singleton.mpr h.wellFormed
  | .cons h _ hrest => List.forall_mem_cons.mpr ⟨h.wellFormed, wellFormedAll hrest⟩

end

/-- What holds of each item holds of all items that are separated by commas. -/
lemma CommaSeparated.forall_of_item {α : Type} {item : List Token → α → Prop} {p : α → Prop}
    {ts : List Token} {as : List α} (h : CommaSeparated item ts as)
    (hitem : ∀ ts a, item ts a → p a) : ∀ a ∈ as, p a := by
  induction h with
  | single h => exact List.forall_mem_singleton.mpr (hitem _ _ h)
  | cons h _ _ ih => exact List.forall_mem_cons.mpr ⟨hitem _ _ h, ih⟩

lemma Optional.forall_of_item {α : Type} {item : List Token → α → Prop} {p : α → Prop}
    {ts : List Token} {o : Option α} (h : Optional item ts o)
    (hitem : ∀ a, item ts a → p a) : ∀ a ∈ o, p a := by
  cases h with
  | none => simp
  | some h => simpa using hitem _ h

lemma Declares.wellFormed {ty : Ty} {ts : List Token} {d : Declarator} (hty : ty ≠ .bool)
    (h : Declares ty ts d) : d.WellFormed := by
  cases h with
  | plain => exact ⟨hty, by simp⟩
  | initialized _ _ _ h => exact ⟨hty, by simpa using h.wellFormed⟩

lemma Declaration.wellFormed {ts : List Token} {s : Stmt} (h : Declaration ts s) :
    s.WellFormed := by
  obtain ⟨ht, hds, -⟩ := h
  have hty := TokenKind.ne_bool_of_toTy? ht
  exact .declaration (hds.forall_of_item fun _ _ h => h.wellFormed hty)

lemma ExpressionStatement.wellFormed {ts : List Token} {s : Stmt}
    (h : ExpressionStatement ts s) : s.WellFormed := by
  obtain ⟨h, -⟩ := h
  exact .expression h.wellFormed

lemma LoopStart.wellFormed {ts : List Token} {init : Option Stmt} (h : LoopStart ts init) :
    ∀ x ∈ init, x.WellFormed := by
  cases h with
  | empty => simp
  | declaration h => simpa using h.wellFormed
  | expression h => simpa using h.wellFormed

lemma Tested.wellFormed {ts : List Token} {e : Expr} (h : Tested ts e) :
    e.WellFormed ∧ e.isBoolean = true := by
  obtain ⟨h, hcondition⟩ := h
  exact ⟨hcondition.wellFormed h.wellFormed, hcondition.isBoolean⟩

lemma Condition.wellFormed {ts : List Token} {e : Expr} (h : Condition ts e) :
    e.WellFormed ∧ e.isBoolean = true := by
  obtain ⟨-, h, -⟩ := h
  exact h.wellFormed

mutual

/-- The derivations of statements give well-formed trees. -/
theorem Statement.wellFormed {nearest : Bool} {ts : List Token} {s : Stmt} :
    Statement nearest ts s → s.WellFormed
  | .declaration h => h.wellFormed
  | .expression h => h.wellFormed
  | .block _ hbody _ => .compound (wellFormedBody hbody)
  | .ifThen _ hcondition htrue =>
    .ifElse hcondition.wellFormed.1 hcondition.wellFormed.2 htrue.wellFormed (by simp)
  | .ifElse _ hcondition htrue _ _ hfalse =>
    .ifElse hcondition.wellFormed.1 hcondition.wellFormed.2 htrue.wellFormed
      (by simpa using hfalse.wellFormed)
  | .whileLoop _ hcondition hbody =>
    .whileLoop hcondition.wellFormed.1 hcondition.wellFormed.2 hbody.wellFormed
  | .forLoop _ _ hinit hcondition _ hstep _ hbody =>
    .forLoop hinit.wellFormed (hcondition.forall_of_item fun _ h => h.wellFormed)
      (hstep.forall_of_item fun _ h => h.wellFormed) hbody.wellFormed
  | .ret _ hvalue _ => .ret (hvalue.forall_of_item fun _ h => h.wellFormed)
  | .brk _ _ => .brk
  | .cont _ _ => .cont

theorem wellFormedBody {nearest : Bool} {ts : List Token} {body : List Stmt} :
    Sequence (Statement nearest) ts body → ∀ x ∈ body, x.WellFormed
  | .nil => by simp
  | .cons h hrest => List.forall_mem_cons.mpr ⟨h.wellFormed, wellFormedBody hrest⟩

end

lemma Parameter.ne_bool {ts : List Token} {p : Param} (h : Parameter ts p) : p.ty ≠ .bool := by
  obtain ⟨ht, -, -⟩ := h
  exact TokenKind.ne_bool_of_toTy? ht

lemma Defines.wellFormed {nearest : Bool} {ts : List Token} {d : Definition}
    (h : Defines nearest ts d) : d.WellFormed := by
  obtain ⟨ht, -, -, hparams, -, -, hbody, -⟩ := h
  refine ⟨TokenKind.ne_bool_of_toTy? ht, ?_, wellFormedBody hbody⟩
  cases hparams with
  | none => simp
  | some h => exact h.forall_of_item fun _ _ h => h.ne_bool

lemma Program.wellFormed {nearest : Bool} {ts : List Token} {ds : List Definition}
    (h : Program nearest ts ds) : ∀ d ∈ ds, d.WellFormed := by
  induction h with
  | nil => simp
  | cons h _ ih => exact List.forall_mem_cons.mpr ⟨h.wellFormed, ih⟩

end Grammar

/-- A source text is parsed to well-formed trees. -/
theorem parseSource_wellFormed {source : String} {ds : List Definition}
    (h : parseSource source = .ok ds) : ∀ d ∈ ds, d.WellFormed := by
  have hprogram : Grammar.Program true (sourceTokens source) ds := program_of_parseSource h
  exact hprogram.wellFormed

end MiniC
