import MiniC.Proofs.Spelling
import MiniC.Proofs.SourceTrees

/-!
# Shapes of source trees

Lowering and printing take for granted more than the types of trees say. `Shaped` is the invariant
of the trees that parsing gives. A cast stands around a test that would not be boolean without it,
and nowhere else, so an expression is shaped for a place where a value or where a test is asked for.
The variables of a declaration share one type, names are words, and no `else` belongs to an `if`
with a nearer one left open in front of it. It follows that all `tests` of a tree are boolean by
their form: the conditions of statements and conditionals and the operands of `&&` and `||`.
-/

namespace MiniC

/-- Whether a text can name something: a word of letters and underscores that is no keyword. -/
structure IsName (name : String) : Prop where
  nonempty : name.toList ≠ []
  word : ∀ c ∈ name.toList, c.isAlpha = true ∨ c = '_'
  reserved : ∀ k : Keyword, k.spelling ≠ name

/-- What the place of an expression asks for. -/
inductive Expr.Place where
  | value
  | test

/-- The shape of expressions of source text, by place. -/
inductive Expr.Shaped : Expr.Place → Expr → Prop where
  | int {value : Int} (h : 0 ≤ value) : Shaped .value (.int value)
  | float (value : Binary64) : Shaped .value (.float value)
  | var {name : String} (hname : IsName name) : Shaped .value (.var name)
  | preIncrement {name : String} {delta : Int} (hname : IsName name)
      (hdelta : delta = 1 ∨ delta = -1) : Shaped .value (.preIncrement name delta)
  | postIncrement {name : String} {delta : Int} (hname : IsName name)
      (hdelta : delta = 1 ∨ delta = -1) : Shaped .value (.postIncrement name delta)
  | arith (op : ArithOp) {left right : Expr} (hl : Shaped .value left) (hr : Shaped .value right) :
      Shaped .value (.arith op left right)
  | compare (op : CompareOp) {left right : Expr} (hl : Shaped .value left)
      (hr : Shaped .value right) : Shaped .value (.compare op left right)
  | logicalAnd {left right : Expr} (hl : Shaped .test left) (hr : Shaped .test right) :
      Shaped .value (.logicalAnd left right)
  | logicalOr {left right : Expr} (hl : Shaped .test left) (hr : Shaped .test right) :
      Shaped .value (.logicalOr left right)
  | conditional {condition onTrue onFalse : Expr} (hc : Shaped .test condition)
      (ht : Shaped .value onTrue) (hf : Shaped .value onFalse) :
      Shaped .value (.conditional condition onTrue onFalse)
  | assign {target : String} {value : Expr} (hname : IsName target) (h : Shaped .value value) :
      Shaped .value (.assign target value)
  | call {callee : String} {arguments : List Expr} (hname : IsName callee)
      (h : ∀ e ∈ arguments, Shaped .value e) : Shaped .value (.call callee arguments)
  | boolean {e : Expr} (h : Shaped .value e) (hbool : e.isBoolean = true) : Shaped .test e
  | cast {e : Expr} (h : Shaped .value e) (hbool : e.isBoolean = false) :
      Shaped .test (.boolCast e)

/-- Whether variables and parameters may have the type. -/
def Ty.IsObject (ty : Ty) : Prop := ty ≠ .void ∧ ty ≠ .bool

/-- The shape of a declared variable in a declaration of type `ty`. -/
structure Declarator.Shaped (ty : Ty) (d : Declarator) : Prop where
  name : IsName d.name
  ty : d.ty = ty
  initializer : ∀ e ∈ d.initializer, e.Shaped .value

/-- Whether a statement may initialize a loop. -/
inductive Stmt.IsInitializer : Stmt → Prop where
  | expression (e : Expr) : IsInitializer (.expression e)
  | declaration (ds : List Declarator) : IsInitializer (.declaration ds)

/-- The shape of statements of source text. -/
inductive Stmt.Shaped : Stmt → Prop where
  | expression {e : Expr} (h : e.Shaped .value) : Shaped (.expression e)
  | declaration {ty : Ty} {ds : List Declarator} (hty : ty.IsObject) (hne : ds ≠ [])
      (h : ∀ d ∈ ds, d.Shaped ty) : Shaped (.declaration ds)
  | compound {body : List Stmt} (h : ∀ x ∈ body, Shaped x) : Shaped (.compound body)
  | ifThen {condition : Expr} {onTrue : Stmt} (hc : condition.Shaped .test) (ht : Shaped onTrue) :
      Shaped (.ifElse condition onTrue none)
  | ifElse {condition : Expr} {onTrue onFalse : Stmt} (hc : condition.Shaped .test)
      (ht : Shaped onTrue) (hnearest : onTrue.endsOpen = false) (hf : Shaped onFalse) :
      Shaped (.ifElse condition onTrue (some onFalse))
  | whileLoop {condition : Expr} {body : Stmt} (hc : condition.Shaped .test)
      (hbody : Shaped body) : Shaped (.whileLoop condition body)
  | forLoop {init : Option Stmt} {condition step : Option Expr} {body : Stmt}
      (hinit : ∀ x ∈ init, Shaped x) (hstart : ∀ x ∈ init, x.IsInitializer)
      (hc : ∀ e ∈ condition, e.Shaped .test) (hstep : ∀ e ∈ step, e.Shaped .value)
      (hbody : Shaped body) : Shaped (.forLoop init condition step body)
  | ret {value : Option Expr} (h : ∀ e ∈ value, e.Shaped .value) : Shaped (.ret value)
  | brk : Shaped .brk
  | cont : Shaped .cont

/-- The shape of definitions of source text. -/
structure Definition.Shaped (d : Definition) : Prop where
  name : IsName d.name
  params : ∀ p ∈ d.params, IsName p.name ∧ p.ty.IsObject
  body : ∀ x ∈ d.body, x.Shaped

namespace Expr

mutual

/-- What an expression tests anywhere in it: the conditions of conditionals and the operands of `&&`
and `||`. -/
def tests : Expr → List Expr
  | .int _ | .float _ | .var _ | .preIncrement .. | .postIncrement .. => []
  | .arith _ left right | .compare _ left right => left.tests ++ right.tests
  | .logicalAnd left right | .logicalOr left right =>
    left :: left.tests ++ right :: right.tests
  | .boolCast operand => operand.tests
  | .conditional condition onTrue onFalse =>
    condition :: condition.tests ++ onTrue.tests ++ onFalse.tests
  | .assign _ value => value.tests
  | .call _ arguments => listTests arguments

def listTests : List Expr → List Expr
  | [] => []
  | e :: rest => e.tests ++ listTests rest

end

lemma listTests_eq_flatMap (es : List Expr) : listTests es = es.flatMap tests := by
  induction es with
  | nil => rfl
  | cons e es ih => rw [listTests, ih, List.flatMap_cons]

namespace Shaped

variable {place : Place} {e : Expr}

lemma isBoolean (h : e.Shaped .test) : e.isBoolean = true := by
  cases h with
  | boolean _ hbool => exact hbool
  | cast => rfl

/-- The tests of a shaped expression are boolean by their form. -/
lemma isBoolean_of_mem_tests (h : e.Shaped place) : ∀ t ∈ e.tests, t.isBoolean = true := by
  induction h with
  | int | float | var | preIncrement | postIncrement => exact List.forall_mem_nil _
  | arith _ _ _ ihl ihr | compare _ _ _ ihl ihr => exact List.forall_mem_append.mpr ⟨ihl, ihr⟩
  | logicalAnd hl hr ihl ihr | logicalOr hl hr ihl ihr =>
    exact List.forall_mem_append.mpr ⟨List.forall_mem_cons.mpr ⟨hl.isBoolean, ihl⟩,
      List.forall_mem_cons.mpr ⟨hr.isBoolean, ihr⟩⟩
  | conditional hc _ _ ihc iht ihf =>
    refine List.forall_mem_append.mpr ⟨List.forall_mem_append.mpr ⟨?_, iht⟩, ihf⟩
    exact List.forall_mem_cons.mpr ⟨hc.isBoolean, ihc⟩
  | assign _ _ ih | boolean _ _ ih | cast _ _ ih => exact ih
  | call _ _ ih =>
    intro t ht
    rw [tests, listTests_eq_flatMap] at ht
    obtain ⟨e, he, hte⟩ := List.mem_flatMap.mp ht
    exact ih e he t hte

end Shaped

end Expr

/-- What a declared variable tests in its initializer. -/
def Declarator.tests (d : Declarator) : List Expr := d.initializer.toList.flatMap Expr.tests

namespace Stmt

mutual

/-- What a statement tests anywhere in it: the conditions of its branches and loops, and the tests
in its expressions. -/
def tests : Stmt → List Expr
  | .expression e => e.tests
  | .declaration ds => ds.flatMap Declarator.tests
  | .compound body => listTests body
  | .ifElse condition onTrue none => condition :: condition.tests ++ onTrue.tests
  | .ifElse condition onTrue (some onFalse) =>
    condition :: condition.tests ++ onTrue.tests ++ onFalse.tests
  | .whileLoop condition body => condition :: condition.tests ++ body.tests
  | .forLoop none condition step body =>
    condition.toList.flatMap (fun e => e :: e.tests) ++ step.toList.flatMap Expr.tests ++ body.tests
  | .forLoop (some init) condition step body => init.tests ++
    (condition.toList.flatMap (fun e => e :: e.tests) ++ step.toList.flatMap Expr.tests ++
      body.tests)
  | .ret value => value.toList.flatMap Expr.tests
  | .brk | .cont => []

def listTests : List Stmt → List Expr
  | [] => []
  | x :: rest => x.tests ++ listTests rest

end

lemma listTests_eq_flatMap (body : List Stmt) : listTests body = body.flatMap tests := by
  induction body with
  | nil => rfl
  | cons x body ih => rw [listTests, ih, List.flatMap_cons]

/-- The tests of a shaped statement are boolean by their form. -/
lemma Shaped.isBoolean_of_mem_tests {s : Stmt} (h : s.Shaped) :
    ∀ t ∈ s.tests, t.isBoolean = true := by
  have hcondition : ∀ {e : Expr}, e.Shaped .test → ∀ t ∈ e :: e.tests, t.isBoolean = true :=
    fun h => List.forall_mem_cons.mpr ⟨h.isBoolean, h.isBoolean_of_mem_tests⟩
  have hvalue : ∀ {value : Option Expr}, (∀ e ∈ value, e.Shaped .value) →
      ∀ t ∈ value.toList.flatMap Expr.tests, t.isBoolean = true := fun h =>
    List.forall_mem_flatMap.mpr fun e he => (h e (Option.mem_toList.mp he)).isBoolean_of_mem_tests
  induction h with
  | expression h => exact h.isBoolean_of_mem_tests
  | declaration _ _ h =>
    exact List.forall_mem_flatMap.mpr fun d hd => hvalue (h d hd).initializer
  | compound _ ih =>
    rw [tests, listTests_eq_flatMap]
    exact List.forall_mem_flatMap.mpr ih
  | ifThen hc _ iht => exact List.forall_mem_append.mpr ⟨hcondition hc, iht⟩
  | ifElse hc _ _ _ iht ihf =>
    exact List.forall_mem_append.mpr ⟨List.forall_mem_append.mpr ⟨hcondition hc, iht⟩, ihf⟩
  | whileLoop hc _ ihbody => exact List.forall_mem_append.mpr ⟨hcondition hc, ihbody⟩
  | @forLoop init condition step body _ _ hc hstep _ ihinit ihbody =>
    have hheader : ∀ t ∈ condition.toList.flatMap fun e => e :: e.tests, t.isBoolean = true :=
      List.forall_mem_flatMap.mpr fun e he => hcondition (hc e (Option.mem_toList.mp he))
    have hrest := List.forall_mem_append.mpr
      ⟨List.forall_mem_append.mpr ⟨hheader, hvalue hstep⟩, ihbody⟩
    cases init with
    | none => exact hrest
    | some init => exact List.forall_mem_append.mpr ⟨ihinit init rfl, hrest⟩
  | ret h => exact hvalue h
  | brk | cont => exact List.forall_mem_nil _

end Stmt

/-- What the body of a definition tests. -/
def Definition.tests (d : Definition) : List Expr := Stmt.listTests d.body

/-- The tests of a shaped definition are boolean by their form. -/
lemma Definition.Shaped.isBoolean_of_mem_tests {d : Definition} (h : d.Shaped) :
    ∀ t ∈ d.tests, t.isBoolean = true := by
  rw [Definition.tests, Stmt.listTests_eq_flatMap]
  exact List.forall_mem_flatMap.mpr fun x hx => (h.body x hx).isBoolean_of_mem_tests

lemma Lexeme.isName {name : String} (h : Lexeme name.toList .identifier) : IsName name := by
  obtain ⟨hne, hword, hkeyword⟩ := h.identifier_parts
  refine ⟨hne, fun c hc => ?_, ?_⟩
  · simpa [Cursor.isWordChar] using hword c hc
  · rintro k rfl
    exact hkeyword k rfl

namespace Grammar

variable {ts : List Token}

lemma Test.shaped {e condition : Expr} (h : Test e condition) (he : e.Shaped .value) :
    condition.Shaped .test := by
  cases h with
  | kept h => exact .boolean he h
  | cast h => exact .cast he h

lemma Joined.shaped {left right e : Expr} {tier : Tier} {s : Symbol}
    (h : Joined left right tier s e) (hl : left.Shaped .value) (hr : right.Shaped .value) :
    e.Shaped .value := by
  cases h with
  | mul | div | rem | add | sub => exact .arith _ hl hr
  | less | lessEqual | greater | greaterEqual | equal | notEqual => exact .compare _ hl hr
  | and hlt hrt => exact .logicalAnd (hlt.shaped hl) (hrt.shaped hr)
  | or hlt hrt => exact .logicalOr (hlt.shaped hl) (hrt.shaped hr)

lemma Stored.shaped {target : String} {rhs value : Expr} {s : Symbol}
    (h : Stored target rhs s value) (htarget : IsName target) (hrhs : rhs.Shaped .value) :
    value.Shaped .value := by
  cases h with
  | plain => exact hrhs
  | add | sub | mul | div => exact .arith _ (.var htarget) hrhs

mutual

/-- The derivations of expressions give trees that are shaped as values: a cast is put around an
operand or a condition only. -/
theorem Derives.shaped {level : Level} {ts : List Token} {e : Expr} :
    Derives level ts e → Lexed ts → e.Shaped .value
  | .int _ _, _ => .int (Int.natCast_nonneg _)
  | .float _ _, _ => .float _
  | @Derives.var t ht, hlexed => .var (ht ▸ (lexed_cons.mp hlexed).1).isName
  | .call ht _ harguments _, hlexed => by
    simp only [lexed_cons, lexed_append, ht] at hlexed
    exact .call hlexed.1.isName (shapedArguments harguments hlexed.2.2.1)
  | .parenthesized _ he _, hlexed => by
    simp only [lexed_cons, lexed_append] at hlexed
    exact he.shaped hlexed.2.1
  | .primary h, hlexed => h.shaped hlexed
  | .preIncrement _ hs ht, hlexed => by
    simp only [lexed_cons, ht] at hlexed
    exact .preIncrement hlexed.2.1.isName hs.delta_eq
  | .postIncrement ht _ hs, hlexed => by
    simp only [lexed_cons, ht] at hlexed
    exact .postIncrement hlexed.1.isName hs.delta_eq
  | .operand h, hlexed => h.shaped hlexed
  | .binary hleft _ hright hs, hlexed => by
    simp only [lexed_cons, lexed_append] at hlexed
    exact hs.shaped (hleft.shaped hlexed.1) (hright.shaped hlexed.2.2)
  | .disjunction h, hlexed => h.shaped hlexed
  | .conditional he hcondition _ htrue _ hfalse, hlexed => by
    simp only [lexed_cons, lexed_append] at hlexed
    exact .conditional (hcondition.shaped (he.shaped hlexed.1)) (htrue.shaped hlexed.2.2.1)
      (hfalse.shaped hlexed.2.2.2.2)
  | .unassigned h, hlexed => h.shaped hlexed
  | .assignment ht _ hs h, hlexed => by
    simp only [lexed_cons, ht] at hlexed
    have htarget := hlexed.1.isName
    exact .assign htarget (hs.shaped htarget (h.shaped hlexed.2.2))

theorem shapedArguments {ts : List Token} {arguments : Option (List Expr)} :
    Optional (CommaSeparated (Derives .expression)) ts arguments → Lexed ts →
      ∀ e ∈ arguments.getD [], e.Shaped .value
  | .none, _ => by simp
  | .some h, hlexed => shapedAll h hlexed

theorem shapedAll {ts : List Token} {es : List Expr} :
    CommaSeparated (Derives .expression) ts es → Lexed ts → ∀ e ∈ es, e.Shaped .value
  | .single h, hlexed => List.forall_mem_singleton.mpr (h.shaped hlexed)
  | .cons h _ hrest, hlexed => by
    simp only [lexed_cons, lexed_append] at hlexed
    exact List.forall_mem_cons.mpr ⟨h.shaped hlexed.1, shapedAll hrest hlexed.2.2⟩

end

/-- The type that a keyword names is one that variables may have, unless it is `void`. -/
lemma isObject_of_toTy? {kind : TokenKind} {ty : Ty} (h : kind.toTy? = some ty)
    (hvoid : ty ≠ .void) : ty.IsObject :=
  ⟨hvoid, TokenKind.ne_bool_of_toTy? h⟩

lemma Declares.shaped {ty : Ty} {d : Declarator} (h : Declares ty ts d) (hlexed : Lexed ts) :
    d.Shaped ty ∧ ty ≠ .void := by
  cases h with
  | plain ht hty =>
    simp only [lexed_cons, ht] at hlexed
    exact ⟨⟨hlexed.1.isName, rfl, by simp⟩, hty⟩
  | initialized ht hty _ h =>
    simp only [lexed_cons, ht] at hlexed
    exact ⟨⟨hlexed.1.isName, rfl, by simpa using h.shaped hlexed.2.2⟩, hty⟩

/-- What holds of each item of scanned tokens holds of all items separated by commas. -/
lemma CommaSeparated.forall_of_lexed {α : Type} {item : List Token → α → Prop} {p : α → Prop}
    {as : List α} (h : CommaSeparated item ts as) (hlexed : Lexed ts)
    (hitem : ∀ us a, item us a → Lexed us → p a) : as ≠ [] ∧ ∀ a ∈ as, p a := by
  induction h with
  | single h => exact ⟨by simp, List.forall_mem_singleton.mpr (hitem _ _ h hlexed)⟩
  | cons h _ _ ih =>
    simp only [lexed_cons, lexed_append] at hlexed
    exact ⟨by simp, List.forall_mem_cons.mpr ⟨hitem _ _ h hlexed.1, (ih hlexed.2.2).2⟩⟩

lemma Declaration.shaped {s : Stmt} (h : Declaration ts s) (hlexed : Lexed ts) : s.Shaped := by
  obtain ⟨ht, hds, -⟩ := h
  simp only [lexed_cons, lexed_append] at hlexed
  obtain ⟨hne, hshaped⟩ := hds.forall_of_lexed hlexed.2.1 fun _ _ h hlexed => h.shaped hlexed
  obtain ⟨d, hd⟩ := List.exists_mem_of_ne_nil _ hne
  exact .declaration (isObject_of_toTy? ht (hshaped d hd).2) hne fun d hd => (hshaped d hd).1

lemma ExpressionStatement.shaped {s : Stmt} (h : ExpressionStatement ts s) (hlexed : Lexed ts) :
    s.Shaped := by
  obtain ⟨h, -⟩ := h
  exact .expression (h.shaped (lexed_append.mp hlexed).1)

lemma LoopStart.shaped {init : Option Stmt} (h : LoopStart ts init) (hlexed : Lexed ts) :
    (∀ x ∈ init, x.Shaped) ∧ ∀ x ∈ init, x.IsInitializer := by
  cases h with
  | empty => simp
  | declaration h =>
    have hshaped := h.shaped hlexed
    obtain ⟨-, -, -⟩ := h
    exact ⟨by simpa using hshaped, by simpa using .declaration _⟩
  | expression h =>
    have hshaped := h.shaped hlexed
    obtain ⟨-, -⟩ := h
    exact ⟨by simpa using hshaped, by simpa using .expression _⟩

lemma Tested.shaped {e : Expr} (h : Tested ts e) (hlexed : Lexed ts) : e.Shaped .test := by
  obtain ⟨h, hcondition⟩ := h
  exact hcondition.shaped (h.shaped hlexed)

lemma Condition.shaped {e : Expr} (h : Condition ts e) (hlexed : Lexed ts) : e.Shaped .test := by
  obtain ⟨-, h, -⟩ := h
  simp only [lexed_cons, lexed_append] at hlexed
  exact h.shaped hlexed.2.1

mutual

/-- The derivations of statements in which every `else` belongs to the nearest `if` give shaped
trees. -/
theorem Statement.shaped {ts : List Token} {s : Stmt} : Statement true ts s → Lexed ts → s.Shaped
  | .declaration h, hlexed => h.shaped hlexed
  | .expression h, hlexed => h.shaped hlexed
  | .block _ hbody _, hlexed => by
    simp only [lexed_cons, lexed_append] at hlexed
    exact .compound (shapedBody hbody hlexed.2.1)
  | .ifThen _ hcondition htrue, hlexed => by
    simp only [lexed_cons, lexed_append] at hlexed
    exact .ifThen (hcondition.shaped hlexed.2.1) (htrue.shaped hlexed.2.2)
  | .ifElse _ hcondition htrue _ hnearest hfalse, hlexed => by
    simp only [lexed_cons, lexed_append] at hlexed
    exact .ifElse (hcondition.shaped hlexed.2.1) (htrue.shaped hlexed.2.2.1) (hnearest rfl)
      (hfalse.shaped hlexed.2.2.2.2)
  | .whileLoop _ hcondition hbody, hlexed => by
    simp only [lexed_cons, lexed_append] at hlexed
    exact .whileLoop (hcondition.shaped hlexed.2.1) (hbody.shaped hlexed.2.2)
  | .forLoop _ _ hinit hcondition _ hstep _ hbody, hlexed => by
    simp only [lexed_cons, lexed_append] at hlexed
    obtain ⟨-, -, hinitLexed, hconditionLexed, -, hstepLexed, -, hbodyLexed⟩ := hlexed
    obtain ⟨hshaped, hstart⟩ := hinit.shaped hinitLexed
    exact .forLoop hshaped hstart
      (hcondition.forall_of_item fun _ h => h.shaped hconditionLexed)
      (hstep.forall_of_item fun _ h => h.shaped hstepLexed) (hbody.shaped hbodyLexed)
  | .ret _ hvalue _, hlexed => by
    simp only [lexed_cons, lexed_append] at hlexed
    exact .ret (hvalue.forall_of_item fun _ h => h.shaped hlexed.2.1)
  | .brk _ _, _ => .brk
  | .cont _ _, _ => .cont

theorem shapedBody {ts : List Token} {body : List Stmt} :
    Sequence (Statement true) ts body → Lexed ts → ∀ x ∈ body, x.Shaped
  | .nil, _ => by simp
  | .cons h hrest, hlexed => by
    rw [lexed_append] at hlexed
    exact List.forall_mem_cons.mpr ⟨h.shaped hlexed.1, shapedBody hrest hlexed.2⟩

end

lemma Parameter.shaped {p : Param} (h : Parameter ts p) (hlexed : Lexed ts) :
    IsName p.name ∧ p.ty.IsObject := by
  obtain ⟨ht, hty, hname⟩ := h
  simp only [lexed_cons, hname] at hlexed
  exact ⟨hlexed.2.1.isName, isObject_of_toTy? ht hty⟩

lemma Defines.shaped {d : Definition} (h : Defines true ts d) (hlexed : Lexed ts) : d.Shaped := by
  obtain ⟨-, hname, -, hparams, -, -, hbody, -⟩ := h
  simp only [lexed_cons, lexed_append, hname] at hlexed
  obtain ⟨-, hnameLexed, -, hparamsLexed, -, -, hbodyLexed, -⟩ := hlexed
  refine ⟨hnameLexed.isName, ?_, shapedBody hbody hbodyLexed⟩
  cases hparams with
  | none => simp
  | some h => exact (h.forall_of_lexed hparamsLexed fun _ _ h hlexed => h.shaped hlexed).2

lemma Program.shaped {ds : List Definition} (h : Program true ts ds) (hlexed : Lexed ts) :
    ∀ d ∈ ds, d.Shaped := by
  induction h with
  | nil => simp
  | cons h _ ih =>
    rw [lexed_append] at hlexed
    exact List.forall_mem_cons.mpr ⟨h.shaped hlexed.1, ih hlexed.2⟩

end Grammar

/-- A source text is parsed to shaped trees, in which every test is boolean by its form. -/
theorem parseSource_shaped {source : String} {ds : List Definition}
    (h : parseSource source = .ok ds) :
    ∀ d ∈ ds, d.Shaped ∧ ∀ t ∈ d.tests, t.isBoolean = true := by
  have hlexed : Lexed (sourceTokens source) := (scans_tokenize source).lexed_dropLast
  have hprogram : Grammar.Program true (sourceTokens source) ds := program_of_parseSource h
  intro d hd
  have hshaped := hprogram.shaped hlexed d hd
  exact ⟨hshaped, hshaped.isBoolean_of_mem_tests⟩

/-- Two variables of one type in a loop header, a cast beside a comparison, and an `else` behind two
`if`s. -/
theorem nested_branches_shaped :
    ∃ d, parseSource ("void g(int a) \x7b for (int b = 0, c; a; c--) " ++
      "if (a || b < 2) if (a) g(b); else break; \x7d") = .ok [d] ∧ d.Shaped ∧
      d.tests = [.boolCast (.var "a"),
        .logicalOr (.boolCast (.var "a")) (.compare .less (.var "b") (.int 2)),
        .boolCast (.var "a"), .compare .less (.var "b") (.int 2), .boolCast (.var "a")] ∧
      ∀ t ∈ d.tests, t.isBoolean = true := by
  have hparse : parseSource ("void g(int a) \x7b for (int b = 0, c; a; c--) " ++
      "if (a || b < 2) if (a) g(b); else break; \x7d") = .ok
      [⟨"g", .void, [⟨"a", .i32⟩], [.forLoop
        (some (.declaration [⟨"b", .i32, some (.int 0)⟩, ⟨"c", .i32, none⟩]))
        (some (.boolCast (.var "a"))) (some (.postIncrement "c" (-1)))
        (.ifElse (.logicalOr (.boolCast (.var "a")) (.compare .less (.var "b") (.int 2)))
          (.ifElse (.boolCast (.var "a")) (.expression (.call "g" [.var "b"])) (some .brk))
          none)]⟩] := by
    cbv
  obtain ⟨hshaped, htests⟩ := parseSource_shaped hparse _ List.mem_cons_self
  exact ⟨_, hparse, hshaped, rfl, htests⟩

end MiniC
