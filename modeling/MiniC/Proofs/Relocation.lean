import MiniC.Proofs.ProgramGrammar
import MiniC.Proofs.Staging

/-!
# Places of tokens

A parser decides by the kinds of tokens and takes names and values from their lexemes. The places of
tokens go into errors and nowhere else: on tokens that are moved to other places, every parser gives
the same trees, and the same errors at the places moved in the same way.
-/

namespace MiniC

def Token.relocate (f : Location → Location) (t : Token) : Token :=
  { t with location := f t.location }

def TokenStream.relocate (f : Location → Location) (s : TokenStream) : TokenStream :=
  ⟨s.pending.map (Token.relocate f), s.eof.relocate f⟩

def ParseError.relocate (f : Location → Location) : ParseError → ParseError
  | .unexpectedToken expected found l => .unexpectedToken expected found (f l)
  | .unexpectedEof expected l => .unexpectedEof expected (f l)
  | .invalidLiteral lexeme l => .invalidLiteral lexeme (f l)
  | .invalidAssignmentTarget found l => .invalidAssignmentTarget found (f l)
  | .voidVariable name l => .voidVariable name (f l)

/-- The error at another place. Only errors of parsing have a place. -/
def CompileError.relocate (f : Location → Location) : CompileError → CompileError
  | .parse cause => .parse (cause.relocate f)
  | .scope cause => .scope cause
  | .lowering cause => .lowering cause

namespace TokenStream

variable {f : Location → Location}

@[simp] lemma current_relocate (s : TokenStream) :
    (s.relocate f).current = s.current.relocate f := by
  obtain ⟨pending, eof⟩ := s
  cases pending <;> rfl

@[simp] lemma advance_relocate (s : TokenStream) :
    (s.relocate f).advance = s.advance.relocate f := by
  obtain ⟨pending, eof⟩ := s
  cases pending <;> rfl

@[simp] lemma next_relocate (s : TokenStream) : (s.relocate f).next = s.next.relocate f := by
  have hnext : ∀ s : TokenStream, s.next = s.advance.current := fun s => rfl
  rw [hnext, hnext, advance_relocate, current_relocate]

@[simp] lemma length_relocate (s : TokenStream) :
    (s.relocate f).pending.length = s.pending.length := List.length_map _

@[simp] lemma atEnd_relocate (s : TokenStream) : (s.relocate f).atEnd = s.atEnd := by
  obtain ⟨pending, eof⟩ := s
  cases pending <;> rfl

lemma ofTokens_concat (ts : List Token) (eof : Token) : ofTokens (ts ++ [eof]) = ⟨ts, eof⟩ := by
  simp [ofTokens]

lemma relocate_ofTokens {ts : List Token} (h : ts ≠ []) :
    (ofTokens ts).relocate f = ofTokens (ts.map (Token.relocate f)) := by
  obtain ⟨init, eof, rfl⟩ : ∃ init eof, ts = init ++ [eof] :=
    ⟨_, _, (List.dropLast_append_getLast h).symm⟩
  rw [ofTokens_concat, List.map_append, List.map_singleton, ofTokens_concat]
  rfl

end TokenStream

namespace Parser

variable {α β : Type} {f : Location → Location}

/-- The outcome on moved tokens: the result is changed by `r`, an error is moved. -/
def relocated (f : Location → Location) (r : α → α) :
    EStateM.Result ParseError TokenStream α → EStateM.Result ParseError TokenStream α
  | .ok a s => .ok (r a) (s.relocate f)
  | .error e s => .error (e.relocate f) (s.relocate f)

/-- Whether `y` does on moved tokens what `x` does, up to places. Results are changed by `r`, which
does nothing unless they are tokens. -/
def Moves (f : Location → Location) (r : α → α) (x y : Parser α) : Prop :=
  ∀ s, y (s.relocate f) = relocated f r (x s)

namespace Moves

variable {r : α → α} {q : β → β} {x y x' y' : Parser α}

lemma pure (a : α) : Moves f r (pure a) (pure (r a)) := fun _ => rfl

lemma throw (e : ParseError) : Moves f r (throw e) (throw (e.relocate f)) := fun _ => rfl

lemma bind {g h : α → Parser β} (hx : Moves f r x y) (hg : ∀ a, Moves f q (g a) (h (r a))) :
    Moves f q (x >>= g) (y >>= h) := by
  intro s
  rw [bind_run, bind_run, hx s]
  cases x s with
  | ok a s' => exact hg a s'
  | error e s' => rfl

lemma ite {p : Prop} [Decidable p] (h : Moves f r x y) (h' : Moves f r x' y') :
    Moves f r (if p then x else x') (if p then y else y') := by
  split
  · exact h
  · exact h'

lemma peek : Moves f (Token.relocate f) peek peek := by
  intro s
  change EStateM.Result.ok (s.relocate f).current (s.relocate f) = _
  rw [TokenStream.current_relocate]
  rfl

lemma peekNext : Moves f (Token.relocate f) peekNext peekNext := by
  intro s
  change EStateM.Result.ok (s.relocate f).next (s.relocate f) = _
  rw [TokenStream.next_relocate]
  rfl

lemma advance : Moves f (Token.relocate f) advance advance := by
  intro s
  change EStateM.Result.ok (s.relocate f).current (s.relocate f).advance = _
  rw [TokenStream.current_relocate, TokenStream.advance_relocate]
  rfl

lemma remaining : Moves f id remaining remaining := by
  intro s
  change EStateM.Result.ok (s.relocate f).pending.length (s.relocate f) = _
  rw [TokenStream.length_relocate]
  rfl

lemma unexpected (expected : String) : Moves f r (unexpected expected) (unexpected expected) :=
  peek.bind fun _ => ite (throw _) (throw _)

lemma expect (kind : TokenKind) (context : String) :
    Moves f (Token.relocate f) (expect kind context) (expect kind context) :=
  peek.bind fun _ => ite advance (unexpected _)

lemma accept (kind : TokenKind) : Moves f id (accept kind) (accept kind) :=
  peek.bind fun _ => ite (advance.bind fun _ => pure true) (pure false)

lemma commaSeparatedFrom {item : Parser α} (hitem : Moves f id item item) (n : Nat) :
    Moves f id (commaSeparatedFrom item n) (commaSeparatedFrom item n) := by
  induction n with
  | zero => exact hitem.bind fun a => pure [a]
  | succ n ih =>
    refine hitem.bind fun a => (accept _).bind fun b => ite ?_ (pure [a])
    exact ih.bind fun as => pure (a :: as)

lemma commaSeparated {item : Parser α} (hitem : Moves f id item item) :
    Moves f id (commaSeparated item) (commaSeparated item) :=
  remaining.bind fun n => commaSeparatedFrom hitem n

lemma itemsUnless {item : Parser α} (stop : TokenKind) (hitem : Moves f id item item) :
    Moves f id (itemsUnless stop item) (itemsUnless stop item) :=
  peek.bind fun _ => ite (pure []) (commaSeparated hitem)

lemma typeName (context : String) : Moves f id (typeName context) (typeName context) := by
  refine peek.bind fun t => ?_
  have hkind : (t.relocate f).kind = t.kind := rfl
  simp only [hkind]
  split
  · exact advance.bind fun _ => pure _
  · exact unexpected _

lemma variableName (ty : Ty) (context : String) :
    Moves f id (variableName ty context) (variableName ty context) :=
  (expect _ _).bind fun t => ite (throw _) (pure t.lexeme)

section

variable {nested nestedConditional : Parser Expr}

lemma call (h : Moves f id nested nested) : Moves f id (call nested) (call nested) := by
  rw [call_eq]
  refine advance.bind fun callee => (expect _ _).bind fun _ => (itemsUnless _ h).bind fun es => ?_
  exact (expect _ _).bind fun _ => pure _

lemma primaryWith (h : Moves f id nested nested) :
    Moves f id (primaryWith nested) (primaryWith nested) := by
  refine peek.bind fun t => ?_
  have hkind : (t.relocate f).kind = t.kind := rfl
  simp only [hkind]
  split
  · refine advance.bind fun t => ?_
    have hlexeme : (t.relocate f).lexeme = t.lexeme := rfl
    simp only [hlexeme]
    split
    · exact pure _
    · exact throw _
  · exact advance.bind fun t => pure _
  · exact peekNext.bind fun _ => ite (call h) (advance.bind fun t => pure _)
  · exact advance.bind fun _ => h.bind fun e => (expect _ _).bind fun _ => pure e
  · exact unexpected _

lemma incrementWith (h : Moves f id nested nested) :
    Moves f id (incrementWith nested) (incrementWith nested) := by
  refine peek.bind fun t => ?_
  have hkind : (t.relocate f).kind = t.kind := rfl
  simp only [hkind]
  split
  · exact advance.bind fun _ => (expect _ _).bind fun name => pure _
  · refine peekNext.bind fun u => ?_
    have hnext : (u.relocate f).kind = u.kind := rfl
    simp only [hnext]
    split
    · exact advance.bind fun _ => advance.bind fun _ => pure _
    · exact primaryWith h

lemma chainFrom {operator? : TokenKind → Option (Expr → Expr → Expr)} {operand : Parser Expr}
    (h : Moves f id operand operand) (n : Nat) (left : Expr) :
    Moves f id (chainFrom operator? operand n left) (chainFrom operator? operand n left) := by
  induction n generalizing left with
  | zero => exact pure left
  | succ n ih =>
    refine peek.bind fun t => ?_
    have hkind : (t.relocate f).kind = t.kind := rfl
    simp only [hkind]
    split
    · exact pure left
    · exact advance.bind fun _ => h.bind fun right => ih _

lemma chain {level : String} {operator? : TokenKind → Option (Expr → Expr → Expr)}
    {operand : Parser Expr} (h : Moves f id operand operand) :
    Moves f id (chain level operator? operand) (chain level operator? operand) := by
  refine h.bind fun left => remaining.bind fun n => (chainFrom h n left).bind fun e => ?_
  have hend : Moves f id (expectOperandEnd level) (expectOperandEnd level) :=
    peek.bind fun t => ite (pure ()) (unexpected _)
  exact hend.bind fun _ => pure e

lemma conditionalWith (h : Moves f id nested nested)
    (h' : Moves f id nestedConditional nestedConditional) :
    Moves f id (conditionalWith nested nestedConditional)
      (conditionalWith nested nestedConditional) := by
  have hor : Moves f id (logicalOrWith nested) (logicalOrWith nested) :=
    chain (chain (chain (chain (chain (incrementWith h)))))
  refine hor.bind fun condition => (accept _).bind fun b => ite ?_ (pure condition)
  exact h.bind fun onTrue => (expect _ _).bind fun _ => h'.bind fun onFalse => pure _

lemma assignmentWith (h : Moves f id nested nested)
    (h' : Moves f id nestedConditional nestedConditional) :
    Moves f id (assignmentWith nested nestedConditional)
      (assignmentWith nested nestedConditional) := by
  refine peek.bind fun t => peekNext.bind fun u => ite ?_ ?_
  · exact advance.bind fun target => advance.bind fun operator => h.bind fun rhs => pure _
  · exact (conditionalWith h h').bind fun e => peek.bind fun v => ite (throw _) (pure e)

/-- Places do not matter for expressions. -/
lemma expressionIn (n : Nat) : Moves f id (expressionIn n) (expressionIn n) ∧
    Moves f id (conditionalIn n) (conditionalIn n) := by
  induction n with
  | zero => exact ⟨unexpected _, unexpected _⟩
  | succ n ih => exact ⟨assignmentWith ih.1 ih.2, conditionalWith ih.1 ih.2⟩

lemma expression : Moves f id expression expression := remaining.bind fun n => (expressionIn n).1

end

section

variable {nested : Parser Stmt}

lemma declaration : Moves f id declaration declaration := by
  have hdeclarator : ∀ ty, Moves f id (declarator ty) (declarator ty) := fun ty =>
    (variableName ty _).bind fun name => (accept _).bind fun b =>
      ite (expression.bind fun e => pure _) (pure _)
  refine (typeName _).bind fun ty => (commaSeparated (hdeclarator ty)).bind fun ds => ?_
  exact (expect _ _).bind fun _ => pure _

lemma expressionStatement : Moves f id expressionStatement expressionStatement :=
  expression.bind fun _ => (expect _ _).bind fun _ => pure _

lemma statementsFrom (h : Moves f id nested nested) (n : Nat) :
    Moves f id (statementsFrom nested n) (statementsFrom nested n) := by
  induction n with
  | zero => exact unexpected _
  | succ n ih =>
    refine peek.bind fun t => ite (pure []) (ite (unexpected _) ?_)
    exact h.bind fun x => ih.bind fun rest => pure (x :: rest)

lemma blockWith (h : Moves f id nested nested) :
    Moves f id (blockWith nested) (blockWith nested) := by
  refine (expect _ _).bind fun _ => remaining.bind fun n => (statementsFrom h n).bind fun body => ?_
  exact (expect _ _).bind fun _ => pure body

lemma parenthesizedCondition (context : String) :
    Moves f id (parenthesizedCondition context) (parenthesizedCondition context) :=
  (expect _ _).bind fun _ => expression.bind fun _ => (expect _ _).bind fun _ => pure _

lemma ifStatement (h : Moves f id nested nested) :
    Moves f id (ifStatement nested) (ifStatement nested) := by
  refine advance.bind fun _ => (parenthesizedCondition _).bind fun condition => ?_
  refine h.bind fun onTrue => (accept _).bind fun b => ite ?_ (pure _)
  exact h.bind fun onFalse => pure _

lemma whileStatement (h : Moves f id nested nested) :
    Moves f id (whileStatement nested) (whileStatement nested) :=
  advance.bind fun _ => (parenthesizedCondition _).bind fun _ => h.bind fun _ => pure _

lemma forInit : Moves f id forInit forInit := by
  refine (accept _).bind fun b => ite (pure none) (peek.bind fun t => ite ?_ ?_)
  · exact declaration.bind fun x => pure (some x)
  · exact expressionStatement.bind fun x => pure (some x)

lemma expressionUnless (stop : TokenKind) :
    Moves f id (expressionUnless stop) (expressionUnless stop) :=
  peek.bind fun _ => ite (pure none) (expression.bind fun e => pure (some e))

lemma forStatement (h : Moves f id nested nested) :
    Moves f id (forStatement nested) (forStatement nested) := by
  refine advance.bind fun _ => (expect _ _).bind fun _ => forInit.bind fun init => ?_
  refine (expressionUnless _).bind fun condition => (expect _ _).bind fun _ => ?_
  refine (expressionUnless _).bind fun step => (expect _ _).bind fun _ => ?_
  exact h.bind fun body => pure _

lemma returnStatement : Moves f id returnStatement returnStatement := by
  refine advance.bind fun _ => (accept _).bind fun b => ite (pure _) ?_
  exact expression.bind fun e => (expect _ _).bind fun _ => pure _

lemma keywordStatement (x : Stmt) (context : String) :
    Moves f id (keywordStatement x context) (keywordStatement x context) :=
  advance.bind fun _ => (expect _ _).bind fun _ => pure x

lemma statementWith (h : Moves f id nested nested) :
    Moves f id (statementWith nested) (statementWith nested) := by
  refine peek.bind fun t => ite declaration ?_
  have hkind : (t.relocate f).kind = t.kind := rfl
  simp only [hkind]
  split
  · exact (blockWith h).bind fun body => pure _
  · exact ifStatement h
  · exact whileStatement h
  · exact forStatement h
  · exact returnStatement
  · exact keywordStatement _ _
  · exact keywordStatement _ _
  · exact expressionStatement

/-- Places do not matter for statements. -/
lemma statementIn (n : Nat) : Moves f id (statementIn n) (statementIn n) := by
  induction n with
  | zero => exact unexpected _
  | succ n ih => exact statementWith ih

lemma block : Moves f id block block := remaining.bind fun n => blockWith (statementIn n)

end

lemma paramList : Moves f id paramList paramList := by
  have hparam : Moves f id param param :=
    (typeName _).bind fun ty => (variableName ty _).bind fun name => pure _
  rw [paramList_eq]
  refine (expect _ _).bind fun _ => (itemsUnless _ hparam).bind fun params => ?_
  exact (expect _ _).bind fun _ => pure params

/-- Places do not matter for definitions. -/
lemma definition : Moves f id definition definition := by
  refine (typeName _).bind fun returnTy => (expect _ _).bind fun name => ?_
  exact paramList.bind fun params => block.bind fun body => pure _

end Moves

/-- Moving all tokens of a stream moves the error that stops the parser and changes nothing else. -/
lemma Parses.relocate {s : TokenStream} {ds : List Definition} {stop : Option ParseError}
    (h : Parses s ds stop) (f : Location → Location) :
    Parses (s.relocate f) ds (stop.map (ParseError.relocate f)) := by
  have hend : ∀ {s : TokenStream} {b : Bool}, s.atEnd = b → (s.relocate f).atEnd = b :=
    fun {s} _ h => (s.atEnd_relocate).trans h
  induction h with
  | done hdone => exact .done (hend hdone)
  | @failed s s' e hmore he =>
    have hmoved := Moves.definition (f := f) s
    rw [he] at hmoved
    exact .failed (hend hmore) hmoved
  | @next s s' d ds stop hmore hd _ ih =>
    have hmoved := Moves.definition (f := f) s
    rw [hd] at hmoved
    exact .next (hend hmore) hmoved ih

end Parser

/-- Texts with the same tokens up to places have the same code or the same error up to its place. -/
lemma Compiler.compile_relocate {source text : String} {f : Location → Location}
    (h : (TokenStream.ofText text).relocate f = (TokenStream.ofText source).relocate f)
    (c : Compiler) : (c.compile text).result.mapError (CompileError.relocate f) =
      (c.compile source).result.mapError (CompileError.relocate f) := by
  obtain ⟨ds, stop, hparses⟩ := Parser.exists_parses (eof_ofText source)
  obtain ⟨ds', stop', hparses'⟩ := Parser.exists_parses (eof_ofText text)
  obtain ⟨rfl, hstop⟩ := (hparses.relocate f).unique (h ▸ hparses'.relocate f)
  have hrun := compile_outcome hparses c
  have hrun' := compile_outcome hparses' c
  rw [staged_run] at hrun hrun'
  cases hmap : ds.mapM lowering c with
  | error e c' =>
    rw [hmap] at hrun hrun'
    rw [(outcome_error.mp hrun).1, (outcome_error.mp hrun').1]
  | ok segs c' =>
    rw [hmap] at hrun hrun'
    cases stop with
    | none =>
      obtain rfl : stop' = none := by simpa using hstop
      rw [(outcome_ok.mp hrun).1, (outcome_ok.mp hrun').1]
    | some e =>
      obtain ⟨e', rfl, he⟩ : ∃ e', stop' = some e' ∧ e'.relocate f = e.relocate f := by
        simpa using hstop.symm
      rw [(outcome_error.mp hrun).1, (outcome_error.mp hrun').1]
      exact congrArg (fun e => Except.error (CompileError.parse e)) he

end MiniC
