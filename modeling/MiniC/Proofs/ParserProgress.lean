import MiniC.Proofs.ProgramGrammar
import MiniC.Proofs.Staging

/-!
# Progress of parsers

Every parser goes on in its stream, also when it fails, and takes a token before it calls a parser
for the phrases inside. `Agree n k x y` says both at once: on streams of less than `n` tokens, `x`
and `y` have the same outcome and take `k` tokens or more if they succeed. If two parsers for the
phrases inside agree below `n`, then the parsers over them agree below `n + 1`.
-/

namespace MiniC

namespace Parser

variable {α β : Type}

/-- Whether a run from `s` went on in the same tokens, by `k` of them or more if it succeeded. -/
def Advances (k : Nat) (s : TokenStream) : EStateM.Result ParseError TokenStream α → Prop
  | .ok _ s' => s'.eof = s.eof ∧ s'.pending <:+ s.pending ∧
      s'.pending.length + k ≤ s.pending.length
  | .error _ s' => s'.eof = s.eof ∧ s'.pending <:+ s.pending

/-- Whether two parsers have the same outcome at `s`, behind `k` tokens or more if they succeed. -/
def AgreeAt (k : Nat) (s : TokenStream) (x y : Parser α) : Prop := x s = y s ∧ Advances k s (x s)

/-- Whether two parsers agree at every stream of less than `n` tokens. -/
def Agree (n k : Nat) (x y : Parser α) : Prop :=
  ∀ s, s.eof.kind = .endOfFile → s.pending.length < n → AgreeAt k s x y

namespace AgreeAt

variable {n j k : Nat} {s : TokenStream} {x y : Parser α} {f g : α → Parser β}

lemma peek {f g : Token → Parser α} (h : AgreeAt k s (f s.current) (g s.current)) :
    AgreeAt k s (peek >>= f) (peek >>= g) := h

lemma peekNext {f g : Token → Parser α} (h : AgreeAt k s (f s.next) (g s.next)) :
    AgreeAt k s (peekNext >>= f) (peekNext >>= g) := h

/-- Every token but the end of the file can be taken. -/
lemma advance (hs : s.current.kind ≠ .endOfFile) (heof : s.eof.kind = .endOfFile) :
    AgreeAt 1 s advance advance := by
  obtain ⟨pending, eof⟩ := s
  cases pending with
  | nil => exact absurd heof hs
  | cons t rest => exact ⟨rfl, rfl, List.suffix_cons t rest, Nat.le_refl _⟩

/-- A step goes on where the step before it succeeded, in front of fewer tokens. -/
lemma bind (hx : AgreeAt j s x y) (heof : s.eof.kind = .endOfFile) (hs : s.pending.length < n)
    (hf : ∀ a, Agree (n - j) (k - j) (f a) (g a)) : AgreeAt k s (x >>= f) (y >>= g) := by
  obtain ⟨hsame, hadvances⟩ := hx
  rw [AgreeAt, bind_run, bind_run, ← hsame]
  cases hrun : x s with
  | error e s' =>
    rw [hrun] at hadvances
    exact ⟨rfl, hadvances⟩
  | ok a s' =>
    rw [hrun] at hadvances
    obtain ⟨heof', hsuffix, hlength⟩ := hadvances
    obtain ⟨hsame', hadvances'⟩ := hf a s' (heof' ▸ heof) (by omega)
    refine ⟨hsame', ?_⟩
    dsimp only
    cases hrest : f a s' with
    | error e s'' =>
      rw [hrest] at hadvances'
      exact ⟨hadvances'.1.trans heof', hadvances'.2.trans hsuffix⟩
    | ok b s'' =>
      rw [hrest] at hadvances'
      obtain ⟨heof'', hsuffix', hlength'⟩ := hadvances'
      exact ⟨heof''.trans heof', hsuffix'.trans hsuffix, by omega⟩

end AgreeAt

namespace Agree

variable {n j k : Nat} {x y x' y' : Parser α} {f g : α → Parser β}

lemma pure (a : α) : Agree n 0 (pure a) (pure a) := fun _ _ _ =>
  ⟨rfl, rfl, List.suffix_refl _, Nat.le_refl _⟩

lemma throw (e : ParseError) : Agree n k (throw e : Parser α) (throw e) := fun _ _ _ =>
  ⟨rfl, rfl, List.suffix_refl _⟩

lemma mono {m : Nat} (h : Agree n k x y) (hm : m ≤ n) (hj : j ≤ k) : Agree m j x y := by
  intro s heof hs
  obtain ⟨hsame, hadvances⟩ := h s heof (Nat.lt_of_lt_of_le hs hm)
  refine ⟨hsame, ?_⟩
  cases hrun : x s with
  | error e s' => rwa [hrun] at hadvances
  | ok a s' =>
    rw [hrun] at hadvances
    exact ⟨hadvances.1, hadvances.2.1, by have := hadvances.2.2; omega⟩

lemma bind (hx : Agree n j x y) (hf : ∀ a, Agree (n - j) (k - j) (f a) (g a)) :
    Agree n k (x >>= f) (y >>= g) := fun s heof hs => (hx s heof hs).bind heof hs hf

lemma ite {p : Prop} [Decidable p] (h : Agree n k x y) (h' : Agree n k x' y') :
    Agree n k (if p then x else x') (if p then y else y') := by
  split
  · exact h
  · exact h'

lemma remaining : Agree n 0 remaining remaining := fun _ _ _ =>
  ⟨rfl, rfl, List.suffix_refl _, Nat.le_refl _⟩

lemma unexpected (expected : String) : Agree n k (unexpected expected : Parser α)
    (unexpected expected) := by
  intro s heof hs
  refine .peek ?_
  exact ite (throw _) (throw _) s heof hs

lemma expect {kind : TokenKind} (hkind : kind ≠ .endOfFile) (context : String) :
    Agree n 1 (expect kind context) (expect kind context) := by
  intro s heof hs
  refine .peek ?_
  split
  · exact .advance (by simp_all) heof
  · exact unexpected _ s heof hs

/-- At the end of the file nothing is taken. -/
lemma advance : Agree n 0 advance advance := fun s _ _ =>
  ⟨rfl, rfl, List.tail_suffix _, by simp [TokenStream.advance]⟩

lemma accept (kind : TokenKind) : Agree n 0 (accept kind) (accept kind) := by
  intro s heof hs
  refine .peek ?_
  exact ite (advance.bind fun _ => pure true) (pure false) s heof hs

lemma typeName (context : String) : Agree n 1 (typeName context) (typeName context) := by
  intro s heof hs
  refine .peek ?_
  split
  · rename_i hty
    refine (AgreeAt.advance ?_ heof).bind heof hs fun _ => pure _
    intro hend
    rw [hend] at hty
    cases hty
  · exact unexpected _ s heof hs

lemma variableName (ty : Ty) (context : String) :
    Agree n 1 (variableName ty context) (variableName ty context) :=
  (expect (by simp) _).bind fun _ => ite (throw _) (pure _)

variable {item item' : Parser α}

lemma commaSeparated (h : Agree n 1 item item') :
    Agree n 1 (commaSeparated item) (commaSeparated item') := by
  have hfrom : ∀ m, Agree n 1 (commaSeparatedFrom item m) (commaSeparatedFrom item' m) := by
    intro m
    induction m with
    | zero => exact h.bind fun a => pure [a]
    | succ m ih =>
      refine h.bind fun a => (accept _).bind fun b => ite ?_ (pure [a])
      exact (ih.mono (by omega) (Nat.zero_le 1)).bind fun as => pure (a :: as)
  exact remaining.bind fun m => hfrom m

lemma itemsUnless (h : Agree n 1 item item') (stop : TokenKind) :
    Agree n 0 (itemsUnless stop item) (itemsUnless stop item') := by
  intro s heof hs
  refine .peek ?_
  exact ite (pure []) (h.commaSeparated.mono (Nat.le_refl _) (Nat.zero_le 1)) s heof hs

section

variable {p q p' q' : Parser Expr}

/-- A call starts with a name. -/
lemma call (h : Agree n 1 p q) {s : TokenStream} (hs : s.current.kind ≠ .endOfFile)
    (heof : s.eof.kind = .endOfFile) (hn : s.pending.length < n + 1) :
    AgreeAt 1 s (call p) (call q) := by
  rw [call_eq, call_eq]
  refine (AgreeAt.advance hs heof).bind heof hn fun callee => (expect (by simp) _).bind fun _ => ?_
  refine ((h.mono (by omega) (Nat.le_refl _)).itemsUnless _).bind fun es => ?_
  exact (expect (by simp) _).bind fun _ => pure _

lemma primaryWith (h : Agree n 1 p q) : Agree (n + 1) 1 (primaryWith p) (primaryWith q) := by
  intro s heof hs
  refine .peek ?_
  split
  · rename_i hkind
    refine (AgreeAt.advance (by simp [hkind]) heof).bind heof hs fun t => ?_
    split
    · exact pure _
    · exact throw _
  · rename_i hkind
    exact (AgreeAt.advance (by simp [hkind]) heof).bind heof hs fun t => pure _
  · rename_i hkind
    refine .peekNext ?_
    split
    · exact h.call (by simp [hkind]) heof hs
    · exact (AgreeAt.advance (by simp [hkind]) heof).bind heof hs fun t => pure _
  · rename_i hkind
    refine (AgreeAt.advance (by simp [hkind]) heof).bind heof hs fun _ => ?_
    refine (h.mono (by omega) (Nat.zero_le 1)).bind fun e => ?_
    exact (expect (by simp) _).bind fun _ => pure e
  · exact unexpected _ s heof hs

lemma incrementWith (h : Agree n 1 p q) : Agree (n + 1) 1 (incrementWith p) (incrementWith q) := by
  intro s heof hs
  refine .peek ?_
  split
  · rename_i hdelta
    refine (AgreeAt.advance ?_ heof).bind heof hs fun _ => ?_
    · intro hend
      rw [hend] at hdelta
      cases hdelta
    · exact (expect (by simp) _).bind fun name => pure _
  · refine .peekNext ?_
    split
    · rename_i hkind _
      refine (AgreeAt.advance (by simp [hkind]) heof).bind heof hs fun _ => ?_
      exact advance.bind fun _ => pure _
    · exact h.primaryWith s heof hs

lemma chainFrom {operator? : TokenKind → Option (Expr → Expr → Expr)}
    (hend : operator? .endOfFile = none) (h : Agree n 1 p q) (m : Nat) (left : Expr) :
    Agree n 0 (chainFrom operator? p m left) (chainFrom operator? q m left) := by
  induction m generalizing n left with
  | zero => exact pure left
  | succ m ih =>
    intro s heof hs
    refine .peek ?_
    split
    · exact pure left s heof hs
    · rename_i hsome
      refine (AgreeAt.advance ?_ heof).bind heof hs fun _ => ?_
      · intro hkind
        rw [hkind, hend] at hsome
        cases hsome
      · refine (h.mono (by omega) (Nat.zero_le 1)).bind fun right => ?_
        exact ih (h.mono (by omega) (Nat.le_refl 1)) _

lemma expectOperandEnd (level : String) :
    Agree n 0 (expectOperandEnd level) (expectOperandEnd level) := by
  intro s heof hs
  refine .peek ?_
  exact ite (pure ()) (unexpected _) s heof hs

lemma chain {operator? : TokenKind → Option (Expr → Expr → Expr)}
    (hend : operator? .endOfFile = none) (h : Agree n 1 p q) (level : String) :
    Agree n 1 (chain level operator? p) (chain level operator? q) := by
  refine h.bind fun left => remaining.bind fun m => ?_
  refine (chainFrom hend (h.mono (by omega) (Nat.le_refl _)) m left).bind fun e => ?_
  exact (expectOperandEnd level).bind fun _ => pure e

lemma multiplicativeWith (h : Agree n 1 p q) :
    Agree (n + 1) 1 (multiplicativeWith p) (multiplicativeWith q) := h.incrementWith.chain rfl _

lemma additiveWith (h : Agree n 1 p q) : Agree (n + 1) 1 (additiveWith p) (additiveWith q) :=
  h.multiplicativeWith.chain rfl _

lemma comparisonWith (h : Agree n 1 p q) : Agree (n + 1) 1 (comparisonWith p) (comparisonWith q) :=
  h.additiveWith.chain rfl _

lemma logicalAndWith (h : Agree n 1 p q) : Agree (n + 1) 1 (logicalAndWith p) (logicalAndWith q) :=
  h.comparisonWith.chain rfl _

lemma logicalOrWith (h : Agree n 1 p q) : Agree (n + 1) 1 (logicalOrWith p) (logicalOrWith q) :=
  h.logicalAndWith.chain rfl _

/-- The arms of a conditional stand behind its condition. -/
lemma conditionalWith (h : Agree n 1 p q) (h' : Agree n 1 p' q') :
    Agree (n + 1) 1 (conditionalWith p p') (conditionalWith q q') := by
  refine h.logicalOrWith.bind fun condition => (accept _).bind fun b => ite ?_ (pure condition)
  refine (h.mono (by omega) (Nat.zero_le 1)).bind fun onTrue => ?_
  refine (expect (by simp) _).bind fun _ => ?_
  exact (h'.mono (by omega) (Nat.zero_le 1)).bind fun onFalse => pure _

/-- The value of an assignment stands behind the variable and the operator. -/
lemma assignmentWith (h : Agree n 1 p q) (h' : Agree n 1 p' q') :
    Agree (n + 1) 1 (assignmentWith p p') (assignmentWith q q') := by
  intro s heof hs
  refine .peek (.peekNext ?_)
  split
  · rename_i htarget
    refine (AgreeAt.advance (by simp [htarget.1]) heof).bind heof hs fun target => ?_
    refine advance.bind fun operator => ?_
    exact (h.mono (by omega) (Nat.zero_le 1)).bind fun rhs => pure _
  · refine ((h.conditionalWith h') s heof hs).bind heof hs fun e => ?_
    intro t _ _
    refine .peek ?_
    split
    · exact throw _ t ‹_› ‹_›
    · exact pure e t ‹_› ‹_›

/-- Parsing an expression makes progress, also with less fuel than there are tokens. -/
lemma expressionIn (m : Nat) : Agree n 1 (expressionIn m) (expressionIn m) ∧
    Agree n 1 (conditionalIn m) (conditionalIn m) := by
  induction m generalizing n with
  | zero => exact ⟨unexpected _, unexpected _⟩
  | succ m ih =>
    refine ⟨?_, ?_⟩
    · exact (assignmentWith ih.1 ih.2).mono (Nat.le_succ n) (Nat.le_refl 1)
    · exact (conditionalWith ih.1 ih.2).mono (Nat.le_succ n) (Nat.le_refl 1)

lemma expression : Agree n 1 expression expression := remaining.bind fun m => (expressionIn m).1

end

section

variable {p q : Parser Stmt}

lemma declarator (ty : Ty) : Agree n 1 (declarator ty) (declarator ty) := by
  refine (variableName ty _).bind fun name => (accept _).bind fun b => ite ?_ (pure _)
  exact (expression.mono (Nat.le_refl _) (Nat.zero_le 1)).bind fun e => pure _

lemma declaration : Agree n 1 declaration declaration := by
  refine (typeName _).bind fun ty => ?_
  refine ((declarator ty).commaSeparated.mono (Nat.le_refl _) (Nat.zero_le 1)).bind fun ds => ?_
  exact (expect (by simp) _).bind fun _ => pure _

lemma expressionStatement : Agree n 1 expressionStatement expressionStatement :=
  expression.bind fun e => (expect (by simp) _).bind fun _ => pure _

lemma statementsFrom (h : Agree n 1 p q) (m : Nat) :
    Agree n 0 (statementsFrom p m) (statementsFrom q m) := by
  induction m generalizing n with
  | zero => exact unexpected _
  | succ m ih =>
    intro s heof hs
    refine .peek ?_
    refine ite (pure []) (ite (unexpected _) ?_) s heof hs
    refine (h.mono (Nat.le_refl n) (Nat.zero_le 1)).bind fun x => ?_
    exact (ih h).bind fun rest => pure (x :: rest)

lemma blockWith (h : Agree n 1 p q) : Agree (n + 1) 1 (blockWith p) (blockWith q) := by
  refine (expect (by simp) _).bind fun _ => remaining.bind fun m => ?_
  refine (statementsFrom (h.mono (by omega) (Nat.le_refl 1)) m).bind fun body => ?_
  exact (expect (by simp) _).bind fun _ => pure body

lemma parenthesizedCondition (context : String) :
    Agree n 1 (parenthesizedCondition context) (parenthesizedCondition context) := by
  refine (expect (by simp) _).bind fun _ => expression.bind fun e => ?_
  exact (expect (by simp) _).bind fun _ => pure _

lemma forInit : Agree n 0 forInit forInit := by
  refine (accept _).bind fun b => ite (pure none) ?_
  intro s heof hs
  refine .peek ?_
  refine ite ?_ ?_ s heof hs
  · exact declaration.bind fun x => pure (some x)
  · exact expressionStatement.bind fun x => pure (some x)

lemma expressionUnless (stop : TokenKind) :
    Agree n 0 (expressionUnless stop) (expressionUnless stop) := by
  intro s heof hs
  refine .peek ?_
  exact ite (pure none) (expression.bind fun e => pure (some e)) s heof hs

/-- The statements inside of a statement stand behind its first token. -/
lemma statementWith (h : Agree n 1 p q) : Agree (n + 1) 1 (statementWith p) (statementWith q) := by
  intro s heof hs
  have hnested : ∀ {m}, m ≤ n → Agree m 1 p q := fun hm => h.mono hm (Nat.le_refl 1)
  refine .peek ?_
  split
  · exact declaration s heof hs
  · split
    · exact (h.blockWith.bind fun body => pure _) s heof hs
    · rename_i hkind
      refine (AgreeAt.advance (by simp [hkind]) heof).bind heof hs fun _ => ?_
      refine (parenthesizedCondition _).bind fun condition => ?_
      refine (hnested (by omega)).bind fun onTrue => (accept _).bind fun b => ite ?_ (pure _)
      exact (hnested (by omega)).bind fun onFalse => pure _
    · rename_i hkind
      refine (AgreeAt.advance (by simp [hkind]) heof).bind heof hs fun _ => ?_
      refine (parenthesizedCondition _).bind fun condition => ?_
      exact (hnested (by omega)).bind fun body => pure _
    · rename_i hkind
      refine (AgreeAt.advance (by simp [hkind]) heof).bind heof hs fun _ => ?_
      refine (expect (by simp) _).bind fun _ => forInit.bind fun init => ?_
      refine (expressionUnless _).bind fun condition => (expect (by simp) _).bind fun _ => ?_
      refine (expressionUnless _).bind fun step => (expect (by simp) _).bind fun _ => ?_
      exact (hnested (by omega)).bind fun body => pure _
    · rename_i hkind
      refine (AgreeAt.advance (by simp [hkind]) heof).bind heof hs fun _ => ?_
      refine (accept _).bind fun b => ite (pure _) (expression.bind fun e => ?_)
      exact (expect (by simp) _).bind fun _ => pure _
    · rename_i hkind
      refine (AgreeAt.advance (by simp [hkind]) heof).bind heof hs fun _ => ?_
      exact (expect (by simp) _).bind fun _ => pure _
    · rename_i hkind
      refine (AgreeAt.advance (by simp [hkind]) heof).bind heof hs fun _ => ?_
      exact (expect (by simp) _).bind fun _ => pure _
    · exact expressionStatement s heof hs

/-- Parsing a statement makes progress, also with less fuel than there are tokens. -/
lemma statementIn (m : Nat) : Agree n 1 (statementIn m) (statementIn m) := by
  induction m generalizing n with
  | zero => exact unexpected _
  | succ m ih => exact ih.statementWith.mono (Nat.le_succ n) (Nat.le_refl 1)

lemma statement : Agree n 1 statement statement := remaining.bind fun m => statementIn m

lemma block : Agree n 1 block block :=
  remaining.bind fun m => (statementIn m).blockWith.mono (Nat.le_succ n) (Nat.le_refl 1)

end

lemma param : Agree n 1 param param :=
  (typeName _).bind fun ty => (variableName ty _).bind fun _ => pure _

lemma definition : Agree n 1 definition definition := by
  have hlist : ∀ {n}, Agree n 1 paramList paramList := by
    intro n
    rw [paramList_eq]
    refine (expect (by simp) _).bind fun _ => (param.itemsUnless _).bind fun params => ?_
    exact (expect (by simp) _).bind fun _ => pure params
  refine (typeName _).bind fun _ => (expect (by simp) _).bind fun _ => ?_
  exact hlist.bind fun params => block.bind fun body => pure _

lemma definitionsFrom (m : Nat) : Agree n 0 (definitionsFrom m) (definitionsFrom m) := by
  induction m generalizing n with
  | zero => exact pure []
  | succ m ih =>
    intro s heof hs
    rw [AgreeAt, Parser.definitionsFrom, atEnd_bind]
    refine (ite (pure []) (definition.bind fun d => ?_) : Agree n 0 _ _) s heof hs
    exact ih.bind fun rest => pure (d :: rest)

lemma translationUnit : Agree n 0 translationUnit translationUnit :=
  remaining.bind fun m => definitionsFrom m

end Agree

end Parser

end MiniC
