import MiniC.Proofs.ExprGrammar

/-!
# Parsing statements by the grammar

The parser of statements takes exactly the statements of the grammar in which every `else` belongs
to the nearest `if`. It takes an `else` with the statement in front whenever that one is open.
-/

namespace MiniC

namespace Parser

open Grammar TokenStream

section

variable {eof : Token} (heof : eof.kind = .endOfFile)

include heof

lemma declarator_reads (ty : Ty) : Reads eof (declarator ty) (Declares ty) := by
  intro ts d s' h
  simp only [declarator, bind_ok, variableName_ok heof, ite_ok, pure_ok] at h
  obtain ⟨name, _, ⟨t, rest, rfl, ht, hty, rfl, rfl⟩, b, _, haccept, h⟩ := h
  rcases (accept_ok heof (by simp)).mp haccept with ⟨o, rest, rfl, ho, rfl, rfl⟩ | ⟨-, rfl, rfl⟩
  · rcases h with ⟨-, e, _, hrun, rfl, rfl⟩ | ⟨hb, -⟩
    · obtain ⟨us, rest, rfl, rfl, he⟩ := expression_reads heof _ _ _ hrun
      exact ⟨t :: o :: us, rest, rfl, rfl, .initialized ht hty ho he⟩
    · exact absurd rfl hb
  · rcases h with ⟨hb, -⟩ | ⟨-, rfl, rfl⟩
    · cases hb
    · exact ⟨[t], rest, rfl, rfl, .plain ht hty⟩

lemma declaration_reads : Reads eof declaration Declaration := by
  intro ts s s' h
  simp only [declaration, bind_ok, typeName_ok heof, pure_ok] at h
  obtain ⟨ty, _, ⟨t, rest, rfl, ht, rfl⟩, ds, _, hrun, semicolon, _, hend, rfl, rfl⟩ := h
  obtain ⟨us, rest, rfl, rfl, hds⟩ :=
    commaSeparated_reads heof (declarator_reads heof ty) _ _ _ hrun
  obtain ⟨rest, rfl, hsemicolon, rfl⟩ := (expect_ok heof (by simp)).mp hend
  exact ⟨t :: (us ++ [semicolon]), rest, by simp, rfl, .mk ht hds hsemicolon⟩

lemma expressionStatement_reads : Reads eof expressionStatement ExpressionStatement := by
  intro ts s s' h
  simp only [expressionStatement, bind_ok, pure_ok] at h
  obtain ⟨e, _, hrun, semicolon, _, hend, rfl, rfl⟩ := h
  obtain ⟨us, rest, rfl, rfl, he⟩ := expression_reads heof _ _ _ hrun
  obtain ⟨rest, rfl, hsemicolon, rfl⟩ := (expect_ok heof (by simp)).mp hend
  exact ⟨us ++ [semicolon], rest, by simp, rfl, .mk he hsemicolon⟩

lemma parenthesizedCondition_reads (context : String) :
    Reads eof (parenthesizedCondition context) Condition := by
  intro ts e s' h
  simp only [parenthesizedCondition, bind_ok, pure_ok] at h
  obtain ⟨l, _, hleft, e, _, hrun, r, _, hright, rfl, rfl⟩ := h
  obtain ⟨rest, rfl, hl, rfl⟩ := (expect_ok heof (by simp)).mp hleft
  obtain ⟨us, rest, rfl, rfl, he⟩ := expression_reads heof _ _ _ hrun
  obtain ⟨rest, rfl, hr, rfl⟩ := (expect_ok heof (by simp)).mp hright
  exact ⟨l :: (us ++ [r]), rest, by simp, rfl, .mk hl (tested_iff.mpr ⟨e, he, rfl⟩) hr⟩

lemma forInit_reads : Reads eof forInit LoopStart := by
  intro ts init s' h
  simp only [forInit, bind_ok, ite_ok, pure_ok, peek_bind] at h
  obtain ⟨b, _, haccept, h⟩ := h
  rcases (accept_ok heof (by simp)).mp haccept with
    ⟨semicolon, rest, rfl, hsemicolon, rfl, rfl⟩ | ⟨-, rfl, rfl⟩
  · rcases h with ⟨-, rfl, rfl⟩ | ⟨hb, -⟩
    · exact ⟨[semicolon], rest, rfl, rfl, .empty hsemicolon⟩
    · exact absurd rfl hb
  · rcases h with ⟨hb, -⟩ | ⟨-, ⟨-, s, _, hrun, rfl, rfl⟩ | ⟨-, s, _, hrun, rfl, rfl⟩⟩
    · cases hb
    · obtain ⟨us, rest, rfl, rfl, hs⟩ := declaration_reads heof _ _ _ hrun
      exact ⟨us, rest, rfl, rfl, .declaration hs⟩
    · obtain ⟨us, rest, rfl, rfl, hs⟩ := expressionStatement_reads heof _ _ _ hrun
      exact ⟨us, rest, rfl, rfl, .expression hs⟩

lemma expressionUnless_reads (stop : TokenKind) :
    Reads eof (expressionUnless stop) (Optional (Derives .expression)) := by
  intro ts o s' h
  rw [expressionUnless, peek_bind, ite_ok, pure_ok] at h
  rcases h with ⟨-, rfl, rfl⟩ | ⟨-, h⟩
  · exact ⟨[], ts, rfl, rfl, .none⟩
  · simp only [bind_ok, pure_ok] at h
    obtain ⟨e, _, hrun, rfl, rfl⟩ := h
    obtain ⟨us, rest, rfl, rfl, he⟩ := expression_reads heof _ _ _ hrun
    exact ⟨us, rest, rfl, rfl, .some he⟩

end

/-- Whether a parser takes only statements, and leaves no `else` behind that could belong to one. -/
def ReadsStatements (eof : Token) (nearest : Bool) (p : Parser Stmt) : Prop :=
  ∀ ts s s', p ⟨ts, eof⟩ = .ok s s' → ∃ used rest, ts = used ++ rest ∧ ⟨rest, eof⟩ = s' ∧
    Statement nearest used s ∧
    (s.endsOpen = true → (current ⟨rest, eof⟩).kind ≠ .keyword .elseKw)

section

variable {eof : Token} (heof : eof.kind = .endOfFile) {nearest : Bool} {nested : Parser Stmt}

include heof

omit heof in
lemma ReadsStatements.reads (h : ReadsStatements eof nearest nested) :
    Reads eof nested (Statement nearest) := by
  intro ts s s' hrun
  obtain ⟨used, rest, hts, hrest, hs, -⟩ := h ts s s' hrun
  exact ⟨used, rest, hts, hrest, hs⟩

omit heof in
lemma statementsFrom_reads (hnested : Reads eof nested (Statement nearest)) (n : Nat) :
    Reads eof (statementsFrom nested n) (Sequence (Statement nearest)) := by
  induction n with
  | zero => exact fun ts ss s' h => (unexpected_ok.mp h).elim
  | succ n ih =>
    intro ts ss s' h
    simp only [statementsFrom, peek_bind, ite_ok, unexpected_ok, and_false, false_or, bind_ok,
      pure_ok] at h
    rcases h with ⟨-, rfl, rfl⟩ | ⟨-, -, s, _, hrun, ss, _, hmore, rfl, rfl⟩
    · exact ⟨[], ts, rfl, rfl, .nil⟩
    · obtain ⟨us, rest, rfl, rfl, hs⟩ := hnested _ _ _ hrun
      obtain ⟨vs, rest, rfl, rfl, hss⟩ := ih _ _ _ hmore
      exact ⟨us ++ vs, rest, by simp, rfl, .cons hs hss⟩

lemma blockWith_reads (hnested : Reads eof nested (Statement nearest)) :
    Reads eof (blockWith nested) fun ts body => ∃ l inner r, ts = l :: (inner ++ [r]) ∧
      l.kind = .symbol .leftBrace ∧ Sequence (Statement nearest) inner body ∧
      r.kind = .symbol .rightBrace := by
  intro ts body s' h
  simp only [blockWith, bind_ok, remaining_bind, pure_ok] at h
  obtain ⟨l, _, hleft, body, _, hrun, r, _, hright, rfl, rfl⟩ := h
  obtain ⟨rest, rfl, hl, rfl⟩ := (expect_ok heof (by simp)).mp hleft
  obtain ⟨us, rest, rfl, rfl, hbody⟩ := statementsFrom_reads hnested _ _ _ _ hrun
  obtain ⟨rest, rfl, hr, rfl⟩ := (expect_ok heof (by simp)).mp hright
  exact ⟨l :: (us ++ [r]), rest, by simp, rfl, l, us, r, rfl, hl, hbody, hr⟩

variable {t : Token} {ts : List Token} {s : Stmt} {s' : TokenStream}

lemma ifStatement_reads (hnested : ReadsStatements eof nearest nested)
    (ht : t.kind = .keyword .ifKw) (h : ifStatement nested ⟨t :: ts, eof⟩ = .ok s s') :
    ∃ used rest, t :: ts = used ++ rest ∧ ⟨rest, eof⟩ = s' ∧ Statement nearest used s ∧
      (s.endsOpen = true → (current ⟨rest, eof⟩).kind ≠ .keyword .elseKw) := by
  simp only [ifStatement, advance_bind, advance_cons, bind_ok, ite_ok, pure_ok] at h
  obtain ⟨condition, _, htest, onTrue, _, htrueRun, b, _, haccept, h⟩ := h
  obtain ⟨cs, rest, rfl, rfl, hcondition⟩ := parenthesizedCondition_reads heof _ _ _ _ htest
  obtain ⟨us, rest, rfl, rfl, htrue, hopen⟩ := hnested _ _ _ htrueRun
  rcases (accept_ok heof (by simp)).mp haccept with ⟨l, rest, rfl, hl, rfl, rfl⟩ | ⟨hnext, rfl, rfl⟩
  · rcases h with ⟨-, onFalse, _, hfalseRun, rfl, rfl⟩ | ⟨hb, -⟩
    · obtain ⟨vs, rest, rfl, rfl, hfalse, hopen'⟩ := hnested _ _ _ hfalseRun
      -- the `else` would have gone to an `if` that the first part leaves open
      have hclosed : onTrue.endsOpen = false := by
        by_contra hne
        exact hopen (by simpa using hne) hl
      exact ⟨t :: (cs ++ (us ++ l :: vs)), rest, by simp, rfl,
        .ifElse ht hcondition htrue hl (fun _ => hclosed) hfalse, hopen'⟩
    · exact absurd rfl hb
  · rcases h with ⟨hb, -⟩ | ⟨-, rfl, rfl⟩
    · cases hb
    · exact ⟨t :: (cs ++ us), rest, by simp, rfl, .ifThen ht hcondition htrue, fun _ => hnext⟩

lemma whileStatement_reads (hnested : ReadsStatements eof nearest nested)
    (ht : t.kind = .keyword .whileKw) (h : whileStatement nested ⟨t :: ts, eof⟩ = .ok s s') :
    ∃ used rest, t :: ts = used ++ rest ∧ ⟨rest, eof⟩ = s' ∧ Statement nearest used s ∧
      (s.endsOpen = true → (current ⟨rest, eof⟩).kind ≠ .keyword .elseKw) := by
  simp only [whileStatement, advance_bind, advance_cons, bind_ok, pure_ok] at h
  obtain ⟨condition, _, htest, body, _, hrun, rfl, rfl⟩ := h
  obtain ⟨cs, rest, rfl, rfl, hcondition⟩ := parenthesizedCondition_reads heof _ _ _ _ htest
  obtain ⟨us, rest, rfl, rfl, hbody, hopen⟩ := hnested _ _ _ hrun
  exact ⟨t :: (cs ++ us), rest, by simp, rfl, .whileLoop ht hcondition hbody, hopen⟩

lemma forStatement_reads (hnested : ReadsStatements eof nearest nested)
    (ht : t.kind = .keyword .forKw) (h : forStatement nested ⟨t :: ts, eof⟩ = .ok s s') :
    ∃ used rest, t :: ts = used ++ rest ∧ ⟨rest, eof⟩ = s' ∧ Statement nearest used s ∧
      (s.endsOpen = true → (current ⟨rest, eof⟩).kind ≠ .keyword .elseKw) := by
  simp only [forStatement, advance_bind, advance_cons, bind_ok, pure_ok] at h
  obtain ⟨l, _, hleft, init, _, hinitRun, condition, _, htest, semicolon, _, hmid, h⟩ := h
  obtain ⟨step, _, hstepRun, r, _, hright, body, _, hrun, rfl, rfl⟩ := h
  obtain ⟨rest, rfl, hl, rfl⟩ := (expect_ok heof (by simp)).mp hleft
  obtain ⟨is, rest, rfl, rfl, hinit⟩ := forInit_reads heof _ _ _ hinitRun
  obtain ⟨cs, rest, rfl, rfl, hcondition⟩ := expressionUnless_reads heof _ _ _ _ htest
  obtain ⟨rest, rfl, hsemicolon, rfl⟩ := (expect_ok heof (by simp)).mp hmid
  obtain ⟨ss, rest, rfl, rfl, hstep⟩ := expressionUnless_reads heof _ _ _ _ hstepRun
  obtain ⟨rest, rfl, hr, rfl⟩ := (expect_ok heof (by simp)).mp hright
  obtain ⟨us, rest, rfl, rfl, hbody, hopen⟩ := hnested _ _ _ hrun
  have htested := optional_tested_iff.mpr ⟨_, hcondition, rfl⟩
  exact ⟨t :: l :: (is ++ (cs ++ semicolon :: (ss ++ r :: us))), rest, by simp, rfl,
    .forLoop ht hl hinit htested hsemicolon hstep hr hbody, hopen⟩

lemma returnStatement_reads (ht : t.kind = .keyword .returnKw)
    (h : returnStatement ⟨t :: ts, eof⟩ = .ok s s') :
    ∃ used rest, t :: ts = used ++ rest ∧ ⟨rest, eof⟩ = s' ∧ Statement nearest used s ∧
      s.endsOpen = false := by
  simp only [returnStatement, advance_bind, advance_cons, bind_ok, ite_ok, pure_ok] at h
  obtain ⟨b, _, haccept, h⟩ := h
  rcases (accept_ok heof (by simp)).mp haccept with
    ⟨semicolon, rest, rfl, hsemicolon, rfl, rfl⟩ | ⟨-, rfl, rfl⟩
  · rcases h with ⟨-, rfl, rfl⟩ | ⟨hb, -⟩
    · exact ⟨t :: ([] ++ [semicolon]), rest, rfl, rfl, .ret ht .none hsemicolon, rfl⟩
    · exact absurd rfl hb
  · rcases h with ⟨hb, -⟩ | ⟨-, e, _, hrun, semicolon, _, hend, rfl, rfl⟩
    · cases hb
    · obtain ⟨us, rest, rfl, rfl, he⟩ := expression_reads heof _ _ _ hrun
      obtain ⟨rest, rfl, hsemicolon, rfl⟩ := (expect_ok heof (by simp)).mp hend
      exact ⟨t :: (us ++ [semicolon]), rest, by simp, rfl, .ret ht (.some he) hsemicolon, rfl⟩

lemma keywordStatement_reads {context : String} {x : Stmt}
    (h : keywordStatement x context ⟨t :: ts, eof⟩ = .ok s s') :
    x = s ∧ ∃ semicolon rest, ts = semicolon :: rest ∧ semicolon.kind = .symbol .semicolon ∧
      ⟨rest, eof⟩ = s' := by
  simp only [keywordStatement, advance_bind, advance_cons, bind_ok, pure_ok] at h
  obtain ⟨semicolon, _, hend, rfl, rfl⟩ := h
  obtain ⟨rest, rfl, hsemicolon, rfl⟩ := (expect_ok heof (by simp)).mp hend
  exact ⟨rfl, semicolon, rest, rfl, hsemicolon, rfl⟩

lemma statementWith_reads (hnested : ReadsStatements eof nearest nested) :
    ReadsStatements eof nearest (statementWith nested) := by
  intro ts s s' h
  have hexpression : expressionStatement ⟨ts, eof⟩ = .ok s s' → ∃ used rest, ts = used ++ rest ∧
      ⟨rest, eof⟩ = s' ∧ Statement nearest used s ∧
      (s.endsOpen = true → (current ⟨rest, eof⟩).kind ≠ .keyword .elseKw) := by
    intro h
    obtain ⟨us, rest, rfl, rfl, hs⟩ := expressionStatement_reads heof _ _ _ h
    refine ⟨us, rest, rfl, rfl, .expression hs, ?_⟩
    cases hs
    nofun
  rw [statementWith, peek_bind, ite_ok] at h
  rcases h with ⟨-, h⟩ | ⟨-, h⟩
  · obtain ⟨us, rest, rfl, rfl, hs⟩ := declaration_reads heof _ _ _ h
    refine ⟨us, rest, rfl, rfl, .declaration hs, ?_⟩
    cases hs
    nofun
  · cases ts with
    | nil =>
      rw [current_nil, heof] at h
      exact hexpression h
    | cons t rest =>
      rw [current_cons] at h
      cases hkind : t.kind with
      | symbol x =>
        simp only [hkind] at h
        cases x with
        | leftBrace =>
          simp only [bind_ok, pure_ok] at h
          obtain ⟨body, _, hrun, rfl, rfl⟩ := h
          obtain ⟨us, rest, hus, rfl, l, inner, r, rfl, hl, hbody, hr⟩ :=
            blockWith_reads heof hnested.reads _ _ _ hrun
          exact ⟨_, rest, hus, rfl, .block hl hbody hr, nofun⟩
        | _ => exact hexpression h
      | keyword k =>
        simp only [hkind] at h
        cases k with
        | ifKw => exact ifStatement_reads heof hnested hkind h
        | whileKw => exact whileStatement_reads heof hnested hkind h
        | forKw => exact forStatement_reads heof hnested hkind h
        | returnKw =>
          obtain ⟨used, rest, hts, hs', hs, hclosed⟩ := returnStatement_reads heof hkind h
          exact ⟨used, rest, hts, hs', hs, by simp [hclosed]⟩
        | breakKw =>
          obtain ⟨rfl, semicolon, rest, rfl, hsemicolon, rfl⟩ := keywordStatement_reads heof h
          exact ⟨[t, semicolon], rest, rfl, rfl, .brk hkind hsemicolon, nofun⟩
        | continueKw =>
          obtain ⟨rfl, semicolon, rest, rfl, hsemicolon, rfl⟩ := keywordStatement_reads heof h
          exact ⟨[t, semicolon], rest, rfl, rfl, .cont hkind hsemicolon, nofun⟩
        | _ => exact hexpression h
      | _ =>
        simp only [hkind] at h
        exact hexpression h

/-- With any fuel, only statements are read. -/
theorem statementIn_reads (n : Nat) : ReadsStatements eof nearest (statementIn n) := by
  induction n with
  | zero => exact fun ts s s' h => (unexpected_ok.mp h).elim
  | succ n ih => exact statementWith_reads heof ih

end

end Parser

namespace Grammar

/-- An expression does not begin like a declaration. -/
lemma toTy?_of_startsExpression {kind : TokenKind} (h : startsExpression kind = true) :
    kind.toTy? = none := by
  cases kind with
  | keyword k => cases h
  | _ => rfl

/-- An expression does not begin with a token that may stand behind one. -/
lemma not_follows_of_startsExpression {kind : TokenKind} (h : startsExpression kind = true) :
    ¬Level.expression.Follows kind := by
  cases kind with
  | symbol s =>
    revert h
    cases s <;> decide
  | _ => exact Nat.not_lt_zero _

/-- The kinds of token that a statement begins with. -/
def startsStatement (kind : TokenKind) : Bool :=
  kind.toTy?.isSome || startsExpression kind ||
    match kind with
    | .symbol .leftBrace | .keyword .ifKw | .keyword .whileKw | .keyword .forKw
    | .keyword .returnKw | .keyword .breakKw | .keyword .continueKw => true
    | _ => false

lemma Declaration.first {ts : List Token} {s : Stmt} (h : Declaration ts s) :
    ∃ t rest, ts = t :: rest ∧ t.kind.toTy?.isSome = true := by
  cases h with
  | mk ht _ _ => exact ⟨_, _, rfl, by simp [ht]⟩

lemma ExpressionStatement.first {ts : List Token} {s : Stmt} (h : ExpressionStatement ts s) :
    ∃ t rest, ts = t :: rest ∧ startsExpression t.kind = true := by
  cases h with
  | mk h _ =>
    obtain ⟨t, rest, rfl, ht⟩ := h.first
    exact ⟨t, _, rfl, ht⟩

lemma Statement.first {nearest : Bool} {ts : List Token} {s : Stmt} (h : Statement nearest ts s) :
    ∃ t rest, ts = t :: rest ∧ startsStatement t.kind = true := by
  cases h with
  | declaration h =>
    obtain ⟨t, rest, rfl, ht⟩ := h.first
    exact ⟨t, rest, rfl, by simp [startsStatement, ht]⟩
  | expression h =>
    obtain ⟨t, rest, rfl, ht⟩ := h.first
    exact ⟨t, rest, rfl, by simp [startsStatement, ht]⟩
  | block hl _ _ => exact ⟨_, _, rfl, by simp [startsStatement, hl]⟩
  | ifThen hk _ _ => exact ⟨_, _, rfl, by simp [startsStatement, hk]⟩
  | ifElse hk _ _ _ _ _ => exact ⟨_, _, rfl, by simp [startsStatement, hk]⟩
  | whileLoop hk _ _ => exact ⟨_, _, rfl, by simp [startsStatement, hk]⟩
  | forLoop hk _ _ _ _ _ _ _ => exact ⟨_, _, rfl, by simp [startsStatement, hk]⟩
  | ret hk _ _ => exact ⟨_, _, rfl, by simp [startsStatement, hk]⟩
  | brk hk _ => exact ⟨_, _, rfl, by simp [startsStatement, hk]⟩
  | cont hk _ => exact ⟨_, _, rfl, by simp [startsStatement, hk]⟩

end Grammar

namespace Parser

open Grammar TokenStream

section

variable {eof : Token} {n : Nat}

lemma declarator_accepts (ty : Ty) :
    Accepts eof (declarator ty) (Declares ty) Level.expression.Follows n := by
  intro ts d rest h hlength hfollows
  rw [declarator]
  cases h with
  | plain ht hty =>
    have hend : (current ⟨rest, eof⟩).kind ≠ .symbol .equal := by
      intro hkind
      rw [hkind] at hfollows
      exact absurd hfollows (by decide)
    refine bind_ok.mpr ⟨_, _, variableName_of_kind hty ht _, ?_⟩
    exact bind_ok.mpr ⟨false, _, accept_of_ne hend, rfl⟩
  | @initialized t o us e ht hty ho he =>
    have hrun := expression_accepts us.length us e rest he (Nat.le_refl _) hfollows
    refine bind_ok.mpr ⟨_, _, variableName_of_kind hty ht _, ?_⟩
    exact bind_ok.mpr ⟨true, _, accept_of_kind ho, bind_ok.mpr ⟨e, _, hrun, rfl⟩⟩

variable {ts : List Token} (rest : List Token)

lemma declaration_accepts {s : Stmt} (h : Declaration ts s) :
    declaration ⟨ts ++ rest, eof⟩ = .ok s ⟨rest, eof⟩ := by
  cases h with
  | @mk t semicolon ty us ds ht hds hsemicolon =>
    have hrun : commaSeparated (declarator ty) ⟨us ++ semicolon :: rest, eof⟩ = _ :=
      commaSeparated_accepts (declarator_accepts ty) (by decide) us ds (semicolon :: rest) hds
        (Nat.le_refl _) (by rw [current_cons, hsemicolon]; decide)
    simp only [List.cons_append, List.append_assoc, List.nil_append]
    refine bind_ok.mpr ⟨ty, _, typeName_of_kind ht _, bind_ok.mpr ⟨ds, _, hrun, ?_⟩⟩
    exact bind_ok.mpr ⟨semicolon, _, expect_of_kind hsemicolon _, rfl⟩

lemma expressionStatement_accepts {s : Stmt} (h : ExpressionStatement ts s) :
    expressionStatement ⟨ts ++ rest, eof⟩ = .ok s ⟨rest, eof⟩ := by
  cases h with
  | @mk semicolon us e he hsemicolon =>
    have hrun : expression ⟨us ++ semicolon :: rest, eof⟩ = _ :=
      expression_accepts us.length us e (semicolon :: rest) he (Nat.le_refl _)
        (by rw [current_cons, hsemicolon]; decide)
    simp only [List.append_assoc, List.cons_append, List.nil_append]
    refine bind_ok.mpr ⟨e, _, hrun, ?_⟩
    exact bind_ok.mpr ⟨semicolon, _, expect_of_kind hsemicolon _, rfl⟩

lemma parenthesizedCondition_accepts (context : String) {e : Expr} (h : Condition ts e) :
    parenthesizedCondition context ⟨ts ++ rest, eof⟩ = .ok e ⟨rest, eof⟩ := by
  cases h with
  | @mk l r us _ hl h hr =>
    obtain ⟨e, he, rfl⟩ := tested_iff.mp h
    have hrun : expression ⟨us ++ r :: rest, eof⟩ = _ :=
      expression_accepts us.length us e (r :: rest) he (Nat.le_refl _)
        (by rw [current_cons, hr]; decide)
    simp only [List.cons_append, List.append_assoc, List.nil_append]
    refine bind_ok.mpr ⟨l, _, expect_of_kind hl _, bind_ok.mpr ⟨e, _, hrun, ?_⟩⟩
    exact bind_ok.mpr ⟨r, _, expect_of_kind hr _, rfl⟩

lemma forInit_accepts {init : Option Stmt} (h : LoopStart ts init) :
    forInit ⟨ts ++ rest, eof⟩ = .ok init ⟨rest, eof⟩ := by
  rw [forInit]
  cases h with
  | empty hsemicolon => exact bind_ok.mpr ⟨true, _, accept_of_kind hsemicolon, rfl⟩
  | @declaration _ s h =>
    have hrun : declaration ⟨ts ++ rest, eof⟩ = _ := declaration_accepts rest h
    obtain ⟨t, us, rfl, ht⟩ := h.first
    have hfirst : t.kind ≠ .symbol .semicolon := fun hkind => by simp [hkind, TokenKind.toTy?] at ht
    refine bind_ok.mpr ⟨false, _, accept_of_ne hfirst, ?_⟩
    simp only [Bool.false_eq_true, if_false, peek_bind]
    exact ite_ok.mpr (Or.inl ⟨ht, bind_ok.mpr ⟨s, _, hrun, rfl⟩⟩)
  | @expression _ s h =>
    have hrun : expressionStatement ⟨ts ++ rest, eof⟩ = _ := expressionStatement_accepts rest h
    obtain ⟨t, us, rfl, ht⟩ := h.first
    have hfirst : t.kind ≠ .symbol .semicolon := fun hkind => by
      simp [hkind, startsExpression] at ht
    refine bind_ok.mpr ⟨false, _, accept_of_ne hfirst, ?_⟩
    simp only [Bool.false_eq_true, if_false, peek_bind]
    refine ite_ok.mpr (Or.inr ⟨by simp [toTy?_of_startsExpression ht], ?_⟩)
    exact bind_ok.mpr ⟨s, _, hrun, rfl⟩

lemma expressionUnless_accepts {stop : TokenKind} (hstop : Level.expression.Follows stop)
    {o : Option Expr} (h : Optional (Derives .expression) ts o)
    (hrest : (current ⟨rest, eof⟩).kind = stop) :
    expressionUnless stop ⟨ts ++ rest, eof⟩ = .ok o ⟨rest, eof⟩ := by
  rw [expressionUnless, peek_bind, ite_ok]
  cases h with
  | none => exact Or.inl ⟨hrest, rfl⟩
  | @some _ e h =>
    have hrun : expression ⟨ts ++ rest, eof⟩ = _ :=
      expression_accepts ts.length ts e rest h (Nat.le_refl _) (hrest ▸ hstop)
    refine Or.inr ⟨?_, bind_ok.mpr ⟨e, _, hrun, rfl⟩⟩
    obtain ⟨t, us, rfl, ht⟩ := h.first
    exact fun hkind => not_follows_of_startsExpression ht (hkind ▸ hstop)

/-- Whether a parser takes the statements of at most `n` tokens, if no `else` stands behind that
belongs to the statement. -/
def AcceptsStatements (eof : Token) (p : Parser Stmt) (n : Nat) : Prop :=
  ∀ ts s rest, Statement true ts s → ts.length ≤ n →
    (s.endsOpen = true → (current ⟨rest, eof⟩).kind ≠ .keyword .elseKw) →
    p ⟨ts ++ rest, eof⟩ = .ok s ⟨rest, eof⟩

variable {nested : Parser Stmt}

lemma statementsFrom_accepts (hnested : AcceptsStatements eof nested n) {body : List Stmt}
    (h : Sequence (Statement true) ts body) (hlength : ts.length ≤ n)
    (hrest : (current ⟨rest, eof⟩).kind = .symbol .rightBrace) {m : Nat} (hm : ts.length < m) :
    (current ⟨ts ++ rest, eof⟩).kind ≠ .keyword .elseKw ∧
      statementsFrom nested m ⟨ts ++ rest, eof⟩ = .ok body ⟨rest, eof⟩ := by
  induction h generalizing m with
  | nil =>
    obtain ⟨m, rfl⟩ : ∃ k, m = k + 1 := ⟨m - 1, by omega⟩
    refine ⟨by simp [hrest], ?_⟩
    rw [statementsFrom, peek_bind, ite_ok]
    exact Or.inl ⟨hrest, rfl⟩
  | @cons us vs s ss hs _ ih =>
    obtain ⟨m, rfl⟩ : ∃ k, m = k + 1 := ⟨m - 1, by omega⟩
    obtain ⟨t, us', hus, ht⟩ := hs.first
    have hpos : 0 < us.length := by simp [hus]
    rw [List.length_append] at hlength hm
    obtain ⟨hnext, hmore⟩ := ih (by omega) (m := m) (by omega)
    have hrun := hnested us s (vs ++ rest) hs (by omega) fun _ => hnext
    have hcurrent : (current ⟨us ++ vs ++ rest, eof⟩).kind = t.kind := by rw [hus]; rfl
    constructor
    · rw [hcurrent]
      intro hkind
      simp [hkind, startsStatement, startsExpression, TokenKind.toTy?, Keyword.toTy?] at ht
    · rw [statementsFrom, peek_bind, ite_ok]
      refine Or.inr ⟨?_, ite_ok.mpr (Or.inr ⟨?_, ?_⟩)⟩
      · rw [hcurrent]
        exact fun hkind => by simp [hkind, startsStatement, startsExpression, TokenKind.toTy?] at ht
      · rw [Token.isEof, hcurrent]
        intro hkind
        simp [beq_iff_eq.mp hkind, startsStatement, startsExpression, TokenKind.toTy?] at ht
      · rw [List.append_assoc]
        exact bind_ok.mpr ⟨s, _, hrun, bind_ok.mpr ⟨ss, _, hmore, rfl⟩⟩

lemma blockWith_accepts (hnested : AcceptsStatements eof nested n) {l r : Token} {body : List Stmt}
    (hl : l.kind = .symbol .leftBrace) (h : Sequence (Statement true) ts body)
    (hr : r.kind = .symbol .rightBrace) (hlength : ts.length ≤ n) :
    blockWith nested ⟨l :: (ts ++ r :: rest), eof⟩ = .ok body ⟨rest, eof⟩ := by
  obtain ⟨-, hrun⟩ := statementsFrom_accepts (r :: rest) hnested h hlength hr
    (m := (ts ++ r :: rest).length) (by simp)
  refine bind_ok.mpr ⟨l, _, expect_of_kind hl _, ?_⟩
  rw [remaining_bind]
  exact bind_ok.mpr ⟨body, _, hrun, bind_ok.mpr ⟨r, _, expect_of_kind hr _, rfl⟩⟩

lemma statementWith_expression {t : Token} (ht : startsExpression t.kind = true) :
    statementWith nested ⟨t :: rest, eof⟩ = expressionStatement ⟨t :: rest, eof⟩ := by
  rw [statementWith, peek_bind, current_cons]
  cases hkind : t.kind with
  | symbol s =>
    rw [hkind] at ht
    cases s <;> first | rfl | cases ht
  | keyword k =>
    rw [hkind] at ht
    cases ht
  | _ => rfl

lemma statementWith_accepts (hnested : AcceptsStatements eof nested n) :
    AcceptsStatements eof (statementWith nested) (n + 1) := by
  intro ts s rest h hlength hopen
  cases h with
  | declaration h =>
    have hrun : declaration ⟨ts ++ rest, eof⟩ = _ := declaration_accepts rest h
    obtain ⟨t, us, rfl, ht⟩ := h.first
    rw [statementWith, peek_bind, ite_ok]
    exact Or.inl ⟨ht, hrun⟩
  | expression h =>
    have hrun : expressionStatement ⟨ts ++ rest, eof⟩ = _ := expressionStatement_accepts rest h
    obtain ⟨t, us, rfl, ht⟩ := h.first
    exact (statementWith_expression (us ++ rest) ht).trans hrun
  | @block l r us body hl hbody hr =>
    simp only [List.length_cons, List.length_append] at hlength
    have hrun := blockWith_accepts rest hnested hl hbody hr (by omega)
    simp only [List.cons_append, List.append_assoc, List.nil_append]
    rw [statementWith, peek_bind, current_cons, hl]
    change (do return Stmt.compound (← blockWith nested) : Parser Stmt) ⟨_, eof⟩ = _
    exact bind_ok.mpr ⟨body, _, hrun, rfl⟩
  | @ifThen k cs us condition onTrue hk hcondition htrue =>
    simp only [List.length_cons, List.length_append] at hlength
    have htest : parenthesizedCondition "if statement" ⟨cs ++ (us ++ rest), eof⟩ = _ :=
      parenthesizedCondition_accepts _ _ hcondition
    have hrun := hnested us onTrue rest htrue (by omega) fun _ => hopen rfl
    simp only [List.cons_append, List.append_assoc]
    rw [statementWith, peek_bind, current_cons, hk]
    change ifStatement nested ⟨_, eof⟩ = _
    refine bind_ok.mpr ⟨k, _, rfl, bind_ok.mpr ⟨condition, _, htest, ?_⟩⟩
    refine bind_ok.mpr ⟨onTrue, _, hrun, ?_⟩
    exact bind_ok.mpr ⟨false, _, accept_of_ne (hopen rfl), rfl⟩
  | @ifElse k l cs us vs condition onTrue onFalse hk hcondition htrue hl hnearest hfalse =>
    simp only [List.length_cons, List.length_append] at hlength
    have htest : parenthesizedCondition "if statement" ⟨cs ++ (us ++ l :: (vs ++ rest)), eof⟩ = _ :=
      parenthesizedCondition_accepts _ _ hcondition
    have htrueRun := hnested us onTrue (l :: (vs ++ rest)) htrue (by omega) (by simp [hnearest])
    have hfalseRun := hnested vs onFalse rest hfalse (by omega) hopen
    simp only [List.cons_append, List.append_assoc]
    rw [statementWith, peek_bind, current_cons, hk]
    change ifStatement nested ⟨_, eof⟩ = _
    refine bind_ok.mpr ⟨k, _, rfl, bind_ok.mpr ⟨condition, _, htest, ?_⟩⟩
    refine bind_ok.mpr ⟨onTrue, _, htrueRun, bind_ok.mpr ⟨true, _, accept_of_kind hl, ?_⟩⟩
    exact bind_ok.mpr ⟨onFalse, _, hfalseRun, rfl⟩
  | @whileLoop k cs us condition body hk hcondition hbody =>
    simp only [List.length_cons, List.length_append] at hlength
    have htest : parenthesizedCondition "while statement" ⟨cs ++ (us ++ rest), eof⟩ = _ :=
      parenthesizedCondition_accepts _ _ hcondition
    have hrun := hnested us body rest hbody (by omega) hopen
    simp only [List.cons_append, List.append_assoc]
    rw [statementWith, peek_bind, current_cons, hk]
    change whileStatement nested ⟨_, eof⟩ = _
    refine bind_ok.mpr ⟨k, _, rfl, bind_ok.mpr ⟨condition, _, htest, ?_⟩⟩
    exact bind_ok.mpr ⟨body, _, hrun, rfl⟩
  | @forLoop k l semicolon r is cs ss us init _ step body hk hl hinit htested hsemicolon hstep hr
      hbody =>
    obtain ⟨condition, hcondition, rfl⟩ := optional_tested_iff.mp htested
    simp only [List.length_cons, List.length_append] at hlength
    have hinitRun : forInit ⟨is ++ (cs ++ semicolon :: (ss ++ r :: (us ++ rest))), eof⟩ = _ :=
      forInit_accepts _ hinit
    have htest : expressionUnless (.symbol .semicolon)
        ⟨cs ++ semicolon :: (ss ++ r :: (us ++ rest)), eof⟩ = _ :=
      expressionUnless_accepts _ (by decide) hcondition hsemicolon
    have hstepRun : expressionUnless (.symbol .rightParen) ⟨ss ++ r :: (us ++ rest), eof⟩ = _ :=
      expressionUnless_accepts _ (by decide) hstep hr
    have hrun := hnested us body rest hbody (by omega) hopen
    simp only [List.cons_append, List.append_assoc]
    rw [statementWith, peek_bind, current_cons, hk]
    change forStatement nested ⟨_, eof⟩ = _
    refine bind_ok.mpr ⟨k, _, rfl, bind_ok.mpr ⟨l, _, expect_of_kind hl _, ?_⟩⟩
    refine bind_ok.mpr ⟨init, _, hinitRun, bind_ok.mpr ⟨condition, _, htest, ?_⟩⟩
    refine bind_ok.mpr ⟨semicolon, _, expect_of_kind hsemicolon _, ?_⟩
    refine bind_ok.mpr ⟨step, _, hstepRun, bind_ok.mpr ⟨r, _, expect_of_kind hr _, ?_⟩⟩
    exact bind_ok.mpr ⟨body, _, hrun, rfl⟩
  | @ret k semicolon us value hk hvalue hsemicolon =>
    simp only [List.cons_append, List.append_assoc, List.nil_append]
    rw [statementWith, peek_bind, current_cons, hk]
    change returnStatement ⟨_, eof⟩ = _
    refine bind_ok.mpr ⟨k, _, rfl, ?_⟩
    cases hvalue with
    | none => exact bind_ok.mpr ⟨true, _, accept_of_kind hsemicolon, rfl⟩
    | @some _ e he =>
      have hrun : expression ⟨us ++ semicolon :: rest, eof⟩ = _ :=
        expression_accepts us.length us e (semicolon :: rest) he (Nat.le_refl _)
          (by rw [current_cons, hsemicolon]; decide)
      obtain ⟨t, us, rfl, ht⟩ := he.first
      have hfirst : t.kind ≠ .symbol .semicolon := fun hkind => by
        simp [hkind, startsExpression] at ht
      refine bind_ok.mpr ⟨false, _, accept_of_ne hfirst, bind_ok.mpr ⟨e, _, hrun, ?_⟩⟩
      exact bind_ok.mpr ⟨semicolon, _, expect_of_kind hsemicolon _, rfl⟩
  | @brk k semicolon hk hsemicolon =>
    simp only [List.cons_append, List.nil_append]
    rw [statementWith, peek_bind, current_cons, hk]
    change keywordStatement .brk "break statement" ⟨_, eof⟩ = _
    refine bind_ok.mpr ⟨k, _, rfl, bind_ok.mpr ⟨semicolon, _, expect_of_kind hsemicolon _, rfl⟩⟩
  | @cont k semicolon hk hsemicolon =>
    simp only [List.cons_append, List.nil_append]
    rw [statementWith, peek_bind, current_cons, hk]
    change keywordStatement .cont "continue statement" ⟨_, eof⟩ = _
    refine bind_ok.mpr ⟨k, _, rfl, bind_ok.mpr ⟨semicolon, _, expect_of_kind hsemicolon _, rfl⟩⟩

/-- With as much fuel as tokens, all statements are read. -/
theorem statementIn_accepts (n : Nat) : AcceptsStatements eof (statementIn n) n := by
  induction n with
  | zero =>
    intro ts s rest h hlength
    obtain ⟨t, us, rfl, -⟩ := h.first
    exact absurd hlength (by simp)
  | succ n ih => exact statementWith_accepts ih

end

end Parser

end MiniC
