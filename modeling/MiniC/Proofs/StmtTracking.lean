import MiniC.Proofs.ExprTracking

/-!
# Statements and definitions in step

The parsers of statements and definitions go in step with themselves on other streams, for the
phrases of the grammar. An `else` is taken with the nearest `if` in both runs, so the grammar may
leave open which `if` it belongs to.
-/

namespace MiniC

open TokenStream

instance : Nonempty Stmt := ⟨.brk⟩

instance : Nonempty Declarator := ⟨⟨"", .i32, none⟩⟩

instance : Nonempty Param := ⟨⟨"", .i32⟩⟩

namespace Grammar

lemma exists_statement :
    ∃ more : List Token, Phrase (Statement false) (more.map .withoutVoid) :=
  ⟨[⟨.keyword .breakKw, "", .start⟩, ⟨.symbol .semicolon, "", .start⟩], .brk, .brk rfl rfl⟩

/-- `{ statement* }` -/
def Braced (ts : List Token) : Prop :=
  ∃ l inner r body, ts = l :: (inner ++ [r]) ∧ l.kind = .symbol .leftBrace ∧
    Sequence (Statement false) inner body ∧ r.kind = .symbol .rightBrace

end Grammar

namespace Parser

open Grammar

/-- A block is not complete in front of the end of a file. -/
lemma statementsFrom_not_ok {nested : Parser Stmt} {n : Nat} {t t' : TokenStream}
    {ss : List Stmt} (hend : t.current.kind = .endOfFile) :
    statementsFrom nested n t ≠ .ok ss t' := by
  intro hrun
  cases n with
  | zero => exact unexpected_ok.mp hrun
  | succ n =>
    rw [statementsFrom, peek_bind, if_neg (by simp [hend]), if_pos (by simp [Token.isEof, hend])]
      at hrun
    exact unexpected_ok.mp hrun

lemma statementIn_not_ok {n : Nat} {t t' : TokenStream} {s : Stmt}
    (heof : t.eof.kind = .endOfFile) (hend : t.current.kind = .endOfFile) :
    statementIn n t ≠ .ok s t' := by
  have hreads : ReadsStatements t.eof true (statementIn n) := statementIn_reads heof n
  refine hreads.reads.not_ok (fun {us s} hs => ?_) hend
  obtain ⟨u, us, rfl, hu⟩ := hs.first
  exact ⟨u, us, rfl, fun hkind => by simp [hkind, startsStatement, startsExpression,
    TokenKind.toTy?] at hu⟩

namespace Tracks

variable {eof : Token} (heof : eof.kind = .endOfFile) {m n : Nat} {ts : List Token}

section

include heof

lemma declarator {ty ty' : Ty} (hty' : ty' ≠ .void) :
    Tracks eof ts False m (declarator ty) (declarator ty') (Phrase (Declares ty')) := by
  refine variableName_bind heof hty' fun _ _ t rest ht _ => ?_
  refine accept_bind heof rfl (by simp) (fun o rest ho _ => ?_) fun _ => ?_
  · refine (expression heof _ rest).bind fun _ _ us rest ⟨e, he⟩ _ => ?_
    exact Tracks.pure id ⟨_, by simpa using Declares.initialized ht hty' ho he⟩ _ _
  · exact Tracks.pure id ⟨_, .plain ht hty'⟩ _ _

lemma declaration : Tracks eof ts False m declaration declaration (Phrase Declaration) := by
  refine typeName_bind heof fun _ ty' t rest ht hty' _ => ?_
  refine (Tracks.commaSeparated heof fun rest _ => declarator heof hty').bind
    fun _ _ us rest ⟨ds, hds⟩ _ => ?_
  refine expect_bind heof rfl (by simp) fun _ _ semicolon rest hsemicolon _ => ?_
  exact Tracks.pure id ⟨_, .mk ht hds hsemicolon⟩ _ _

lemma expressionStatement :
    Tracks eof ts False m expressionStatement expressionStatement
      (Phrase ExpressionStatement) := by
  refine (expression heof m ts).bind fun _ _ us rest ⟨e, he⟩ _ => ?_
  refine expect_bind heof rfl (by simp) fun _ _ semicolon rest hsemicolon _ => ?_
  exact Tracks.pure id ⟨_, .mk he hsemicolon⟩ _ _

lemma parenthesizedCondition (context : String) :
    Tracks eof ts False m (parenthesizedCondition context) (parenthesizedCondition context)
      (Phrase Condition) := by
  refine expect_bind heof rfl (by simp) fun _ _ l rest hl _ => ?_
  refine (expression heof _ rest).bind fun _ _ us rest ⟨e, he⟩ _ => ?_
  refine expect_bind heof rfl (by simp) fun _ _ r rest hr _ => ?_
  exact Tracks.pure id ⟨_, .mk hl (tested_iff.mpr ⟨e, he, rfl⟩) hr⟩ _ _

lemma forInit : Tracks eof ts False m forInit forInit (Phrase LoopStart) := by
  refine accept_bind heof rfl (by simp) (fun semicolon rest hsemicolon _ => ?_) fun _ => ?_
  · exact Tracks.pure id ⟨_, .empty hsemicolon⟩ _ _
  · refine peek_bind (ite ?_ (fun _ => ?_) fun _ => ?_)
    · rw [Token.withoutVoid_kind (fun kind => kind.toTy?.isSome) rfl]
    · refine (declaration heof).bind fun _ _ us rest ⟨s, hs⟩ _ => ?_
      exact Tracks.pure id ⟨_, by simpa using LoopStart.declaration hs⟩ _ _
    · refine (expressionStatement heof).bind fun _ _ us rest ⟨s, hs⟩ _ => ?_
      exact Tracks.pure id ⟨_, by simpa using LoopStart.expression hs⟩ _ _

lemma expressionUnless {stop : TokenKind} (hstop : stop.toTy? = none) :
    Tracks eof ts False m (expressionUnless stop) (expressionUnless stop)
      (Phrase (Optional (Derives .expression))) := by
  refine peek_bind (ite (Token.withoutVoid_kind_iff hstop) (fun _ => ?_) fun _ => ?_)
  · exact Tracks.pure id ⟨_, .none⟩ _ _
  · refine (expression heof m ts).bind fun _ _ us rest ⟨e, he⟩ _ => ?_
    exact Tracks.pure id ⟨_, by simpa using Optional.some he⟩ _ _

lemma returnStatement (hk : (current ⟨ts, eof⟩).kind = .keyword .returnKw) :
    Tracks eof ts False m returnStatement returnStatement (Phrase (Statement false)) := by
  refine advance_bind heof (by simp [hk]) ?_
  rintro - - k rest rfl
  have hk' : k.withoutVoid.kind = .keyword .returnKw := (Token.withoutVoid_kind_iff rfl).mpr hk
  refine accept_bind heof rfl (by simp) (fun semicolon rest hsemicolon _ => ?_) fun _ => ?_
  · exact Tracks.pure id ⟨.ret none, Statement.ret hk' .none hsemicolon⟩ _ _
  · refine (expression heof _ rest).bind fun _ _ us rest ⟨e, he⟩ _ => ?_
    refine expect_bind heof rfl (by simp) fun _ _ semicolon rest hsemicolon _ => ?_
    exact Tracks.pure id ⟨_, .ret hk' (.some he) hsemicolon⟩ _ _

lemma keywordStatement {s : Stmt} {context : String} {keyword : Keyword}
    (hkeyword : (TokenKind.keyword keyword).toTy? = none)
    (hk : (current ⟨ts, eof⟩).kind = .keyword keyword)
    (hs : ∀ k semicolon : Token, k.kind = .keyword keyword →
      semicolon.kind = .symbol .semicolon → Statement false [k, semicolon] s) :
    Tracks eof ts False m (keywordStatement s context) (keywordStatement s context)
      (Phrase (Statement false)) := by
  refine advance_bind heof (by simp [hk]) ?_
  rintro - - k rest rfl
  have hk' : k.withoutVoid.kind = .keyword keyword :=
    (Token.withoutVoid_kind_iff hkeyword).mpr hk
  refine expect_bind heof rfl (by simp) fun _ _ semicolon rest hsemicolon _ => ?_
  exact Tracks.pure id ⟨s, hs _ _ hk' hsemicolon⟩ _ _

variable {nested nested' : Parser Stmt} (hnested : ∀ rest, rest.length ≤ n →
    Tracks eof rest False m nested nested' (Phrase (Statement false)))

include hnested

/-- The loop over the statements of a block, with fuel for all tokens of both streams. -/
lemma statementsFrom {k : Nat} (hts : ts.length ≤ n) (hk : k ≤ m) :
    Tracks eof ts False k (statementsFrom nested n) (statementsFrom nested' k)
      (Phrase (Sequence (Statement false))) := by
  have hnil : ∃ more : List Token,
      Phrase (Sequence (Statement false)) (more.map .withoutVoid) := ⟨[], [], .nil⟩
  induction n generalizing ts k with
  | zero =>
    have hempty : ts = [] := List.length_eq_zero_iff.mp (Nat.le_zero.mp hts)
    exact (Tracks.unexpected id hnil _ "").congr_of_end heof (Or.inl hempty)
      fun _ hend hrun => absurd hrun (statementsFrom_not_ok hend)
  | succ n ih =>
    have hstep : Tracks eof ts False k (Parser.statementsFrom nested (n + 1))
        (Parser.statementsFrom nested' (k - 1 + 1)) (Phrase (Sequence (Statement false))) := by
      refine peek_bind (ite (Token.withoutVoid_kind_iff rfl) (fun _ => ?_) fun _ => ?_)
      · exact Tracks.pure id ⟨[], .nil⟩ _ _
      refine ite ?_ (fun _ => Tracks.unexpected id hnil _ _) fun _ => ?_
      · rw [Token.isEof, Token.isEof, Token.withoutVoid_kind (· == .endOfFile) rfl]
      refine ((hnested ts hts).mono id hk).bind ?_
      rintro - - us rest ⟨s, hs⟩ hrest
      obtain ⟨u, us, rfl, -⟩ := hs.first
      rw [List.length_cons] at hrest
      have hmore : Tracks eof rest False (k - 1) (Parser.statementsFrom nested n)
          (Parser.statementsFrom nested' (k - 1)) (Phrase (Sequence (Statement false))) :=
        ih (fun rest h => hnested rest (by omega)) (by omega) (by omega)
      have hbound : k - (u :: us).length ≤ k - 1 := by
        rw [List.length_cons]
        omega
      refine (hmore.mono id hbound).bind ?_
      rintro - - vs rest ⟨ss, hss⟩ -
      exact Tracks.pure id ⟨_, by simpa using Sequence.cons hs hss⟩ _ _
    cases k with
    | zero => exact hstep.congr rfl fun _ _ _ hrun => (unexpected_ok.mp hrun).elim
    | succ k => exact hstep

lemma blockWith (hts : ts.length ≤ n + 1) :
    Tracks eof ts False (m + 1) (blockWith nested) (blockWith nested') Braced := by
  refine expect_bind heof rfl (by simp) fun _ _ l rest hl hrest => ?_
  refine remaining_bind fun k hk => ?_
  have hbody := statementsFrom heof (fun rest' h => hnested rest' (by omega))
    (Nat.le_refl rest.length) hk
  refine hbody.bind fun _ _ us rest ⟨body, hbody⟩ _ => ?_
  refine expect_bind heof rfl (by simp) fun _ _ r rest hr _ => ?_
  exact Tracks.pure id ⟨l, us, r, body, rfl, hl, hbody, hr⟩ _ _

lemma ifStatement (hts : ts.length ≤ n + 1) (hk : (current ⟨ts, eof⟩).kind = .keyword .ifKw) :
    Tracks eof ts False (m + 1) (ifStatement nested) (ifStatement nested')
      (Phrase (Statement false)) := by
  refine advance_bind heof (by simp [hk]) ?_
  rintro - - k rest rfl
  have hk' : k.withoutVoid.kind = .keyword .ifKw := (Token.withoutVoid_kind_iff rfl).mpr hk
  rw [List.length_cons] at hts
  refine (parenthesizedCondition heof _).bind fun _ _ cs rest ⟨condition, hc⟩ hrest => ?_
  refine ((hnested rest (by omega)).mono id (by omega)).bind
    fun _ _ us rest ⟨onTrue, htrue⟩ hrest => ?_
  refine accept_bind heof rfl (by simp) (fun l rest hl hrest => ?_) fun _ => ?_
  · refine ((hnested rest (by omega)).mono id (by omega)).bind
      fun _ _ vs rest ⟨onFalse, hfalse⟩ _ => ?_
    have helse := Statement.ifElse hk' hc htrue hl nofun hfalse
    exact Tracks.pure id ⟨_, by simpa using helse⟩ _ _
  · exact Tracks.pure id ⟨_, by simpa using Statement.ifThen hk' hc htrue⟩ _ _

lemma whileStatement (hts : ts.length ≤ n + 1)
    (hk : (current ⟨ts, eof⟩).kind = .keyword .whileKw) :
    Tracks eof ts False (m + 1) (whileStatement nested) (whileStatement nested')
      (Phrase (Statement false)) := by
  refine advance_bind heof (by simp [hk]) ?_
  rintro - - k rest rfl
  have hk' : k.withoutVoid.kind = .keyword .whileKw := (Token.withoutVoid_kind_iff rfl).mpr hk
  rw [List.length_cons] at hts
  refine (parenthesizedCondition heof _).bind fun _ _ cs rest ⟨condition, hc⟩ hrest => ?_
  refine ((hnested rest (by omega)).mono id (by omega)).bind fun _ _ us rest ⟨body, hbody⟩ _ => ?_
  exact Tracks.pure id ⟨_, by simpa using Statement.whileLoop hk' hc hbody⟩ _ _

lemma forStatement (hts : ts.length ≤ n + 1) (hk : (current ⟨ts, eof⟩).kind = .keyword .forKw) :
    Tracks eof ts False (m + 1) (forStatement nested) (forStatement nested')
      (Phrase (Statement false)) := by
  refine advance_bind heof (by simp [hk]) ?_
  rintro - - k rest rfl
  have hk' : k.withoutVoid.kind = .keyword .forKw := (Token.withoutVoid_kind_iff rfl).mpr hk
  rw [List.length_cons] at hts
  refine expect_bind heof rfl (by simp) fun _ _ l rest hl hrest => ?_
  refine (forInit heof).bind fun _ _ is rest ⟨init, hinit⟩ hrest => ?_
  refine (expressionUnless heof rfl).bind fun _ _ cs rest ⟨condition, hc⟩ hrest => ?_
  refine expect_bind heof rfl (by simp) fun _ _ semicolon rest hsemicolon hrest => ?_
  refine (expressionUnless heof rfl).bind fun _ _ ss rest ⟨step, hstep⟩ hrest => ?_
  refine expect_bind heof rfl (by simp) fun _ _ r rest hr hrest => ?_
  refine ((hnested rest (by omega)).mono id (by omega)).bind fun _ _ us rest ⟨body, hbody⟩ _ => ?_
  have htested := optional_tested_iff.mpr ⟨_, hc, rfl⟩
  have hloop := Statement.forLoop hk' hl hinit htested hsemicolon hstep hr hbody
  exact Tracks.pure id ⟨_, by simpa using hloop⟩ _ _

lemma statementWith (hts : ts.length ≤ n + 1) :
    Tracks eof ts False (m + 1) (statementWith nested) (statementWith nested')
      (Phrase (Statement false)) := by
  have hexpression : Tracks eof ts False (m + 1) Parser.expressionStatement
      Parser.expressionStatement (Phrase (Statement false)) :=
    (expressionStatement heof).imp fun us ⟨s, hs⟩ => ⟨s, .expression hs⟩
  refine peek_bind (ite ?_ (fun _ => ?_) fun htype => ?_)
  · rw [Token.withoutVoid_kind (fun kind => kind.toTy?.isSome) rfl]
  · exact (declaration heof).imp fun us ⟨s, hs⟩ => ⟨s, .declaration hs⟩
  have hcurrent : (current ⟨ts, eof⟩).withoutVoid = current ⟨ts, eof⟩ :=
    Token.withoutVoid_of_ne fun hkind => htype (by simp [hkind, TokenKind.toTy?, Keyword.toTy?])
  rw [hcurrent]
  cases hkind : (current ⟨ts, eof⟩).kind with
  | symbol x =>
    cases x with
    | leftBrace =>
      refine (blockWith heof hnested hts).bind fun _ _ us rest hus _ => ?_
      obtain ⟨l, inner, r, body, rfl, hl, hbody, hr⟩ := hus
      exact Tracks.pure id ⟨_, by simpa using Statement.block hl hbody hr⟩ _ _
    | _ => exact hexpression
  | keyword k =>
    cases k with
    | ifKw => exact ifStatement heof hnested hts hkind
    | whileKw => exact whileStatement heof hnested hts hkind
    | forKw => exact forStatement heof hnested hts hkind
    | returnKw => exact returnStatement heof hkind
    | breakKw => exact keywordStatement heof rfl hkind fun _ _ => .brk
    | continueKw => exact keywordStatement heof rfl hkind fun _ _ => .cont
    | _ => exact hexpression
  | _ => exact hexpression

end

/-- Statements go in step, with fuel for all tokens of both streams. -/
theorem statementIn (heof : eof.kind = .endOfFile) (n : Nat) : ∀ m ts, ts.length ≤ n →
    Tracks eof ts False m (statementIn n) (statementIn m) (Phrase (Statement false)) := by
  induction n with
  | zero =>
    intro m ts hts
    have hempty : ts = [] := List.length_eq_zero_iff.mp (Nat.le_zero.mp hts)
    exact (Tracks.unexpected id exists_statement _ "").congr_of_end heof (Or.inl hempty)
      fun heof' hend hrun => absurd hrun (statementIn_not_ok heof' hend)
  | succ n ih =>
    intro m ts hts
    cases m with
    | zero =>
      have hfirst : Tracks eof ts False 1 (Parser.statementIn (n + 1)) (Parser.statementIn 1)
          (Phrase (Statement false)) := statementWith heof (ih 0) hts
      exact (hfirst.mono id (Nat.zero_le 1)).congr rfl
        fun _ _ _ hrun => (unexpected_ok.mp hrun).elim
    | succ m => exact statementWith heof (ih m) hts

section

include heof

lemma block : Tracks eof ts False m block block Braced := by
  refine remaining_bind fun k _ => ?_
  have hblock := blockWith heof (statementIn heof ts.length k) (Nat.le_succ ts.length)
  exact hblock.mono id (Nat.le_succ k)

lemma param : Tracks eof ts False m param param (Phrase Parameter) := by
  refine typeName_bind heof fun _ ty t rest ht hty _ => ?_
  refine variableName_bind heof hty fun _ _ name rest hname _ => ?_
  exact Tracks.pure id ⟨_, .mk ht hty hname⟩ _ _

/-- Definitions go in step. -/
theorem definition : Tracks eof ts False m definition definition (Phrase (Defines false)) := by
  refine typeName_bind heof fun _ ty t rest ht _ _ => ?_
  refine expect_bind heof rfl (by simp) fun _ _ name rest hname _ => ?_
  rw [paramList_eq]
  simp only [bind_assoc, pure_bind]
  refine expect_bind heof rfl (by simp) fun _ _ l rest hl _ => ?_
  refine (itemsUnless heof rfl fun rest _ => param heof).bind fun _ _ ps rest ⟨params, hps⟩ _ => ?_
  refine expect_bind heof rfl (by simp) fun _ _ r rest hr _ => ?_
  refine (block heof).bind fun _ _ us rest hus _ => ?_
  obtain ⟨lb, inner, rb, body, rfl, hlb, hbody, hrb⟩ := hus
  have hdefines := Defines.mk ht hname hl hps hr hlb hbody hrb
  exact Tracks.pure id ⟨_, by simpa using hdefines⟩ _ _

end

end Tracks

end Parser

end MiniC
