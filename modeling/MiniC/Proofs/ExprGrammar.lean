import MiniC.Proofs.ParserSteps
import MiniC.Proofs.Tokenization

/-!
# Parsing expressions by the grammar

Each level of the parser takes exactly the phrases of its level of the grammar, if the parsers for
the expressions inside do so for shorter phrases.
-/

namespace MiniC

namespace Grammar

/-- How loosely a token binds that stands behind an operand, and 0 if it cannot stand there. -/
def looseness : TokenKind → Nat
  | .symbol s =>
    match s with
    | .star | .slash | .percent => 1
    | .plus | .minus => 2
    | .less | .lessEqual | .greater | .greaterEqual | .equalEqual | .bangEqual => 3
    | .ampAmp => 4
    | .pipePipe => 5
    | .question => 6
    | .equal | .plusEqual | .minusEqual | .starEqual | .slashEqual => 7
    | .semicolon | .rightParen | .comma | .colon => 8
    | _ => 0
  | _ => 0

def Tier.rank : Tier → Nat
  | .multiplicative => 1
  | .additive => 2
  | .comparison => 3
  | .conjunction => 4
  | .disjunction => 5

def Level.rank : Level → Nat
  | .primary | .increment => 0
  | .tier t => t.rank
  | .conditional => 6
  | .expression => 7

/-- Whether a token may stand behind a phrase of the level: it binds looser than the phrase. -/
def Level.Follows (level : Level) (kind : TokenKind) : Prop := level.rank < looseness kind

instance (level : Level) (kind : TokenKind) : Decidable (level.Follows kind) :=
  inferInstanceAs (Decidable (level.rank < looseness kind))

/-- The table of the operators of a tier. -/
def Tier.operator? : Tier → TokenKind → Option (Expr → Expr → Expr)
  | .multiplicative => Parser.multiplicative?
  | .additive => Parser.additive?
  | .comparison => Parser.comparison?
  | .conjunction => Parser.conjunction?
  | .disjunction => Parser.disjunction?

lemma Tier.rank_operand (tier : Tier) : tier.operand.rank < tier.rank := by
  cases tier <;> decide

/-- The condition that the parser makes of an expression is what stands for it as a condition. -/
lemma test_iff {e condition : Expr} : Test e condition ↔ condition = e.toCondition := by
  rw [Expr.toCondition]
  constructor
  · rintro (h | h) <;> simp [h]
  · rintro rfl
    cases h : e.isBoolean with
    | true => exact .kept h
    | false => exact .cast h

/-- Every expression can stand where a condition is asked for. -/
lemma test_toCondition (e : Expr) : Test e e.toCondition := test_iff.mpr rfl

lemma tested_iff {ts : List Token} {condition : Expr} : Tested ts condition ↔
    ∃ e, Derives .expression ts e ∧ condition = e.toCondition := by
  constructor
  · rintro ⟨h, hcondition⟩
    exact ⟨_, h, test_iff.mp hcondition⟩
  · rintro ⟨e, h, hcondition⟩
    exact .mk h (test_iff.mpr hcondition)

lemma optional_tested_iff {ts : List Token} {o : Option Expr} : Optional Tested ts o ↔
    ∃ value, Optional (Derives .expression) ts value ∧ o = value.map Expr.toCondition := by
  constructor
  · rintro (- | h)
    · exact ⟨none, .none, rfl⟩
    · obtain ⟨e, he, rfl⟩ := tested_iff.mp h
      exact ⟨some e, .some he, rfl⟩
  · rintro ⟨value, h, rfl⟩
    cases h with
    | none => exact .none
    | some h => exact .some (tested_iff.mpr ⟨_, h, rfl⟩)

/-- The number that the parser reads from a float literal is the one that it stands for. -/
lemma decimal_iff {lexeme : String} {x : Binary64} :
    Decimal lexeme.toList x ↔ x = Parser.floatLiteral lexeme := by
  rw [Parser.floatLiteral]
  generalize lexeme.toList = cs
  constructor
  · rintro ⟨hwhole, hrest⟩
    obtain ⟨htake, hdrop⟩ := split_run hwhole hrest
    rw [htake, hdrop]
  · rintro rfl
    have hwhole : ∀ c ∈ cs.takeWhile Char.isDigit, c.isDigit = true :=
      fun c hc => List.mem_takeWhile_imp hc
    have hrest : ∀ c ∈ (cs.dropWhile Char.isDigit).head?, c.isDigit = false :=
      fun c hc => by simpa [Option.mem_def.mp hc] using List.head?_dropWhile_not Char.isDigit cs
    have hvalue := Decimal.mk hwhole hrest
    rwa [List.takeWhile_append_dropWhile] at hvalue

lemma Joined.looseness_eq {left right e : Expr} {tier : Tier} {s : Symbol}
    (h : Joined left right tier s e) : looseness (.symbol s) = tier.rank := by
  cases h <;> rfl

lemma Joined.table {left right e : Expr} {tier : Tier} {s : Symbol}
    (h : Joined left right tier s e) :
    ∃ build, tier.operator? (.symbol s) = some build ∧ build left right = e := by
  cases h with
  | and hl hr | or hl hr =>
    obtain rfl := test_iff.mp hl
    obtain rfl := test_iff.mp hr
    exact ⟨_, rfl, rfl⟩
  | _ => exact ⟨_, rfl, rfl⟩

lemma Tier.joined_of_table {tier : Tier} {kind : TokenKind} {build : Expr → Expr → Expr}
    (h : tier.operator? kind = some build) :
    ∃ s, kind = .symbol s ∧ ∀ left right, Joined left right tier s (build left right) := by
  cases tier with
  | multiplicative =>
    simp only [operator?, Parser.multiplicative?] at h
    split at h <;> cases h
    exacts [⟨_, rfl, fun _ _ => .mul⟩, ⟨_, rfl, fun _ _ => .div⟩, ⟨_, rfl, fun _ _ => .rem⟩]
  | additive =>
    simp only [operator?, Parser.additive?] at h
    split at h <;> cases h
    exacts [⟨_, rfl, fun _ _ => .add⟩, ⟨_, rfl, fun _ _ => .sub⟩]
  | comparison =>
    simp only [operator?, Parser.comparison?] at h
    split at h <;> cases h
    exacts [⟨_, rfl, fun _ _ => .less⟩, ⟨_, rfl, fun _ _ => .lessEqual⟩,
      ⟨_, rfl, fun _ _ => .greater⟩, ⟨_, rfl, fun _ _ => .greaterEqual⟩,
      ⟨_, rfl, fun _ _ => .equal⟩, ⟨_, rfl, fun _ _ => .notEqual⟩]
  | conjunction =>
    simp only [operator?, Parser.conjunction?] at h
    split at h <;> cases h
    exact ⟨_, rfl, fun _ _ => .and (test_toCondition _) (test_toCondition _)⟩
  | disjunction =>
    simp only [operator?, Parser.disjunction?] at h
    split at h <;> cases h
    exact ⟨_, rfl, fun _ _ => .or (test_toCondition _) (test_toCondition _)⟩

/-- Behind a tier stands no operator of the tier. -/
lemma Tier.operator?_eq_none {tier : Tier} {kind : TokenKind} (h : (Level.tier tier).Follows kind) :
    tier.operator? kind = none := by
  cases hkind : tier.operator? kind with
  | none => rfl
  | some build =>
    obtain ⟨s, rfl, hs⟩ := joined_of_table hkind
    rw [Level.Follows, (hs (.int 0) (.int 0)).looseness_eq] at h
    exact absurd h (Nat.lt_irrefl _)

lemma endsOperand_iff {kind : TokenKind} : Parser.endsOperand kind = true ↔ 0 < looseness kind := by
  cases kind with
  | symbol s => cases s <;> decide
  | _ => simp [Parser.endsOperand, looseness, TokenKind.isBinary, TokenKind.isAssignment]

lemma Increment.delta?_eq {s : Symbol} {delta : Int} (h : Increment s delta) :
    Parser.delta? (.symbol s) = some delta := by
  cases h <;> rfl

lemma increment_of_delta? {kind : TokenKind} {delta : Int} (h : Parser.delta? kind = some delta) :
    ∃ s, kind = .symbol s ∧ Increment s delta := by
  simp only [Parser.delta?] at h
  split at h <;> cases h
  exacts [⟨_, rfl, .up⟩, ⟨_, rfl, .down⟩]

lemma Stored.eq_assignedValue {target : String} {rhs value : Expr} {s : Symbol}
    (h : Stored target rhs s value) :
    s.isAssignment = true ∧ Parser.assignedValue target rhs (.symbol s) = value := by
  cases h <;> exact ⟨rfl, rfl⟩

lemma stored_assignedValue (target : String) (rhs : Expr) {kind : TokenKind}
    (h : kind.isAssignment = true) :
    ∃ s, kind = .symbol s ∧ Stored target rhs s (Parser.assignedValue target rhs kind) := by
  cases kind with
  | symbol s =>
    refine ⟨s, rfl, ?_⟩
    cases s <;> first | exact .plain | exact .add | exact .sub | exact .mul | exact .div | cases h
  | _ => cases h

end Grammar

namespace Parser

open Grammar TokenStream

/-- A call reads its arguments up to the closing parenthesis. -/
lemma call_eq (nested : Parser Expr) : call nested = do
    let callee ← advance
    let _ ← expect (.symbol .leftParen) "function call"
    let arguments ← itemsUnless (.symbol .rightParen) nested
    let _ ← expect (.symbol .rightParen) "function call"
    return .call callee.lexeme arguments := by
  simp only [itemsUnless_bind]
  rfl

section

variable {eof : Token} (heof : eof.kind = .endOfFile) {nested nestedConditional : Parser Expr}

include heof

lemma call_reads (hnested : Reads eof nested (Derives .expression)) {t : Token} {ts : List Token}
    {e : Expr} {s' : TokenStream} (ht : t.kind = .identifier)
    (h : call nested ⟨t :: ts, eof⟩ = .ok e s') :
    ∃ used rest, t :: ts = used ++ rest ∧ ⟨rest, eof⟩ = s' ∧ Derives .primary used e := by
  have hkind : ∀ s, TokenKind.symbol s ≠ .endOfFile := by simp
  simp only [call_eq, advance_bind, current_cons, advance_cons, bind_ok, pure_ok] at h
  obtain ⟨l, _, hleft, es, _, hitems, r, _, hright, rfl, rfl⟩ := h
  obtain ⟨rest, rfl, hl, rfl⟩ := (expect_ok heof (hkind _)).mp hleft
  obtain ⟨used, rest', rfl, rfl, items, hes, rfl⟩ := itemsUnless_reads heof hnested _ _ _ _ hitems
  obtain ⟨rest'', rfl, hr, rfl⟩ := (expect_ok heof (hkind _)).mp hright
  exact ⟨t :: l :: (used ++ [r]), rest'', by simp, rfl, .call ht hl hes hr⟩

lemma primaryWith_reads (hnested : Reads eof nested (Derives .expression)) :
    Reads eof (primaryWith nested) (Derives .primary) := by
  intro ts e s' h
  rw [primaryWith, peek_bind] at h
  cases ts with
  | nil =>
    rw [current_nil, heof] at h
    exact (unexpected_ok.mp h).elim
  | cons t rest =>
    rw [current_cons] at h
    cases hkind : t.kind with
    | intLiteral =>
      simp only [hkind, advance_bind, current_cons, intLiteral?] at h
      by_cases hvalue : natOfDigits t.lexeme.toList ≤ 2147483647
      · simp only [hvalue, if_true, pure_ok] at h
        obtain ⟨rfl, rfl⟩ := h
        exact ⟨[t], rest, rfl, rfl, .int hkind hvalue⟩
      · simp only [hvalue, if_false, throw_ok] at h
    | floatLiteral =>
      simp only [hkind, advance_bind, pure_ok] at h
      obtain ⟨rfl, rfl⟩ := h
      exact ⟨[t], rest, rfl, rfl, .float hkind (decimal_iff.mpr rfl)⟩
    | identifier =>
      simp only [hkind, peekNext_bind, ite_ok] at h
      rcases h with ⟨-, h⟩ | ⟨-, h⟩
      · exact call_reads heof hnested hkind h
      · rw [advance_bind, pure_ok] at h
        obtain ⟨rfl, rfl⟩ := h
        exact ⟨[t], rest, rfl, rfl, .var hkind⟩
    | symbol s =>
      rw [hkind] at h
      cases s with
      | leftParen =>
        simp only [advance_bind, advance_cons, bind_ok, pure_ok] at h
        obtain ⟨e, _, hinner, r, _, hright, rfl, rfl⟩ := h
        obtain ⟨used, rest', rfl, rfl, he⟩ := hnested _ _ _ hinner
        obtain ⟨rest'', rfl, hr, rfl⟩ := (expect_ok heof (by simp)).mp hright
        exact ⟨t :: (used ++ [r]), rest'', by simp, rfl, .parenthesized hkind he hr⟩
      | _ => exact (unexpected_ok.mp h).elim
    | _ =>
      rw [hkind] at h
      exact (unexpected_ok.mp h).elim

lemma incrementWith_reads (hnested : Reads eof nested (Derives .expression)) :
    Reads eof (incrementWith nested) (Derives .increment) := by
  have hprimary : ∀ {ts e s'}, primaryWith nested ⟨ts, eof⟩ = .ok e s' →
      ∃ used rest, ts = used ++ rest ∧ ⟨rest, eof⟩ = s' ∧ Derives .increment used e := by
    intro ts e s' h
    obtain ⟨used, rest, hts, hs, he⟩ := primaryWith_reads heof hnested _ _ _ h
    exact ⟨used, rest, hts, hs, .primary he⟩
  intro ts e s' h
  rw [incrementWith, peek_bind] at h
  cases hdelta : delta? (current ⟨ts, eof⟩).kind with
  | some delta =>
    obtain ⟨s, hkind, hs⟩ := increment_of_delta? hdelta
    obtain ⟨o, rest, rfl⟩ := exists_cons heof hkind (by simp)
    simp only [hdelta, advance_bind, advance_cons, bind_ok, pure_ok] at h
    obtain ⟨t, _, hname, rfl, rfl⟩ := h
    obtain ⟨rest', rfl, ht, rfl⟩ := (expect_ok heof (by simp)).mp hname
    exact ⟨[o, t], rest', rfl, rfl, .preIncrement hkind hs ht⟩
  | none =>
    simp only [hdelta, peekNext_bind] at h
    cases hkind : (current ⟨ts, eof⟩).kind with
    | identifier =>
      obtain ⟨t, rest, rfl⟩ := exists_cons heof hkind (by simp)
      cases hnext : delta? (next ⟨t :: rest, eof⟩).kind with
      | none =>
        simp only [hkind, hnext] at h
        exact hprimary h
      | some delta =>
        obtain ⟨s, ho, hs⟩ := increment_of_delta? hnext
        obtain ⟨o, rest, rfl⟩ := exists_cons heof ho (by simp)
        simp only [hkind, hnext, advance_bind, advance_cons, pure_ok] at h
        obtain ⟨rfl, rfl⟩ := h
        exact ⟨[t, o], rest, rfl, rfl, .postIncrement hkind ho hs⟩
    | _ =>
      simp only [hkind] at h
      exact hprimary h

/-- The loop over the operators of a tier goes on from a phrase that is read already. -/
lemma chainFrom_reads {tier : Tier} {operand : Parser Expr}
    (hoperand : Reads eof operand (Derives tier.operand)) {n : Nat} {before ts : List Token}
    {left e : Expr} {s' : TokenStream} (hleft : Derives (.tier tier) before left)
    (h : chainFrom tier.operator? operand n left ⟨ts, eof⟩ = .ok e s') :
    ∃ used rest, ts = used ++ rest ∧ ⟨rest, eof⟩ = s' ∧
      Derives (.tier tier) (before ++ used) e := by
  induction n generalizing before ts left with
  | zero =>
    obtain ⟨rfl, rfl⟩ := pure_ok.mp h
    exact ⟨[], ts, rfl, rfl, by simpa using hleft⟩
  | succ n ih =>
    rw [chainFrom, peek_bind] at h
    cases hoperator : tier.operator? (current ⟨ts, eof⟩).kind with
    | none =>
      simp only [hoperator, pure_ok] at h
      obtain ⟨rfl, rfl⟩ := h
      exact ⟨[], ts, rfl, rfl, by simpa using hleft⟩
    | some build =>
      obtain ⟨s, ho, hs⟩ := Tier.joined_of_table hoperator
      obtain ⟨o, rest, rfl⟩ := exists_cons heof ho (by simp)
      simp only [hoperator, advance_bind, advance_cons, bind_ok] at h
      obtain ⟨right, _, hrightRun, h⟩ := h
      obtain ⟨us, rest, rfl, rfl, hright⟩ := hoperand _ _ _ hrightRun
      obtain ⟨vs, rest, rfl, rfl, he⟩ := ih (.binary hleft ho hright (hs _ _)) h
      exact ⟨o :: (us ++ vs), rest, by simp, rfl, by simpa using he⟩

lemma chain_reads (tier : Tier) {level : String} {operand : Parser Expr}
    (hoperand : Reads eof operand (Derives tier.operand)) :
    Reads eof (chain level tier.operator? operand) (Derives (.tier tier)) := by
  intro ts e s' h
  simp only [chain, bind_ok, remaining_bind, expectOperandEnd, peek_bind, ite_ok, pure_ok,
    unexpected_ok, and_false, or_false] at h
  obtain ⟨left, _, hleftRun, e, _, hchain, -, _, ⟨-, -, rfl⟩, rfl, rfl⟩ := h
  obtain ⟨us, rest, rfl, rfl, hleft⟩ := hoperand _ _ _ hleftRun
  obtain ⟨vs, rest, rfl, rfl, he⟩ := chainFrom_reads heof hoperand (.operand hleft) hchain
  exact ⟨us ++ vs, rest, by simp, rfl, he⟩

lemma logicalOrWith_reads (hnested : Reads eof nested (Derives .expression)) :
    Reads eof (logicalOrWith nested) (Derives (.tier .disjunction)) := by
  have hmultiplicative : Reads eof (multiplicativeWith nested) (Derives (.tier .multiplicative)) :=
    chain_reads heof .multiplicative (incrementWith_reads heof hnested)
  have hadditive : Reads eof (additiveWith nested) (Derives (.tier .additive)) :=
    chain_reads heof .additive hmultiplicative
  have hcomparison : Reads eof (comparisonWith nested) (Derives (.tier .comparison)) :=
    chain_reads heof .comparison hadditive
  have hconjunction : Reads eof (logicalAndWith nested) (Derives (.tier .conjunction)) :=
    chain_reads heof .conjunction hcomparison
  exact chain_reads heof .disjunction hconjunction

lemma conditionalWith_reads (hnested : Reads eof nested (Derives .expression))
    (hconditional : Reads eof nestedConditional (Derives .conditional)) :
    Reads eof (conditionalWith nested nestedConditional) (Derives .conditional) := by
  intro ts e s' h
  simp only [conditionalWith, bind_ok, ite_ok, pure_ok] at h
  obtain ⟨condition, _, htestRun, b, _, haccept, h⟩ := h
  obtain ⟨cs, rest, rfl, rfl, hcondition⟩ := logicalOrWith_reads heof hnested _ _ _ htestRun
  rcases (accept_ok heof (by simp)).mp haccept with
    ⟨q, rest, rfl, hq, rfl, rfl⟩ | ⟨-, rfl, rfl⟩
  · rcases h with ⟨-, onTrue, _, htrueRun, c, _, hcolon, onFalse, _, hfalseRun, rfl, rfl⟩ | ⟨hb, -⟩
    · obtain ⟨us, rest, rfl, rfl, htrue⟩ := hnested _ _ _ htrueRun
      obtain ⟨rest, rfl, hc, rfl⟩ := (expect_ok heof (by simp)).mp hcolon
      obtain ⟨vs, rest, rfl, rfl, hfalse⟩ := hconditional _ _ _ hfalseRun
      exact ⟨cs ++ q :: (us ++ c :: vs), rest, by simp, rfl,
        .conditional hcondition (test_toCondition _) hq htrue hc hfalse⟩
    · exact absurd rfl hb
  · rcases h with ⟨hb, -⟩ | ⟨-, rfl, rfl⟩
    · cases hb
    · exact ⟨cs, rest, rfl, rfl, .disjunction hcondition⟩

lemma assignmentWith_reads (hnested : Reads eof nested (Derives .expression))
    (hconditional : Reads eof nestedConditional (Derives .conditional)) :
    Reads eof (assignmentWith nested nestedConditional) (Derives .expression) := by
  intro ts e s' h
  rw [assignmentWith, peek_bind, peekNext_bind, ite_ok] at h
  rcases h with ⟨⟨ht, ho⟩, h⟩ | ⟨-, h⟩
  · obtain ⟨t, rest, rfl⟩ := exists_cons heof ht (by simp)
    simp only [advance_bind, advance_cons, current_cons, next_cons, bind_ok, pure_ok] at h ht ho
    obtain ⟨rhs, _, hrhsRun, rfl, rfl⟩ := h
    obtain ⟨s, hs, hstored⟩ := stored_assignedValue t.lexeme rhs ho
    obtain ⟨o, rest, rfl⟩ := exists_cons heof hs (by simp)
    obtain ⟨us, rest, rfl, rfl, hrhs⟩ := hnested _ _ _ hrhsRun
    exact ⟨t :: o :: us, rest, rfl, rfl, .assignment ht hs hstored hrhs⟩
  · simp only [bind_ok, peek_bind, ite_ok, throw_ok, and_false, false_or, pure_ok] at h
    obtain ⟨e, _, hrun, -, rfl, rfl⟩ := h
    obtain ⟨us, rest, rfl, rfl, he⟩ := conditionalWith_reads heof hnested hconditional _ _ _ hrun
    exact ⟨us, rest, rfl, rfl, .unassigned he⟩

/-- With any fuel, only expressions are read. -/
theorem expressionIn_reads (n : Nat) : Reads eof (expressionIn n) (Derives .expression) ∧
    Reads eof (conditionalIn n) (Derives .conditional) := by
  induction n with
  | zero =>
    constructor <;> exact fun ts e s' h => (unexpected_ok.mp h).elim
  | succ n ih =>
    exact ⟨assignmentWith_reads heof ih.1 ih.2, conditionalWith_reads heof ih.1 ih.2⟩

lemma expression_reads : Reads eof expression (Derives .expression) :=
  fun ts e s' h => (expressionIn_reads heof ts.length).1 ts e s' h

end

end Parser

namespace Grammar

open TokenStream

/-- The kinds of token that an expression begins with. -/
def startsExpression : TokenKind → Bool
  | .intLiteral | .floatLiteral | .identifier | .symbol .leftParen | .symbol .plusPlus
  | .symbol .minusMinus => true
  | _ => false

lemma Increment.startsExpression {s : Symbol} {delta : Int} (h : Increment s delta) :
    startsExpression (.symbol s) = true := by
  cases h <;> rfl

theorem Derives.first {level : Level} {ts : List Token} {e : Expr} :
    Derives level ts e → ∃ t rest, ts = t :: rest ∧ startsExpression t.kind = true
  | .int ht _ => ⟨_, _, rfl, by rw [ht]; rfl⟩
  | .float ht _ => ⟨_, _, rfl, by rw [ht]; rfl⟩
  | .var ht => ⟨_, _, rfl, by rw [ht]; rfl⟩
  | .call ht _ _ _ => ⟨_, _, rfl, by rw [ht]; rfl⟩
  | .parenthesized hl _ _ => ⟨_, _, rfl, by rw [hl]; rfl⟩
  | .primary h => h.first
  | .preIncrement ho hs _ => ⟨_, _, rfl, by rw [ho]; exact hs.startsExpression⟩
  | .postIncrement ht _ _ => ⟨_, _, rfl, by rw [ht]; rfl⟩
  | .operand h => h.first
  | .binary h _ _ _ => by
    obtain ⟨t, rest, rfl, ht⟩ := h.first
    exact ⟨t, _, rfl, ht⟩
  | .disjunction h => h.first
  | .conditional h _ _ _ _ _ => by
    obtain ⟨t, rest, rfl, ht⟩ := h.first
    exact ⟨t, _, rfl, ht⟩
  | .unassigned h => h.first
  | .assignment ht _ _ _ => ⟨_, _, rfl, by rw [ht]; rfl⟩

/-- A conditional does not look like the start of an assignment. -/
theorem Derives.no_assignment {level : Level} {ts : List Token} {e : Expr} (rest : List Token)
    {eof : Token} (hrest : (current ⟨rest, eof⟩).kind.isAssignment = false) :
    Derives level ts e → level ≠ .expression → ¬((current ⟨ts ++ rest, eof⟩).kind = .identifier ∧
      (next ⟨ts ++ rest, eof⟩).kind.isAssignment = true)
  | .int ht _, _ => by simp [ht]
  | .float ht _, _ => by simp [ht]
  | .var ht, _ => by simp [hrest]
  | .call ht hl _ _, _ => by simp [hl, TokenKind.isAssignment, Symbol.isAssignment]
  | .parenthesized hl _ _, _ => by simp [hl]
  | .primary h, _ => h.no_assignment rest hrest nofun
  | .preIncrement ho _ _, _ => by simp [ho]
  | .postIncrement _ ho hs, _ => by
    cases hs <;> simp [ho, TokenKind.isAssignment, Symbol.isAssignment]
  | @operand tier _ _ h, _ => h.no_assignment rest hrest (by cases tier <;> nofun)
  | @binary _ _ us o _ _ _ _ h ho _ hs, _ => by
    rw [List.append_assoc]
    refine h.no_assignment (o :: us ++ rest) ?_ nofun
    cases hs <;> simp [ho, TokenKind.isAssignment, Symbol.isAssignment]
  | .disjunction h, _ => h.no_assignment rest hrest nofun
  | @conditional _ ts us q c _ _ _ _ h _ hq _ _ _, _ => by
    rw [List.append_assoc]
    refine h.no_assignment (q :: (ts ++ c :: us) ++ rest) ?_ nofun
    simp [hq, TokenKind.isAssignment, Symbol.isAssignment]
  | .unassigned _, hlevel => absurd rfl hlevel
  | .assignment _ _ _ _, hlevel => absurd rfl hlevel

/-- Operators of a tier with their right operands, behind `left`. -/
inductive Chain (tier : Tier) : Expr → List Token → Expr → Prop where
  | nil (left : Expr) : Chain tier left [] left
  | cons {o : Token} {s : Symbol} {us ts : List Token} {left right mid e : Expr}
      (ho : o.kind = .symbol s) (hright : Derives tier.operand us right)
      (hs : Joined left right tier s mid) (hrest : Chain tier mid ts e) :
      Chain tier left (o :: (us ++ ts)) e

lemma Chain.concat {tier : Tier} {left mid right e : Expr} {ts us : List Token} {o : Token}
    {s : Symbol} (h : Chain tier left ts mid) (ho : o.kind = .symbol s)
    (hright : Derives tier.operand us right) (hs : Joined mid right tier s e) :
    Chain tier left (ts ++ o :: us) e := by
  induction h with
  | nil left => simpa using Chain.cons ho hright hs (.nil e)
  | cons ho' hright' hs' _ ih => simpa using Chain.cons ho' hright' hs' (ih hs)

/-- A phrase of a tier, which is derived from its end, can be read from its start. -/
theorem Derives.chain {tier : Tier} {ts : List Token} {e : Expr} : Derives (.tier tier) ts e →
    ∃ us left vs, ts = us ++ vs ∧ Derives tier.operand us left ∧ Chain tier left vs e
  | .operand h => ⟨ts, e, [], by simp, h, .nil e⟩
  | .binary h ho hright hs => by
    obtain ⟨us, left, vs, rfl, hleft, hchain⟩ := h.chain
    exact ⟨us, left, _, List.append_assoc .., hleft, hchain.concat ho hright hs⟩
termination_by ts.length

end Grammar

namespace Parser

open Grammar TokenStream

section

variable {eof : Token} {nested nestedConditional : Parser Expr} {n : Nat}

lemma call_accepts (hnested : Accepts eof nested (Derives .expression) Level.expression.Follows n)
    (t : Token) {l r : Token} {ts : List Token} {arguments : Option (List Expr)}
    (rest : List Token) (hl : l.kind = .symbol .leftParen) (hr : r.kind = .symbol .rightParen)
    (h : Optional (CommaSeparated (Derives .expression)) ts arguments) (hlength : ts.length ≤ n) :
    call nested ⟨t :: l :: (ts ++ [r]) ++ rest, eof⟩ =
      .ok (.call t.lexeme (arguments.getD [])) ⟨rest, eof⟩ := by
  have hfirst : ∀ us e more, Derives .expression us e →
      (current ⟨us ++ more, eof⟩).kind ≠ .symbol .rightParen := by
    intro us e more he
    obtain ⟨u, us, rfl, hu⟩ := he.first
    intro hkind
    rw [List.cons_append, current_cons] at hkind
    rw [hkind] at hu
    cases hu
  have hitems : itemsUnless (.symbol .rightParen) nested ⟨ts ++ r :: rest, eof⟩ =
      .ok (arguments.getD []) ⟨r :: rest, eof⟩ :=
    itemsUnless_accepts hnested (by decide) (by decide) hfirst h hlength hr
  simp only [List.cons_append, List.append_assoc, List.nil_append]
  rw [call_eq, advance_bind]
  refine bind_ok.mpr ⟨l, _, expect_of_kind hl _, bind_ok.mpr ⟨_, _, hitems, ?_⟩⟩
  exact bind_ok.mpr ⟨r, _, expect_of_kind hr _, rfl⟩

lemma primaryWith_accepts
    (hnested : Accepts eof nested (Derives .expression) Level.expression.Follows n) :
    Accepts eof (primaryWith nested) (Derives .primary) Level.primary.Follows (n + 1) := by
  intro ts e rest h hlength hfollows
  rw [primaryWith, peek_bind]
  cases h with
  | int ht hvalue =>
    simp only [List.cons_append, List.nil_append, current_cons, ht, advance_bind, intLiteral?,
      hvalue, if_true]
    rfl
  | float ht hvalue =>
    obtain rfl := decimal_iff.mp hvalue
    simp only [List.cons_append, List.nil_append, current_cons, ht]
    rfl
  | var ht =>
    have hnext : (current ⟨rest, eof⟩).kind ≠ .symbol .leftParen := by
      intro hkind
      rw [hkind] at hfollows
      cases hfollows
    simp only [List.cons_append, List.nil_append, current_cons, ht, peekNext_bind, next_cons]
    exact ite_ok.mpr (Or.inr ⟨hnext, rfl⟩)
  | @call t l r us arguments ht hl harguments hr =>
    simp only [List.length_cons, List.length_append] at hlength
    have hcall := call_accepts hnested t rest hl hr harguments (by omega)
    simp only [List.cons_append, current_cons, ht, peekNext_bind, next_cons, hl, if_true] at hcall ⊢
    exact hcall
  | @parenthesized l r us _ hl he hr =>
    simp only [List.length_cons, List.length_append] at hlength
    have hinner := hnested us e (r :: rest) he (by omega) (by rw [current_cons, hr]; decide)
    simp only [List.cons_append, List.append_assoc, List.nil_append, current_cons, hl, advance_bind]
    exact bind_ok.mpr ⟨e, _, hinner, bind_ok.mpr ⟨r, _, expect_of_kind hr _, rfl⟩⟩

lemma incrementWith_accepts
    (hnested : Accepts eof nested (Derives .expression) Level.expression.Follows n) :
    Accepts eof (incrementWith nested) (Derives .increment) Level.increment.Follows (n + 1) := by
  have hname : delta? .identifier = none := rfl
  intro ts e rest h hlength hfollows
  rw [incrementWith, peek_bind]
  cases h with
  | primary h =>
    have hprimary := primaryWith_accepts hnested ts e rest h hlength hfollows
    have hnext : delta? (current ⟨rest, eof⟩).kind = none := by
      cases hkind : delta? (current ⟨rest, eof⟩).kind with
      | none => rfl
      | some delta =>
        obtain ⟨s, hs, hdelta⟩ := increment_of_delta? hkind
        rw [hs] at hfollows
        cases hdelta <;> cases hfollows
    cases h with
    | int ht _ => simpa [ht, delta?, peekNext_bind] using hprimary
    | float ht _ => simpa [ht, delta?, peekNext_bind] using hprimary
    | var ht =>
      simp only [List.cons_append, List.nil_append, current_cons, ht, hname, peekNext_bind,
        next_cons, hnext]
      exact hprimary
    | call ht hl _ _ => simpa [ht, delta?, peekNext_bind, hl] using hprimary
    | parenthesized hl _ _ => simpa [hl, delta?, peekNext_bind] using hprimary
  | @preIncrement o t s delta ho hs ht =>
    simp only [List.cons_append, List.nil_append, current_cons, ho, hs.delta?_eq, advance_bind]
    exact bind_ok.mpr ⟨t, _, expect_of_kind ht _, rfl⟩
  | postIncrement ht ho hs =>
    simp only [List.cons_append, List.nil_append, current_cons, ht, hname, peekNext_bind, next_cons,
      ho, hs.delta?_eq]
    rfl

/-- A token that may stand behind a tier, or an operator of it, may stand behind an operand. -/
lemma chainFrom_accepts {tier : Tier} {operand : Parser Expr}
    (hoperand : Accepts eof operand (Derives tier.operand) tier.operand.Follows n)
    {ts rest : List Token} {left e : Expr} (h : Chain tier left ts e) (hlength : ts.length ≤ n)
    (hfollows : (Level.tier tier).Follows (current ⟨rest, eof⟩).kind) {m : Nat}
    (hm : ts.length ≤ m) :
    tier.operand.Follows (current ⟨ts ++ rest, eof⟩).kind ∧
      chainFrom tier.operator? operand m left ⟨ts ++ rest, eof⟩ = .ok e ⟨rest, eof⟩ := by
  induction h generalizing m with
  | nil left =>
    refine ⟨Nat.lt_trans tier.rank_operand hfollows, ?_⟩
    cases m with
    | zero => rfl
    | succ m =>
      rw [chainFrom, peek_bind, List.nil_append, Tier.operator?_eq_none hfollows]
      rfl
  | @cons o s us ts left right mid e ho hright hs _ ih =>
    simp only [List.length_cons, List.length_append] at hlength hm
    obtain ⟨m, rfl⟩ : ∃ k, m = k + 1 := ⟨m - 1, by omega⟩
    obtain ⟨hnext, hchain⟩ := ih (by omega) (m := m) (by omega)
    have hrun := hoperand us right (ts ++ rest) hright (by omega) hnext
    obtain ⟨build, htable, rfl⟩ := hs.table
    constructor
    · rw [List.cons_append, current_cons, ho, Level.Follows, hs.looseness_eq]
      exact tier.rank_operand
    · rw [chainFrom, peek_bind]
      simp only [List.cons_append, List.append_assoc, current_cons, ho, htable, advance_bind]
      exact bind_ok.mpr ⟨right, _, hrun, hchain⟩

lemma chain_accepts (tier : Tier) {level : String} {operand : Parser Expr}
    (hoperand : Accepts eof operand (Derives tier.operand) tier.operand.Follows n) :
    Accepts eof (chain level tier.operator? operand) (Derives (.tier tier))
      (Level.tier tier).Follows n := by
  intro ts e rest h hlength hfollows
  obtain ⟨us, left, vs, rfl, hleft, hchain⟩ := h.chain
  rw [List.length_append] at hlength
  obtain ⟨hnext, hloop⟩ := chainFrom_accepts hoperand hchain (by omega) hfollows
    (m := (vs ++ rest).length) (by simp)
  have hrun := hoperand us left (vs ++ rest) hleft (by omega) hnext
  have hend : expectOperandEnd level ⟨rest, eof⟩ = .ok () ⟨rest, eof⟩ := by
    rw [expectOperandEnd, peek_bind, ite_ok]
    exact Or.inl ⟨endsOperand_iff.mpr (Nat.zero_lt_of_lt hfollows), rfl⟩
  rw [List.append_assoc, chain]
  refine bind_ok.mpr ⟨left, _, hrun, ?_⟩
  rw [remaining_bind]
  exact bind_ok.mpr ⟨e, _, hloop, bind_ok.mpr ⟨(), _, hend, rfl⟩⟩

lemma logicalOrWith_accepts
    (hnested : Accepts eof nested (Derives .expression) Level.expression.Follows n) :
    Accepts eof (logicalOrWith nested) (Derives (.tier .disjunction))
      (Level.tier .disjunction).Follows (n + 1) := by
  have hmultiplicative : Accepts eof (multiplicativeWith nested) (Derives (.tier .multiplicative))
      (Level.tier .multiplicative).Follows (n + 1) :=
    chain_accepts .multiplicative (incrementWith_accepts hnested)
  have hadditive : Accepts eof (additiveWith nested) (Derives (.tier .additive))
      (Level.tier .additive).Follows (n + 1) := chain_accepts .additive hmultiplicative
  have hcomparison : Accepts eof (comparisonWith nested) (Derives (.tier .comparison))
      (Level.tier .comparison).Follows (n + 1) := chain_accepts .comparison hadditive
  have hconjunction : Accepts eof (logicalAndWith nested) (Derives (.tier .conjunction))
      (Level.tier .conjunction).Follows (n + 1) := chain_accepts .conjunction hcomparison
  exact chain_accepts .disjunction hconjunction

lemma conditionalWith_accepts
    (hnested : Accepts eof nested (Derives .expression) Level.expression.Follows n)
    (hconditional :
      Accepts eof nestedConditional (Derives .conditional) Level.conditional.Follows n) :
    Accepts eof (conditionalWith nested nestedConditional) (Derives .conditional)
      Level.conditional.Follows (n + 1) := by
  intro ts e rest h hlength hfollows
  cases h with
  | disjunction h =>
    have hrun := logicalOrWith_accepts hnested ts e rest h hlength
      (Nat.lt_trans (Nat.lt_succ_self 5) hfollows)
    have hend : (current ⟨rest, eof⟩).kind ≠ .symbol .question := by
      intro hkind
      rw [hkind] at hfollows
      exact absurd hfollows (by decide)
    exact bind_ok.mpr ⟨e, _, hrun, bind_ok.mpr ⟨false, _, accept_of_ne hend, rfl⟩⟩
  | @conditional cs us vs q c e condition onTrue onFalse he hcondition hq htrue hc hfalse =>
    obtain rfl := test_iff.mp hcondition
    simp only [List.length_cons, List.length_append] at hlength
    have htest := logicalOrWith_accepts hnested cs e (q :: (us ++ c :: (vs ++ rest))) he (by omega)
      (by rw [current_cons, hq]; decide)
    have htrueRun := hnested us onTrue (c :: (vs ++ rest)) htrue (by omega)
      (by rw [current_cons, hc]; decide)
    have hfalseRun := hconditional vs onFalse rest hfalse (by omega) hfollows
    simp only [List.append_assoc, List.cons_append]
    refine bind_ok.mpr ⟨e, _, htest, bind_ok.mpr ⟨true, _, accept_of_kind hq, ?_⟩⟩
    refine bind_ok.mpr ⟨onTrue, _, htrueRun, bind_ok.mpr ⟨c, _, expect_of_kind hc _, ?_⟩⟩
    exact bind_ok.mpr ⟨onFalse, _, hfalseRun, rfl⟩

lemma assignmentWith_accepts
    (hnested : Accepts eof nested (Derives .expression) Level.expression.Follows n)
    (hconditional :
      Accepts eof nestedConditional (Derives .conditional) Level.conditional.Follows n) :
    Accepts eof (assignmentWith nested nestedConditional) (Derives .expression)
      Level.expression.Follows (n + 1) := by
  intro ts e rest h hlength hfollows
  rw [assignmentWith, peek_bind, peekNext_bind, ite_ok]
  cases h with
  | unassigned h =>
    have hrun := conditionalWith_accepts hnested hconditional ts e rest h hlength
      (Nat.lt_trans (Nat.lt_succ_self 6) hfollows)
    have hend : (current ⟨rest, eof⟩).kind.isAssignment = false := by
      cases hkind : (current ⟨rest, eof⟩).kind with
      | symbol s =>
        rw [hkind] at hfollows
        cases s <;> first | rfl | exact absurd hfollows (by decide)
      | _ => rfl
    refine Or.inr ⟨h.no_assignment rest hend nofun, bind_ok.mpr ⟨e, _, hrun, ?_⟩⟩
    rw [peek_bind, ite_ok]
    exact Or.inr ⟨by simp [hend], rfl⟩
  | @assignment t o s us rhs value ht ho hs h =>
    obtain ⟨hassigns, rfl⟩ := hs.eq_assignedValue
    simp only [List.length_cons] at hlength
    have hrun := hnested us rhs rest h (by omega) hfollows
    refine Or.inl ⟨⟨ht, by simpa [ho, TokenKind.isAssignment] using hassigns⟩, ?_⟩
    simp only [List.cons_append, advance_bind, advance_cons, current_cons, ho]
    exact bind_ok.mpr ⟨rhs, _, hrun, rfl⟩

/-- With as much fuel as tokens, all expressions are read. -/
theorem expressionIn_accepts (n : Nat) :
    Accepts eof (expressionIn n) (Derives .expression) Level.expression.Follows n ∧
      Accepts eof (conditionalIn n) (Derives .conditional) Level.conditional.Follows n := by
  induction n with
  | zero =>
    have hempty : ∀ {level ts e}, Derives level ts e → ¬ts.length ≤ 0 := by
      intro level ts e h
      obtain ⟨t, us, rfl, -⟩ := h.first
      simp
    exact ⟨fun ts e rest h hlength => absurd hlength (hempty h),
      fun ts e rest h hlength => absurd hlength (hempty h)⟩
  | succ n ih =>
    exact ⟨assignmentWith_accepts ih.1 ih.2, conditionalWith_accepts ih.1 ih.2⟩

lemma expression_accepts (n : Nat) :
    Accepts eof expression (Derives .expression) Level.expression.Follows n := by
  intro ts e rest h _ hfollows
  exact (expressionIn_accepts (ts ++ rest).length).1 ts e rest h (by simp) hfollows

end

end Parser

end MiniC
