import Mathlib.Logic.Function.Iterate
import MiniC.Proofs.EarliestError
import MiniC.Proofs.ParserProgress

/-!
# Parsing comes to an end

The parser calls itself for the phrases inside of a phrase and goes round in loops, with the number
of tokens left as fuel. That fuel is no part of what it does: put any parser in the place of calls
nested deeper, or of rounds later, than there are tokens left, and the outcome is the same. This
holds at every stream that a sequence of calls can lead to, also of calls that fail.
-/

namespace MiniC

namespace Parser

open Grammar

variable {α β : Type} {n m : Nat} {s : TokenStream}

/-- A body that reaches one token further than what it is made of, and a parser with fuel that
unrolls it: unrolled `n` times around anything, the body does what the parser with fuel `m` does, as
far as both reach. -/
lemma unrolled_agrees {X : Type} {R : Nat → X → X → Prop} {F : X → X} {P : Nat → X}
    (hnone : ∀ x y, R 0 x y) (hbody : ∀ n x y, R n x y → R (n + 1) (F x) (F y))
    (hsucc : ∀ m, P (m + 1) = F (P m)) (hend : ∀ x, R 1 (F x) (P 0)) (n m : Nat) (cut : X) :
    R (min n (m + 1)) (F^[n] cut) (P m) := by
  induction n generalizing m with
  | zero =>
    rw [Nat.zero_min]
    exact hnone _ _
  | succ n ih =>
    rw [Function.iterate_succ_apply']
    cases m with
    | zero =>
      rw [Nat.zero_add, Nat.min_eq_right (Nat.succ_le_succ (Nat.zero_le n))]
      exact hend _
    | succ m =>
      have hmin : min (n + 1) (m + 1 + 1) = min n (m + 1) + 1 := by omega
      rw [hsucc, hmin]
      exact hbody _ _ _ (ih m)

lemma Agree.none {k : Nat} (x y : Parser α) : Agree 0 k x y := fun _ _ hs =>
  absurd hs (Nat.not_lt_zero _)

/-- A stream of no tokens. -/
lemma Agree.of_empty {k : Nat} {x y : Parser α}
    (h : ∀ eof : Token, eof.kind = .endOfFile → AgreeAt k ⟨[], eof⟩ x y) : Agree 1 k x y := by
  rintro ⟨pending, eof⟩ heof hs
  obtain rfl : pending = [] := List.length_eq_zero_iff.mp (Nat.lt_one_iff.mp hs)
  exact h eof heof

/-! ### Calls for the phrases inside -/

/-- A level of expressions, over the parsers for the expressions inside. -/
def levelWith (nested : Parser Expr × Parser Expr) : Grammar.Level → Parser Expr
  | .primary => primaryWith nested.1
  | .increment => incrementWith nested.1
  | .tier .multiplicative => multiplicativeWith nested.1
  | .tier .additive => additiveWith nested.1
  | .tier .comparison => comparisonWith nested.1
  | .tier .conjunction => logicalAndWith nested.1
  | .tier .disjunction => logicalOrWith nested.1
  | .conditional => conditionalWith nested.1 nested.2
  | .expression => assignmentWith nested.1 nested.2

/-- The parser of a level of expressions. -/
def level : Grammar.Level → Parser Expr
  | .primary => primary
  | .increment => increment
  | .tier .multiplicative => multiplicative
  | .tier .additive => additive
  | .tier .comparison => comparison
  | .tier .conjunction => logicalAnd
  | .tier .disjunction => logicalOr
  | .conditional => conditional
  | .expression => expression

/-- The parsers for the expressions inside, over the parsers for those inside of them. -/
def nestedWith (nested : Parser Expr × Parser Expr) : Parser Expr × Parser Expr :=
  (levelWith nested .expression, levelWith nested .conditional)

/-- The parsers for the expressions inside with fuel. -/
def nestedIn (m : Nat) : Parser Expr × Parser Expr := (expressionIn m, conditionalIn m)

lemma Agree.levelWith {p q : Parser Expr × Parser Expr} (h : Agree n 1 p.1 q.1)
    (h' : Agree n 1 p.2 q.2) (l : Grammar.Level) :
    Agree (n + 1) 1 (levelWith p l) (levelWith q l) := by
  cases l with
  | primary => exact h.primaryWith
  | increment => exact h.incrementWith
  | tier t =>
    cases t with
    | multiplicative => exact h.multiplicativeWith
    | additive => exact h.additiveWith
    | comparison => exact h.comparisonWith
    | conjunction => exact h.logicalAndWith
    | disjunction => exact h.logicalOrWith
  | conditional => exact h.conditionalWith h'
  | expression => exact h.assignmentWith h'

/-- Without a token, every level fails for want of a primary expression. -/
lemma levelWith_empty (p : Parser Expr × Parser Expr) (l : Grammar.Level) :
    Agree 1 1 (levelWith p l) (unexpected "primary expression") := by
  refine .of_empty ?_
  rintro ⟨kind, lexeme, location⟩ rfl
  have hsame : levelWith p l ⟨[], ⟨.endOfFile, lexeme, location⟩⟩ =
      unexpected "primary expression" ⟨[], ⟨.endOfFile, lexeme, location⟩⟩ := by
    rcases l with _ | _ | t | _ | _
    case tier => cases t <;> rfl
    all_goals rfl
  refine ⟨hsame, ?_⟩
  rw [hsame]
  exact ⟨rfl, List.suffix_refl _⟩

lemma nested_agrees (n m : Nat) (cut : Parser Expr × Parser Expr) :
    Agree (min n (m + 1)) 1 (nestedWith^[n] cut).1 (expressionIn m) ∧
      Agree (min n (m + 1)) 1 (nestedWith^[n] cut).2 (conditionalIn m) := by
  refine unrolled_agrees (R := fun n p q => Agree n 1 p.1 q.1 ∧ Agree n 1 p.2 q.2)
    (F := nestedWith) (P := nestedIn) (fun p q => ⟨.none _ _, .none _ _⟩) ?_ (fun m => rfl) ?_
    n m cut
  · rintro n p q ⟨h, h'⟩
    exact ⟨h.levelWith h' .expression, h.levelWith h' .conditional⟩
  · exact fun p => ⟨levelWith_empty p .expression, levelWith_empty p .conditional⟩

/-- Calls for expressions are not nested deeper than there are tokens. -/
lemma level_unrolled (heof : s.eof.kind = .endOfFile) (hn : s.pending.length < n)
    (cut : Parser Expr × Parser Expr) (l : Grammar.Level) :
    levelWith (nestedWith^[n] cut) l s = level l s := by
  have hbelow : Agree (s.pending.length + 1) 1 (levelWith (nestedWith^[n] cut) l)
      (levelWith (nestedIn s.pending.length) l) := by
    have h := nested_agrees n s.pending.length cut
    refine Agree.levelWith (h.1.mono ?_ (Nat.le_refl 1)) (h.2.mono ?_ (Nat.le_refl 1)) l <;> omega
  have hnested := nested_agrees (n + 1) s.pending.length cut
  rw [Function.iterate_succ_apply'] at hnested
  have hmin : s.pending.length < min (n + 1) (s.pending.length + 1) := by omega
  rcases l with _ | _ | t | _ | _
  case conditional => exact (hnested.2 s heof hmin).1
  case expression => exact (hnested.1 s heof hmin).1
  case tier => cases t <;> exact (hbelow s heof (Nat.lt_succ_self _)).1
  all_goals exact (hbelow s heof (Nat.lt_succ_self _)).1

/-- Without a token, a statement fails for want of a primary expression. -/
lemma statementWith_empty (p : Parser Stmt) :
    Agree 1 1 (statementWith p) (unexpected "primary expression") := by
  refine .of_empty ?_
  rintro ⟨kind, lexeme, location⟩ rfl
  exact ⟨rfl, rfl, List.suffix_refl _⟩

/-- The levels of expressions are parsed over each other, whatever fuel they use for it. -/
lemma level_eq (heof : s.eof.kind = .endOfFile) (l : Grammar.Level) :
    level l s = levelWith (expression, conditional) l s := by
  have hnested : ∀ n, Agree n 1 (nestedWith^[n] (expression, conditional)).1 expression ∧
      Agree n 1 (nestedWith^[n] (expression, conditional)).2 conditional := by
    intro n
    refine ⟨fun t heof ht => ?_, fun t heof ht => ?_⟩
    · exact (nested_agrees n t.pending.length _).1 t heof (by omega)
    · exact (nested_agrees n t.pending.length _).2 t heof (by omega)
  obtain ⟨hexpression, hconditional⟩ := hnested (s.pending.length + 1)
  rw [← level_unrolled heof (Nat.lt_succ_self _) (expression, conditional) l]
  exact (hexpression.levelWith hconditional l s heof (Nat.lt_succ_of_lt (Nat.lt_succ_self _))).1

lemma level_agrees (l : Grammar.Level) : Agree n 1 (level l) (level l) := by
  intro s heof hs
  have hconditional : Agree n 1 conditional conditional := .bind .remaining fun m =>
    (Agree.expressionIn m).2
  have h := Agree.expression.levelWith (p := (expression, conditional)) (q := (_, _)) hconditional l
  rw [AgreeAt, level_eq heof]
  exact h s heof (Nat.lt_succ_of_lt hs)

/-- What a level of operators is called in errors. -/
def tierName : Tier → String
  | .multiplicative => "multiplicative expression"
  | .additive => "additive expression"
  | .comparison => "comparison"
  | .conjunction => "logical and"
  | .disjunction => "logical or"

/-- A level of operators is parsed over the level of its operands. -/
lemma tier_eq (heof : s.eof.kind = .endOfFile) (t : Tier) :
    level (.tier t) s = chain (tierName t) t.operator? (level t.operand) s := by
  have hend : t.operator? .endOfFile = none := by cases t <;> rfl
  have hchain : levelWith (expression, conditional) (.tier t) =
      chain (tierName t) t.operator? (levelWith (expression, conditional) t.operand) := by
    cases t <;> rfl
  have hoperand : Agree (s.pending.length + 1) 1 (level t.operand)
      (levelWith (expression, conditional) t.operand) := by
    intro u heof hu
    rw [AgreeAt, ← level_eq heof]
    exact level_agrees _ u heof hu
  rw [level_eq heof, hchain]
  exact (hoperand.chain hend _ s heof (Nat.lt_succ_self _)).1.symm

lemma statementIn_unrolled (n m : Nat) (cut : Parser Stmt) :
    Agree (min n (m + 1)) 1 (statementWith^[n] cut) (statementIn m) :=
  unrolled_agrees (R := fun n x y => Agree n 1 x y) (F := statementWith) (P := statementIn)
    Agree.none (fun _ _ _ h => h.statementWith) (fun _ => rfl) statementWith_empty n m cut

/-- Calls for statements are not nested deeper than there are tokens. -/
lemma statement_unrolled (heof : s.eof.kind = .endOfFile) (hn : s.pending.length < n)
    (cut : Parser Stmt) : statementWith^[n] cut s = statement s :=
  (statementIn_unrolled n s.pending.length cut s heof (by omega)).1

/-- Enough fuel makes no difference. -/
lemma statementIn_agrees (m : Nat) : Agree (m + 1) 1 statement (statementIn m) := by
  intro t heof ht
  have h := statementIn_unrolled (m + 1) m statement t heof (by omega)
  rw [AgreeAt, statement_unrolled heof ht] at h
  exact h

lemma statement_eq (heof : s.eof.kind = .endOfFile) : statement s = statementWith statement s := by
  have hnested : Agree s.pending.length 1 (statementWith^[s.pending.length] statement)
      statement := by
    intro t heof ht
    rw [AgreeAt, statement_unrolled heof ht]
    exact Agree.statement t heof ht
  rw [← statement_unrolled heof (Nat.lt_succ_self _) statement, Function.iterate_succ_apply']
  exact (hnested.statementWith s heof (Nat.lt_succ_self _)).1

lemma block_eq (heof : s.eof.kind = .endOfFile) : block s = blockWith statement s := by
  have h := (statementIn_agrees s.pending.length).blockWith s heof (by omega)
  exact h.1.symm

/-! ### Rounds of loops -/

/-- A round of the loop over the operators of a level. -/
def operatorRound (operator? : TokenKind → Option (Expr → Expr → Expr)) (operand : Parser Expr)
    (more : Expr → Parser Expr) (left : Expr) : Parser Expr := do
  match operator? (← peek).kind with
  | none => return left
  | some build =>
    let _ ← advance
    let right ← operand
    more (build left right)

/-- A round of the loop over items with commas between them. -/
def commaRound (item : Parser α) (more : Parser (List α)) : Parser (List α) := do
  let a ← item
  if ← accept (.symbol .comma) then return a :: (← more)
  else return [a]

/-- A round of the loop over the statements of a block. -/
def statementRound (nested : Parser Stmt) (more : Parser (List Stmt)) : Parser (List Stmt) := do
  let t ← peek
  if t.kind = .symbol .rightBrace then return []
  else if t.isEof then unexpected "'\x7d' in compound statement"
  else
    let s ← nested
    return s :: (← more)

/-- A round of the loop over the definitions of a program. -/
def definitionRound (more : Parser (List Definition)) : Parser (List Definition) := do
  if ← atEnd then return []
  else
    let d ← definition
    return d :: (← more)

/-- The loop over operators takes a token in every round but the last. -/
lemma chainFrom_unrolled {operator? : TokenKind → Option (Expr → Expr → Expr)}
    (hend : operator? .endOfFile = none) {operand : Parser Expr}
    (hoperand : ∀ n, Agree n 1 operand operand) (heof : s.eof.kind = .endOfFile)
    (hn : s.pending.length < n) (cut : Expr → Parser Expr) (left : Expr) :
    (operatorRound operator? operand)^[n] cut left s =
      chainFrom operator? operand s.pending.length left s := by
  have h := unrolled_agrees (R := fun n x y => ∀ left, Agree n 0 (x left) (y left))
    (F := operatorRound operator? operand) (P := chainFrom operator? operand)
    (fun x y _ => Agree.none _ _) ?_ (fun m => rfl) ?_ n s.pending.length cut left
  · exact (h s heof (by omega)).1
  · intro n x y hxy left s heof hs
    refine .peek ?_
    split
    · exact Agree.pure left s heof hs
    · rename_i hsome
      refine (AgreeAt.advance ?_ heof).bind heof hs fun _ => ?_
      · intro hkind
        rw [hkind, hend] at hsome
        cases hsome
      · exact ((hoperand _).mono (Nat.le_refl n) (Nat.zero_le 1)).bind fun right => hxy _
  · intro x left
    refine .of_empty fun eof heof => ?_
    have hnone : operatorRound operator? operand x left ⟨[], eof⟩ = .ok left ⟨[], eof⟩ := by
      rw [operatorRound, peek_bind, TokenStream.current_nil, heof, hend]
      rfl
    rw [AgreeAt, hnone]
    exact ⟨rfl, rfl, List.suffix_refl _, Nat.le_refl _⟩

/-- The loop over items takes one in every round. -/
lemma commaSeparated_unrolled {item : Parser α} (hitem : ∀ n, Agree n 1 item item)
    (heof : s.eof.kind = .endOfFile) (hn : s.pending.length < n) (cut : Parser (List α)) :
    (commaRound item)^[n] cut s = commaSeparated item s := by
  have h := unrolled_agrees (R := fun n x y => Agree n 1 x y) (F := commaRound item)
    (P := commaSeparatedFrom item) Agree.none ?_ (fun m => rfl) ?_ n s.pending.length cut
  · exact (h s heof (by omega)).1
  · intro n x y hxy
    refine (hitem _).bind fun a => (Agree.accept _).bind fun b => .ite ?_ (.pure [a])
    exact (hxy.mono (Nat.le_refl n) (Nat.zero_le 1)).bind fun as => .pure (a :: as)
  · intro x
    refine .of_empty fun eof heof => ?_
    obtain ⟨-, hadvances⟩ := hitem 1 ⟨[], eof⟩ heof Nat.one_pos
    rw [AgreeAt, commaRound, commaSeparatedFrom, bind_run, bind_run]
    cases hrun : item ⟨[], eof⟩ with
    | ok a s' =>
      rw [hrun] at hadvances
      exact absurd hadvances.2.2 (Nat.not_succ_le_zero _)
    | error e s' =>
      rw [hrun] at hadvances
      exact ⟨rfl, hadvances⟩

/-- The loop over the statements of a block takes one in every round but the last. -/
lemma statementsFrom_unrolled {nested : Parser Stmt} (hnested : ∀ n, Agree n 1 nested nested)
    (heof : s.eof.kind = .endOfFile) (hn : s.pending.length < n) (cut : Parser (List Stmt)) :
    (statementRound nested)^[n] cut s = statementsFrom nested s.pending.length s := by
  have h := unrolled_agrees (R := fun n x y => Agree n 0 x y) (F := statementRound nested)
    (P := statementsFrom nested) Agree.none ?_ (fun m => rfl) ?_ n s.pending.length cut
  · exact (h s heof (by omega)).1
  · intro n x y hxy s heof hs
    refine .peek ?_
    refine Agree.ite (.pure []) (.ite (.unexpected _) ?_) s heof hs
    exact (hnested _).bind fun x => hxy.bind fun rest => .pure (x :: rest)
  · intro x
    refine .of_empty ?_
    rintro ⟨kind, lexeme, location⟩ rfl
    exact ⟨rfl, rfl, List.suffix_refl _⟩

/-- The loop over the definitions of a program takes one in every round but the last. -/
lemma translationUnit_unrolled (heof : s.eof.kind = .endOfFile) (hn : s.pending.length < n)
    (cut : Parser (List Definition)) : definitionRound^[n] cut s = translationUnit s := by
  have h := unrolled_agrees (R := fun n x y => Agree n 0 x y) (F := definitionRound)
    (P := definitionsFrom) Agree.none ?_ (fun m => rfl) ?_ n s.pending.length cut
  · exact (h s heof (by omega)).1
  · intro n x y hxy s heof hs
    rw [AgreeAt, definitionRound, definitionRound, atEnd_bind, atEnd_bind]
    refine Agree.ite (.pure []) (Agree.definition.bind fun d => ?_) s heof hs
    exact hxy.bind fun rest => .pure (d :: rest)
  · exact fun x => .of_empty fun eof heof => ⟨rfl, rfl, List.suffix_refl _, Nat.le_refl _⟩

/-! ### Every call at every stream -/

/-- The parsers that can be called on their own. -/
inductive Entry where
  | translationUnit
  | definition
  | block
  | statement
  | declaration
  | assignment
  | level (l : Grammar.Level)

namespace Entry

/-- What a parser gives. -/
def Result : Entry → Type
  | .translationUnit => List Definition
  | .definition => Definition
  | .block => List Stmt
  | .statement => Stmt
  | .declaration => Stmt
  | .assignment => Expr
  | .level _ => Expr

def parser : (entry : Entry) → Parser entry.Result
  | .translationUnit => Parser.translationUnit
  | .definition => Parser.definition
  | .block => Parser.block
  | .statement => Parser.statement
  | .declaration => Parser.declaration
  | .assignment => Parser.assignment
  | .level l => Parser.level l

end Entry

namespace Entry

lemma agree {entry : Entry} (h : entry ≠ .translationUnit) :
    Agree n 1 entry.parser entry.parser := by
  cases entry with
  | translationUnit => exact absurd rfl h
  | definition => exact Agree.definition
  | block => exact Agree.block
  | statement => exact Agree.statement
  | declaration => exact Agree.declaration
  | assignment => exact Agree.expression
  | level l => exact level_agrees l

end Entry

/-- The stream that a run leaves behind, also if it fails. -/
def streamAfter : EStateM.Result ParseError TokenStream α → TokenStream
  | .ok _ s | .error _ s => s

/-- The streams that calls of parsers can lead to from the start of a source, each where the call
before it ended. -/
inductive Reachable (source : String) : TokenStream → Prop where
  | start : Reachable source (.ofText source)
  | call {s : TokenStream} (h : Reachable source s) (entry : Entry) :
      Reachable source (streamAfter (entry.parser s))

/-- Programs are parsed up to the end of the file. -/
lemma atEnd_of_definitionsFrom {ds : List Definition} {s' : TokenStream}
    (heof : s.eof.kind = .endOfFile) (hm : s.pending.length ≤ m)
    (h : definitionsFrom m s = .ok ds s') : s'.atEnd = true := by
  induction m generalizing s ds with
  | zero =>
    obtain ⟨-, rfl⟩ := pure_ok.mp h
    exact List.isEmpty_iff.mpr (List.length_eq_zero_iff.mp (Nat.le_zero.mp hm))
  | succ m ih =>
    simp only [definitionsFrom, atEnd_bind, ite_ok, pure_ok, bind_ok] at h
    rcases h with ⟨hend, -, rfl⟩ | ⟨-, d, t, hd, more, t', hmore, -, rfl⟩
    · exact hend
    · obtain ⟨heof', hless⟩ := definition_progress heof hd
      exact ih (heof' ▸ heof) (by omega) hmore

lemma Entry.advances (entry : Entry) (heof : s.eof.kind = .endOfFile) :
    Advances 0 s (entry.parser s) := by
  have hagree : Agree (s.pending.length + 1) 0 entry.parser entry.parser := by
    cases entry with
    | translationUnit => exact Agree.translationUnit
    | _ => exact (Entry.agree (by simp)).mono (Nat.le_refl _) (Nat.zero_le 1)
  exact (hagree s heof (Nat.lt_succ_self _)).2

/-- Whether a parser gets on: it goes on in the same tokens, it takes one or more if it succeeds,
and the parser of programs takes all. -/
def Entry.GetsOn (entry : Entry) (s : TokenStream) : Prop :=
  match entry.parser s with
  | .ok _ s' => s'.pending <:+ s.pending ∧
      (entry ≠ .translationUnit → s'.pending.length < s.pending.length) ∧
      (entry = .translationUnit → s'.atEnd = true)
  | .error _ s' => s'.pending <:+ s.pending

lemma Entry.getsOn (entry : Entry) (heof : s.eof.kind = .endOfFile) : entry.GetsOn s := by
  have hadvances := entry.advances heof
  rw [GetsOn]
  cases hrun : entry.parser s with
  | error e s' =>
    rw [hrun] at hadvances
    exact hadvances.2
  | ok a s' =>
    rw [hrun] at hadvances
    refine ⟨hadvances.2.1, fun hentry => ?_, ?_⟩
    · have hstrict := (Entry.agree hentry s heof (Nat.lt_succ_self _)).2
      rw [hrun] at hstrict
      exact hstrict.2.2
    · rintro rfl
      have hdefinitions : definitionsFrom s.pending.length s = .ok a s' := hrun
      exact atEnd_of_definitionsFrom heof (Nat.le_refl _) hdefinitions

/-- Whether parsing comes to an end at `s`. Calls nested deeper than there are tokens left, and
rounds of loops later than that, can be anything, and the parsers call each other without fuel. -/
structure Ends (s : TokenStream) : Prop where
  levels : ∀ cut n l, s.pending.length < n → levelWith (nestedWith^[n] cut) l s = level l s
  statements : ∀ cut n, s.pending.length < n → statementWith^[n] cut s = statement s
  operators : ∀ (t : Tier) cut left n, s.pending.length < n →
    (operatorRound t.operator? (level t.operand))^[n] cut left s =
      chainFrom t.operator? (level t.operand) s.pending.length left s
  arguments : ∀ cut n, s.pending.length < n →
    (commaRound expression)^[n] cut s = commaSeparated expression s
  declarators : ∀ ty cut n, s.pending.length < n →
    (commaRound (declarator ty))^[n] cut s = commaSeparated (declarator ty) s
  params : ∀ cut n, s.pending.length < n → (commaRound param)^[n] cut s = commaSeparated param s
  blocks : ∀ cut n, s.pending.length < n →
    (statementRound statement)^[n] cut s = statementsFrom statement s.pending.length s
  programs : ∀ cut n, s.pending.length < n → definitionRound^[n] cut s = translationUnit s
  level_eq : ∀ l, level l s = levelWith (expression, conditional) l s
  tier_eq : ∀ t : Tier, level (.tier t) s = chain (tierName t) t.operator? (level t.operand) s
  statement_eq : statement s = statementWith statement s
  block_eq : block s = blockWith statement s

lemma ends (heof : s.eof.kind = .endOfFile) : Ends s where
  levels cut _ l hn := level_unrolled heof hn cut l
  statements cut _ hn := statement_unrolled heof hn cut
  operators t cut left _ hn := by
    have hend : t.operator? .endOfFile = none := by cases t <;> rfl
    exact chainFrom_unrolled hend (fun _ => level_agrees _) heof hn cut left
  arguments cut _ hn := commaSeparated_unrolled (fun _ => Agree.expression) heof hn cut
  declarators ty cut _ hn := commaSeparated_unrolled (fun _ => Agree.declarator ty) heof hn cut
  params cut _ hn := commaSeparated_unrolled (fun _ => Agree.param) heof hn cut
  blocks cut _ hn := statementsFrom_unrolled (fun _ => Agree.statement) heof hn cut
  programs cut _ hn := translationUnit_unrolled heof hn cut
  level_eq := Parser.level_eq heof
  tier_eq t := tier_eq heof t
  statement_eq := Parser.statement_eq heof
  block_eq := Parser.block_eq heof

lemma Reachable.suffix {source : String} (h : Reachable source s) :
    s.eof = (TokenStream.ofText source).eof ∧ s.pending <:+ sourceTokens source := by
  induction h with
  | start => exact ⟨rfl, List.suffix_refl _⟩
  | @call s h entry ih =>
    have heof : s.eof.kind = .endOfFile := by
      rw [ih.1]
      exact eof_ofText source
    have hadvances := entry.advances heof
    cases hrun : entry.parser s with
    | ok a s' =>
      rw [hrun] at hadvances
      exact ⟨hadvances.1.trans ih.1, hadvances.2.1.trans ih.2⟩
    | error e s' =>
      rw [hrun] at hadvances
      exact ⟨hadvances.1.trans ih.1, hadvances.2.trans ih.2⟩

/-- Wherever calls of parsers lead in a source, failed ones included, the pending tokens are tokens
of the source that are not its end, and every parser called there comes to an end and gets on. -/
theorem Reachable.ends_and_getsOn {source : String} (h : Reachable source s) :
    (∀ t ∈ s.pending, t.kind ≠ .endOfFile) ∧ Ends s ∧ ∀ entry : Entry, entry.GetsOn s := by
  obtain ⟨heof, hsuffix⟩ := h.suffix
  have hkind : s.eof.kind = .endOfFile := by
    rw [heof]
    exact eof_ofText source
  exact ⟨fun t ht => kind_ne_endOfFile_of_mem (hsuffix.subset ht), ends hkind,
    fun entry => entry.getsOn hkind⟩

/-- Behind the definition that fails at its parenthesis, a statement can be parsed. -/
theorem Reachable.ends_behind_failure :
    (streamAfter (Entry.definition.parser (.ofText "int (a);"))).pending.length = 4 ∧
      Ends (streamAfter (Entry.definition.parser (.ofText "int (a);"))) ∧
      Entry.statement.GetsOn (streamAfter (Entry.definition.parser (.ofText "int (a);"))) := by
  have hstart : Reachable "int (a);" (.ofText "int (a);") := .start
  have h := hstart.call .definition
  exact ⟨by decide +kernel, h.ends_and_getsOn.2.1, h.ends_and_getsOn.2.2 .statement⟩

end Parser

end MiniC
