import MiniC.Proofs.Tracking

/-!
# Expressions in step

The parsers of expressions go in step with themselves on other streams, for the phrases of the
grammar. Each level is stated over parsers for the expressions inside that are in step for shorter
texts. In front of a name the next token is read ahead too, so the levels promise to take the name.
-/

namespace MiniC

open TokenStream

instance : Nonempty Expr := ⟨.int 0⟩

namespace Grammar

lemma exists_primary : ∃ more : List Token, Phrase (Derives .primary) (more.map .withoutVoid) :=
  ⟨[⟨.identifier, "", .start⟩], _, .var rfl⟩

lemma exists_conditional :
    ∃ more : List Token, Phrase (Derives .conditional) (more.map .withoutVoid) := by
  obtain ⟨more, e, h⟩ := exists_primary
  have hmultiplicative : Derives (.tier .multiplicative) _ e := .operand (.primary h)
  have hcomparison : Derives (.tier .comparison) _ e := .operand (.operand hmultiplicative)
  have hdisjunction : Derives (.tier .disjunction) _ e := .operand (.operand hcomparison)
  exact ⟨more, e, .disjunction hdisjunction⟩

lemma exists_expression :
    ∃ more : List Token, Phrase (Derives .expression) (more.map .withoutVoid) := by
  obtain ⟨more, e, h⟩ := exists_conditional
  exact ⟨more, e, .unassigned h⟩

end Grammar

namespace Parser

open Grammar

lemma expectOperandEnd_bind_eq {α : Type} (level : String) (f : Unit → Parser α) :
    expectOperandEnd level >>= f = peek >>= fun t =>
      if endsOperand t.kind then f ()
      else unexpected ("operator or end of expression in " ++ level) := by
  rw [expectOperandEnd, bind_assoc]
  congr 1
  funext t
  split
  · rfl
  · exact unexpected_bind _ f

lemma chainFrom_of_end {tier : Tier} {operand : Parser Expr} {n : Nat} {left : Expr}
    {t : TokenStream} (h : t.current.kind = .endOfFile) :
    chainFrom tier.operator? operand n left t = .ok left t := by
  cases n with
  | zero => rfl
  | succ n =>
    have hnone : tier.operator? .endOfFile = none := by cases tier <;> rfl
    rw [chainFrom, peek_bind, h, hnone]
    rfl

/-- No expression is read in front of the end of a file. -/
lemma derives_not_ok {level : Grammar.Level} {p : Parser Expr} {t t' : TokenStream} {e : Expr}
    (hp : Reads t.eof p (Derives level)) (hend : t.current.kind = .endOfFile) :
    p t ≠ .ok e t' := by
  refine hp.not_ok (fun {us e} he => ?_) hend
  obtain ⟨u, us, rfl, hu⟩ := he.first
  exact ⟨u, us, rfl, fun hkind => by simp [hkind, startsExpression] at hu⟩

/-- An integer literal. -/
def integerLiteral : Parser Expr := do
  let t ← advance
  match intLiteral? t.lexeme with
  | some value => return .int value
  | none => throw (.invalidLiteral t.lexeme t.location)

namespace Tracks

variable {eof : Token} (heof : eof.kind = .endOfFile) {n m : Nat} {ts : List Token}

section

variable {nested nested' nestedConditional nestedConditional' : Parser Expr}
  (hnested : ∀ rest, rest.length ≤ n →
    Tracks eof rest False m nested nested' (Phrase (Derives .expression)))

include heof hnested

lemma call {c : Prop} (hts : ts.length ≤ n + 1)
    (hname : (current ⟨ts, eof⟩).kind = .identifier) :
    Tracks eof ts c (m + 1) (call nested) (call nested') (Phrase (Derives .primary)) := by
  rw [call_eq, call_eq]
  refine advance_bind heof (by simp [hname]) ?_
  rintro - - t rest rfl
  have ht : t.withoutVoid.kind = .identifier := (Token.withoutVoid_kind_iff rfl).mpr hname
  rw [List.length_cons] at hts
  refine expect_bind heof rfl (by simp) fun _ _ l rest hl hrest => ?_
  have harguments : ∀ rest', rest'.length ≤ rest.length →
      Tracks eof rest' False (m + 1 - 1 - 1) nested nested' (Phrase (Derives .expression)) :=
    fun rest' h => (hnested rest' (by omega)).mono id (by omega)
  refine (itemsUnless heof rfl harguments).bind fun _ _ us rest ⟨es, hes⟩ _ => ?_
  refine expect_bind heof rfl (by simp) fun _ _ r rest hr _ => ?_
  exact Tracks.pure id ⟨_, .call ht hl hes hr⟩ _ _

omit hnested in
lemma integerLiteral {c : Prop} (hkind : (current ⟨ts, eof⟩).kind = .intLiteral) :
    Tracks eof ts c m integerLiteral integerLiteral (Phrase (Derives .primary)) := by
  have hcurrent : (current ⟨ts, eof⟩).withoutVoid = current ⟨ts, eof⟩ :=
    Token.withoutVoid_of_ne (by simp [hkind])
  cases hvalue : intLiteral? (current ⟨ts, eof⟩).lexeme with
  | none =>
    have hrun : Parser.integerLiteral ⟨ts, eof⟩ = .error
        (.invalidLiteral (current ⟨ts, eof⟩).lexeme (current ⟨ts, eof⟩).location)
        (TokenStream.advance ⟨ts, eof⟩) := by
      rw [Parser.integerLiteral, Parser.advance_bind, hvalue]
      rfl
    exact of_error exists_primary hrun id
  | some value =>
    have hnext : Tracks eof ts c m (Parser.advance >>= fun _ => pure (Expr.int value))
        (Parser.advance >>= fun _ => pure (Expr.int value)) (Phrase (Derives .primary)) := by
      refine advance_bind heof (by simp [hkind]) ?_
      rintro - - t rest rfl
      have hle : natOfDigits t.lexeme.toList ≤ 2147483647 := by
        by_contra hgt
        simp [intLiteral?, hgt] at hvalue
      refine Tracks.pure id ⟨.int (natOfDigits t.lexeme.toList), ?_⟩ _ _
      rw [current_cons] at hcurrent
      rw [hcurrent]
      exact .int hkind hle
    refine hnext.congr ?_ ?_
    · rw [Parser.integerLiteral, Parser.advance_bind, hvalue]
      rfl
    · rintro used rest t b t' rfl - ht hy
      rw [Parser.integerLiteral, Parser.advance_bind, ht.current, hcurrent, hvalue] at hy
      exact hy

lemma primaryWith (hts : ts.length ≤ n + 1) :
    Tracks eof ts ((current ⟨ts, eof⟩).kind = .identifier) (m + 1) (primaryWith nested)
      (primaryWith nested') (Phrase (Derives .primary)) := by
  refine peek_bind ?_
  cases hkind : (current ⟨ts, eof⟩).kind with
  | intLiteral =>
    rw [(Token.withoutVoid_kind_iff rfl).mpr hkind]
    exact integerLiteral heof hkind
  | floatLiteral =>
    rw [(Token.withoutVoid_kind_iff rfl).mpr hkind]
    refine advance_bind heof (by simp [hkind]) ?_
    rintro - - t rest rfl
    have hkind' := (Token.withoutVoid_kind_iff rfl).mpr hkind
    exact Tracks.pure id ⟨_, .float hkind' (decimal_iff.mpr rfl)⟩ _ _
  | identifier =>
    rw [(Token.withoutVoid_kind_iff rfl).mpr hkind]
    refine peekNext_bind rfl ?_
    refine ite (Token.withoutVoid_kind_iff rfl) (fun _ => ?_) fun _ => ?_
    · exact call heof hnested hts hkind
    · refine advance_bind heof (by simp [hkind]) ?_
      rintro - - t rest rfl
      exact Tracks.pure id ⟨_, .var ((Token.withoutVoid_kind_iff rfl).mpr hkind)⟩ _ _
  | symbol s =>
    rw [(Token.withoutVoid_kind_iff rfl).mpr hkind]
    cases s with
    | leftParen =>
      refine advance_bind heof (by simp [hkind]) ?_
      rintro - - l rest rfl
      have hl : l.withoutVoid.kind = _ := (Token.withoutVoid_kind_iff rfl).mpr hkind
      rw [List.length_cons] at hts
      refine (hnested rest (by omega)).bind ?_
      rintro - - us rest ⟨e, he⟩ -
      refine expect_bind heof rfl (by simp) fun _ _ r rest hr _ => ?_
      exact Tracks.pure id ⟨_, .parenthesized hl he hr⟩ _ _
    | _ => exact Tracks.unexpected (by simp) exists_primary _ _
  | keyword k =>
    obtain ⟨k', hk'⟩ : ∃ k', (current ⟨ts, eof⟩).withoutVoid.kind = .keyword k' := by
      rw [Token.withoutVoid]
      split
      · exact ⟨.int, rfl⟩
      · exact ⟨k, hkind⟩
    rw [hk']
    exact Tracks.unexpected (by simp) exists_primary _ _
  | endOfFile =>
    rw [(Token.withoutVoid_kind_iff rfl).mpr hkind]
    exact Tracks.unexpected (by simp) exists_primary _ _
  | unknown char =>
    rw [(Token.withoutVoid_kind_iff rfl).mpr hkind]
    exact Tracks.unexpected (by simp) exists_primary _ _

lemma incrementWith (hts : ts.length ≤ n + 1) :
    Tracks eof ts ((current ⟨ts, eof⟩).kind = .identifier) (m + 1) (incrementWith nested)
      (incrementWith nested') (Phrase (Derives .increment)) := by
  have hprimary : Tracks eof ts ((current ⟨ts, eof⟩).kind = .identifier) (m + 1)
      (Parser.primaryWith nested) (Parser.primaryWith nested') (Phrase (Derives .increment)) :=
    (primaryWith heof hnested hts).imp fun us ⟨e, he⟩ => ⟨e, .primary he⟩
  refine peek_bind ?_
  have hdelta := Token.withoutVoid_kind delta? rfl (current ⟨ts, eof⟩)
  cases hsome : delta? (current ⟨ts, eof⟩).kind with
  | some delta =>
    obtain ⟨s, hkind, hs⟩ := increment_of_delta? hsome
    rw [hdelta, hsome]
    refine advance_bind heof (by simp [hkind]) ?_
    rintro - - o rest rfl
    have ho : o.withoutVoid.kind = .symbol s := (Token.withoutVoid_kind_iff rfl).mpr hkind
    refine expect_bind heof rfl (by simp) fun _ _ t rest ht _ => ?_
    exact Tracks.pure id ⟨_, .preIncrement ho hs ht⟩ _ _
  | none =>
    rw [hdelta, hsome]
    by_cases hname : (current ⟨ts, eof⟩).kind = .identifier
    · have hdeltaNext := Token.withoutVoid_kind delta? rfl (next ⟨ts, eof⟩)
      rw [hname, (Token.withoutVoid_kind_iff rfl).mpr hname]
      refine peekNext_bind rfl ?_
      cases hnext : delta? (next ⟨ts, eof⟩).kind with
      | none =>
        rw [hdeltaNext, hnext]
        exact hprimary.mono (fun _ => hname) (Nat.le_refl _)
      | some delta =>
        rw [hdeltaNext, hnext]
        obtain ⟨s, ho, hs⟩ := increment_of_delta? hnext
        refine advance_bind heof (by simp [hname]) ?_
        rintro - - t rest rfl
        rw [next_cons] at ho
        refine advance_bind heof (by simp [ho]) ?_
        rintro - - o rest rfl
        exact Tracks.pure id ⟨_, .postIncrement ((Token.withoutVoid_kind_iff rfl).mpr hname)
          ((Token.withoutVoid_kind_iff rfl).mpr ho) hs⟩ _ _
    · refine peekNext_bind_of_forall fun u v => ?_
      split
      · rename_i h _
        exact absurd h hname
      · split
        · rename_i h _
          exact absurd ((Token.withoutVoid_kind_iff rfl).mp h) hname
        · exact hprimary

omit hnested in
/-- The loop over the operators of a tier, with fuel for all tokens of both streams. -/
lemma chainFrom {tier : Tier} {operand operand' : Parser Expr} {k : Nat} {us : List Token}
    (hoperand : ∀ rest, rest.length ≤ n →
      Tracks eof rest False m operand operand' (Phrase (Derives tier.operand)))
    (hus : Phrase (Derives (.tier tier)) us) (left left' : Expr) (hts : ts.length ≤ n)
    (hk : k ≤ m) :
    Tracks eof ts False k (chainFrom tier.operator? operand n left)
      (chainFrom tier.operator? operand' k left')
      fun vs => Phrase (Derives (.tier tier)) (us ++ vs) := by
  induction n generalizing ts k us left left' with
  | zero =>
    have hdone : Tracks eof ts False k (pure left) (pure left')
        fun vs => Phrase (Derives (.tier tier)) (us ++ vs) :=
      Tracks.pure id (by simpa using hus) _ _
    have hempty : ts = [] := List.length_eq_zero_iff.mp (Nat.le_zero.mp hts)
    exact hdone.congr_of_end heof (Or.inl hempty)
      fun _ hend hrun => (chainFrom_of_end hend).symm.trans hrun
  | succ n ih =>
    have hstep : Tracks eof ts False k (Parser.chainFrom tier.operator? operand (n + 1) left)
        (Parser.chainFrom tier.operator? operand' (k - 1 + 1) left')
        fun vs => Phrase (Derives (.tier tier)) (us ++ vs) := by
      refine peek_bind ?_
      have htable := Token.withoutVoid_kind tier.operator? (by cases tier <;> rfl)
        (current ⟨ts, eof⟩)
      cases hoperator : tier.operator? (current ⟨ts, eof⟩).kind with
      | none =>
        rw [htable, hoperator]
        exact Tracks.pure id (by simpa using hus) _ _
      | some build =>
        rw [htable, hoperator]
        obtain ⟨s, ho, hs⟩ := Tier.joined_of_table hoperator
        refine advance_bind heof (by simp [ho]) ?_
        rintro - - o rest rfl
        have ho' : o.withoutVoid.kind = .symbol s := (Token.withoutVoid_kind_iff rfl).mpr ho
        rw [List.length_cons] at hts
        refine ((hoperand rest (by omega)).mono id (by omega)).bind
          fun right right' vs rest' ⟨r, hr⟩ hrest' => ?_
        obtain ⟨e, he⟩ := hus
        have hphrase : Phrase (Derives (.tier tier)) (us ++ o.withoutVoid :: vs) :=
          ⟨build e r, .binary he ho' hr (hs e r)⟩
        have hmore : Tracks eof rest' False (k - 1)
            (Parser.chainFrom tier.operator? operand n (build left right))
            (Parser.chainFrom tier.operator? operand' (k - 1) (build left' right'))
            fun ws => Phrase (Derives (.tier tier)) (us ++ o.withoutVoid :: vs ++ ws) :=
          ih (fun rest h => hoperand rest (by omega)) hphrase _ _ (by omega) (by omega)
        exact (hmore.mono id (by omega)).imp fun ws hws => by simpa using hws
    cases k with
    | zero =>
      refine hstep.congr_of_end heof (Or.inr rfl) fun _ hend hrun => ?_
      rw [chainFrom_of_end hend] at hrun ⊢
      exact hrun
    | succ k => exact hstep

omit hnested in
lemma chain (tier : Tier) {level level' : String} {operand operand' : Parser Expr}
    (hoperand : ∀ rest, rest.length ≤ n →
      Tracks eof rest ((current ⟨rest, eof⟩).kind = .identifier) m operand operand'
        (Phrase (Derives tier.operand))) :
    ∀ ts, ts.length ≤ n → Tracks eof ts ((current ⟨ts, eof⟩).kind = .identifier) m
      (chain level tier.operator? operand) (chain level' tier.operator? operand')
      (Phrase (Derives (.tier tier))) := by
  intro ts hts
  refine (hoperand ts hts).bind fun left left' us rest ⟨e, he⟩ hrest => ?_
  refine remaining_bind fun k hk => ?_
  have hoperand' : ∀ rest', rest'.length ≤ rest.length →
      Tracks eof rest' False k operand operand' (Phrase (Derives tier.operand)) :=
    fun rest' h => (hoperand rest' (by omega)).mono False.elim (by omega)
  have hloop := chainFrom heof hoperand' ⟨e, .operand he⟩ left left' (Nat.le_refl rest.length)
    (Nat.le_refl k)
  refine hloop.bind fun _ _ vs rest hvs _ => ?_
  rw [expectOperandEnd_bind_eq, expectOperandEnd_bind_eq]
  refine peek_bind (ite ?_ (fun _ => ?_) fun _ => ?_)
  · rw [Token.withoutVoid_kind endsOperand rfl]
  · exact Tracks.pure id (by simpa using hvs) _ _
  · exact Tracks.unexpected id ⟨[], by simpa using hvs⟩ _ _

lemma logicalOrWith : ∀ ts, ts.length ≤ n + 1 →
    Tracks eof ts ((current ⟨ts, eof⟩).kind = .identifier) (m + 1) (logicalOrWith nested)
      (logicalOrWith nested') (Phrase (Derives (.tier .disjunction))) := by
  have hmultiplicative : ∀ ts, ts.length ≤ n + 1 →
      Tracks eof ts ((current ⟨ts, eof⟩).kind = .identifier) (m + 1) (multiplicativeWith nested)
        (multiplicativeWith nested') (Phrase (Derives (.tier .multiplicative))) :=
    chain heof .multiplicative fun ts hts => incrementWith heof hnested hts
  have hadditive : ∀ ts, ts.length ≤ n + 1 →
      Tracks eof ts ((current ⟨ts, eof⟩).kind = .identifier) (m + 1) (additiveWith nested)
        (additiveWith nested') (Phrase (Derives (.tier .additive))) :=
    chain heof .additive hmultiplicative
  have hcomparison : ∀ ts, ts.length ≤ n + 1 →
      Tracks eof ts ((current ⟨ts, eof⟩).kind = .identifier) (m + 1) (comparisonWith nested)
        (comparisonWith nested') (Phrase (Derives (.tier .comparison))) :=
    chain heof .comparison hadditive
  have hconjunction : ∀ ts, ts.length ≤ n + 1 →
      Tracks eof ts ((current ⟨ts, eof⟩).kind = .identifier) (m + 1) (logicalAndWith nested)
        (logicalAndWith nested') (Phrase (Derives (.tier .conjunction))) :=
    chain heof .conjunction hcomparison
  exact chain heof .disjunction hconjunction

variable (hconditional : ∀ rest, rest.length ≤ n →
    Tracks eof rest False m nestedConditional nestedConditional' (Phrase (Derives .conditional)))

include hconditional

lemma conditionalWith (hts : ts.length ≤ n + 1) :
    Tracks eof ts ((current ⟨ts, eof⟩).kind = .identifier) (m + 1)
      (conditionalWith nested nestedConditional) (conditionalWith nested' nestedConditional')
      (Phrase (Derives .conditional)) := by
  refine (logicalOrWith heof hnested ts hts).bind fun _ _ cs rest ⟨condition, hc⟩ hrest => ?_
  refine accept_bind heof rfl (by simp) (fun q rest' hq hrest' => ?_) fun _ => ?_
  · refine ((hnested rest' (by omega)).mono id (by omega)).bind
      fun _ _ us rest ⟨onTrue, htrue⟩ hrest => ?_
    refine expect_bind heof rfl (by simp) fun _ _ c rest' hc' hrest' => ?_
    refine ((hconditional rest' (by omega)).mono id (by omega)).bind
      fun _ _ vs rest ⟨onFalse, hfalse⟩ _ => ?_
    have hphrase := Derives.conditional hc (test_toCondition _) hq htrue hc' hfalse
    exact Tracks.pure id ⟨_, by simpa using hphrase⟩ _ _
  · exact Tracks.pure id ⟨_, by simpa using Derives.disjunction hc⟩ _ _

lemma assignmentWith (hts : ts.length ≤ n + 1) :
    Tracks eof ts ((current ⟨ts, eof⟩).kind = .identifier) (m + 1)
      (assignmentWith nested nestedConditional) (assignmentWith nested' nestedConditional')
      (Phrase (Derives .expression)) := by
  have hassigns : ∀ t : Token, t.withoutVoid.kind.isAssignment = t.kind.isAssignment :=
    Token.withoutVoid_kind TokenKind.isAssignment rfl
  have hplain : Tracks eof ts ((current ⟨ts, eof⟩).kind = .identifier) (m + 1)
      (Parser.conditionalWith nested nestedConditional >>= fun e => peek >>= fun t =>
        if t.kind.isAssignment then
          throw (.invalidAssignmentTarget e.text (current ⟨ts, eof⟩).location)
        else pure e)
      (Parser.conditionalWith nested' nestedConditional' >>= fun e => peek >>= fun t =>
        if t.kind.isAssignment then
          throw (.invalidAssignmentTarget e.text (current ⟨ts, eof⟩).withoutVoid.location)
        else pure e)
      (Phrase (Derives .expression)) := by
    refine (conditionalWith heof hnested hconditional hts).bind ?_
    rintro - - us rest ⟨e, he⟩ -
    have hphrase : Phrase (Derives .expression) (us ++ []) :=
      ⟨e, by simpa using Derives.unassigned he⟩
    refine peek_bind (ite (by rw [hassigns]) (fun _ => ?_) fun _ => ?_)
    · exact of_error ⟨[], hphrase⟩ rfl id
    · exact Tracks.pure id hphrase _ _
  refine peek_bind ?_
  by_cases hname : (current ⟨ts, eof⟩).kind = .identifier
  · refine peekNext_bind hname ?_
    refine ite ?_ (fun ho => ?_) fun _ => hplain
    · rw [hassigns, Token.withoutVoid_kind_iff rfl]
    · refine advance_bind heof (by simp [hname]) ?_
      rintro - - t rest rfl
      have ht : t.withoutVoid.kind = .identifier := (Token.withoutVoid_kind_iff rfl).mpr hname
      have hoperator : (current ⟨rest, eof⟩).kind.isAssignment = true := ho.2
      refine advance_bind heof (fun hend => by simp [hend, TokenKind.isAssignment] at hoperator) ?_
      rintro - - o rest rfl
      simp only [List.length_cons] at hts
      refine ((hnested rest (by omega)).mono id (by omega)).bind ?_
      rintro - - us rest ⟨rhs, hrhs⟩ -
      obtain ⟨s, hs, hstored⟩ := stored_assignedValue t.withoutVoid.lexeme rhs
        (hassigns o ▸ hoperator)
      exact Tracks.pure id ⟨_, by simpa using Derives.assignment ht hs hstored hrhs⟩ _ _
  · refine peekNext_bind_of_forall fun u v => ite ?_ (fun h => absurd h.1 hname) fun _ => hplain
    have hname' : (current ⟨ts, eof⟩).withoutVoid.kind ≠ .identifier :=
      fun h => hname ((Token.withoutVoid_kind_iff rfl).mp h)
    simp [hname, hname']

end

/-- Expressions go in step, with fuel for all tokens of both streams. -/
theorem expressionIn (heof : eof.kind = .endOfFile) (n : Nat) : ∀ m ts, ts.length ≤ n →
    Tracks eof ts ((current ⟨ts, eof⟩).kind = .identifier) m (expressionIn n) (expressionIn m)
      (Phrase (Derives .expression)) ∧
    Tracks eof ts ((current ⟨ts, eof⟩).kind = .identifier) m (conditionalIn n) (conditionalIn m)
      (Phrase (Derives .conditional)) := by
  induction n with
  | zero =>
    intro m ts hts
    obtain rfl : ts = [] := List.length_eq_zero_iff.mp (Nat.le_zero.mp hts)
    have hname : eof.kind ≠ .identifier := by simp [heof]
    constructor
    · exact (Tracks.unexpected hname exists_expression _ "").congr_of_end heof (Or.inl rfl)
        fun heof' hend hrun => absurd hrun (derives_not_ok (expressionIn_reads heof' m).1 hend)
    · exact (Tracks.unexpected hname exists_conditional _ "").congr_of_end heof (Or.inl rfl)
        fun heof' hend hrun => absurd hrun (derives_not_ok (expressionIn_reads heof' m).2 hend)
  | succ n ih =>
    intro m ts hts
    have hstep : ∀ m ts, ts.length ≤ n + 1 →
        Tracks eof ts ((current ⟨ts, eof⟩).kind = .identifier) (m + 1) (Parser.expressionIn (n + 1))
          (Parser.expressionIn (m + 1)) (Phrase (Derives .expression)) ∧
        Tracks eof ts ((current ⟨ts, eof⟩).kind = .identifier) (m + 1)
          (Parser.conditionalIn (n + 1)) (Parser.conditionalIn (m + 1))
          (Phrase (Derives .conditional)) := by
      intro m ts hts
      have hnested := fun rest h => (ih m rest h).1.mono False.elim (Nat.le_refl m)
      have hconditional := fun rest h => (ih m rest h).2.mono False.elim (Nat.le_refl m)
      exact ⟨assignmentWith heof hnested hconditional hts,
        conditionalWith heof hnested hconditional hts⟩
    cases m with
    | zero =>
      have hfirst := hstep 0 ts hts
      exact ⟨(hfirst.1.mono id (Nat.zero_le 1)).congr rfl
          fun _ _ _ hrun => (unexpected_ok.mp hrun).elim,
        (hfirst.2.mono id (Nat.zero_le 1)).congr rfl
          fun _ _ _ hrun => (unexpected_ok.mp hrun).elim⟩
    | succ m => exact hstep m ts hts

lemma expression (heof : eof.kind = .endOfFile) (m : Nat) (ts : List Token) :
    Tracks eof ts False m expression expression (Phrase (Derives .expression)) :=
  remaining_bind fun k _ => (expressionIn heof ts.length k ts (Nat.le_refl _)).1.mono False.elim
    (Nat.le_refl k)

end Tracks

end Parser

end MiniC
