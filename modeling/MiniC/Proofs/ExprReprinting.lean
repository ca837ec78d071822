import MiniC.Expr.Printer
import MiniC.Proofs.CastErasure
import MiniC.Proofs.Grammar
import MiniC.Proofs.Spelling

/-!
# Deriving printed expressions

An expression is printed as one operand: a name or a numeral, a call, an increment, or in
parentheses. So it is derived from its text whatever stands around it. The proof follows the
derivation of the expression.
-/

namespace MiniC

namespace Grammar

variable {ts : List Token} {e : Expr}

lemma Derives.operand_of_increment (h : Derives .increment ts e) (tier : Tier) :
    Derives tier.operand ts e := by
  cases tier with
  | multiplicative => exact h
  | additive => exact .operand h
  | comparison => exact .operand (.operand h)
  | conjunction => exact .operand (.operand (.operand h))
  | disjunction => exact .operand (.operand (.operand (.operand h)))

lemma Derives.disjunction_of_tier {tier : Tier} (h : Derives (.tier tier) ts e) :
    Derives (.tier .disjunction) ts e := by
  cases tier with
  | multiplicative => exact .operand (.operand (.operand (.operand h)))
  | additive => exact .operand (.operand (.operand h))
  | comparison => exact .operand (.operand h)
  | conjunction => exact .operand h
  | disjunction => exact h

lemma Derives.tier_of_increment (h : Derives .increment ts e) (tier : Tier) :
    Derives (.tier tier) ts e := .operand (h.operand_of_increment tier)

lemma Derives.expression_of_increment (h : Derives .increment ts e) : Derives .expression ts e :=
  .unassigned (.disjunction (h.tier_of_increment .disjunction))

end Grammar

open Grammar

section

variable {α : Type} {item : List Token → α → Prop} {text : α → String}

lemma spells_commaSeparated {as : List α} (hne : as ≠ [])
    (h : ∀ a ∈ as, Spells (text a).toList fun ts => item ts a) :
    Spells (String.intercalate ", " (as.map text)).toList fun ts => CommaSeparated item ts as := by
  induction as with
  | nil => exact absurd rfl hne
  | cons a as ih =>
    have ha := h a List.mem_cons_self
    cases as with
    | nil =>
      rw [List.map_singleton, String.intercalate_singleton]
      exact ha.imp fun _ => .single
    | cons b bs =>
      have hmore := ih (by simp) fun c hc => h c (List.mem_cons_of_mem a hc)
      have htext : (String.intercalate ", " ((a :: b :: bs).map text)).toList = (text a).toList ++
          ',' :: ' ' :: (String.intercalate ", " ((b :: bs).map text)).toList := by
        simp
      rw [htext]
      refine ha.append rfl fun ts hts => .symbol .comma rfl fun comma hcomma => .blank ?_
      exact hmore.imp fun us hus => .cons hts hcomma hus

/-- Lists that may be left out are never written as empty lists. -/
lemma spells_arguments {items : Option (List α)} (hne : items ≠ some [])
    (h : ∀ a ∈ items.getD [], Spells (text a).toList fun ts => item ts a) :
    Spells (String.intercalate ", " ((items.getD []).map text)).toList fun ts =>
      Optional (CommaSeparated item) ts items := by
  cases items with
  | none => exact .nil .none
  | some as =>
    have has : as ≠ [] := fun has => hne (congrArg some has)
    exact (spells_commaSeparated has h).imp fun _ => .some

lemma Grammar.CommaSeparated.ne_nil {ts : List Token} {as : List α}
    (h : CommaSeparated item ts as) : as ≠ [] := by
  cases h <;> simp

lemma Grammar.Optional.ne_some_nil {ts : List Token} {items : Option (List α)}
    (h : Optional (CommaSeparated item) ts items) : items ≠ Option.some [] := by
  cases h with
  | none => simp
  | some h => simpa using h.ne_nil

end

lemma Grammar.Test.any_isFloat {e condition : Expr} (h : Test e condition) :
    condition.any Expr.isFloat = e.any Expr.isFloat := by
  cases h with
  | kept => rfl
  | cast => simp [Expr.any, Expr.isFloat]

/-- What parsing makes of an expression for a condition is no part of its text. -/
lemma Grammar.Test.eraseCasts_eq {e condition : Expr} (h : Test e condition) :
    condition.eraseCasts = e.eraseCasts := by
  cases h with
  | kept => rfl
  | cast => rw [Expr.eraseCasts]

/-- Whether the text of an expression spells it as an operand. -/
def Expr.Reprints (e : Expr) : Prop :=
  Spells e.eraseCasts.text.toList fun ts => Derives .increment ts e

namespace Expr

attribute [local simp] eraseCasts text

lemma listText_eq_intercalate : ∀ es : List Expr,
    listText es = String.intercalate ", " (es.map text)
  | [] => rfl
  | [e] => by simp [listText]
  | e :: e' :: es => by
    rw [listText, listText_eq_intercalate (e' :: es)]
    · simp
    · simp

variable {e : Expr}

lemma Reprints.expression (h : e.Reprints) :
    Spells e.eraseCasts.text.toList fun ts => Derives .expression ts e :=
  h.imp fun _ hts => hts.expression_of_increment

lemma spells_parenthesized {text : List Char} (h : Spells text fun ts => Derives .expression ts e) :
    Spells ('(' :: ' ' :: (text ++ [' ', ')'])) fun ts => Derives .increment ts e := by
  refine .symbol .leftParen rfl fun l hl => .blank ?_
  refine h.append rfl fun ts hts => .blank (.symbol .rightParen rfl fun r hr => .nil ?_)
  exact .primary (.parenthesized hl hts hr)

lemma reprints_joined {left right : Expr} {tier : Tier} {s : Symbol}
    (hs : Joined left right tier s e) (hleft : left.Reprints) (hright : right.Reprints) :
    e.Reprints := by
  have htext : e.eraseCasts.text.toList = '(' :: ' ' :: (left.eraseCasts.text.toList ++
      ' ' :: (s.spelling.toList ++ ' ' :: right.eraseCasts.text.toList) ++ [' ', ')']) := by
    cases hs with
    | and hl hr | or hl hr => simp [hl.eraseCasts_eq, hr.eraseCasts_eq, Symbol.spelling]
    | _ => simp [ArithOp.text, CompareOp.text, Symbol.spelling]
  rw [Reprints, htext]
  refine spells_parenthesized (hleft.append rfl fun us hus => .blank ?_)
  refine .symbol s (s.continues_of_isDelimiter rfl) fun o ho => .blank (hright.imp fun vs hvs => ?_)
  have hbinary := Derives.binary (hus.tier_of_increment tier) ho (hvs.operand_of_increment tier) hs
  exact .unassigned (.disjunction hbinary.disjunction_of_tier)

lemma reprints_int {n : Nat} (hn : n ≤ 2147483647) : (Expr.int n).Reprints := by
  have htext : (Expr.int n).eraseCasts.text.toList = (toString n).toList ++ [] := by
    rw [List.append_nil]
    rfl
  rw [Reprints, htext]
  refine .natural n rfl fun t ht hvalue => .nil ?_
  rw [← hvalue] at hn ⊢
  exact .primary (.int ht hn)

section

variable {name : String} (hname : Lexeme name.toList .identifier)

include hname

lemma reprints_var : (Expr.var name).Reprints := by
  rw [Reprints, eraseCasts, text, ← List.append_nil name.toList]
  refine .name hname rfl fun t ht hlexeme => .nil ?_
  exact hlexeme ▸ .primary (.var ht)

lemma reprints_preIncrement {s : Symbol} {delta : Int} (hs : Increment s delta) :
    (Expr.preIncrement name delta).Reprints := by
  have htext : (Expr.preIncrement name delta).eraseCasts.text.toList =
      s.spelling.toList ++ (name.toList ++ []) := by
    cases hs <;> simp [incrementText, Symbol.spelling]
  -- The name stands directly behind the operator.
  have hclosed : ∀ c, s.continues c = false := by
    cases hs <;> exact Symbol.continues_of_length rfl
  rw [Reprints, htext]
  refine .closedSymbol hclosed fun o ho => .name hname rfl fun t ht hlexeme => .nil ?_
  exact hlexeme ▸ .preIncrement ho hs ht

lemma reprints_postIncrement {s : Symbol} {delta : Int} (hs : Increment s delta) :
    (Expr.postIncrement name delta).Reprints := by
  have htext : (Expr.postIncrement name delta).eraseCasts.text.toList =
      name.toList ++ (s.spelling.toList ++ []) := by
    cases hs <;> simp [incrementText, Symbol.spelling]
  rw [Reprints, htext]
  refine .name hname ?_ fun t ht hlexeme => .symbol s rfl fun o ho => .nil ?_
  · cases hs <;> rfl
  · exact hlexeme ▸ .postIncrement ht ho hs

lemma reprints_assign {value : Expr} (hvalue : value.Reprints) :
    (Expr.assign name value).Reprints := by
  have htext : (Expr.assign name value).eraseCasts.text.toList = '(' :: ' ' :: (name.toList ++
      ' ' :: '=' :: ' ' :: value.eraseCasts.text.toList ++ [' ', ')']) := by
    simp
  rw [Reprints, htext]
  refine spells_parenthesized (.name hname rfl fun t ht hlexeme => .blank ?_)
  refine .symbol .equal rfl fun o ho => .blank (hvalue.expression.imp fun ts hts => ?_)
  exact hlexeme ▸ .assignment ht ho .plain hts

lemma reprints_call {arguments : Option (List Expr)} (hne : arguments ≠ some [])
    (h : ∀ e ∈ arguments.getD [], e.Reprints) :
    (Expr.call name (arguments.getD [])).Reprints := by
  have htext : (Expr.call name (arguments.getD [])).eraseCasts.text.toList = name.toList ++
      '(' :: ((String.intercalate ", "
        ((arguments.getD []).map fun e => e.eraseCasts.text)).toList ++ [')']) := by
    simp [eraseCastsAll_eq_map, listText_eq_intercalate, Function.comp_def]
  have harguments := spells_arguments hne fun e he => (h e he).expression
  rw [Reprints, htext]
  refine .name hname rfl fun t ht hlexeme => .closedSymbol Symbol.continues_leftParen fun l hl => ?_
  refine harguments.append rfl fun ts hts => .symbol .rightParen rfl fun r hr => .nil ?_
  exact hlexeme ▸ .primary (.call ht hl hts hr)

end

lemma reprints_conditional {condition onTrue onFalse : Expr} (hcondition : Test e condition)
    (he : e.Reprints) (htrue : onTrue.Reprints) (hfalse : onFalse.Reprints) :
    (Expr.conditional condition onTrue onFalse).Reprints := by
  have htext : (Expr.conditional condition onTrue onFalse).eraseCasts.text.toList =
      '(' :: ' ' :: (e.eraseCasts.text.toList ++ ' ' :: '?' :: ' ' ::
        (onTrue.eraseCasts.text.toList ++ ' ' :: ':' :: ' ' :: onFalse.eraseCasts.text.toList) ++
          [' ', ')']) := by
    simp [hcondition.eraseCasts_eq]
  rw [Reprints, htext]
  refine spells_parenthesized (he.append rfl fun cs hcs => .blank ?_)
  refine .symbol .question rfl fun q hq => .blank (htrue.append rfl fun ts hts => .blank ?_)
  refine .symbol .colon rfl fun c hc => .blank (hfalse.imp fun us hus => .unassigned ?_)
  exact .conditional (hcs.tier_of_increment _) hcondition hq hts.expression_of_increment hc
    (.disjunction (hus.tier_of_increment _))

end Expr

lemma Grammar.Joined.any_isFloat {left right e : Expr} {tier : Tier} {s : Symbol}
    (h : Joined left right tier s e) :
    e.any Expr.isFloat = (left.any Expr.isFloat || right.any Expr.isFloat) := by
  cases h with
  | and hl hr | or hl hr => simp [Expr.any, Expr.isFloat, hl.any_isFloat, hr.any_isFloat]
  | _ => simp [Expr.any, Expr.isFloat]

lemma Grammar.Stored.any_isFloat {target : String} {rhs value : Expr} {s : Symbol}
    (h : Stored target rhs s value) : value.any Expr.isFloat = rhs.any Expr.isFloat := by
  cases h <;> simp [Expr.any, Expr.isFloat]

/-- A compound assignment is printed as a plain one, with the operation that it stands for. -/
lemma Grammar.Stored.reprints {target : String} {rhs value : Expr} {s : Symbol}
    (h : Stored target rhs s value) (htarget : Lexeme target.toList .identifier)
    (hrhs : rhs.Reprints) : value.Reprints := by
  have hvar := Expr.reprints_var htarget
  cases h with
  | plain => exact hrhs
  | add => exact Expr.reprints_joined .add hvar hrhs
  | sub => exact Expr.reprints_joined .sub hvar hrhs
  | mul => exact Expr.reprints_joined .mul hvar hrhs
  | div => exact Expr.reprints_joined .div hvar hrhs

mutual

/-- Whatever is derived without float constants is printed so that it can be derived again. -/
theorem Grammar.Derives.reprints {level : Level} {ts : List Token} {e : Expr} :
    Derives level ts e → Lexed ts → e.any Expr.isFloat = false → e.Reprints
  | .int ht hvalue, _, _ => Expr.reprints_int hvalue
  | .float _ _, _, hfloat => by cases hfloat
  | @Derives.var t ht, hlexed, _ => Expr.reprints_var (ht ▸ (lexed_cons.mp hlexed).1)
  | @Derives.call t l r ts arguments ht hl harguments hr, hlexed, hfloat => by
    simp only [lexed_cons, lexed_append, ht] at hlexed
    simp only [Expr.any, Expr.isFloat, Bool.false_or] at hfloat
    exact Expr.reprints_call hlexed.1 harguments.ne_some_nil
      (reprintsArguments harguments hlexed.2.2.1 hfloat)
  | .parenthesized _ he _, hlexed, hfloat => by
    simp only [lexed_cons, lexed_append] at hlexed
    exact he.reprints hlexed.2.1 hfloat
  | .primary h, hlexed, hfloat => h.reprints hlexed hfloat
  | .preIncrement _ hs ht, hlexed, _ => by
    simp only [lexed_cons, ht] at hlexed
    exact Expr.reprints_preIncrement hlexed.2.1 hs
  | .postIncrement ht _ hs, hlexed, _ => by
    simp only [lexed_cons, ht] at hlexed
    exact Expr.reprints_postIncrement hlexed.1 hs
  | .operand h, hlexed, hfloat => h.reprints hlexed hfloat
  | .binary hleft _ hright hs, hlexed, hfloat => by
    simp only [lexed_cons, lexed_append] at hlexed
    rw [hs.any_isFloat, Bool.or_eq_false_iff] at hfloat
    exact Expr.reprints_joined hs (hleft.reprints hlexed.1 hfloat.1)
      (hright.reprints hlexed.2.2 hfloat.2)
  | .disjunction h, hlexed, hfloat => h.reprints hlexed hfloat
  | .conditional he hcondition _ htrue _ hfalse, hlexed, hfloat => by
    simp only [lexed_cons, lexed_append] at hlexed
    simp only [Expr.any, Expr.isFloat, Bool.false_or, Bool.or_eq_false_iff,
      hcondition.any_isFloat] at hfloat
    exact Expr.reprints_conditional hcondition (he.reprints hlexed.1 hfloat.1.1)
      (htrue.reprints hlexed.2.2.1 hfloat.1.2) (hfalse.reprints hlexed.2.2.2.2 hfloat.2)
  | .unassigned h, hlexed, hfloat => h.reprints hlexed hfloat
  | @Derives.assignment t o s ts rhs value ht ho hs h, hlexed, hfloat => by
    simp only [lexed_cons, ht] at hlexed
    simp only [Expr.any, Expr.isFloat, Bool.false_or, hs.any_isFloat] at hfloat
    exact Expr.reprints_assign hlexed.1 (hs.reprints hlexed.1 (h.reprints hlexed.2.2 hfloat))

theorem Grammar.reprintsArguments {ts : List Token} {arguments : Option (List Expr)} :
    Optional (CommaSeparated (Derives .expression)) ts arguments → Lexed ts →
      Expr.listAny Expr.isFloat (arguments.getD []) = false → ∀ e ∈ arguments.getD [], e.Reprints
  | .none, _, _ => by simp
  | .some h, hlexed, hfloat => reprintsAll h hlexed hfloat

theorem Grammar.reprintsAll {ts : List Token} {es : List Expr} :
    CommaSeparated (Derives .expression) ts es → Lexed ts → Expr.listAny Expr.isFloat es = false →
      ∀ e ∈ es, e.Reprints
  | .single h, hlexed, hfloat => by
    simp only [Expr.listAny, Bool.or_false] at hfloat
    exact List.forall_mem_singleton.mpr (h.reprints hlexed hfloat)
  | .cons h _ hrest, hlexed, hfloat => by
    simp only [lexed_cons, lexed_append] at hlexed
    simp only [Expr.listAny, Bool.or_eq_false_iff] at hfloat
    exact List.forall_mem_cons.mpr
      ⟨h.reprints hlexed.1 hfloat.1, reprintsAll hrest hlexed.2.2 hfloat.2⟩

end

end MiniC
