import MiniC.Definition.Printer
import MiniC.Proofs.ExprReprinting
import MiniC.Proofs.ProgramGrammar

/-!
# Reading printed programs

A parsed program is printed as a text that parses to it again. Casts are no part of the language, so
they are left out of the text, and parsing puts them where they were. The proof follows the
derivation of the program: the text of each tree spells tokens from which the tree is derived.
-/

namespace MiniC

open Grammar

/-- Whether the text of a statement spells it. -/
def Stmt.Reprints (s : Stmt) : Prop :=
  Spells s.eraseCasts.text.toList fun ts => Statement true ts s

/-- Whether the text of a condition spells it in parentheses. -/
def Expr.ReprintsCondition (e : Expr) : Prop :=
  Spells ('(' :: (e.eraseCasts.text.toList ++ [')'])) fun ts => Condition ts e

/-- Whether the text of an expression that may be missing spells it behind a blank. -/
def Stmt.ReprintsHeader (item : List Token → Expr → Prop) (value : Option Expr) : Prop :=
  Spells (headerText (value.map Expr.eraseCasts)).toList fun ts => Optional item ts value

/-- A type that can be named is written by its keyword. -/
lemma spells_type {kind : TokenKind} {ty : Ty} (hkind : kind.toTy? = some ty) {text : List Char}
    {phrase : List Token → Prop} (htext : text.head?.any Cursor.isWordChar = false)
    (h : ∀ t : Token, t.kind.toTy? = some ty → Spells text fun ts => phrase (t :: ts)) :
    Spells (ty.sourceName.toList ++ text) phrase := by
  obtain ⟨k, hk, hname⟩ : ∃ k : Keyword, k.toTy? = some ty ∧ ty.sourceName = k.spelling := by
    cases kind with
    | keyword k =>
      refine ⟨k, hkind, ?_⟩
      cases k <;> cases hkind <;> rfl
    | _ => cases hkind
  rw [hname]
  exact .keyword k htext fun t ht => h t (by rw [ht, TokenKind.toTy?, hk])

namespace Grammar

variable {ts : List Token}

lemma CommaSeparated.forall_mem {α : Type} {item : List Token → α → Prop} {as : List α}
    {P : α → Prop} (h : CommaSeparated item ts as) (hlexed : Lexed ts)
    (hitem : ∀ us, ∀ a ∈ as, item us a → Lexed us → P a) : ∀ a ∈ as, P a := by
  induction h with
  | @single us a ha =>
    exact List.forall_mem_singleton.mpr (hitem us a List.mem_cons_self ha hlexed)
  | @cons us vs comma a as ha _ _ ih =>
    simp only [lexed_cons, lexed_append] at hlexed
    refine List.forall_mem_cons.mpr ⟨hitem us a List.mem_cons_self ha hlexed.1, ?_⟩
    exact ih hlexed.2.2 fun ws b hb => hitem ws b (List.mem_cons_of_mem a hb)

lemma Declares.reprints {ty : Ty} {d : Declarator} (h : Declares ty ts d) (hlexed : Lexed ts)
    (hfloat : d.any Expr.isFloat = false) :
    Spells d.eraseCasts.text.toList fun us => Declares ty us d := by
  cases h with
  | @plain t ht hty =>
    simp only [lexed_cons, ht] at hlexed
    have htext : (Declarator.mk t.lexeme ty none).eraseCasts.text.toList =
        t.lexeme.toList ++ [] := by
      simp [Declarator.eraseCasts, Declarator.text]
    rw [htext]
    refine .name hlexed.1 rfl fun u hu hlexeme => .nil ?_
    exact hlexeme ▸ .plain hu hty
  | @initialized t o us e ht hty ho he =>
    simp only [lexed_cons, ht] at hlexed
    have htext : (Declarator.mk t.lexeme ty (some e)).eraseCasts.text.toList =
        t.lexeme.toList ++ ' ' :: '=' :: ' ' :: e.eraseCasts.text.toList := by
      simp [Declarator.eraseCasts, Declarator.text]
    have hvalue := (he.reprints hlexed.2.2 hfloat).expression
    rw [htext]
    refine .name hlexed.1 rfl fun u hu hlexeme => .blank (.symbol .equal rfl fun q hq => .blank ?_)
    exact hlexeme ▸ hvalue.imp fun vs hvs => .initialized hu hty hq hvs

lemma Declares.ty_eq {ty : Ty} {d : Declarator} (h : Declares ty ts d) : d.ty = ty := by
  cases h <;> rfl

lemma Declaration.reprints {s : Stmt} (h : Declaration ts s) (hlexed : Lexed ts)
    (hfloat : s.any Expr.isFloat = false) :
    Spells s.eraseCasts.text.toList fun us => Declaration us s := by
  cases h with
  | @mk t semicolon ty us ds ht hds hsemicolon =>
    simp only [lexed_cons, lexed_append] at hlexed
    simp only [Stmt.any, List.any_eq_false] at hfloat
    have hparts : ∀ d ∈ ds, d.ty = ty ∧
        Spells d.eraseCasts.text.toList fun us => Declares ty us d :=
      hds.forall_mem hlexed.2.1 fun vs d hd h hvs =>
        ⟨h.ty_eq, h.reprints hvs (by simpa using hfloat d hd)⟩
    have htext : (Stmt.declaration ds).eraseCasts.text.toList = ty.sourceName.toList ++
        ' ' :: ((String.intercalate ", " (ds.map fun d => d.eraseCasts.text)).toList ++ [';']) := by
      -- The type is taken from the first variable; the derivation gives it to all of them.
      obtain ⟨d, ds', rfl⟩ := List.exists_cons_of_ne_nil hds.ne_nil
      have hty : d.eraseCasts.ty = ty := (hparts d List.mem_cons_self).1
      simp [Stmt.eraseCasts, Stmt.text, Stmt.declarationText, hty, Function.comp_def]
    have hlist := spells_commaSeparated hds.ne_nil fun d hd => (hparts d hd).2
    rw [htext]
    refine spells_type ht rfl fun k hk => .blank (hlist.append rfl fun vs hvs => ?_)
    exact .symbol .semicolon rfl fun q hq => .nil (.mk hk hvs hq)

lemma ExpressionStatement.reprints {s : Stmt} (h : ExpressionStatement ts s) (hlexed : Lexed ts)
    (hfloat : s.any Expr.isFloat = false) :
    Spells s.eraseCasts.text.toList fun us => ExpressionStatement us s := by
  cases h with
  | @mk semicolon us e he hsemicolon =>
    have htext : (Stmt.expression e).eraseCasts.text.toList =
        e.eraseCasts.text.toList ++ [';'] := by
      simp [Stmt.eraseCasts, Stmt.text]
    have hvalue := (he.reprints (lexed_append.mp hlexed).1 hfloat).expression
    rw [htext]
    refine hvalue.append rfl fun vs hvs => ?_
    exact .symbol .semicolon rfl fun q hq => .nil (.mk hvs hq)

lemma Tested.reprints {e : Expr} (h : Tested ts e) (hlexed : Lexed ts)
    (hfloat : e.any Expr.isFloat = false) :
    Spells e.eraseCasts.text.toList fun us => Tested us e := by
  cases h with
  | mk h hcondition =>
    rw [hcondition.any_isFloat] at hfloat
    rw [hcondition.eraseCasts_eq]
    exact (h.reprints hlexed hfloat).expression.imp fun _ hus => .mk hus hcondition

lemma Condition.reprints {e : Expr} (h : Condition ts e) (hlexed : Lexed ts)
    (hfloat : e.any Expr.isFloat = false) : e.ReprintsCondition := by
  obtain ⟨hl, h, hr⟩ := h
  simp only [lexed_cons, lexed_append] at hlexed
  have hvalue := h.reprints hlexed.2.1 hfloat
  refine .closedSymbol Symbol.continues_leftParen fun l hl => hvalue.append rfl fun vs hvs => ?_
  exact .symbol .rightParen rfl fun r hr => .nil (.mk hl hvs hr)

lemma Optional.reprints {item : List Token → Expr → Prop} {value : Option Expr}
    (h : Optional item ts value) (hfloat : value.any (Expr.any Expr.isFloat) = false)
    (hitem : ∀ e, item ts e → e.any Expr.isFloat = false →
      Spells e.eraseCasts.text.toList fun us => item us e) : Stmt.ReprintsHeader item value := by
  cases h with
  | none => exact .nil .none
  | @some _ e he =>
    have htext : (Stmt.headerText (Option.map Expr.eraseCasts (Option.some e))).toList =
        ' ' :: e.eraseCasts.text.toList := by
      simp [Stmt.headerText]
    rw [Stmt.ReprintsHeader, htext]
    exact .blank ((hitem e he hfloat).imp fun _ => .some)

lemma LoopStart.reprints {init : Option Stmt} (h : LoopStart ts init) (hlexed : Lexed ts)
    (hfloat : init.any (Stmt.any Expr.isFloat) = false) :
    Spells (init.elim ";" fun s => s.eraseCasts.text).toList fun us => LoopStart us init := by
  cases h with
  | empty => exact .symbol .semicolon rfl fun q hq => .nil (.empty hq)
  | declaration h => exact (h.reprints hlexed hfloat).imp fun _ => .declaration
  | expression h => exact (h.reprints hlexed hfloat).imp fun _ => .expression

lemma delimited_headerText (value : Option Expr) : Delimited (Stmt.headerText value).toList := by
  cases value <;> simp [Stmt.headerText, Delimited, isDelimiter]

lemma delimited_listText (body : List Stmt) : Delimited (Stmt.listText body).toList := by
  cases body <;> simp [Stmt.listText, Delimited, isDelimiter]

lemma spells_sequence {body : List Stmt} (h : ∀ s ∈ body, s.Reprints) :
    Spells (Stmt.listText (Stmt.eraseCastsAll body)).toList fun us =>
      Sequence (Statement true) us body := by
  induction body with
  | nil => exact .nil .nil
  | cons s body ih =>
    have htext : (Stmt.listText (Stmt.eraseCastsAll (s :: body))).toList =
        ' ' :: (s.eraseCasts.text.toList ++ (Stmt.listText (Stmt.eraseCastsAll body)).toList) := by
      simp [Stmt.eraseCastsAll, Stmt.listText]
    have hmore := ih fun x hx => h x (List.mem_cons_of_mem s hx)
    rw [htext]
    refine .blank ((h s List.mem_cons_self).append (delimited_listText _) fun us hus => ?_)
    exact hmore.imp fun vs hvs => .cons hus hvs

lemma spells_block {body : List Stmt} (h : ∀ s ∈ body, s.Reprints) {phrase : List Token → Prop}
    (hphrase : ∀ l us r, l.kind = .symbol .leftBrace → Sequence (Statement true) us body →
      r.kind = .symbol .rightBrace → phrase (l :: (us ++ [r]))) :
    Spells (Stmt.compound body).eraseCasts.text.toList phrase := by
  have htext : (Stmt.compound body).eraseCasts.text.toList =
      '\x7b' :: ((Stmt.listText (Stmt.eraseCastsAll body)).toList ++ [' ', '\x7d']) := by
    simp [Stmt.eraseCasts, Stmt.text]
  have hdelimited : Delimited ((Stmt.listText (Stmt.eraseCastsAll body)).toList ++ [' ', '\x7d']) :=
    (delimited_listText _).append rfl
  rw [htext]
  refine .symbol .leftBrace (hdelimited.any_continues _) fun l hl => ?_
  refine (spells_sequence h).append rfl fun us hus => .blank ?_
  exact .symbol .rightBrace rfl fun r hr => .nil (hphrase l us r hl hus hr)

lemma reprints_ifThen {condition : Expr} {onTrue : Stmt}
    (hcondition : condition.ReprintsCondition) (htrue : onTrue.Reprints) :
    (Stmt.ifElse condition onTrue none).Reprints := by
  have htext : (Stmt.ifElse condition onTrue none).eraseCasts.text.toList =
      Keyword.ifKw.spelling.toList ++ ' ' :: ('(' :: (condition.eraseCasts.text.toList ++ [')']) ++
        ' ' :: onTrue.eraseCasts.text.toList) := by
    simp [Stmt.eraseCasts, Stmt.text, Keyword.spelling]
  rw [Stmt.Reprints, htext]
  refine .keyword .ifKw rfl fun k hk => .blank (hcondition.append rfl fun cs hcs => .blank ?_)
  exact htrue.imp fun us hus => .ifThen hk hcs hus

lemma reprints_ifElse {condition : Expr} {onTrue onFalse : Stmt}
    (hcondition : condition.ReprintsCondition) (htrue : onTrue.Reprints)
    (hclosed : onTrue.endsOpen = false) (hfalse : onFalse.Reprints) :
    (Stmt.ifElse condition onTrue (some onFalse)).Reprints := by
  have htext : (Stmt.ifElse condition onTrue (some onFalse)).eraseCasts.text.toList =
      Keyword.ifKw.spelling.toList ++ ' ' :: ('(' :: (condition.eraseCasts.text.toList ++ [')']) ++
        ' ' :: (onTrue.eraseCasts.text.toList ++ ' ' :: (Keyword.elseKw.spelling.toList ++
          ' ' :: onFalse.eraseCasts.text.toList))) := by
    simp [Stmt.eraseCasts, Stmt.text, Keyword.spelling]
  rw [Stmt.Reprints, htext]
  refine .keyword .ifKw rfl fun k hk => .blank (hcondition.append rfl fun cs hcs => .blank ?_)
  refine htrue.append rfl fun us hus => .blank (.keyword .elseKw rfl fun l hl => .blank ?_)
  exact hfalse.imp fun vs hvs => .ifElse hk hcs hus hl (fun _ => hclosed) hvs

lemma reprints_whileLoop {condition : Expr} {body : Stmt}
    (hcondition : condition.ReprintsCondition) (hbody : body.Reprints) :
    (Stmt.whileLoop condition body).Reprints := by
  have htext : (Stmt.whileLoop condition body).eraseCasts.text.toList =
      Keyword.whileKw.spelling.toList ++ ' ' ::
        ('(' :: (condition.eraseCasts.text.toList ++ [')']) ++
          ' ' :: body.eraseCasts.text.toList) := by
    simp [Stmt.eraseCasts, Stmt.text, Keyword.spelling]
  rw [Stmt.Reprints, htext]
  refine .keyword .whileKw rfl fun k hk => .blank (hcondition.append rfl fun cs hcs => .blank ?_)
  exact hbody.imp fun us hus => .whileLoop hk hcs hus

lemma reprints_forLoop {init : Option Stmt} {condition step : Option Expr} {body : Stmt}
    (hinit : Spells (init.elim ";" fun s => s.eraseCasts.text).toList fun us => LoopStart us init)
    (hcondition : Stmt.ReprintsHeader Tested condition)
    (hstep : Stmt.ReprintsHeader (Derives .expression) step) (hbody : body.Reprints) :
    (Stmt.forLoop init condition step body).Reprints := by
  have htext : (Stmt.forLoop init condition step body).eraseCasts.text.toList =
      Keyword.forKw.spelling.toList ++ ' ' :: '(' ::
        ((init.elim ";" fun s => s.eraseCasts.text).toList ++
          ((Stmt.headerText (condition.map Expr.eraseCasts)).toList ++ ';' ::
            ((Stmt.headerText (step.map Expr.eraseCasts)).toList ++ ')' :: ' ' ::
              body.eraseCasts.text.toList))) := by
    cases init <;> simp [Stmt.eraseCasts, Stmt.text, Keyword.spelling]
  rw [Stmt.Reprints, htext]
  refine .keyword .forKw rfl fun k hk => .blank ?_
  refine .closedSymbol Symbol.continues_leftParen fun l hl => ?_
  -- A missing part of the header leaves the next delimiter directly behind the one before it.
  refine hinit.append ((delimited_headerText _).append rfl) fun is his => ?_
  refine hcondition.append rfl fun cs hcs => ?_
  have hnext := ((delimited_headerText (step.map Expr.eraseCasts)).append
    (rfl : Delimited (')' :: ' ' :: body.eraseCasts.text.toList))).any_continues .semicolon
  refine .symbol .semicolon hnext fun semicolon hsemicolon => ?_
  refine hstep.append rfl fun ss hss => .symbol .rightParen rfl fun r hr => .blank ?_
  exact hbody.imp fun us hus => .forLoop hk hl his hcs hsemicolon hss hr hus

lemma reprints_ret {value : Option Expr}
    (hvalue : Stmt.ReprintsHeader (Derives .expression) value) : (Stmt.ret value).Reprints := by
  have htext : (Stmt.ret value).eraseCasts.text.toList = Keyword.returnKw.spelling.toList ++
      ((Stmt.headerText (value.map Expr.eraseCasts)).toList ++ [';']) := by
    cases value <;> simp [Stmt.eraseCasts, Stmt.text, Stmt.headerText, Keyword.spelling]
  rw [Stmt.Reprints, htext]
  have hnext := ((delimited_headerText (value.map Expr.eraseCasts)).append
    (rfl : Delimited [';'])).any_isWordChar
  refine .keyword .returnKw hnext fun k hk => hvalue.append rfl fun us hus => ?_
  exact .symbol .semicolon rfl fun q hq => .nil (.ret hk hus hq)

/-- A keyword makes up a statement. -/
lemma reprints_keyword {k : Keyword} {s : Stmt}
    (htext : s.eraseCasts.text.toList = k.spelling.toList ++ [';'])
    (h : ∀ t q : Token, t.kind = .keyword k → q.kind = .symbol .semicolon →
      Statement true [t, q] s) : s.Reprints := by
  rw [Stmt.Reprints, htext]
  refine .keyword k rfl fun t ht => ?_
  exact .symbol .semicolon rfl fun q hq => .nil (h t q ht hq)

mutual

/-- Whatever is derived without float constants is printed so that it can be derived again. Behind a
printed statement that leaves no `if` open, an `else` belongs to where it belonged. -/
theorem Statement.reprints {ts : List Token} {s : Stmt} :
    Statement true ts s → Lexed ts → s.any Expr.isFloat = false → s.Reprints
  | .declaration h, hlexed, hfloat => (h.reprints hlexed hfloat).imp fun _ => .declaration
  | .expression h, hlexed, hfloat => (h.reprints hlexed hfloat).imp fun _ => .expression
  | .block _ hbody _, hlexed, hfloat => by
    simp only [lexed_cons, lexed_append] at hlexed
    simp only [Stmt.any] at hfloat
    exact spells_block (reprintsBody hbody hlexed.2.1 hfloat) fun _ _ _ => .block
  | .ifThen _ hcondition htrue, hlexed, hfloat => by
    simp only [lexed_cons, lexed_append] at hlexed
    simp only [Stmt.any, Bool.or_eq_false_iff] at hfloat
    exact reprints_ifThen (hcondition.reprints hlexed.2.1 hfloat.1)
      (htrue.reprints hlexed.2.2 hfloat.2)
  | .ifElse _ hcondition htrue _ hclosed hfalse, hlexed, hfloat => by
    simp only [lexed_cons, lexed_append] at hlexed
    simp only [Stmt.any, Bool.or_eq_false_iff] at hfloat
    exact reprints_ifElse (hcondition.reprints hlexed.2.1 hfloat.1.1)
      (htrue.reprints hlexed.2.2.1 hfloat.1.2) (hclosed rfl)
      (hfalse.reprints hlexed.2.2.2.2 hfloat.2)
  | .whileLoop _ hcondition hbody, hlexed, hfloat => by
    simp only [lexed_cons, lexed_append] at hlexed
    simp only [Stmt.any, Bool.or_eq_false_iff] at hfloat
    exact reprints_whileLoop (hcondition.reprints hlexed.2.1 hfloat.1)
      (hbody.reprints hlexed.2.2 hfloat.2)
  | .forLoop _ _ hinit hcondition _ hstep _ hbody, hlexed, hfloat => by
    simp only [lexed_cons, lexed_append] at hlexed
    obtain ⟨-, -, hinitLexed, hconditionLexed, -, hstepLexed, -, hbodyLexed⟩ := hlexed
    simp only [Stmt.any_forLoop, Bool.or_eq_false_iff] at hfloat
    obtain ⟨⟨⟨hinitFloat, hconditionFloat⟩, hstepFloat⟩, hbodyFloat⟩ := hfloat
    exact reprints_forLoop (hinit.reprints hinitLexed hinitFloat)
      (hcondition.reprints hconditionFloat fun _ h => h.reprints hconditionLexed)
      (hstep.reprints hstepFloat fun _ h hf => (h.reprints hstepLexed hf).expression)
      (hbody.reprints hbodyLexed hbodyFloat)
  | .ret _ hvalue _, hlexed, hfloat => by
    simp only [lexed_cons, lexed_append] at hlexed
    simp only [Stmt.any] at hfloat
    exact reprints_ret
      (hvalue.reprints hfloat fun _ h hf => (h.reprints hlexed.2.1 hf).expression)
  | .brk _ _, _, _ => reprints_keyword (k := .breakKw) rfl fun _ _ => .brk
  | .cont _ _, _, _ => reprints_keyword (k := .continueKw) rfl fun _ _ => .cont

theorem reprintsBody {ts : List Token} {body : List Stmt} :
    Sequence (Statement true) ts body → Lexed ts → Stmt.listAny Expr.isFloat body = false →
      ∀ s ∈ body, s.Reprints
  | .nil, _, _ => by simp
  | .cons h hrest, hlexed, hfloat => by
    simp only [lexed_append] at hlexed
    simp only [Stmt.listAny, Bool.or_eq_false_iff] at hfloat
    exact List.forall_mem_cons.mpr
      ⟨h.reprints hlexed.1 hfloat.1, reprintsBody hrest hlexed.2 hfloat.2⟩

end

lemma Parameter.reprints {p : Param} (h : Parameter ts p) (hlexed : Lexed ts) :
    Spells p.text.toList fun us => Parameter us p := by
  cases h with
  | @mk t name ty ht hty hname =>
    simp only [lexed_cons, hname] at hlexed
    have htext : (Param.mk name.lexeme ty).text.toList =
        ty.sourceName.toList ++ ' ' :: (name.lexeme.toList ++ []) := by
      simp [Param.text]
    rw [htext]
    refine spells_type ht rfl fun k hk => .blank (.name hlexed.2.1 rfl fun u hu hlexeme => .nil ?_)
    exact hlexeme ▸ .mk hk hty hu

lemma Defines.reprints {d : Definition} (h : Defines true ts d) (hlexed : Lexed ts)
    (hfloat : d.any Expr.isFloat = false) :
    Spells d.eraseCasts.text.toList fun us => Defines true us d := by
  cases h with
  | @mk t name l r lb rb ty ps us params body ht hname hl hparams hr hlb hbody hrb =>
    simp only [lexed_cons, lexed_append, hname] at hlexed
    have htext : (Definition.mk name.lexeme ty (params.getD []) body).eraseCasts.text.toList =
        ty.sourceName.toList ++ ' ' :: (name.lexeme.toList ++ '(' ::
          ((String.intercalate ", " ((params.getD []).map Param.text)).toList ++ ')' :: ' ' ::
            (Stmt.compound body).eraseCasts.text.toList)) := by
      simp [Definition.eraseCasts, Definition.text, Stmt.eraseCasts]
    have hlist : ∀ p ∈ params.getD [], Spells p.text.toList fun us => Parameter us p := by
      cases hparams with
      | none => simp
      | some h => exact h.forall_mem hlexed.2.2.2.1 fun _ _ _ hp hlexed => hp.reprints hlexed
    have hstmts := reprintsBody hbody hlexed.2.2.2.2.2.2.1 hfloat
    rw [htext]
    refine spells_type ht rfl fun k hk => .blank (.name hlexed.2.1 rfl fun n hn hlexeme => ?_)
    refine .closedSymbol Symbol.continues_leftParen fun l hl => ?_
    refine (spells_arguments hparams.ne_some_nil hlist).append rfl fun ps hps => ?_
    refine .symbol .rightParen rfl fun r hr => .blank ?_
    refine spells_block hstmts fun lb ts rb hlb hts hrb => ?_
    exact hlexeme ▸ .mk hk hn hl hps hr hlb hts hrb

end Grammar

/-- The texts of definitions with a blank between them. -/
def programText (ds : List Definition) : String := String.intercalate " " (ds.map Definition.text)

lemma spells_program {ds : List Definition}
    (h : ∀ d ∈ ds, Spells d.eraseCasts.text.toList fun ts => Defines true ts d) :
    Spells (programText (ds.map Definition.eraseCasts)).toList fun ts => Program true ts ds := by
  induction ds with
  | nil => exact .nil .nil
  | cons d ds ih =>
    have hd := h d List.mem_cons_self
    have hmore := ih fun x hx => h x (List.mem_cons_of_mem d hx)
    cases ds with
    | nil =>
      have htext : (programText ([d].map Definition.eraseCasts)).toList =
          d.eraseCasts.text.toList ++ [] := by
        simp [programText]
      rw [htext]
      exact hd.append rfl fun ts hts => .nil (.cons hts .nil)
    | cons d' ds =>
      have htext : (programText ((d :: d' :: ds).map Definition.eraseCasts)).toList =
          d.eraseCasts.text.toList ++
            ' ' :: (programText ((d' :: ds).map Definition.eraseCasts)).toList := by
        simp [programText]
      rw [htext]
      exact hd.append rfl fun ts hts => .blank (hmore.imp fun us hus => .cons hts hus)

lemma Grammar.Program.reprints {ts : List Token} {ds : List Definition} (h : Program true ts ds)
    (hlexed : Lexed ts) (hfloat : ∀ d ∈ ds, d.any Expr.isFloat = false) :
    ∀ d ∈ ds, Spells d.eraseCasts.text.toList fun ts => Defines true ts d := by
  induction h with
  | nil => simp
  | cons h _ ih =>
    rw [lexed_append] at hlexed
    rw [List.forall_mem_cons] at hfloat ⊢
    exact ⟨h.reprints hlexed.1 hfloat.1, ih hlexed.2 hfloat.2⟩

/-- A text that spells a program is parsed to it. -/
lemma parseSource_of_spells {source : String} {ds : List Definition}
    (h : Spells source.toList fun ts => Program true ts ds) : parseSource source = .ok ds := by
  obtain ⟨ts, eof, hts, hscans⟩ := h.scans
  have htokens : tokenize source = ts ++ [eof] := (scans_tokenize source).unique hscans
  refine parseSource_of_program ?_
  rw [sourceTokens, htokens, List.dropLast_concat]
  exact hts

/-- Parsing the text of a parsed program without float constants gives the program again. In this
text a cast is written as its operand; a program without casts is read back from its own text. -/
theorem parseSource_programText {source : String} {ds : List Definition}
    (h : parseSource source = .ok ds) (hfloat : ∀ d ∈ ds, d.any Expr.isFloat = false) :
    parseSource (programText (ds.map Definition.eraseCasts)) = .ok ds ∧
      ((∀ d ∈ ds, d.any Expr.isCast = false) → parseSource (programText ds) = .ok ds) := by
  have hlexed : Lexed (sourceTokens source) := (scans_tokenize source).lexed_dropLast
  have hdefinitions := (program_of_parseSource h).reprints hlexed hfloat
  have hreprinted := parseSource_of_spells (spells_program hdefinitions)
  refine ⟨hreprinted, fun hcast => ?_⟩
  have hself : ds.map Definition.eraseCasts = ds.map id :=
    List.map_congr_left fun d hd => Definition.eraseCasts_eq_self (hcast d hd)
  rw [hself, List.map_id] at hreprinted
  exact hreprinted

/-- Casts, a compound assignment, decrements beside a minus and an `else` behind two `if`s. The
second program has no casts. -/
theorem dangling_else_reprinted :
    (∃ ds, parseSource
        "void g(int a) \x7b for (; a;) if (a) if (a && 1 < 2) a += a-- - --a; else break; \x7d" =
          .ok ds ∧
      parseSource ("void g(int a) \x7b for (; a;) if (a) if (( a && ( 1 < 2 ) )) " ++
        "( a = ( a + ( a-- - --a ) ) ); else break; \x7d") = .ok ds) ∧
    ∃ ds, parseSource "int f(int b) \x7b return b * (b - 1); \x7d void h()\x7b\x7d" = .ok ds ∧
      parseSource "int f(int b) \x7b return ( b * ( b - 1 ) ); \x7d void h() \x7b \x7d" =
        .ok ds := by
  have hcasts : parseSource
      "void g(int a) \x7b for (; a;) if (a) if (a && 1 < 2) a += a-- - --a; else break; \x7d" = .ok
      [⟨"g", .void, [⟨"a", .i32⟩], [.forLoop none (some (.boolCast (.var "a"))) none
        (.ifElse (.boolCast (.var "a"))
          (.ifElse (.logicalAnd (.boolCast (.var "a")) (.compare .less (.int 1) (.int 2)))
            (.expression (.assign "a" (.arith .add (.var "a")
              (.arith .sub (.postIncrement "a" (-1)) (.preIncrement "a" (-1)))))) (some .brk))
          none)]⟩] := by
    cbv
  have hplain : parseSource "int f(int b) \x7b return b * (b - 1); \x7d void h()\x7b\x7d" = .ok
      [⟨"f", .i32, [⟨"b", .i32⟩], [.ret (some (.arith .mul (.var "b")
        (.arith .sub (.var "b") (.int 1))))]⟩, ⟨"h", .void, [], []⟩] := by
    cbv
  refine ⟨⟨_, hcasts, ?_⟩, _, hplain, ?_⟩
  · exact (parseSource_programText hcasts (by decide)).1
  · exact (parseSource_programText hplain (by decide)).2 (by decide)

end MiniC
