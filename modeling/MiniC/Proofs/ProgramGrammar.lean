import MiniC.Proofs.StmtGrammar
import MiniC.Proofs.Tokenization

/-!
# Parsing programs by the grammar

The parser accepts exactly the programs of the grammar, and gives the definitions of the derivation
in which every `else` belongs to the nearest `if`. Every program of the grammar has such a
derivation: an `else` that was derived for an `if` further away is moved to the nearest one.
-/

namespace MiniC

namespace Grammar

/-- An `else` part behind a statement that ends open can be made part of that statement. -/
theorem Statement.attach {ts us : List Token} {s onFalse : Stmt} {l : Token}
    (hl : l.kind = .keyword .elseKw) (hfalse : Statement true us onFalse) :
    Statement true ts s → s.endsOpen = true → ∃ s', Statement true (ts ++ l :: us) s'
  | .declaration h, hopen => by cases h; cases hopen
  | .expression h, hopen => by cases h; cases hopen
  | .block .., hopen => by cases hopen
  | @ifThen _ k cs vs condition onTrue hk hcondition htrue, _ => by
    cases hclosed : onTrue.endsOpen with
    | false =>
      refine ⟨.ifElse condition onTrue (some onFalse), ?_⟩
      simpa using Statement.ifElse hk hcondition htrue hl (fun _ => hclosed) hfalse
    | true =>
      obtain ⟨s', hs'⟩ := Statement.attach hl hfalse htrue hclosed
      exact ⟨.ifElse condition s' none, by simpa using Statement.ifThen hk hcondition hs'⟩
  | @ifElse _ k l' cs vs ws condition onTrue onFalse' hk hcondition htrue hl' hnearest hfalse',
      hopen => by
    obtain ⟨s', hs'⟩ := Statement.attach hl hfalse hfalse' hopen
    refine ⟨.ifElse condition onTrue (some s'), ?_⟩
    simpa using Statement.ifElse hk hcondition htrue hl' hnearest hs'
  | @whileLoop _ k cs vs condition body hk hcondition hbody, hopen => by
    obtain ⟨s', hs'⟩ := Statement.attach hl hfalse hbody hopen
    exact ⟨.whileLoop condition s', by simpa using Statement.whileLoop hk hcondition hs'⟩
  | @forLoop _ k l' semicolon r is cs ss vs init condition step body hk hl' hinit hcondition
      hsemicolon hstep hr hbody, hopen => by
    obtain ⟨s', hs'⟩ := Statement.attach hl hfalse hbody hopen
    refine ⟨.forLoop init condition step s', ?_⟩
    simpa using Statement.forLoop hk hl' hinit hcondition hsemicolon hstep hr hs'
  | .ret .., hopen => by cases hopen
  | .brk .., hopen => by cases hopen
  | .cont .., hopen => by cases hopen

mutual

/-- Every `else` of a statement can be given to the nearest `if`. -/
theorem Statement.settle {ts : List Token} {s : Stmt} :
    Statement false ts s → ∃ s', Statement true ts s'
  | .declaration h => ⟨s, .declaration h⟩
  | .expression h => ⟨s, .expression h⟩
  | .block hl hbody hr => by
    obtain ⟨body', hbody'⟩ := settleAll hbody
    exact ⟨_, .block hl hbody' hr⟩
  | .ifThen hk hcondition htrue => by
    obtain ⟨onTrue', htrue'⟩ := htrue.settle
    exact ⟨_, .ifThen hk hcondition htrue'⟩
  | .ifElse hk hcondition htrue hl _ hfalse => by
    obtain ⟨onTrue', htrue'⟩ := htrue.settle
    obtain ⟨onFalse', hfalse'⟩ := hfalse.settle
    cases hclosed : onTrue'.endsOpen with
    | false => exact ⟨_, .ifElse hk hcondition htrue' hl (fun _ => hclosed) hfalse'⟩
    | true =>
      obtain ⟨s', hs'⟩ := Statement.attach hl hfalse' htrue' hclosed
      exact ⟨_, .ifThen hk hcondition hs'⟩
  | .whileLoop hk hcondition hbody => by
    obtain ⟨body', hbody'⟩ := hbody.settle
    exact ⟨_, .whileLoop hk hcondition hbody'⟩
  | .forLoop hk hl hinit hcondition hsemicolon hstep hr hbody => by
    obtain ⟨body', hbody'⟩ := hbody.settle
    exact ⟨_, .forLoop hk hl hinit hcondition hsemicolon hstep hr hbody'⟩
  | .ret hk hvalue hsemicolon => ⟨_, .ret hk hvalue hsemicolon⟩
  | .brk hk hsemicolon => ⟨_, .brk hk hsemicolon⟩
  | .cont hk hsemicolon => ⟨_, .cont hk hsemicolon⟩

theorem settleAll {ts : List Token} {body : List Stmt} :
    Sequence (Statement false) ts body → ∃ body', Sequence (Statement true) ts body'
  | .nil => ⟨[], .nil⟩
  | .cons h hrest => by
    obtain ⟨s', hs'⟩ := h.settle
    obtain ⟨body', hbody'⟩ := settleAll hrest
    exact ⟨s' :: body', .cons hs' hbody'⟩

end

lemma Program.settle {ts : List Token} {ds : List Definition} (h : Program false ts ds) :
    ∃ ds', Program true ts ds' := by
  induction h with
  | nil => exact ⟨[], .nil⟩
  | cons h _ ih =>
    obtain ⟨ds', hds'⟩ := ih
    cases h with
    | mk ht hname hl hparams hr hlb hbody hrb =>
      obtain ⟨body', hbody'⟩ := settleAll hbody
      exact ⟨_ :: ds', .cons (.mk ht hname hl hparams hr hlb hbody' hrb) hds'⟩

lemma Defines.first {nearest : Bool} {ts : List Token} {d : Definition} (h : Defines nearest ts d) :
    ∃ t rest, ts = t :: rest := by
  cases h with
  | mk => exact ⟨_, _, rfl⟩

end Grammar

namespace Parser

open Grammar TokenStream

lemma paramList_eq : paramList = do
    let _ ← expect (.symbol .leftParen) "parameter list"
    let params ← itemsUnless (.symbol .rightParen) param
    let _ ← expect (.symbol .rightParen) "parameter list"
    return params := by
  simp only [itemsUnless_bind]
  rfl

section

variable {eof : Token} (heof : eof.kind = .endOfFile) {nearest : Bool}

include heof

lemma param_reads : Reads eof param Parameter := by
  intro ts p s' h
  simp only [param, bind_ok, pure_ok, typeName_ok heof] at h
  obtain ⟨ty, _, ⟨t, rest, rfl, ht, rfl⟩, name, _, hname, rfl, rfl⟩ := h
  obtain ⟨u, rest, rfl, hu, hty, rfl, rfl⟩ := (variableName_ok heof).mp hname
  exact ⟨[t, u], rest, rfl, rfl, .mk ht hty hu⟩

lemma definition_reads : Reads eof definition (Defines nearest) := by
  intro ts d s' h
  simp only [definition, paramList_eq, block, bind_ok, pure_ok, remaining_bind] at h
  obtain ⟨ty, _, htype, name, _, hnameRun, params, _, hlist, body, _, hbodyRun, rfl, rfl⟩ := h
  obtain ⟨l, _, hleft, params, _, hparamsRun, r, _, hright, rfl, rfl⟩ := hlist
  obtain ⟨t, rest, rfl, ht, rfl⟩ := (typeName_ok heof).mp htype
  obtain ⟨rest, rfl, hname, rfl⟩ := (expect_ok heof (by simp)).mp hnameRun
  obtain ⟨rest, rfl, hl, rfl⟩ := (expect_ok heof (by simp)).mp hleft
  obtain ⟨ps, rest, rfl, rfl, items, hparams, rfl⟩ :=
    itemsUnless_reads heof (param_reads heof) _ _ _ _ hparamsRun
  obtain ⟨rest, rfl, hr, rfl⟩ := (expect_ok heof (by simp)).mp hright
  obtain ⟨us, rest, rfl, rfl, lb, inner, rb, rfl, hlb, hbody, hrb⟩ :=
    blockWith_reads heof (statementIn_reads heof _).reads _ _ _ hbodyRun
  exact ⟨t :: name :: l :: (ps ++ r :: lb :: (inner ++ [rb])), rest, by simp, rfl,
    .mk ht hname hl hparams hr hlb hbody hrb⟩

/-- With fuel for all tokens, definitions are read up to the end. -/
lemma definitionsFrom_reads {n : Nat} {ts : List Token} {ds : List Definition} {s' : TokenStream}
    (hlength : ts.length ≤ n) (h : definitionsFrom n ⟨ts, eof⟩ = .ok ds s') :
    Program nearest ts ds := by
  induction n generalizing ts ds s' with
  | zero =>
    obtain ⟨rfl, -⟩ := pure_ok.mp h
    rw [List.length_eq_zero_iff.mp (Nat.le_zero.mp hlength)]
    exact .nil
  | succ n ih =>
    simp only [definitionsFrom, atEnd_bind, ite_ok, pure_ok, bind_ok] at h
    rcases h with ⟨hend, rfl, -⟩ | ⟨-, d, _, hrun, ds, _, hmore, rfl, -⟩
    · rw [List.isEmpty_iff.mp hend]
      exact .nil
    · obtain ⟨us, rest, rfl, rfl, hd⟩ := definition_reads heof _ _ _ hrun
      obtain ⟨t, us', rfl⟩ := hd.first
      simp only [List.cons_append, List.length_cons, List.length_append] at hlength
      exact .cons hd (ih (by omega) hmore)

end

variable {eof : Token}

lemma param_accepts {n : Nat} : Accepts eof param Parameter (fun _ => True) n := by
  intro ts p rest h _ _
  cases h with
  | mk ht hty hname =>
    refine bind_ok.mpr ⟨_, _, typeName_of_kind ht _, ?_⟩
    exact bind_ok.mpr ⟨_, _, variableName_of_kind hty hname _, rfl⟩

lemma definition_accepts {ts : List Token} {d : Definition} (h : Defines true ts d)
    (rest : List Token) : definition ⟨ts ++ rest, eof⟩ = .ok d ⟨rest, eof⟩ := by
  cases h with
  | @mk t name l r lb rb ty ps us params body ht hname hl hparams hr hlb hbody hrb =>
    have hfirst : ∀ vs p more, Parameter vs p →
        (current ⟨vs ++ more, eof⟩).kind ≠ .symbol .rightParen := by
      rintro _ _ more ⟨ht, -, -⟩ hkind
      simp only [List.cons_append, current_cons] at hkind
      rw [hkind] at ht
      cases ht
    have hparamsRun : itemsUnless (.symbol .rightParen) param
        ⟨ps ++ r :: lb :: (us ++ rb :: rest), eof⟩ = _ :=
      itemsUnless_accepts param_accepts trivial (by simp) hfirst hparams (Nat.le_refl _) hr
    have hlist : paramList ⟨l :: (ps ++ r :: lb :: (us ++ rb :: rest)), eof⟩ =
        .ok (params.getD []) ⟨lb :: (us ++ rb :: rest), eof⟩ := by
      rw [paramList_eq]
      refine bind_ok.mpr ⟨l, _, expect_of_kind hl _, bind_ok.mpr ⟨_, _, hparamsRun, ?_⟩⟩
      exact bind_ok.mpr ⟨r, _, expect_of_kind hr _, rfl⟩
    have hblock : block ⟨lb :: (us ++ rb :: rest), eof⟩ = .ok body ⟨rest, eof⟩ := by
      rw [block, remaining_bind]
      exact blockWith_accepts rest (statementIn_accepts _) hlb hbody hrb (by simp; omega)
    simp only [List.cons_append, List.append_assoc, List.nil_append]
    refine bind_ok.mpr ⟨ty, _, typeName_of_kind ht _, ?_⟩
    refine bind_ok.mpr ⟨name, _, expect_of_kind hname _, bind_ok.mpr ⟨_, _, hlist, ?_⟩⟩
    exact bind_ok.mpr ⟨body, _, hblock, rfl⟩

lemma definitionsFrom_accepts {n : Nat} {ts : List Token} {ds : List Definition}
    (h : Program true ts ds) (hlength : ts.length ≤ n) :
    definitionsFrom n ⟨ts, eof⟩ = .ok ds ⟨[], eof⟩ := by
  induction h generalizing n with
  | nil => cases n <;> rfl
  | @cons us vs d ds hd _ ih =>
    have hrun : definition ⟨us ++ vs, eof⟩ = _ := definition_accepts hd vs
    obtain ⟨t, us', rfl⟩ := hd.first
    simp only [List.cons_append, List.length_cons, List.length_append] at hlength
    obtain ⟨n, rfl⟩ : ∃ k, n = k + 1 := ⟨n - 1, by omega⟩
    have hmore := ih (n := n) (by omega)
    rw [definitionsFrom, atEnd_bind, ite_ok]
    exact Or.inr ⟨by simp, bind_ok.mpr ⟨d, _, hrun, bind_ok.mpr ⟨ds, _, hmore, rfl⟩⟩⟩

end Parser

lemma Scans.getLast {c : Cursor} {ts : List Token} (h : Scans c ts) :
    (ts.getLastD ⟨.endOfFile, "", .start⟩).kind = .endOfFile := by
  induction h with
  | eof h => exact beq_iff_eq.mp h
  | @token c ts _ hrest ih =>
    cases hrest with
    | eof => exact ih
    | token => exact ih

/-- The tokens of a source in front of the end of the file. -/
def sourceTokens (source : String) : List Token := (tokenize source).dropLast

lemma translationUnit_ofText (source : String) : Parser.translationUnit (.ofText source) =
    Parser.definitionsFrom (sourceTokens source).length
      ⟨sourceTokens source, (TokenStream.ofText source).eof⟩ := by
  rw [Parser.translationUnit, Parser.remaining_bind]
  rfl

/-- Whatever is parsed is a program of the grammar. -/
lemma program_of_parseSource {nearest : Bool} {source : String} {ds : List Definition}
    (h : parseSource source = .ok ds) : Grammar.Program nearest (sourceTokens source) ds := by
  have heof : (TokenStream.ofText source).eof.kind = .endOfFile := (scans_tokenize source).getLast
  rw [parseSource, translationUnit_ofText] at h
  split at h
  · rename_i ds' s' hok
    cases h
    exact Parser.definitionsFrom_reads heof (Nat.le_refl _) hok
  · cases h

lemma parseSource_of_program {source : String} {ds : List Definition}
    (h : Grammar.Program true (sourceTokens source) ds) : parseSource source = .ok ds := by
  rw [parseSource, translationUnit_ofText, Parser.definitionsFrom_accepts h (Nat.le_refl _)]

/-- A source is parsed if and only if its tokens can be derived as a program, and it is parsed to
the definitions of the derivation in which every `else` belongs to the nearest `if`. -/
theorem parseSource_iff_program (source : String) :
    ((∃ ds, parseSource source = .ok ds) ↔ ∃ ds, Grammar.Program false (sourceTokens source) ds) ∧
      ∀ ds, parseSource source = .ok ds ↔ Grammar.Program true (sourceTokens source) ds := by
  refine ⟨⟨?_, ?_⟩, fun ds => ⟨program_of_parseSource, parseSource_of_program⟩⟩
  · rintro ⟨ds, h⟩
    exact ⟨ds, program_of_parseSource h⟩
  · rintro ⟨ds, h⟩
    obtain ⟨ds', h'⟩ := h.settle
    exact ⟨ds', parseSource_of_program h'⟩

example : parseSource "void f(int a) \x7b while (a) if (a) if (a) break; else continue; \x7d" = .ok
    [⟨"f", .void, [⟨"a", .i32⟩], [.whileLoop (.boolCast (.var "a"))
      (.ifElse (.boolCast (.var "a"))
        (.ifElse (.boolCast (.var "a")) .brk (some .cont)) none)]⟩] := by
  cbv

end MiniC
