import MiniC.Proofs.ErrorPhases
import MiniC.Proofs.Relocation
import MiniC.Proofs.Scanning

/-!
# Sources one behind the other

A source that can be parsed, a newline and another source: the tokens are those of both, the second
ones further down; the definitions are those of both, since nothing in the grammar goes over the end
of a definition; and the compiler carries only signatures from one definition to the next. So
compiling the whole is compiling one source and then the other.
-/

namespace MiniC

/-- The place in the same column, `n` lines further down. -/
def Location.below (n : Nat) (l : Location) : Location := ⟨l.line + n, l.column⟩

namespace Location

lemma after_below (n : Nat) (l : Location) (c : Char) :
    (l.below n).after c = (l.after c).below n := by
  by_cases hc : c = '\n'
  · simp [after, below, hc, Nat.add_right_comm]
  · simp [after, below, hc]

/-- Behind a newline, columns are counted from there on. -/
lemma behind_newline (lines before : List Char) :
    behind (lines ++ '\n' :: before) = (behind before).below (lines.count '\n' + 1) := by
  induction before using List.reverseRecOn with
  | nil =>
    rw [behind_concat]
    simp [behind, after, below, Nat.add_assoc]
  | append_singleton before c ih =>
    rw [← List.cons_append, ← List.append_assoc, behind_concat, ih, after_below, behind_concat]

end Location

namespace Tokenized

variable {before text : List Char} {ts us : List Token}

/-- Behind a newline, a text has the same tokens further down. -/
lemma behind_newline (h : Tokenized before text ts) (lines : List Char) :
    Tokenized (lines ++ '\n' :: before) text
      (ts.map (Token.relocate (Location.below (lines.count '\n' + 1)))) := by
  have hbehind : ∀ before gap, (Location.behind (before ++ gap)).below (lines.count '\n' + 1) =
      .behind (lines ++ '\n' :: before ++ gap) := by
    intro before gap
    rw [List.append_assoc, List.cons_append, Location.behind_newline]
  induction h with
  | @done before gap hgap =>
    simp only [List.map_singleton, Token.relocate, hbehind]
    exact .done hgap
  | @token before gap lexeme rest kind ts hgap hcomment hlexeme hlongest _ ih =>
    simp only [List.map_cons, Token.relocate, hbehind]
    refine .token hgap hcomment hlexeme hlongest ?_
    simpa using ih

/-- In front of a newline, a text falls into the same tokens as on its own. -/
lemma append_newline {rest : List Char} (h : Tokenized before text ts)
    (hrest : Tokenized (before ++ text ++ ['\n']) rest us) :
    Tokenized before (text ++ '\n' :: rest) (ts.dropLast ++ us) := by
  induction h with
  | @done before gap hgap =>
    -- A comment that the text ended with now ends in front of the newline.
    have hgap' : Trivia (['\n'] ++ rest) gap := hgap.congr (by simp)
    have hline : Trivia rest (gap ++ ['\n']) := hgap'.append (.blank rfl .nil)
    rw [List.append_assoc] at hrest
    simpa using Tokenized.skip hline hrest
  | @token before gap lexeme tail kind ts hgap hcomment hlexeme hlongest htail ih =>
    have hmore := ih (by simpa using hrest)
    have hgap' : Trivia (lexeme ++ (tail ++ '\n' :: rest)) gap := by
      refine hgap.congr fun c hc => Or.inl ?_
      rwa [hlexeme.head_append] at hc ⊢
    rw [List.append_assoc, List.dropLast_cons_of_ne_nil htail.ne_nil, List.cons_append]
    refine .token hgap' ?_ hlexeme ?_ hmore
    · rw [← List.append_assoc]
      exact not_comment_append_blank hcomment rfl
    · rw [← List.append_assoc]
      exact hlongest.append_blank rfl

end Tokenized

/-- The tokens of two sources with a newline between them are those of both. -/
lemma tokenize_append (s₁ s₂ : String) : tokenize (s₁ ++ "\n" ++ s₂) = sourceTokens s₁ ++
    (tokenize s₂).map (Token.relocate (Location.below (s₁.toList.count '\n' + 1))) := by
  have hfirst : Tokenized [] s₁.toList (tokenize s₁) := (scans_tokenize s₁).tokenized rfl
  have hsecond : Tokenized [] s₂.toList (tokenize s₂) := (scans_tokenize s₂).tokenized rfl
  have hwhole := hfirst.append_newline (hsecond.behind_newline s₁.toList)
  refine Tokenized.eq_tokenize ?_
  simpa [sourceTokens] using hwhole

lemma ofText_append (s₁ s₂ : String) : TokenStream.ofText (s₁ ++ "\n" ++ s₂) =
    let moved := (TokenStream.ofText s₂).relocate (Location.below (s₁.toList.count '\n' + 1))
    ⟨sourceTokens s₁ ++ moved.pending, moved.eof⟩ := by
  obtain ⟨location, hsecond⟩ := tokenize_eq_concat s₂
  rw [TokenStream.ofText, tokenize_append, TokenStream.ofText, hsecond, List.map_append,
    ← List.append_assoc, List.map_singleton, TokenStream.ofTokens_concat,
    TokenStream.ofTokens_concat, TokenStream.relocate]

/-- In front of other tokens, a program is parsed as on its own. -/
lemma Parser.Parses.append {s : TokenStream} {ts : List Token} {ds ds' : List Definition}
    {stop : Option ParseError} (h : Grammar.Program true ts ds) (hrest : Parses s ds' stop) :
    Parses ⟨ts ++ s.pending, s.eof⟩ (ds ++ ds') stop := by
  induction h with
  | nil => exact hrest
  | @cons us vs d ds hd _ ih =>
    have hrun : definition ⟨us ++ (vs ++ s.pending), s.eof⟩ = _ := definition_accepts hd _
    obtain ⟨t, us, rfl⟩ := hd.first
    rw [List.append_assoc]
    exact .next rfl hrun ih

/-- Behind a source that can be parsed and a newline, a source has its own definitions. -/
lemma parses_append {s₁ s₂ : String} {ds ds' : List Definition} {stop : Option ParseError}
    (h : parseSource s₁ = .ok ds) (h' : Parser.Parses (.ofText s₂) ds' stop) :
    Parser.Parses (.ofText (s₁ ++ "\n" ++ s₂)) (ds ++ ds')
      (stop.map (ParseError.relocate (Location.below (s₁.toList.count '\n' + 1)))) := by
  rw [ofText_append]
  exact .append (program_of_parseSource h) (h'.relocate _)

namespace Compiler

/-- Definitions are lowered in order. -/
lemma staged_append (ds ds' : List Definition) (stop : Option ParseError) :
    staged (ds ++ ds') stop = do
      let segs ← ds.mapM lowering
      let more ← staged ds' stop
      return segs ++ more := by
  cases stop with
  | none => simp [staged]
  | some e =>
    simp only [staged, List.mapM_append, bind_assoc, pure_bind]
    rfl

/-- Moving what stopped the parser moves the error that comes of it. -/
lemma staged_relocate (f : Location → Location) (ds : List Definition) (stop : Option ParseError)
    (c : Compiler) : staged ds (stop.map (ParseError.relocate f)) c = match staged ds stop c with
      | .ok segs c' => .ok segs c'
      | .error e c' => .error (e.relocate f) c' := by
  rw [staged_run, staged_run]
  cases hrun : ds.mapM lowering c with
  | ok segs c' => cases stop <;> rfl
  | error e c' =>
    cases e with
    | parse cause => exact absurd hrun (mapM_noParseError ds c c' cause)
    | scope => rfl
    | lowering => rfl

lemma compile_append_outcome {s₁ : String} {ds : List Definition} (h : parseSource s₁ = .ok ds)
    (s₂ : String) (c : Compiler) : (c.compile (s₁ ++ "\n" ++ s₂)).outcome =
      match (c.compile s₁).outcome with
      | .error e c' => .error e c'
      | .ok segs c' =>
        match (c'.compile s₂).outcome with
        | .ok more c'' => .ok (segs ++ more) c''
        | .error e c'' => .error (e.relocate (Location.below (s₁.toList.count '\n' + 1))) c'' := by
  obtain ⟨ds₁, stop₁, hparses₁⟩ := Parser.exists_parses (eof_ofText s₁)
  obtain ⟨ds₂, stop₂, hparses₂⟩ := Parser.exists_parses (eof_ofText s₂)
  obtain ⟨rfl, rfl⟩ : stop₁ = none ∧ ds₁ = ds := by
    rw [parseSource_eq hparses₁] at h
    cases stop₁ with
    | none => exact ⟨rfl, Except.ok.inj h⟩
    | some e => cases h
  rw [compile_outcome (parses_append h hparses₂), compile_outcome hparses₁, staged_append, bind_run,
    staged_run]
  cases ds₁.mapM lowering c with
  | error e c' => rfl
  | ok segs c' =>
    simp only [bind_run, staged_relocate, Option.elim_none, compile_outcome hparses₂ c']
    cases staged ds₂ stop₂ c' <;> rfl

/-- Compiling a source that can be parsed, a newline and another source is compiling the first and
then, if it was accepted, the second: the code of both, the same functions afterwards, and the same
error, where an error of the parser in the second source is as many lines further down as the first
source takes. -/
theorem compile_append (c : Compiler) {s₁ s₂ : String} {ds : List Definition}
    (h : parseSource s₁ = .ok ds) :
    let first := c.compile s₁
    let second := first.compiler.compile s₂
    let whole := c.compile (s₁ ++ "\n" ++ s₂)
    (∀ e, first.result = .error e →
      whole.result = .error e ∧ whole.compiler = first.compiler) ∧
    ∀ segs, first.result = .ok segs →
      whole.result = (second.result.map (segs ++ ·)).mapError
          (CompileError.relocate (Location.below (s₁.toList.count '\n' + 1))) ∧
        whole.compiler = second.compiler := by
  intro first second whole
  have hwhole : whole.outcome = _ := compile_append_outcome h s₂ c
  refine ⟨fun e hfirst => ?_, fun segs hfirst => ?_⟩
  · have hrun : (c.compile s₁).outcome = .error e first.compiler :=
      outcome_error.mpr ⟨hfirst, rfl⟩
    rw [hrun] at hwhole
    exact outcome_error.mp hwhole
  · have hrun : (c.compile s₁).outcome = .ok segs first.compiler := outcome_ok.mpr ⟨hfirst, rfl⟩
    rw [hrun] at hwhole
    cases hsecond : second.result with
    | error e =>
      have hrun : (first.compiler.compile s₂).outcome = .error e second.compiler :=
        outcome_error.mpr ⟨hsecond, rfl⟩
      simp only [hrun] at hwhole
      exact outcome_error.mp hwhole
    | ok more =>
      have hrun : (first.compiler.compile s₂).outcome = .ok more second.compiler :=
        outcome_ok.mpr ⟨hsecond, rfl⟩
      simp only [hrun] at hwhole
      exact outcome_ok.mp hwhole

end Compiler

theorem unfinished_second_function :
    (Compiler.compile {} ("void f() \x7b\x7d" ++ "\n" ++ "int g(")).result =
      .error (.parse (.unexpectedEof "type name in parameter list" ⟨2, 7⟩)) := by
  have hparsed : parseSource "void f() \x7b\x7d" = .ok [⟨"f", .void, [], []⟩] := by cbv
  have hfirst : (Compiler.compile {} "void f() \x7b\x7d").result =
      .ok [⟨[.functionBegin "f" .void [], .label (.fixed 0 0), .ret none, .functionEnd],
        none⟩] := by
    decide +kernel
  rw [((Compiler.compile_append {} hparsed).2 _ hfirst).1]
  decide +kernel

end MiniC
