import MiniC.Proofs.Relocation
import MiniC.Proofs.Scanning
import MiniC.Proofs.StmtTracking

/-!
# Syntax errors at the earliest token

A syntax error is reported at the first token behind which a text cannot be saved any more: what
stands in front of the token is the beginning of a program, and with the token it is not.
-/

namespace MiniC

open TokenStream

instance : Nonempty Definition := ⟨⟨"", .void, [], []⟩⟩

namespace Grammar

/-- Whether tokens are a program of the grammar if variables may be `void`. To the grammar all other
types are alike, so `int` is put for `void`. -/
def Derivable (ts : List Token) : Prop := Phrase (Program false) (ts.map .withoutVoid)

lemma Defines.first_ne_endOfFile {nearest : Bool} {ts : List Token} {d : Definition}
    (h : Defines nearest ts d) : ∃ t rest, ts = t :: rest ∧ t.kind ≠ .endOfFile := by
  cases h with
  | mk ht => exact ⟨_, _, rfl, fun hkind => by simp [hkind, TokenKind.toTy?] at ht⟩

end Grammar

namespace Parser

open Grammar

/-- In front of the end of a file there is no more definition. -/
lemma definitionsFrom_of_end {n : Nat} {t t' : TokenStream} {ds : List Definition}
    (heof : t.eof.kind = .endOfFile) (hend : t.current.kind = .endOfFile)
    (h : definitionsFrom n t = .ok ds t') : ds = [] ∧ t = t' := by
  cases n with
  | zero =>
    obtain ⟨rfl, rfl⟩ := pure_ok.mp h
    exact ⟨rfl, rfl⟩
  | succ n =>
    rw [definitionsFrom, atEnd_bind, ite_ok] at h
    rcases h with ⟨-, h⟩ | ⟨-, h⟩
    · obtain ⟨rfl, rfl⟩ := pure_ok.mp h
      exact ⟨rfl, rfl⟩
    · obtain ⟨d, t₁, hd, -⟩ := bind_ok.mp h
      have hreads : Reads t.eof definition (Defines true) := definition_reads heof
      exact absurd hd (hreads.not_ok Defines.first_ne_endOfFile hend)

lemma definitionsFrom_of_token {n : Nat} {t : TokenStream} (h : t.pending ≠ []) :
    definitionsFrom (n + 1) t =
      (definition >>= fun d => definitionsFrom n >>= fun ds => pure (d :: ds)) t := by
  rw [definitionsFrom, atEnd_bind, if_neg (by simpa using h)]

/-- Programs go in step, with fuel for all tokens of both streams. -/
theorem Tracks.definitionsFrom {eof : Token} (heof : eof.kind = .endOfFile) (n : Nat) :
    ∀ k ts, (∀ t ∈ ts, t.kind ≠ .endOfFile) → ts.length ≤ n →
      Tracks eof ts False k (definitionsFrom n) (definitionsFrom k) (Phrase (Program false)) := by
  have hdone : ∀ k, Tracks eof [] False k (pure [] : Parser (List Definition))
      (Parser.definitionsFrom k) (Phrase (Program false)) := fun k =>
    (Tracks.pure id ⟨[], .nil⟩ [] []).congr_of_end heof (Or.inl rfl) fun heof' hend hrun => by
      obtain ⟨rfl, rfl⟩ := definitionsFrom_of_end heof' hend hrun
      rfl
  induction n with
  | zero =>
    intro k ts _ hts
    obtain rfl : ts = [] := List.length_eq_zero_iff.mp (Nat.le_zero.mp hts)
    exact hdone k
  | succ n ih =>
    intro k ts htokens hts
    cases ts with
    | nil => exact (hdone k).congr rfl fun _ _ _ hrun => hrun
    | cons t rest =>
      have hdefinition : Tracks eof (t :: rest) False k Parser.definition Parser.definition
          (Phrase (Defines false)) := definition heof
      have hnext : Tracks eof (t :: rest) False k
          (Parser.definition >>= fun d => Parser.definitionsFrom n >>= fun ds => pure (d :: ds))
          (Parser.definition >>= fun d =>
            Parser.definitionsFrom (k - 1) >>= fun ds => pure (d :: ds))
          (Phrase (Program false)) := by
        cases hrun : Parser.definition ⟨t :: rest, eof⟩ with
        | error e s' =>
          refine hdefinition.bind_of_error hrun fun us ⟨d, hd⟩ => ⟨[], [d], ?_⟩
          have hprogram : Program false _ [d] := .cons hd .nil
          simpa using hprogram
        | ok d s' =>
          obtain ⟨us, rest', hsplit, rfl, -, ⟨d', hd⟩, -⟩ := hdefinition.ok hrun
          have hpos : 0 < us.length := by
            obtain ⟨u, us', hus, -⟩ := hd.first_ne_endOfFile
            rw [← List.length_map (f := Token.withoutVoid), hus]
            exact Nat.zero_lt_succ _
          rw [hsplit] at hdefinition hrun htokens hts ⊢
          rw [List.length_append] at hts
          refine hdefinition.bind_of_ok us nofun hrun fun _ => ?_
          have hmore := ih (k - 1) rest' (fun t ht => htokens t (by simp [ht])) (by omega)
          refine (hmore.mono id (by omega)).bind fun _ _ vs rest ⟨ds, hds⟩ _ => ?_
          have hprogram : Program false _ (d' :: ds) := .cons hd hds
          exact Tracks.pure id ⟨_, by simpa using hprogram⟩ _ _
      refine hnext.congr (definitionsFrom_of_token (by simp)) ?_
      rintro used rest' s b s' hsplit - hs hrun
      -- the second stream has a token as well, so its fuel is not used up
      have hcurrent : s.current.kind ≠ .endOfFile := by
        rw [hs.current, ← hsplit, ne_eq, Token.withoutVoid_kind_iff rfl]
        exact htokens t (by simp)
      have hpending : s.pending ≠ [] := by
        intro hempty
        rw [TokenStream.current, hempty] at hcurrent
        exact hcurrent hs.eof_kind
      have hle := hs.length_le
      have hpos := List.length_pos_iff.mpr hpending
      obtain ⟨k, rfl⟩ : ∃ j, k = j + 1 := ⟨k - 1, by omega⟩
      rw [definitionsFrom_of_token hpending] at hrun
      exact hrun

end Parser

lemma tokenize_eq (source : String) :
    tokenize source = sourceTokens source ++ [(TokenStream.ofText source).eof] := by
  obtain ⟨location, h⟩ := tokenize_eq_concat source
  have heof : (TokenStream.ofText source).eof = ⟨.endOfFile, "", location⟩ := by
    rw [TokenStream.ofText, h, ofTokens_concat]
  rw [heof]
  exact h

lemma kind_ne_endOfFile_of_mem {source : String} {t : Token} (h : t ∈ sourceTokens source) :
    t.kind ≠ .endOfFile :=
  ((scans_tokenize source).lexed_dropLast t h).kind_ne_endOfFile

namespace Parser

open Grammar

/-- Tokens on which parsing fails are not a program, since programs are parsed. -/
lemma not_derivable {ts read : List Token} {eof : Token} (heof : eof.kind = .endOfFile)
    (hread : read.map .withoutVoid <+: ts.map .withoutVoid ++ [eof])
    (hfails : ∀ {t ds t'}, t.Begins ts.length read → definitionsFrom ts.length t ≠ .ok ds t') :
    ¬Derivable ts := by
  rintro ⟨ds, hds⟩
  obtain ⟨ds', hds'⟩ := hds.settle
  have haccepts : definitionsFrom ts.length ⟨ts.map .withoutVoid, eof⟩ = .ok ds' ⟨[], eof⟩ :=
    definitionsFrom_accepts hds' (by simp)
  exact hfails ⟨by simp, heof, hread⟩ haccepts

/-- What a syntax error says about the tokens that are read up to it. -/
lemma definitionsFrom_error {eof : Token} (heof : eof.kind = .endOfFile) {ts : List Token}
    (htokens : ∀ t ∈ ts, t.kind ≠ .endOfFile) {e : ParseError} {s' : TokenStream}
    (h : definitionsFrom ts.length ⟨ts, eof⟩ = .error e s') (he : e.IsSyntax) :
    ∃ before rest, ts = before ++ rest ∧ e.Reports (current ⟨rest, eof⟩) ∧
      (∃ more, Derivable (before ++ more)) ∧
      ∀ us, (before ++ [current ⟨rest, eof⟩]).map Token.withoutVoid <+:
        us.map .withoutVoid ++ [eof] → ¬Derivable us := by
  have htracks : ∀ m, Tracks eof ts False m (definitionsFrom ts.length) (definitionsFrom m)
      (Phrase (Program false)) :=
    fun m => Tracks.definitionsFrom heof ts.length m ts htokens (Nat.le_refl _)
  obtain ⟨before, rest, rfl, rfl, -, hmore, hreports, -⟩ := (htracks 0).error h he
  refine ⟨before, rest, rfl, hreports, hmore, fun us hus => ?_⟩
  exact not_derivable heof hus ((htracks us.length).not_ok h he)

end Parser

open Grammar in
/-- A syntax error is reported at the earliest token. The error names the place of one token of the
source, and its lexeme unless it is the end of the file. The tokens in front of it are the beginning
of a program, in the grammar that lets variables be `void`, and no program begins with them and the
token. At the end of the file this means that they are not a program. -/
theorem parseSource_error_earliest {source : String} {e : ParseError}
    (h : parseSource source = .error e) (he : e.IsSyntax) :
    ∃ before k after, tokenize source = before ++ k :: after ∧ e.Reports k ∧
      (∃ more, Derivable (before ++ more)) ∧
      (k.kind = .endOfFile → after = [] ∧ ¬Derivable before) ∧
      (k.kind ≠ .endOfFile → ∀ more, ¬Derivable (before ++ k :: more)) := by
  have heof := eof_ofText source
  obtain ⟨s', hrun⟩ : ∃ s', Parser.definitionsFrom (sourceTokens source).length
      ⟨sourceTokens source, (TokenStream.ofText source).eof⟩ = .error e s' := by
    rw [parseSource, translationUnit_ofText] at h
    split at h <;> cases h
    exact ⟨_, by assumption⟩
  obtain ⟨before, rest, hsplit, hreports, hmore, hnot⟩ :=
    Parser.definitionsFrom_error heof (fun t => kind_ne_endOfFile_of_mem) hrun he
  rw [tokenize_eq, hsplit]
  cases rest with
  | nil =>
    refine ⟨before, _, [], by simp, hreports, hmore, fun _ => ⟨rfl, hnot before ?_⟩,
      fun hk => absurd heof hk⟩
    rw [current_nil, List.map_append, List.map_singleton,
      Token.withoutVoid_of_ne (by simp [heof])]
  | cons k after =>
    have hmem : k ∈ sourceTokens source := by simp [hsplit]
    refine ⟨before, k, after ++ [(TokenStream.ofText source).eof], by simp, hreports, hmore,
      fun hk => absurd hk (kind_ne_endOfFile_of_mem hmem), fun _ more => hnot _ ?_⟩
    simp

open Grammar in
/-- What stands in front of the semicolon can only be continued with a variable of type `void`. -/
theorem void_declaration_stops :
    parseSource "int f() \x7b void; \x7d" =
      .error (.unexpectedToken "'identifier' in declaration" ";" ⟨1, 15⟩) ∧
    ∃ before k after, tokenize "int f() \x7b void; \x7d" = before ++ k :: after ∧
      ParseError.Reports (.unexpectedToken "'identifier' in declaration" ";" ⟨1, 15⟩) k ∧
      (∃ more, Derivable (before ++ more)) ∧
      (k.kind = .endOfFile → after = [] ∧ ¬Derivable before) ∧
      (k.kind ≠ .endOfFile → ∀ more, ¬Derivable (before ++ k :: more)) := by
  have hrun : parseSource "int f() \x7b void; \x7d" =
      .error (.unexpectedToken "'identifier' in declaration" ";" ⟨1, 15⟩) := by
    cbv
  exact ⟨hrun, parseSource_error_earliest hrun trivial⟩

end MiniC
