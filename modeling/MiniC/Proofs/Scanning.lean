import MiniC.Proofs.Spelling

/-!
# Texts that fall into tokens

A text that falls into tokens in the sense of `Tokenized` does so in one way, and scanning finds it.
So the tokens of a text made of other texts follow from how these fall into tokens. What a blank
follows is scanned as if the text ended there, since no lexeme and no start of a comment holds a
blank.
-/

namespace MiniC

namespace Cursor

variable {gap body lexeme rest : List Char} {kind : TokenKind} {location : Location}

/-- A comment is skipped up to its end. -/
lemma splitTrivia_body (hbody : '\n' ∉ body) (hend : ∀ c ∈ rest.head?, c = '\n') :
    splitTrivia true (body ++ rest) =
      (body ++ (splitTrivia false rest).1, (splitTrivia false rest).2) := by
  induction body with
  | nil =>
    cases rest with
    | nil => rfl
    | cons c rest =>
      obtain rfl : c = '\n' := hend c rfl
      simp [splitTrivia]
  | cons c body ih =>
    rw [List.mem_cons, not_or] at hbody
    have hc : (c != '\n') = true := bne_iff_ne.mpr (Ne.symm hbody.1)
    simp [splitTrivia, hc, ih hbody.2]

/-- Blanks and comments in front of a text are skipped with those that it starts with. -/
lemma splitTrivia_append (h : Trivia rest gap) : splitTrivia false (gap ++ rest) =
    (gap ++ (splitTrivia false rest).1, (splitTrivia false rest).2) := by
  induction h with
  | nil => rfl
  | @blank c gap hc _ ih =>
    have hslash : (c == '/') = false := by
      rw [beq_eq_false_iff_ne]
      rintro rfl
      cases hc
    simp [splitTrivia, hslash, hc, ih]
  | @comment body gap hbody hend _ ih =>
    have hskip := splitTrivia_body hbody hend
    simp [splitTrivia, hskip, ih]

lemma splitTrivia_eq_nil (hblank : ∀ c ∈ rest.head?, isBlank c = false)
    (hcomment : ¬['/', '/'] <+: rest) : splitTrivia false rest = ([], rest) := by
  cases rest with
  | nil => rfl
  | cons c cs =>
    have hslash : (c == '/' && cs.head? == some '/') = false := by
      rw [Bool.eq_false_iff]
      intro h
      cases cs with
      | nil => simp at h
      | cons d cs =>
        obtain ⟨rfl, rfl⟩ : c = '/' ∧ d = '/' := by simpa using h
        exact hcomment ⟨cs, rfl⟩
    simp [splitTrivia, hslash, hblank c rfl]

end Cursor

namespace Lexeme

variable {w : List Char} {kind kind' : TokenKind}

lemma isBlank_of_mem (h : Lexeme w kind) : ∀ c ∈ w, Cursor.isBlank c = false := by
  have hdigit : ∀ c : Char, c.isDigit = true → Cursor.isBlank c = false :=
    fun c => Cursor.isBlank_eq_false rfl
  cases h with
  | keyword k => exact fun c hc => Cursor.isBlank_eq_false rfl (k.isWordChar_of_mem_spelling c hc)
  | identifier _ hword => exact fun c hc => Cursor.isBlank_eq_false rfl (hword c hc)
  | intLiteral _ hdigits => exact fun c hc => hdigit c (hdigits c hc)
  | floatLiteral _ hwhole hfraction =>
    intro c hc
    rw [List.mem_append, List.mem_cons] at hc
    rcases hc with hc | rfl | hc
    · exact hdigit c (hwhole c hc)
    · rfl
    · exact hdigit c (hfraction c hc)
  | symbol s =>
    rw [← List.forall_mem_map (f := Cursor.isBlank) (P := (· = false))]
    cases s <;> decide
  | unknown hblank =>
    intro c hc
    rw [List.mem_singleton.mp hc]
    exact hblank

/-- The scanner splits a lexeme off as one of its kind. -/
lemma kind_splitLexeme (h : Lexeme w kind) : (Cursor.splitLexeme w).1 = kind := by
  cases h with
  | keyword k => cases k <;> decide
  | identifier hne hword hkeyword =>
    have hnone : Keyword.ofWord? (String.ofList w) = none := by
      refine Option.eq_none_iff_forall_ne_some.mpr fun k hk => hkeyword k ?_
      rw [Keyword.ofWord?_eq_some.mp hk, String.toList_ofList]
    obtain ⟨c, cs, rfl⟩ := List.exists_cons_of_ne_nil hne
    rw [Cursor.splitLexeme, if_pos (hword c List.mem_cons_self),
      List.takeWhile_eq_self_iff.mpr hword]
    simp only [TokenKind.ofWord, hnone]
  | intLiteral hne hdigits =>
    obtain ⟨c, cs, rfl⟩ := List.exists_cons_of_ne_nil hne
    have hc := hdigits c List.mem_cons_self
    have hend : (c :: cs).dropWhile Char.isDigit = [] := List.dropWhile_eq_nil_iff.mpr hdigits
    simp [Cursor.splitLexeme, Cursor.isWordChar_of_isDigit hc, hc, Cursor.splitNumeral, hend]
  | @floatLiteral whole fraction hne hwhole hfraction =>
    obtain ⟨c, cs, rfl⟩ := List.exists_cons_of_ne_nil hne
    have hc := hwhole c List.mem_cons_self
    have hpoint : (c :: cs ++ '.' :: fraction).dropWhile Char.isDigit = '.' :: fraction := by
      rw [List.dropWhile_append_of_pos hwhole]
      rfl
    rw [List.cons_append] at hpoint ⊢
    simp [Cursor.splitLexeme, Cursor.isWordChar_of_isDigit hc, hc, Cursor.splitNumeral, hpoint]
  | symbol s => cases s <;> decide
  | @unknown c hblank hword hdigit hsymbol =>
    have hnone := Symbol.ofChars?_eq_none.mpr hsymbol
    simp [Cursor.splitLexeme, hword, hdigit, Cursor.splitSymbol, hnone]

/-- A lexeme has one kind. -/
lemma kind_unique (h : Lexeme w kind) (h' : Lexeme w kind') : kind = kind' :=
  h.kind_splitLexeme.symm.trans h'.kind_splitLexeme

/-- No lexeme starts a comment. -/
lemma not_comment (h : Lexeme w kind) : ¬['/', '/'] <+: w := by
  rintro ⟨tail, rfl⟩
  rcases h.symbol_cases rfl rfl with hnil | ⟨d, s, hd, hs⟩
  · cases hnil
  · obtain ⟨rfl, -⟩ := List.cons.inj hd
    cases hs

lemma head_append (h : Lexeme w kind) (rest : List Char) : (w ++ rest).head? = w.head? := by
  obtain ⟨c, cs, rfl⟩ := List.exists_cons_of_ne_nil h.ne_nil
  rfl

end Lexeme

namespace Cursor

variable {gap lexeme rest : List Char} {kind : TokenKind} {location : Location}

lemma scan_end (h : Trivia [] gap) : scan ⟨gap, location⟩ =
    (⟨.endOfFile, "", location.afterAll gap⟩, ⟨[], location.afterAll gap⟩) := by
  have htrivia := splitTrivia_append h
  rw [List.append_nil] at htrivia
  simp only [scan, htrivia, splitTrivia, splitLexeme, List.append_nil]
  rfl

/-- Scanning takes the longest lexeme behind blanks and comments. -/
lemma scan_token (hgap : Trivia (lexeme ++ rest) gap) (hcomment : ¬['/', '/'] <+: lexeme ++ rest)
    (hlexeme : Lexeme lexeme kind) (hlongest : Longest (lexeme ++ rest) lexeme) :
    scan ⟨gap ++ lexeme ++ rest, location⟩ = (⟨kind, String.ofList lexeme, location.afterAll gap⟩,
      ⟨rest, (location.afterAll gap).afterAll lexeme⟩) := by
  have hblank : ∀ c ∈ (lexeme ++ rest).head?, isBlank c = false := by
    intro c hc
    rw [hlexeme.head_append] at hc
    exact hlexeme.isBlank_of_mem c (List.mem_of_mem_head? hc)
  have htrivia : splitTrivia false (gap ++ lexeme ++ rest) = (gap, lexeme ++ rest) := by
    rw [List.append_assoc, splitTrivia_append hgap, splitTrivia_eq_nil hblank hcomment,
      List.append_nil]
  cases hsplit : splitLexeme (lexeme ++ rest) with
  | mk kind' split =>
    obtain ⟨lexeme', rest'⟩ := split
    obtain ⟨c, cs, htext⟩ := List.exists_cons_of_ne_nil
      (List.append_ne_nil_of_left_ne_nil hlexeme.ne_nil rest)
    obtain ⟨hparts, hlexeme', hlongest'⟩ : lexeme ++ rest = lexeme' ++ rest' ∧
        Lexeme lexeme' kind' ∧ Longest (lexeme ++ rest) lexeme' := by
      rw [htext] at hsplit hblank ⊢
      exact splitLexeme_spec (hblank c rfl) hsplit
    -- Two lexemes at one place, each at least as long as the other, are the same.
    have hlength : lexeme.length = lexeme'.length := Nat.le_antisymm
      (hlongest' _ _ hlexeme ⟨rest, rfl⟩) (hlongest _ _ hlexeme' ⟨rest', hparts.symm⟩)
    obtain ⟨rfl, rfl⟩ := List.append_inj hparts hlength
    obtain rfl := hlexeme.kind_unique hlexeme'
    simp only [scan, htrivia, hsplit]

end Cursor

/-- Scanning finds the tokens that a text falls into. -/
lemma Tokenized.scans {before text : List Char} {ts : List Token} (h : Tokenized before text ts) :
    Scans ⟨text, .behind before⟩ ts := by
  induction h with
  | @done before gap hgap =>
    have hscan : Cursor.scan ⟨gap, .behind before⟩ = _ := Cursor.scan_end hgap
    rw [Location.afterAll_behind] at hscan
    have heof : (Cursor.scan ⟨gap, .behind before⟩).1.isEof = true := by
      rw [hscan]
      rfl
    have hscans := Scans.eof heof
    rwa [hscan] at hscans
  | @token before gap lexeme rest kind ts hgap hcomment hlexeme hlongest _ ih =>
    have hscan : Cursor.scan ⟨gap ++ lexeme ++ rest, .behind before⟩ = _ :=
      Cursor.scan_token hgap hcomment hlexeme hlongest
    rw [Location.afterAll_behind, Location.afterAll_behind] at hscan
    exact .cons hscan hlexeme.kind_ne_endOfFile ih

/-- A text falls into its tokens and into no others. -/
lemma Tokenized.eq_tokenize {source : String} {ts : List Token}
    (h : Tokenized [] source.toList ts) : tokenize source = ts :=
  (scans_tokenize source).unique h.scans

lemma Tokenized.ne_nil {before text : List Char} {ts : List Token} (h : Tokenized before text ts) :
    ts ≠ [] := by
  cases h <;> simp

/-- The last token is the end of the file. -/
lemma Tokenized.eq_concat {before text : List Char} {ts : List Token}
    (h : Tokenized before text ts) :
    ∃ location, ts = ts.dropLast ++ [⟨.endOfFile, "", location⟩] := by
  induction h with
  | done => exact ⟨_, rfl⟩
  | token _ _ _ _ hrest ih =>
    obtain ⟨location, hts⟩ := ih
    refine ⟨location, ?_⟩
    rw [List.dropLast_cons_of_ne_nil hrest.ne_nil, List.cons_append, ← hts]

lemma tokenize_eq_concat (source : String) : ∃ location,
    tokenize source = (tokenize source).dropLast ++ [⟨.endOfFile, "", location⟩] := by
  have htokenized : Tokenized [] source.toList (tokenize source) :=
    (scans_tokenize source).tokenized rfl
  exact htokenized.eq_concat

namespace Trivia

variable {rest rest' gap gap' : List Char}

/-- Blanks and comments depend on the text behind them only in that a comment ends in front of a
newline. -/
lemma congr (h : Trivia rest gap) (hrest : ∀ c ∈ rest'.head?, c ∈ rest.head? ∨ c = '\n') :
    Trivia rest' gap := by
  induction h with
  | nil => exact .nil
  | blank hc _ ih => exact .blank hc ih
  | @comment body gap hbody hend _ ih =>
    refine .comment hbody ?_ ih
    intro c hc
    cases gap with
    | nil =>
      rcases hrest c hc with hc | rfl
      · exact hend c hc
      · rfl
    | cons d gap => exact hend c hc

lemma append (h : Trivia (gap' ++ rest) gap) (h' : Trivia rest gap') :
    Trivia rest (gap ++ gap') := by
  induction h with
  | nil => exact h'
  | blank hc _ ih => exact .blank hc ih
  | comment hbody hend _ ih =>
    rw [List.append_assoc]
    rw [← List.append_assoc] at hend
    exact .comment hbody hend ih

end Trivia

/-- Blanks and comments in front of a text do not change how it falls into tokens. -/
lemma Tokenized.skip {before gap rest : List Char} {ts : List Token} (hgap : Trivia rest gap)
    (h : Tokenized (before ++ gap) rest ts) : Tokenized before (gap ++ rest) ts := by
  cases h with
  | done hgap' =>
    rw [List.append_assoc]
    rw [← List.append_nil rest] at hgap
    exact .done (hgap.append hgap')
  | @token _ gap' lexeme rest kind ts hgap' hcomment hlexeme hlongest hrest =>
    rw [List.append_assoc gap'] at hgap
    rw [List.append_assoc before] at hrest ⊢
    rw [← List.append_assoc, ← List.append_assoc]
    exact .token (hgap.append hgap') hcomment hlexeme hlongest hrest

/-- What a text starts with, if it does not hold `x`, stands in front of the first `x`. -/
lemma prefix_of_notMem {α : Type} {x : α} {w text rest : List α} (hx : x ∉ w)
    (h : w <+: text ++ x :: rest) : w <+: text := by
  rcases List.prefix_or_prefix_of_prefix h (List.prefix_append text _) with h' | ⟨tail, rfl⟩
  · exact h'
  · cases tail with
    | nil => rw [List.append_nil]
    | cons y tail =>
      obtain ⟨rfl, -⟩ := List.cons_prefix_cons.mp ((List.prefix_append_right_inj text).mp h)
      exact absurd (by simp) hx

section

variable {text lexeme rest : List Char} {b : Char}

/-- No lexeme goes over a blank. -/
lemma Longest.append_blank (h : Longest text lexeme) (hb : Cursor.isBlank b = true) :
    Longest (text ++ b :: rest) lexeme := by
  intro w kind hw hfirst
  have hnot : b ∉ w := by
    intro hmem
    simp [hw.isBlank_of_mem b hmem] at hb
  exact h w kind hw (prefix_of_notMem hnot hfirst)

lemma not_comment_append_blank (h : ¬['/', '/'] <+: text) (hb : Cursor.isBlank b = true) :
    ¬['/', '/'] <+: text ++ b :: rest := by
  intro hfirst
  have hnot : b ∉ ['/', '/'] := by
    intro hmem
    obtain rfl : b = '/' := by simpa using hmem
    cases hb
  exact h (prefix_of_notMem hnot hfirst)

end

end MiniC
