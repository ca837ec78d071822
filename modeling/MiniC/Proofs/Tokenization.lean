import Mathlib
import MiniC.Token.Lexer

/-!
# Tokens of a text

A text is a sequence of lexemes with blanks and comments around them. `Lexeme` says which texts are
lexemes and of which kind, and `Tokenized` how a text falls into them: each lexeme is the longest
one at its place, and each token has the place of its first character. Scanning a text through a
window of two tokens gives exactly these tokens.
-/

namespace MiniC

namespace Location

/-- The place behind a text: each newline starts a line, and each character since the last one takes
a column. -/
def behind (before : List Char) : Location :=
  ⟨1 + before.count '\n', 1 + (before.rtakeWhile (· != '\n')).length⟩

lemma behind_concat (before : List Char) (c : Char) :
    behind (before ++ [c]) = (behind before).after c := by
  by_cases hc : c = '\n'
  · simp [behind, after, hc, Nat.add_assoc]
  · simp [behind, after, hc, Nat.add_assoc]

/-- Reading a text goes to the place behind it. -/
lemma afterAll_behind (before cs : List Char) :
    (behind before).afterAll cs = behind (before ++ cs) := by
  induction cs generalizing before with
  | nil => rw [List.append_nil]; rfl
  | cons c rest ih =>
    have hstep : (behind before).afterAll (c :: rest) =
      ((behind before).after c).afterAll rest := rfl
    rw [hstep, ← behind_concat, ih, List.append_assoc, List.singleton_append]

end Location

/-- Whether a text in front of `rest` consists of blanks and comments. A comment runs up to a
newline or the end of all text. -/
inductive Trivia (rest : List Char) : List Char → Prop where
  | nil : Trivia rest []
  | blank {c : Char} {gap : List Char} (hc : Cursor.isBlank c = true) (hgap : Trivia rest gap) :
      Trivia rest (c :: gap)
  | comment {body gap : List Char} (hbody : '\n' ∉ body)
      (hend : ∀ c ∈ (gap ++ rest).head?, c = '\n') (hgap : Trivia rest gap) :
      Trivia rest ('/' :: '/' :: body ++ gap)

/-- The lexemes with their kinds: words, which are keywords or identifiers, numerals, symbols, and
any other single character that is no blank. -/
inductive Lexeme : List Char → TokenKind → Prop where
  | keyword (k : Keyword) : Lexeme k.spelling.toList (.keyword k)
  | identifier {word : List Char} (hne : word ≠ []) (hword : ∀ c ∈ word, Cursor.isWordChar c = true)
      (hkeyword : ∀ k : Keyword, k.spelling.toList ≠ word) : Lexeme word .identifier
  | intLiteral {digits : List Char} (hne : digits ≠ []) (hdigits : ∀ c ∈ digits, c.isDigit = true) :
      Lexeme digits .intLiteral
  | floatLiteral {whole fraction : List Char} (hne : whole ≠ [])
      (hwhole : ∀ c ∈ whole, c.isDigit = true) (hfraction : ∀ c ∈ fraction, c.isDigit = true) :
      Lexeme (whole ++ '.' :: fraction) .floatLiteral
  | symbol (s : Symbol) : Lexeme s.spelling.toList (.symbol s)
  | unknown {c : Char} (hblank : Cursor.isBlank c = false) (hword : Cursor.isWordChar c = false)
      (hdigit : c.isDigit = false) (hsymbol : ∀ s : Symbol, s.spelling.toList ≠ [c]) :
      Lexeme [c] (.unknown c)

/-- Whether no start of the text that is longer than `lexeme` is a lexeme. -/
def Longest (text lexeme : List Char) : Prop :=
  ∀ w kind, Lexeme w kind → w <+: text → w.length ≤ lexeme.length

/-- Whether `ts` are the tokens of a text that stands behind `before`. The gap in front of a lexeme
goes as far as it can, so that the lexeme does not start with a comment. -/
inductive Tokenized : (before text : List Char) → List Token → Prop where
  | done {before gap : List Char} (hgap : Trivia [] gap) :
      Tokenized before gap [⟨.endOfFile, "", .behind (before ++ gap)⟩]
  | token {before gap lexeme rest : List Char} {kind : TokenKind} {ts : List Token}
      (hgap : Trivia (lexeme ++ rest) gap) (hcomment : ¬['/', '/'] <+: lexeme ++ rest)
      (hlexeme : Lexeme lexeme kind) (hlongest : Longest (lexeme ++ rest) lexeme)
      (hrest : Tokenized (before ++ gap ++ lexeme) rest ts) :
      Tokenized before (gap ++ lexeme ++ rest)
        (⟨kind, String.ofList lexeme, .behind (before ++ gap)⟩ :: ts)

namespace Keyword

lemma isWordChar_of_mem_spelling (k : Keyword) :
    ∀ c ∈ k.spelling.toList, Cursor.isWordChar c = true := by
  rw [← List.all_eq_true]
  cases k <;> decide

lemma ofWord?_spelling (k : Keyword) : ofWord? k.spelling = some k := by
  cases k <;> decide

lemma ofWord?_eq_some {word : String} {k : Keyword} :
    ofWord? word = some k ↔ k.spelling = word := by
  constructor
  · intro h
    have hfound := List.find?_some h
    exact beq_iff_eq.mp hfound
  · rintro rfl
    exact ofWord?_spelling k

end Keyword

namespace Symbol

lemma ofChars?_spelling (s : Symbol) : ofChars? s.spelling.toList = some s := by
  cases s <;> decide

lemma ofChars?_eq_some {cs : List Char} {s : Symbol} :
    ofChars? cs = some s ↔ s.spelling.toList = cs := by
  constructor
  · intro h
    have hfound := List.find?_some h
    exact beq_iff_eq.mp hfound
  · rintro rfl
    exact ofChars?_spelling s

lemma ofChars?_eq_none {cs : List Char} :
    ofChars? cs = none ↔ ∀ s : Symbol, s.spelling.toList ≠ cs := by
  rw [Option.eq_none_iff_forall_ne_some]
  exact forall_congr' fun s => ofChars?_eq_some.not

/-- A symbol has one or two characters, of which the first starts nothing else. -/
lemma spelling_cases (s : Symbol) : ∃ c tail, s.spelling.toList = c :: tail ∧ tail.length ≤ 1 ∧
    Cursor.isBlank c = false ∧ Cursor.isWordChar c = false ∧ c.isDigit = false := by
  cases s <;> exact ⟨_, _, rfl, by decide, by decide, by decide, by decide⟩

end Symbol

lemma Cursor.isWordChar_of_isDigit {c : Char} (h : c.isDigit = true) :
    Cursor.isWordChar c = false := by
  have hdigit : 48 ≤ c.toNat ∧ c.toNat ≤ 57 := by
    simpa [Char.isDigit, UInt32.le_iff_toNat_le] using h
  rw [Bool.eq_false_iff]
  intro hword
  rcases (by simpa [Cursor.isWordChar, Char.isAlpha, Char.isUpper, Char.isLower,
      UInt32.le_iff_toNat_le] using hword :
      (65 ≤ c.toNat ∧ c.toNat ≤ 90 ∨ 97 ≤ c.toNat ∧ c.toNat ≤ 122) ∨ c = '_') with hword | rfl
  · omega
  · revert hdigit
    decide

namespace Lexeme

variable {w : List Char} {kind : TokenKind} {c : Char}

lemma ne_nil (h : Lexeme w kind) : w ≠ [] := by
  cases h with
  | keyword k => cases k <;> decide
  | identifier hne => exact hne
  | intLiteral hne => exact hne
  | floatLiteral hne => simp
  | symbol s =>
    obtain ⟨c, tail, hs, -⟩ := s.spelling_cases
    simp [hs]
  | unknown => simp

lemma kind_ne_endOfFile (h : Lexeme w kind) : kind ≠ .endOfFile := by
  cases h <;> simp

/-- A lexeme that starts with a letter is a word. -/
lemma forall_isWordChar (h : Lexeme (c :: w) kind) (hc : Cursor.isWordChar c = true) :
    ∀ x ∈ c :: w, Cursor.isWordChar x = true := by
  generalize htext : c :: w = text at h ⊢
  cases h with
  | keyword k => exact k.isWordChar_of_mem_spelling
  | identifier hne hword => exact hword
  | intLiteral hne hdigits =>
    have hdigit := hdigits c (by simp [← htext])
    simp [Cursor.isWordChar_of_isDigit hdigit] at hc
  | @floatLiteral whole fraction hne hwhole =>
    obtain ⟨d, ds, rfl⟩ := List.exists_cons_of_ne_nil hne
    obtain ⟨rfl, -⟩ := List.cons.inj htext
    simp [Cursor.isWordChar_of_isDigit (hwhole c List.mem_cons_self)] at hc
  | symbol s =>
    obtain ⟨d, tail, hs, -, -, hword, -⟩ := s.spelling_cases
    obtain ⟨rfl, -⟩ := List.cons.inj (htext.trans hs)
    simp [hword] at hc
  | unknown hblank hword =>
    obtain ⟨rfl, -⟩ := List.cons.inj htext
    simp [hword] at hc

/-- A lexeme that starts with a digit is a numeral. -/
lemma numeral_cases (h : Lexeme (c :: w) kind) (hc : c.isDigit = true) :
    (∀ x ∈ c :: w, x.isDigit = true) ∨ ∃ whole fraction, c :: w = whole ++ '.' :: fraction ∧
      (∀ x ∈ whole, x.isDigit = true) ∧ ∀ x ∈ fraction, x.isDigit = true := by
  have hnoword := Cursor.isWordChar_of_isDigit hc
  generalize htext : c :: w = text at h ⊢
  cases h with
  | keyword k =>
    have hword := k.isWordChar_of_mem_spelling c (by simp [← htext])
    simp [hnoword] at hword
  | identifier hne hword =>
    have hword := hword c (by simp [← htext])
    simp [hnoword] at hword
  | intLiteral hne hdigits => exact Or.inl hdigits
  | floatLiteral hne hwhole hfraction => exact Or.inr ⟨_, _, rfl, hwhole, hfraction⟩
  | symbol s =>
    obtain ⟨d, tail, hs, -, -, -, hdigit⟩ := s.spelling_cases
    obtain ⟨rfl, -⟩ := List.cons.inj (htext.trans hs)
    simp [hdigit] at hc
  | unknown hblank hword hdigit =>
    obtain ⟨rfl, -⟩ := List.cons.inj htext
    simp [hdigit] at hc

/-- Any other lexeme is a symbol or a single character. -/
lemma symbol_cases (h : Lexeme (c :: w) kind) (hword : Cursor.isWordChar c = false)
    (hdigit : c.isDigit = false) : w = [] ∨ ∃ d s, w = [d] ∧ Symbol.ofChars? [c, d] = some s := by
  generalize htext : c :: w = text at h
  cases h with
  | keyword k =>
    have hk := k.isWordChar_of_mem_spelling c (by simp [← htext])
    simp [hword] at hk
  | identifier hne hall =>
    have hc := hall c (by simp [← htext])
    simp [hword] at hc
  | intLiteral hne hdigits =>
    have hc := hdigits c (by simp [← htext])
    simp [hdigit] at hc
  | @floatLiteral whole fraction hne hwhole =>
    obtain ⟨d, ds, rfl⟩ := List.exists_cons_of_ne_nil hne
    obtain ⟨rfl, -⟩ := List.cons.inj htext
    simp [hwhole c List.mem_cons_self] at hdigit
  | symbol s =>
    obtain ⟨d, tail, hs, hlen, -⟩ := s.spelling_cases
    obtain ⟨rfl, rfl⟩ := List.cons.inj (htext.trans hs)
    cases w with
    | nil => exact Or.inl rfl
    | cons d tail =>
      have hnil : tail = [] := List.length_eq_zero_iff.mp (by simpa using hlen)
      refine Or.inr ⟨d, s, by rw [hnil], ?_⟩
      rw [Symbol.ofChars?_eq_some, hs, hnil]
  | unknown =>
    obtain ⟨-, rfl⟩ := List.cons.inj htext
    exact Or.inl rfl

end Lexeme

/-- Lexemes at the start of a text start with its first character. -/
lemma Longest.of_cons {c : Char} {cs lexeme : List Char}
    (h : ∀ w kind, Lexeme (c :: w) kind → w <+: cs → (c :: w).length ≤ lexeme.length) :
    Longest (c :: cs) lexeme := by
  intro w kind hw hfirst
  rcases List.prefix_cons_iff.mp hfirst with rfl | ⟨w', rfl, hfirst'⟩
  · exact absurd rfl hw.ne_nil
  · exact h w' kind hw hfirst'

/-- A start of a text whose characters are all of one class is no longer than the first run of that
class. -/
lemma length_le_takeWhile {p : Char → Bool} {w text : List Char} (hfirst : w <+: text)
    (hw : ∀ c ∈ w, p c = true) : w.length ≤ (text.takeWhile p).length := by
  obtain ⟨rest, rfl⟩ := hfirst
  rw [List.takeWhile_append_of_pos hw, List.length_append]
  exact Nat.le_add_right _ _

/-- A run of one class of characters ends where a character of another class follows. -/
lemma split_run {p : Char → Bool} {word rest : List Char} (hword : ∀ c ∈ word, p c = true)
    (hrest : ∀ c ∈ rest.head?, p c = false) :
    (word ++ rest).takeWhile p = word ∧ (word ++ rest).dropWhile p = rest := by
  rw [List.takeWhile_append_of_pos hword, List.dropWhile_append_of_pos hword]
  cases rest with
  | nil => simp
  | cons c rest => simp [hrest c rfl]

namespace Cursor

variable {c : Char} {cs gap lexeme rest : List Char} {kind : TokenKind}

/-- Splitting off blanks and comments goes as far as it can. -/
lemma splitTrivia_spec {inComment : Bool} (h : splitTrivia inComment cs = (gap, rest)) :
    cs = gap ++ rest ∧ (∀ c ∈ rest.head?, isBlank c = false) ∧ ¬['/', '/'] <+: rest ∧
      if inComment then ∃ body gap', gap = body ++ gap' ∧ '\n' ∉ body ∧
        (∀ c ∈ (gap' ++ rest).head?, c = '\n') ∧ Trivia rest gap'
      else Trivia rest gap := by
  induction cs generalizing inComment gap rest with
  | nil =>
    obtain ⟨rfl, rfl⟩ := Prod.mk.inj h
    refine ⟨rfl, by simp, by simp, ?_⟩
    cases inComment with
    | false => exact .nil
    | true => exact ⟨[], [], rfl, by simp, by simp, .nil⟩
  | cons c cs ih =>
    rw [splitTrivia] at h
    split at h
    · rename_i hcomment
      obtain ⟨rfl, rfl⟩ := Prod.mk.inj h
      obtain ⟨htext, hblank, hslash, body, gap', hgap, hbody, hend, htrivia⟩ := @ih _ _ true rfl
      refine ⟨congrArg (c :: ·) htext, hblank, hslash, ?_⟩
      cases inComment with
      | true =>
        -- Two slashes inside of a comment are part of it.
        have hc : c ≠ '\n' := by
          rcases (by simpa using hcomment : c ≠ '\n' ∨ c = '/' ∧ _) with hc | ⟨rfl, -⟩
          · exact hc
          · decide
        refine ⟨c :: body, gap', by simp [hgap], ?_, hend, htrivia⟩
        rw [List.mem_cons, not_or]
        exact ⟨Ne.symm hc, hbody⟩
      | false =>
        have hstart : c = '/' ∧ cs.head? = some '/' := by simpa using hcomment
        obtain ⟨rfl, hhead⟩ := hstart
        rw [hgap]
        cases body with
        | nil =>
          rw [htext, hgap, List.nil_append] at hhead
          cases hend '/' hhead
        | cons d body =>
          rw [htext, hgap, List.cons_append, List.cons_append, List.head?_cons,
            Option.some.injEq] at hhead
          subst hhead
          exact .comment (fun hmem => hbody (List.mem_cons_of_mem _ hmem)) hend htrivia
    · rename_i hcomment
      have hnewline : inComment = true → c = '\n' := by
        rintro rfl
        by_contra hc
        simp [hc] at hcomment
      split at h
      · rename_i hc
        obtain ⟨rfl, rfl⟩ := Prod.mk.inj h
        obtain ⟨htext, hblank, hslash, htrivia⟩ := @ih _ _ false rfl
        refine ⟨congrArg (c :: ·) htext, hblank, hslash, ?_⟩
        cases inComment with
        | false => exact .blank hc htrivia
        | true => exact ⟨[], _, rfl, by simp, by simp [hnewline rfl], .blank hc htrivia⟩
      · rename_i hc
        obtain ⟨rfl, rfl⟩ := Prod.mk.inj h
        refine ⟨rfl, by simpa using hc, ?_, ?_⟩
        · rintro ⟨tail, htail⟩
          obtain ⟨rfl, rfl⟩ := List.cons.inj htail
          simp at hcomment
        · cases inComment with
          | false => exact .nil
          | true =>
            rw [hnewline rfl] at hc
            exact absurd rfl hc

lemma splitNumeral_spec (hc : c.isDigit = true)
    (h : splitNumeral (c :: cs) = (kind, lexeme, rest)) :
    c :: cs = lexeme ++ rest ∧ Lexeme lexeme kind ∧ Longest (c :: cs) lexeme := by
  have hsplit := List.takeWhile_append_dropWhile (p := Char.isDigit) (l := c :: cs)
  have hwhole : ∀ x ∈ (c :: cs).takeWhile Char.isDigit, x.isDigit = true :=
    fun x hx => List.mem_takeWhile_imp hx
  have hne : (c :: cs).takeWhile Char.isDigit ≠ [] := by simp [hc]
  -- A numeral with a point has its point behind the first run of digits.
  have hpoint : ∀ whole fraction, whole ++ '.' :: fraction <+: c :: cs →
      (∀ x ∈ whole, x.isDigit = true) → whole = (c :: cs).takeWhile Char.isDigit ∧
        '.' :: fraction <+: (c :: cs).dropWhile Char.isDigit := by
    rintro whole fraction ⟨more, hmore⟩ hwhole
    rw [List.append_assoc, List.cons_append] at hmore
    rw [← hmore, List.takeWhile_append_of_pos hwhole, List.dropWhile_append_of_pos hwhole]
    exact ⟨by simp, more, by simp⟩
  have hdigits : ∀ w, w <+: c :: cs → (∀ x ∈ w, x.isDigit = true) →
      w.length ≤ ((c :: cs).takeWhile Char.isDigit).length := fun w => length_le_takeWhile
  rw [splitNumeral] at h
  generalize (c :: cs).takeWhile Char.isDigit = whole at *
  split at h
  · rename_i behind hbehind
    obtain ⟨rfl, rfl, rfl⟩ : _ ∧ _ ∧ _ := by simpa using h
    refine ⟨?_, .floatLiteral hne hwhole fun x hx => List.mem_takeWhile_imp hx, ?_⟩
    · rw [← hsplit, hbehind]
      simp
    · refine .of_cons fun w kind hw hfirst => ?_
      have hfirst : c :: w <+: c :: cs := List.cons_prefix_cons.mpr ⟨rfl, hfirst⟩
      rcases hw.numeral_cases hc with hall | ⟨whole', fraction, hw', hwhole', hfraction⟩
      · have := hdigits _ hfirst hall
        simp only [List.length_append]
        omega
      · rw [hw'] at hfirst ⊢
        obtain ⟨rfl, hfirst⟩ := hpoint _ _ hfirst hwhole'
        rw [hbehind] at hfirst
        have := length_le_takeWhile (List.cons_prefix_cons.mp hfirst).2 hfraction
        simpa using this
  · rename_i hbehind
    obtain ⟨rfl, rfl, rfl⟩ : _ ∧ _ ∧ _ := by simpa using h
    refine ⟨hsplit.symm, .intLiteral hne hwhole, .of_cons fun w kind hw hfirst => ?_⟩
    have hfirst : c :: w <+: c :: cs := List.cons_prefix_cons.mpr ⟨rfl, hfirst⟩
    rcases hw.numeral_cases hc with hall | ⟨whole', fraction, hw', hwhole', -⟩
    · exact hdigits _ hfirst hall
    · rw [hw'] at hfirst
      obtain ⟨-, more, hmore⟩ := hpoint _ _ hfirst hwhole'
      exact absurd hmore.symm (hbehind _)

/-- A symbol of two characters comes before one of one character, and that before an unknown
character. -/
lemma splitSymbol_cases (h : splitSymbol c cs = (kind, lexeme, rest)) :
    (∃ d s, cs = d :: rest ∧ Symbol.ofChars? [c, d] = some s ∧ .symbol s = kind ∧
        [c, d] = lexeme) ∨
      (∀ d ∈ cs.head?, Symbol.ofChars? [c, d] = none) ∧ [c] = lexeme ∧ cs = rest ∧
        ((∃ s, Symbol.ofChars? [c] = some s ∧ .symbol s = kind) ∨
          Symbol.ofChars? [c] = none ∧ .unknown c = kind) := by
  cases cs with
  | nil =>
    refine Or.inr ⟨by simp, ?_⟩
    cases hone : Symbol.ofChars? [c] <;> simp_all [splitSymbol]
  | cons d cs =>
    cases htwo : Symbol.ofChars? [c, d] with
    | some s => exact Or.inl ⟨d, s, by simp_all [splitSymbol]⟩
    | none =>
      refine Or.inr ⟨by simp [htwo], ?_⟩
      cases hone : Symbol.ofChars? [c] <;> simp_all [splitSymbol]

lemma splitSymbol_spec (hblank : isBlank c = false) (hword : isWordChar c = false)
    (hdigit : c.isDigit = false) (h : splitSymbol c cs = (kind, lexeme, rest)) :
    c :: cs = lexeme ++ rest ∧ Lexeme lexeme kind ∧ Longest (c :: cs) lexeme := by
  rcases splitSymbol_cases h with ⟨d, s, rfl, hs, rfl, rfl⟩ | ⟨hnone, rfl, rfl, hone⟩
  · refine ⟨rfl, Symbol.ofChars?_eq_some.mp hs ▸ .symbol s, .of_cons fun w kind hw hfirst => ?_⟩
    rcases hw.symbol_cases hword hdigit with rfl | ⟨d', s', rfl, -⟩
    · exact Nat.le_succ 1
    · exact Nat.le_refl 2
  · refine ⟨rfl, ?_, .of_cons fun w kind hw hfirst => ?_⟩
    · rcases hone with ⟨s, hs, rfl⟩ | ⟨hs, rfl⟩
      · exact Symbol.ofChars?_eq_some.mp hs ▸ .symbol s
      · exact .unknown hblank hword hdigit (Symbol.ofChars?_eq_none.mp hs)
    · rcases hw.symbol_cases hword hdigit with rfl | ⟨d, s, rfl, hs⟩
      · exact Nat.le_refl 1
      · obtain ⟨tail, rfl⟩ := hfirst
        simp [hnone d rfl] at hs

lemma lexeme_ofWord {word : List Char} (hne : word ≠ [])
    (hword : ∀ c ∈ word, isWordChar c = true) :
    Lexeme word (.ofWord (String.ofList word)) := by
  rw [TokenKind.ofWord]
  cases hk : Keyword.ofWord? (String.ofList word) with
  | some k =>
    have hspelling : k.spelling.toList = word := by
      rw [Keyword.ofWord?_eq_some.mp hk, String.toList_ofList]
    exact hspelling ▸ .keyword k
  | none =>
    refine .identifier hne hword fun k hspelling => ?_
    rw [← hspelling, String.ofList_toList, Keyword.ofWord?_spelling] at hk
    cases hk

/-- Splitting off a lexeme takes the longest one. -/
lemma splitLexeme_spec (hblank : isBlank c = false)
    (h : splitLexeme (c :: cs) = (kind, lexeme, rest)) :
    c :: cs = lexeme ++ rest ∧ Lexeme lexeme kind ∧ Longest (c :: cs) lexeme := by
  rw [splitLexeme] at h
  split at h
  · rename_i hword
    obtain ⟨rfl, rfl, rfl⟩ : _ ∧ _ ∧ _ := by simpa only [Prod.mk.injEq] using h
    refine ⟨List.takeWhile_append_dropWhile.symm, lexeme_ofWord ?_ ?_, .of_cons ?_⟩
    · simp [hword]
    · exact fun x hx => List.mem_takeWhile_imp hx
    · intro w kind hw hfirst
      exact length_le_takeWhile (List.cons_prefix_cons.mpr ⟨rfl, hfirst⟩)
        (hw.forall_isWordChar hword)
  · rename_i hword
    split at h
    · rename_i hdigit
      exact splitNumeral_spec hdigit h
    · rename_i hdigit
      exact splitSymbol_spec hblank (by simpa using hword) (by simpa using hdigit) h

end Cursor

namespace Cursor

/-- What one scan does: it comes to the end of the text or takes a lexeme. -/
lemma scan_cases (c : Cursor) :
    (Trivia [] c.rest ∧ c.scan =
        (⟨.endOfFile, "", c.location.afterAll c.rest⟩, ⟨[], c.location.afterAll c.rest⟩)) ∨
      ∃ gap lexeme rest kind, c.rest = gap ++ lexeme ++ rest ∧ Trivia (lexeme ++ rest) gap ∧
        ¬['/', '/'] <+: lexeme ++ rest ∧ Lexeme lexeme kind ∧ Longest (lexeme ++ rest) lexeme ∧
        c.scan = (⟨kind, String.ofList lexeme, c.location.afterAll gap⟩,
          ⟨rest, (c.location.afterAll gap).afterAll lexeme⟩) := by
  cases htrivia : splitTrivia false c.rest with
  | mk gap tail =>
    obtain ⟨htext, hblank, hcomment, hgap⟩ := splitTrivia_spec htrivia
    cases tail with
    | nil =>
      rw [List.append_nil] at htext
      refine Or.inl ⟨htext ▸ hgap, ?_⟩
      rw [htext]
      simp only [scan, htrivia, splitLexeme]
      rfl
    | cons x xs =>
      cases hsplit : splitLexeme (x :: xs) with
      | mk kind split =>
        obtain ⟨hlexemes, hlexeme, hlongest⟩ := splitLexeme_spec (hblank x rfl) hsplit
        rw [hlexemes] at htext hgap hcomment hlongest
        refine Or.inr ⟨gap, split.1, split.2, kind, ?_, hgap, hcomment, hlexeme, hlongest, ?_⟩
        · rw [htext, List.append_assoc]
        · simp only [scan, htrivia, hsplit]

/-- A scan that does not come to the end takes a character. -/
lemma scan_length (c : Cursor) :
    c.scan.2.rest.length + (if c.scan.1.isEof then 0 else 1) ≤ c.rest.length := by
  rcases c.scan_cases with ⟨-, hscan⟩ | ⟨gap, lexeme, rest, kind, htext, -, -, hlexeme, -, hscan⟩
  · simp [hscan, Token.isEof]
  · have hpos := List.length_pos_iff.mpr hlexeme.ne_nil
    have hlength := congrArg List.length htext
    simp only [List.length_append] at hlength
    simp only [hscan, Token.isEof, beq_iff_eq, hlexeme.kind_ne_endOfFile, ↓reduceIte]
    omega

end Cursor

/-- Scanning from a cursor, token after token, gives `ts`. -/
inductive Scans : Cursor → List Token → Prop where
  | eof {c : Cursor} (h : c.scan.1.isEof = true) : Scans c [c.scan.1]
  | token {c : Cursor} {ts : List Token} (h : c.scan.1.isEof = false) (hrest : Scans c.scan.2 ts) :
      Scans c (c.scan.1 :: ts)

/-- Scanning a text that stands behind `before` gives its tokens. -/
lemma Scans.tokenized {c : Cursor} {before : List Char} {ts : List Token} (h : Scans c ts)
    (hlocation : c.location = .behind before) : Tokenized before c.rest ts := by
  induction h generalizing before with
  | @eof c heof =>
    rcases c.scan_cases with ⟨hrest, hscan⟩ | ⟨gap, lexeme, rest, kind, -, -, -, hlexeme, -, hscan⟩
    · rw [hscan, hlocation, Location.afterAll_behind]
      exact .done hrest
    · rw [hscan] at heof
      exact absurd (beq_iff_eq.mp heof) hlexeme.kind_ne_endOfFile
  | @token c ts heof hrest ih =>
    rcases c.scan_cases with
      ⟨-, hscan⟩ | ⟨gap, lexeme, rest, kind, htext, hgap, hcomment, hlexeme, hlongest, hscan⟩
    · rw [hscan] at heof
      cases heof
    · simp only [hscan, hlocation, Location.afterAll_behind] at ih ⊢
      rw [htext]
      exact .token hgap hcomment hlexeme hlongest (ih rfl)

namespace Lexer

/-- Whether the window shows the next two tokens from a cursor. -/
def Shows (l : Lexer) (c : Cursor) : Prop :=
  l.current = c.scan.1 ∧ l.next = c.scan.2.scan.1 ∧ l.unread = c.scan.2.scan.2

lemma shows_ofText (source : String) : (ofText source).Shows (.ofText source) := ⟨rfl, rfl, rfl⟩

lemma Shows.bump {l : Lexer} {c : Cursor} (h : l.Shows c) : l.bump.2.Shows c.scan.2 := by
  obtain ⟨-, hnext, hunread⟩ := h
  refine ⟨hnext, ?_, ?_⟩
  · rw [← hunread]
    rfl
  · rw [← hunread]
    rfl

/-- Moving the window away from a token lowers the bound on the tokens left. -/
lemma remaining_bump {l : Lexer} (h : l.isEof = false) : l.bump.2.remaining + 1 ≤ l.remaining := by
  have hscan := l.unread.scan_length
  have hafter : l.bump.2.remaining = l.unread.scan.2.rest.length +
    (if l.unread.scan.1.isEof then 0 else 1) + (if l.next.isEof then 0 else 1) := rfl
  have hbefore : l.remaining = l.unread.rest.length + (if l.next.isEof then 0 else 1) + 1 := by
    have hcurrent : ¬l.current.isEof = true := by simpa [isEof] using h
    rw [remaining, if_neg hcurrent]
  omega

/-- Draining a window gives all tokens from its cursor, with enough fuel. -/
lemma Shows.drain {l : Lexer} {c : Cursor} {n : Nat} (h : l.Shows c) (hn : l.remaining ≤ n) :
    Scans c (l.drain n) := by
  induction n generalizing l c with
  | zero =>
    have heof : l.isEof = true := by
      by_contra hne
      have := remaining_bump (l := l) (by simpa using hne)
      omega
    rw [Lexer.drain, h.1]
    exact .eof (h.1 ▸ heof)
  | succ n ih =>
    rw [Lexer.drain]
    split
    · rename_i heof
      rw [h.1]
      exact .eof (h.1 ▸ heof)
    · rename_i heof
      have heof : l.isEof = false := by simpa using heof
      have hless := remaining_bump heof
      rw [h.1]
      exact .token (h.1 ▸ heof) (ih h.bump (by omega))

end Lexer

/-- The tokens of a source are those that scanning gives from its start. -/
lemma scans_tokenize (source : String) : Scans (.ofText source) (tokenize source) :=
  (Lexer.shows_ofText source).drain (Nat.le_refl _)

/-- Every text is split into tokens and ends with one end-of-file token. The text is made of the
lexemes in order with blanks and comments between them, each lexeme is the longest at its place and
of the kind that the token has, and each token has the place of its first character. -/
theorem tokenize_tokenized (source : String) : Tokenized [] source.toList (tokenize source) :=
  (scans_tokenize source).tokenized rfl

end MiniC
