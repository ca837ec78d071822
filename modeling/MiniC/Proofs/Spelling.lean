import MiniC.Decimal.Numeral
import MiniC.Proofs.Tokenization

/-!
# Spelled phrases

A word, a numeral or a symbol is scanned as one token if the character behind it does not continue
it. `Spells` says of a text that, in front of any text that starts with a delimiter, it is scanned
as the tokens of a phrase. Texts are put together token by token: a phrase is spelled if the text
starts with the lexeme of its first token and the rest of the text spells the rest of the phrase.
-/

namespace MiniC

/-- The decimal digits of a number write it. -/
lemma natOfDigits_toDigits (n : Nat) : natOfDigits (Nat.toDigits 10 n) = n := by
  calc natOfDigits (Nat.toDigits 10 n)
    _ = Nat.ofDigitChars 10 (Nat.toDigits 10 n) 0 := by
      simp only [natOfDigits, digitValue, Nat.ofDigitChars_eq_foldl, Nat.mul_comm 10]
    _ = n := Nat.ofDigitChars_ten_toDigits

/-- Whether a character behind the symbol makes a longer symbol of it or starts a comment. -/
def Symbol.continues (s : Symbol) (c : Char) : Bool :=
  (ofChars? (s.spelling.toList ++ [c])).isSome || s == .slash && c == '/'

/-- The characters that end every word, numeral and symbol. -/
def isDelimiter (c : Char) : Bool := c == ' ' || c == ',' || c == ';' || c == ')'

lemma isDelimiter_cases {c : Char} (h : isDelimiter c = true) :
    c = ' ' ∨ c = ',' ∨ c = ';' ∨ c = ')' := by
  simpa [isDelimiter, or_assoc] using h

lemma isWordChar_of_isDelimiter {c : Char} (h : isDelimiter c = true) :
    Cursor.isWordChar c = false := by
  rcases isDelimiter_cases h with rfl | rfl | rfl | rfl <;> decide

lemma Symbol.continues_of_isDelimiter (s : Symbol) {c : Char} (h : isDelimiter c = true) :
    s.continues c = false := by
  rcases isDelimiter_cases h with rfl | rfl | rfl | rfl <;> cases s <;> decide

/-- A symbol of two characters is not continued. -/
lemma Symbol.continues_of_length {s : Symbol} (h : s.spelling.toList.length = 2) (c : Char) :
    s.continues c = false := by
  have hlong : ofChars? (s.spelling.toList ++ [c]) = none := by
    refine ofChars?_eq_none.mpr fun s' hs' => ?_
    obtain ⟨d, tail, hd, htail, -⟩ := s'.spelling_cases
    have hlength := congrArg List.length hs'
    simp only [hd, List.length_append, List.length_cons, List.length_nil, h] at hlength
    omega
  have hslash : s ≠ .slash := by
    rintro rfl
    cases h
  simp [continues, hlong, hslash]

lemma Symbol.continues_leftParen (c : Char) : Symbol.leftParen.continues c = false := by
  have hnone : ofChars? ['(', c] = none := by
    refine ofChars?_eq_none.mpr fun s hs => ?_
    cases s <;> cases hs
  simp only [continues]
  exact hnone ▸ rfl

lemma Lexeme.identifier_parts {w : List Char} (h : Lexeme w .identifier) : w ≠ [] ∧
    (∀ c ∈ w, Cursor.isWordChar c = true) ∧ ∀ k : Keyword, k.spelling.toList ≠ w := by
  cases h with
  | identifier hne hword hkeyword => exact ⟨hne, hword, hkeyword⟩

/-- Whether a text is empty or starts with a delimiter. -/
def Delimited (text : List Char) : Prop := text.head?.all isDelimiter = true

lemma Delimited.append {text rest : List Char} (h : Delimited text) (hrest : Delimited rest) :
    Delimited (text ++ rest) := by
  cases text with
  | nil => exact hrest
  | cons => exact h

/-- A delimiter continues no symbol. -/
lemma Delimited.any_continues {text : List Char} (h : Delimited text) (s : Symbol) :
    text.head?.any s.continues = false := by
  cases text with
  | nil => rfl
  | cons => exact s.continues_of_isDelimiter h

lemma Delimited.any_isWordChar {text : List Char} (h : Delimited text) :
    text.head?.any Cursor.isWordChar = false := by
  cases text with
  | nil => rfl
  | cons => exact isWordChar_of_isDelimiter h

namespace Cursor

variable {c : Char} {cs word rest : List Char} {kind : TokenKind} {location : Location}

lemma scan_blank : scan ⟨' ' :: rest, location⟩ = scan ⟨rest, location.after ' '⟩ := rfl

/-- Text that starts neither with a blank nor with a comment starts with a lexeme. -/
lemma scan_of_splitLexeme (hblank : isBlank c = false)
    (hcomment : c = '/' → cs.head? ≠ some '/') (h : splitLexeme (c :: cs) = (kind, word, rest)) :
    scan ⟨c :: cs, location⟩ =
      (⟨kind, String.ofList word, location⟩, ⟨rest, location.afterAll word⟩) := by
  have htrivia : splitTrivia false (c :: cs) = ([], c :: cs) := by
    have hslash : (c == '/' && cs.head? == some '/') = false := by
      simpa using hcomment
    simp [splitTrivia, hslash, hblank]
  simp only [scan, htrivia, h]
  rfl

/-- A character of a class without blanks is no blank. -/
lemma isBlank_eq_false {p : Char → Bool} (hp : [' ', '\t', '\r', '\n'].any p = false)
    (h : p c = true) : isBlank c = false := by
  rw [Bool.eq_false_iff]
  intro hblank
  have hmem : c ∈ [' ', '\t', '\r', '\n'] := by simpa [isBlank, or_assoc] using hblank
  exact List.any_eq_false.mp hp c hmem h

lemma scan_word (hne : word ≠ []) (hword : ∀ c ∈ word, isWordChar c = true)
    (hrest : ∀ c ∈ rest.head?, isWordChar c = false) :
    scan ⟨word ++ rest, location⟩ = (⟨.ofWord (String.ofList word), String.ofList word, location⟩,
      ⟨rest, location.afterAll word⟩) := by
  obtain ⟨htake, hdrop⟩ := split_run hword hrest
  obtain ⟨c, cs, rfl⟩ := List.exists_cons_of_ne_nil hne
  have hc := hword c List.mem_cons_self
  rw [List.cons_append] at htake hdrop ⊢
  refine scan_of_splitLexeme (isBlank_eq_false rfl hc) ?_ ?_
  · rintro rfl
    cases hc
  · simp only [splitLexeme, hc, ↓reduceIte, htake, hdrop]

lemma scan_digits (hne : word ≠ []) (hword : ∀ c ∈ word, c.isDigit = true)
    (hrest : ∀ c ∈ rest.head?, c.isDigit = false ∧ c ≠ '.') :
    scan ⟨word ++ rest, location⟩ =
      (⟨.intLiteral, String.ofList word, location⟩, ⟨rest, location.afterAll word⟩) := by
  obtain ⟨htake, hdrop⟩ := split_run hword fun c hc => (hrest c hc).1
  obtain ⟨c, cs, rfl⟩ := List.exists_cons_of_ne_nil hne
  have hc := hword c List.mem_cons_self
  have hletter := isWordChar_of_isDigit hc
  rw [List.cons_append] at htake hdrop ⊢
  refine scan_of_splitLexeme (isBlank_eq_false rfl hc) ?_ ?_
  · rintro rfl
    cases hc
  · simp only [splitLexeme, hletter, hc, splitNumeral, htake, hdrop, Bool.false_eq_true, ↓reduceIte]
    split
    · exact absurd rfl (hrest '.' rfl).2
    · rfl

lemma scan_symbol (s : Symbol) (hrest : ∀ c ∈ rest.head?, s.continues c = false) :
    scan ⟨s.spelling.toList ++ rest, location⟩ =
      (⟨.symbol s, s.spelling, location⟩, ⟨rest, location.afterAll s.spelling.toList⟩) := by
  obtain ⟨c, tail, hs, htail, hblank, hword, hdigit⟩ := s.spelling_cases
  have hfound := s.ofChars?_spelling
  rw [hs] at hfound
  have hlexeme : splitLexeme (c :: (tail ++ rest)) = (.symbol s, c :: tail, rest) := by
    simp only [splitLexeme, hword, hdigit, Bool.false_eq_true, ↓reduceIte]
    cases tail with
    | nil =>
      cases rest with
      | nil => simp [splitSymbol, hfound]
      | cons d rest =>
        have hnone : Symbol.ofChars? [c, d] = none := by
          have hd := hrest d rfl
          simp only [Symbol.continues, hs, Bool.or_eq_false_iff] at hd
          simpa using hd.1
        simp [splitSymbol, hnone, hfound]
    | cons d tail =>
      obtain rfl : tail = [] := List.length_eq_zero_iff.mp (by simpa using htail)
      simp [splitSymbol, hfound]
  -- Of the symbols only a single slash could start a comment, and that depends on the next character.
  have hcomment : c = '/' → (tail ++ rest).head? ≠ some '/' := by
    rintro rfl hhead
    cases tail with
    | nil =>
      obtain rfl : Symbol.slash = s := Option.some.inj hfound
      cases hrest '/' hhead
    | cons d tail =>
      obtain rfl : tail = [] := List.length_eq_zero_iff.mp (by simpa using htail)
      obtain rfl : d = '/' := Option.some.inj hhead
      cases hfound
  have hscan : scan ⟨c :: (tail ++ rest), location⟩ = _ :=
    scan_of_splitLexeme hblank hcomment hlexeme
  rw [← hs, String.ofList_toList] at hscan
  rw [← hscan, hs, List.cons_append]

end Cursor

namespace Scans

lemma cons {c c' : Cursor} {t : Token} {ts : List Token} (h : c.scan = (t, c'))
    (ht : t.kind ≠ .endOfFile) (hrest : Scans c' ts) : Scans c (t :: ts) := by
  obtain ⟨rfl, rfl⟩ := Prod.mk.inj h
  exact .token (beq_eq_false_iff_ne.mpr ht) hrest

lemma congr {c c' : Cursor} {ts : List Token} (h : c.scan = c'.scan) (hscans : Scans c' ts) :
    Scans c ts := by
  cases hscans with
  | eof heof =>
    rw [← h] at heof ⊢
    exact .eof heof
  | token heof hrest =>
    rw [← h] at heof hrest ⊢
    exact .token heof hrest

/-- Scanning gives one list of tokens. -/
lemma unique {c : Cursor} {ts us : List Token} (h : Scans c ts) (h' : Scans c us) : ts = us := by
  induction h generalizing us with
  | eof heof =>
    cases h' with
    | eof => rfl
    | token heof' => simp [heof] at heof'
  | token heof _ ih =>
    cases h' with
    | eof heof' => simp [heof] at heof'
    | token _ hrest => rw [ih hrest]

end Scans

/-- Whether the tokens are lexemes of their kinds. -/
def Lexed (ts : List Token) : Prop := ∀ t ∈ ts, Lexeme t.lexeme.toList t.kind

@[simp] lemma lexed_nil : Lexed [] := by simp [Lexed]

@[simp] lemma lexed_cons {t : Token} {ts : List Token} :
    Lexed (t :: ts) ↔ Lexeme t.lexeme.toList t.kind ∧ Lexed ts := by simp [Lexed]

@[simp] lemma lexed_append {ts us : List Token} : Lexed (ts ++ us) ↔ Lexed ts ∧ Lexed us := by
  simp [Lexed, or_imp, forall_and]

/-- The tokens in front of the end of the file are lexemes. -/
lemma Scans.lexed_dropLast {c : Cursor} {ts : List Token} (h : Scans c ts) : Lexed ts.dropLast := by
  induction h with
  | eof => exact lexed_nil
  | @token c ts heof hrest ih =>
    have hne : ts ≠ [] := by
      cases hrest <;> simp
    rw [List.dropLast_cons_of_ne_nil hne, lexed_cons]
    refine ⟨?_, ih⟩
    rcases c.scan_cases with ⟨-, hscan⟩ | ⟨gap, lexeme, rest, kind, -, -, -, hlexeme, -, hscan⟩
    · rw [hscan] at heof
      cases heof
    · rw [hscan, String.toList_ofList]
      exact hlexeme

/-- Whether a text, in front of any text that is empty or starts with a delimiter, is scanned as
tokens that make up the phrase. -/
def Spells (text : List Char) (phrase : List Token → Prop) : Prop :=
  ∀ rest location, Delimited rest → ∃ ts location', phrase ts ∧
    ∀ more, Scans ⟨rest, location'⟩ more → Scans ⟨text ++ rest, location⟩ (ts ++ more)

namespace Spells

variable {first text : List Char} {phrase whole : List Token → Prop}

lemma imp (h : Spells text phrase) (himp : ∀ ts, phrase ts → whole ts) : Spells text whole := by
  intro rest location hrest
  obtain ⟨ts, location', hts, hscans⟩ := h rest location hrest
  exact ⟨ts, location', himp ts hts, hscans⟩

lemma nil (h : phrase []) : Spells [] phrase :=
  fun _ location _ => ⟨[], location, h, fun _ hmore => hmore⟩

lemma blank (h : Spells text phrase) : Spells (' ' :: text) phrase := by
  intro rest location hrest
  obtain ⟨ts, location', hts, hscans⟩ := h rest (location.after ' ') hrest
  refine ⟨ts, location', hts, fun more hmore => ?_⟩
  exact (hscans more hmore).congr Cursor.scan_blank

/-- A phrase is spelled by a text for its first part and one, behind a delimiter, for the rest. -/
lemma append (hfirst : Spells first phrase) (htext : Delimited text)
    (h : ∀ ts, phrase ts → Spells text fun us => whole (ts ++ us)) :
    Spells (first ++ text) whole := by
  intro rest location hrest
  obtain ⟨ts, mid, hts, hscans⟩ := hfirst (text ++ rest) location (htext.append hrest)
  obtain ⟨us, location', hus, hscans'⟩ := h ts hts rest mid hrest
  refine ⟨ts ++ us, location', hus, fun more hmore => ?_⟩
  simpa using hscans (us ++ more) (hscans' more hmore)

/-- A phrase is spelled by the lexeme of its first token and a text for the rest. -/
lemma token {kind : TokenKind} {lexeme : String} (hkind : kind ≠ .endOfFile)
    (hscan : ∀ rest location, Delimited rest →
      Cursor.scan ⟨lexeme.toList ++ (text ++ rest), location⟩ =
        (⟨kind, lexeme, location⟩, ⟨text ++ rest, location.afterAll lexeme.toList⟩))
    (h : ∀ t, t.kind = kind → t.lexeme = lexeme → Spells text fun ts => phrase (t :: ts)) :
    Spells (lexeme.toList ++ text) phrase := by
  intro rest location hrest
  have hfirst := hscan rest location hrest
  obtain ⟨ts, location', hts, hscans⟩ := h ⟨kind, lexeme, location⟩ rfl rfl rest _ hrest
  refine ⟨_, location', hts, fun more hmore => ?_⟩
  rw [List.append_assoc]
  exact .cons hfirst hkind (hscans more hmore)

/-- What is false of delimiters and of the first character of a text is false of the character that
comes next. -/
lemma next_eq_false {p : Char → Bool} {rest : List Char}
    (hp : ∀ c, isDelimiter c = true → p c = false) (htext : text.head?.any p = false)
    (hrest : Delimited rest) : ∀ c ∈ (text ++ rest).head?, p c = false := by
  intro c hc
  cases text with
  | nil =>
    rw [List.nil_append, Option.mem_def] at hc
    rw [Delimited, hc] at hrest
    exact hp c hrest
  | cons d text =>
    obtain rfl : d = c := Option.some.inj hc
    exact htext

lemma keyword (k : Keyword) (htext : text.head?.any Cursor.isWordChar = false)
    (h : ∀ t, t.kind = .keyword k → Spells text fun ts => phrase (t :: ts)) :
    Spells (k.spelling.toList ++ text) phrase := by
  have hkind : TokenKind.keyword k ≠ .endOfFile := by simp
  refine token hkind ?_ fun t ht _ => h t ht
  intro rest location hrest
  have hnext := next_eq_false @isWordChar_of_isDelimiter htext hrest
  rw [Cursor.scan_word (Lexeme.keyword k).ne_nil k.isWordChar_of_mem_spelling hnext,
    String.ofList_toList, TokenKind.ofWord, k.ofWord?_spelling]

lemma name {name : String} (hname : Lexeme name.toList .identifier)
    (htext : text.head?.any Cursor.isWordChar = false)
    (h : ∀ t, t.kind = .identifier → t.lexeme = name → Spells text fun ts => phrase (t :: ts)) :
    Spells (name.toList ++ text) phrase := by
  refine token hname.kind_ne_endOfFile ?_ h
  intro rest location hrest
  have hnext := next_eq_false @isWordChar_of_isDelimiter htext hrest
  obtain ⟨hne, hword, hkeyword⟩ := hname.identifier_parts
  have hnone : Keyword.ofWord? name = none := by
    refine Option.eq_none_iff_forall_ne_some.mpr fun k hk => ?_
    exact hkeyword k (by rw [Keyword.ofWord?_eq_some.mp hk])
  rw [Cursor.scan_word hne hword hnext, String.ofList_toList, TokenKind.ofWord, hnone]

lemma natural (n : Nat) (htext : Delimited text)
    (h : ∀ t, t.kind = .intLiteral → natOfDigits t.lexeme.toList = n →
      Spells text fun ts => phrase (t :: ts)) : Spells ((toString n).toList ++ text) phrase := by
  have hdigits : (toString n).toList = Nat.toDigits 10 n := Nat.toList_repr
  have hkind : TokenKind.intLiteral ≠ .endOfFile := by simp
  refine token hkind ?_ fun t ht hlexeme => h t ht ?_
  · intro rest location hrest
    have hnext : ∀ c ∈ (text ++ rest).head?, c.isDigit = false ∧ c ≠ '.' := by
      intro c hc
      have hdelimiter := htext.append hrest
      rw [Delimited, hc] at hdelimiter
      rcases isDelimiter_cases hdelimiter with rfl | rfl | rfl | rfl <;> decide
    have hword : ∀ c ∈ (toString n).toList, c.isDigit = true := by
      rw [hdigits]
      exact fun c hc => Nat.isDigit_of_mem_toDigits (by decide) (by decide) hc
    rw [Cursor.scan_digits (hdigits ▸ Nat.toDigits_ne_nil) hword hnext, String.ofList_toList]
  · rw [hlexeme, hdigits, natOfDigits_toDigits]

lemma symbol (s : Symbol) (htext : text.head?.any s.continues = false)
    (h : ∀ t, t.kind = .symbol s → Spells text fun ts => phrase (t :: ts)) :
    Spells (s.spelling.toList ++ text) phrase := by
  have hkind : TokenKind.symbol s ≠ .endOfFile := by simp
  refine token hkind ?_ fun t ht _ => h t ht
  intro rest location hrest
  have hnext := next_eq_false (fun c => s.continues_of_isDelimiter) htext hrest
  exact Cursor.scan_symbol s hnext

/-- A symbol that no character continues may stand in front of any text. -/
lemma closedSymbol {s : Symbol} (hs : ∀ c, s.continues c = false)
    (h : ∀ t, t.kind = .symbol s → Spells text fun ts => phrase (t :: ts)) :
    Spells (s.spelling.toList ++ text) phrase := by
  refine symbol s ?_ h
  rw [Option.any_eq_false]
  simp [hs]

/-- A text that spells a phrase up to its end is scanned as the phrase. -/
lemma scans (h : Spells text phrase) :
    ∃ ts eof, phrase ts ∧ Scans ⟨text, .start⟩ (ts ++ [eof]) := by
  obtain ⟨ts, location, hts, hscans⟩ := h [] .start rfl
  have heof : Scans ⟨[], location⟩ [(Cursor.scan ⟨[], location⟩).1] := .eof rfl
  rw [List.append_nil] at hscans
  exact ⟨ts, _, hts, hscans _ heof⟩

end Spells

end MiniC
