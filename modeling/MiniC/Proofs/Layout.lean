import MiniC.Proofs.Relocation
import MiniC.Proofs.Scanning

/-!
# Layout of texts

The tokens of a source can be laid out in many ways: with any blanks and comments around them, as
long as a blank follows each lexeme. No lexeme then grows into the next one or becomes part of a
comment, so every layout has the same tokens up to their places, and all of them compile to the same
code.
-/

namespace MiniC

/-- Whether a text lays out the lexemes of tokens, in order, with blanks and comments around them. A
lexeme is followed by a blank unless the text ends with it. -/
inductive Layout : List Token → List Char → Prop where
  | nil {gap : List Char} (hgap : Trivia [] gap) : Layout [] gap
  | cons {t : Token} {ts : List Token} {gap rest : List Char}
      (hgap : Trivia (t.lexeme.toList ++ rest) gap)
      (hblank : ∀ c ∈ rest.head?, Cursor.isBlank c = true) (hrest : Layout ts rest) :
      Layout (t :: ts) (gap ++ t.lexeme.toList ++ rest)

/-- The token without its place. -/
def Token.unplaced (t : Token) : Token := t.relocate fun _ => .start

/-- A layout of lexemes falls into them. -/
lemma Layout.tokenized {ts : List Token} {text : List Char} (h : Layout ts text) (hlexed : Lexed ts)
    (before : List Char) : ∃ us, Tokenized before text us ∧
      us.map Token.unplaced = ts.map Token.unplaced ++ [⟨.endOfFile, "", .start⟩] := by
  induction h generalizing before with
  | nil hgap => exact ⟨_, .done hgap, rfl⟩
  | @cons t ts gap rest hgap hblank _ ih =>
    obtain ⟨hlexeme, hlexed⟩ := lexed_cons.mp hlexed
    obtain ⟨us, hus, hmap⟩ := ih hlexed (before ++ gap ++ t.lexeme.toList)
    have hself : Longest t.lexeme.toList t.lexeme.toList := fun w kind _ hw => hw.length_le
    obtain ⟨hcomment, hlongest⟩ : ¬['/', '/'] <+: t.lexeme.toList ++ rest ∧
        Longest (t.lexeme.toList ++ rest) t.lexeme.toList := by
      cases rest with
      | nil =>
        rw [List.append_nil]
        exact ⟨hlexeme.not_comment, hself⟩
      | cons b rest =>
        have hb := hblank b rfl
        exact ⟨not_comment_append_blank hlexeme.not_comment hb, hself.append_blank hb⟩
    refine ⟨_, .token hgap hcomment hlexeme hlongest hus, ?_⟩
    rw [List.map_cons, List.map_cons, List.cons_append, hmap, String.ofList_toList]
    rfl

/-- The tokens of a layout of a source are those of the source, up to places. -/
lemma Layout.tokenize {source text : String} (h : Layout (sourceTokens source) text.toList) :
    (tokenize text).map Token.unplaced = (tokenize source).map Token.unplaced := by
  have hlexed : Lexed (sourceTokens source) := (scans_tokenize source).lexed_dropLast
  obtain ⟨us, hus, hmap⟩ := h.tokenized hlexed []
  obtain ⟨location, hsource⟩ := tokenize_eq_concat source
  rw [hus.eq_tokenize, hmap, hsource, List.map_append]
  rfl

/-- Layout does not matter. A text that lays out the tokens of a source in any other way has tokens
of the same kinds with the same lexemes, and compiles to the same code or to the same error, up to
the place in an error of the parser. -/
theorem compileSource_layout {source text : String}
    (h : Layout (sourceTokens source) text.toList) :
    (tokenize text).map (fun t => (t.kind, t.lexeme)) =
      (tokenize source).map (fun t => (t.kind, t.lexeme)) ∧
    ∀ options, (compileSource options text).mapError (CompileError.relocate fun _ => .start) =
      (compileSource options source).mapError (CompileError.relocate fun _ => .start) := by
  have htokens := h.tokenize
  have hne : ∀ source, tokenize source ≠ [] := by
    intro source
    obtain ⟨location, hsource⟩ := tokenize_eq_concat source
    rw [hsource]
    simp
  refine ⟨?_, fun options => Compiler.compile_relocate ?_ _⟩
  · have hpairs := congrArg (List.map fun t : Token => (t.kind, t.lexeme)) htokens
    rwa [List.map_map, List.map_map] at hpairs
  · rw [TokenStream.ofText, TokenStream.relocate_ofTokens (hne text), TokenStream.ofText,
      TokenStream.relocate_ofTokens (hne source)]
    exact congrArg TokenStream.ofTokens htokens

theorem empty_function_spread_out :
    (compileSource {} "void f //\n( ) \x7b\t\x7d").mapError
        (CompileError.relocate fun _ => .start) =
      (compileSource {} "void f()\x7b\x7d").mapError (CompileError.relocate fun _ => .start) := by
  refine (compileSource_layout ?_).2 {}
  have htokens : sourceTokens "void f()\x7b\x7d" = [⟨.keyword .void, "void", ⟨1, 1⟩⟩,
      ⟨.identifier, "f", ⟨1, 6⟩⟩, ⟨.symbol .leftParen, "(", ⟨1, 7⟩⟩,
      ⟨.symbol .rightParen, ")", ⟨1, 8⟩⟩, ⟨.symbol .leftBrace, "\x7b", ⟨1, 9⟩⟩,
      ⟨.symbol .rightBrace, "\x7d", ⟨1, 10⟩⟩] := by
    decide +kernel
  have htext : "void f //\n( ) \x7b\t\x7d".toList = [] ++ "void".toList ++ ([' '] ++ "f".toList ++
      (' ' :: ('/' :: '/' :: [] ++ ['\n']) ++ "(".toList ++ ([' '] ++ ")".toList ++
        ([' '] ++ "\x7b".toList ++ (['\t'] ++ "\x7d".toList ++ []))))) := by
    decide +kernel
  have hcomment : ∀ rest, Trivia rest (' ' :: ('/' :: '/' :: [] ++ ['\n'])) := fun rest =>
    .blank rfl (.comment (by simp) (by simp) (.blank rfl .nil))
  have hblank : ∀ {b : Char} {rest : List Char}, Cursor.isBlank b = true →
      ∀ c ∈ (b :: rest).head?, Cursor.isBlank c = true := by
    rintro b rest hb c ⟨⟩
    exact hb
  rw [htokens, htext]
  refine .cons .nil (hblank rfl) (.cons (.blank rfl .nil) (hblank rfl) ?_)
  refine .cons (hcomment _) (hblank rfl) (.cons (.blank rfl .nil) (hblank rfl) ?_)
  exact .cons (.blank rfl .nil) (hblank rfl) (.cons (.blank rfl .nil) (by simp) (.nil .nil))

end MiniC
