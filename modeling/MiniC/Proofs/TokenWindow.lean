import MiniC.Proofs.Spelling
import MiniC.Token.Stream

/-!
# The window on the tokens

A window reads two tokens further than what left it, and at the end of the text it reads the
end-of-file token again and again. Its place in the text is thus never that of its current token.
`Views l ts` says in front of which tokens of the source it stands: a move takes the first one away,
as long as there is another, so after any queries the window shows the tokens at its place in the
list. The streams on which parsers work are lists with a place, and they show the same.
-/

namespace MiniC

section

variable {ts : List Token} {n : Nat}

/-- Taking tokens away but never the last one leaves a token. -/
lemma length_drop_min (hn : ts.length = n + 1) (k : Nat) :
    (ts.drop (min k n)).length = n - min k n + 1 := by
  rw [List.length_drop, hn]
  omega

lemma drop_min_drop_min (ts : List Token) (j k n : Nat) :
    (ts.drop (min j n)).drop (min k (n - min j n)) = ts.drop (min (k + j) n) := by
  rw [List.drop_drop]
  congr 1
  omega

end

/-- Behind the end of the text the end-of-file token comes again, at the same place. -/
lemma Cursor.scan_of_isEof {c : Cursor} (h : c.scan.1.isEof = true) : c.scan.2.scan = c.scan := by
  rcases c.scan_cases with ⟨-, hscan⟩ | ⟨gap, lexeme, rest, kind, -, -, -, hlexeme, -, hscan⟩
  · rw [hscan]
    rfl
  · rw [hscan] at h
    exact absurd (beq_iff_eq.mp h) hlexeme.kind_ne_endOfFile

namespace Scans

variable {c : Cursor} {ts : List Token}

/-- The end-of-file token is the last one, and no other is one. -/
lemma map_isEof (h : Scans c ts) :
    ∃ n, ts.length = n + 1 ∧ ts.map Token.isEof = List.replicate n false ++ [true] := by
  induction h with
  | eof heof => exact ⟨0, rfl, by rw [List.map_singleton, heof]; rfl⟩
  | token heof _ ih =>
    obtain ⟨n, hlength, hkinds⟩ := ih
    refine ⟨n + 1, congrArg Nat.succ hlength, ?_⟩
    rw [List.map_cons, heof, hkinds]
    rfl

lemma getElem?_zero (h : Scans c ts) : ts[0]? = some c.scan.1 := by
  cases h with
  | eof | token => rfl

/-- The last token is the end of the file, and any other one has what is scanned next behind it. -/
lemma last_or_more (h : Scans c ts) {n : Nat} (hn : ts.length = n + 1) :
    n = 0 ∧ c.scan.1.isEof = true ∧ ts = [c.scan.1] ∨
      0 < n ∧ c.scan.1.isEof = false ∧ ∃ rest, ts = c.scan.1 :: rest ∧ Scans c.scan.2 rest := by
  cases h with
  | eof heof => exact .inl ⟨by simpa using hn.symm, heof, rfl⟩
  | @token _ rest heof hrest =>
    have hpos : 0 < rest.length := (List.getElem?_eq_some_iff.mp hrest.getElem?_zero).1
    rw [List.length_cons] at hn
    exact .inr ⟨by omega, heof, rest, rfl, hrest⟩

end Scans

namespace Lexer

/-- What can be asked of a window. -/
inductive Query where
  | current
  | next
  | isEof
  | bump
  deriving DecidableEq

inductive Reply where
  | token (t : Token)
  | flag (b : Bool)
  deriving DecidableEq

/-- The reply, and the window afterwards. -/
def serve (l : Lexer) : Query → Reply × Lexer
  | .current => (.token l.current, l)
  | .next => (.token l.next, l)
  | .isEof => (.flag l.isEof, l)
  | .bump => (.token l.bump.1, l.bump.2)

/-- The window after queries. -/
def after (l : Lexer) (queries : List Query) : Lexer :=
  queries.foldl (fun l query => (l.serve query).2) l

lemma after_cons_of_ne {query : Query} (h : query ≠ .bump) (l : Lexer) (queries : List Query) :
    l.after (query :: queries) = l.after queries := by
  cases query with
  | bump => exact absurd rfl h
  | current | next | isEof => rfl

/-- Whether the window stands in front of the tokens `ts`, which are all that are left. -/
def Views (l : Lexer) (ts : List Token) : Prop := ∃ c, l.Shows c ∧ Scans c ts

namespace Views

variable {l : Lexer} {ts : List Token} {n : Nat}

lemma ofText (source : String) : (Lexer.ofText source).Views (tokenize source) :=
  ⟨.ofText source, shows_ofText source, scans_tokenize source⟩

lemma toList_eq (h : l.Views ts) : l.toList = ts := by
  obtain ⟨c, hshows, hscans⟩ := h
  have hdrained : Scans c l.toList := hshows.drain (Nat.le_refl _)
  exact hdrained.unique hscans

lemma current (h : l.Views ts) : ts[0]? = some l.current := by
  obtain ⟨c, hshows, hscans⟩ := h
  rw [hscans.getElem?_zero, hshows.1]

/-- Only the end-of-file token has no token behind it. -/
lemma isEof_iff (h : l.Views ts) (hn : ts.length = n + 1) : l.isEof = true ↔ n = 0 := by
  obtain ⟨c, hshows, hscans⟩ := h
  rw [Lexer.isEof, hshows.1]
  rcases hscans.last_or_more hn with ⟨hzero, heof, -⟩ | ⟨hpos, heof, -⟩
  · exact iff_of_true heof hzero
  · exact iff_of_false (by simp [heof]) (Nat.ne_of_gt hpos)

/-- The next token is the one behind the current one, or the end-of-file token once more. -/
lemma next (h : l.Views ts) (hn : ts.length = n + 1) : ts[min 1 n]? = some l.next := by
  obtain ⟨c, hshows, hscans⟩ := h
  rw [hshows.2.1]
  rcases hscans.last_or_more hn with ⟨rfl, heof, rfl⟩ | ⟨hpos, -, rest, rfl, hrest⟩
  · rw [Cursor.scan_of_isEof heof]
    rfl
  · rw [Nat.min_eq_left hpos, List.getElem?_cons_succ, hrest.getElem?_zero]

/-- A move takes the current token away, unless it is the last one. -/
lemma bump (h : l.Views ts) (hn : ts.length = n + 1) : l.bump.2.Views (ts.drop (min 1 n)) := by
  obtain ⟨c, hshows, hscans⟩ := h
  refine ⟨c.scan.2, hshows.bump, ?_⟩
  rcases hscans.last_or_more hn with ⟨rfl, heof, rfl⟩ | ⟨hpos, -, rest, rfl, hrest⟩
  · exact .congr (Cursor.scan_of_isEof heof) (.eof heof)
  · rw [Nat.min_eq_left hpos]
    exact hrest

/-- As many tokens are gone as moves were made, but the last one stays. -/
lemma after (h : l.Views ts) (hn : ts.length = n + 1) (queries : List Query) :
    (l.after queries).Views (ts.drop (min (queries.count .bump) n)) := by
  induction queries generalizing l ts n with
  | nil => simpa [Lexer.after] using h
  | cons query rest ih =>
    by_cases hquery : query = .bump
    · have hrest := ih (h.bump hn) (length_drop_min hn 1)
      rw [drop_min_drop_min] at hrest
      rw [hquery, List.count_cons_self]
      exact hrest
    · rw [after_cons_of_ne hquery, List.count_cons_of_ne hquery]
      exact ih h hn

end Views

/-- A window shows the list of tokens of its source. Of these, `n` stand in front of the end-of-file
token. After any queries, `k` of which were moves, the current token is the one at place `k`, the next
one that at place `k + 1`, where the end-of-file token, always the same, stands for all places behind
it. The window is at the end exactly if `k` is at least `n`, a further move gives the current token,
and what is left to drain are the tokens from the current one on. -/
theorem after_shows_tokens (source : String) :
    ∃ n, (tokenize source).length = n + 1 ∧
      (tokenize source).map Token.isEof = List.replicate n false ++ [true] ∧
      ∀ queries : List Query, ∃ current next,
        let k := queries.count .bump
        let l := (ofText source).after queries
        (tokenize source)[min k n]? = some current ∧
        (tokenize source)[min (k + 1) n]? = some next ∧
        l.serve .current = (.token current, l) ∧
        l.serve .next = (.token next, l) ∧
        l.serve .isEof = (.flag (decide (n ≤ k)), l) ∧
        (l.serve .bump).1 = .token current ∧
        l.toList = (tokenize source).drop (min k n) := by
  obtain ⟨n, hn, hkinds⟩ := (scans_tokenize source).map_isEof
  refine ⟨n, hn, hkinds, fun queries => ?_⟩
  have hviews := (Views.ofText source).after hn queries
  have hleft := length_drop_min hn (queries.count .bump)
  have hcurrent := hviews.current
  have hnext := hviews.next hleft
  have heof := hviews.isEof_iff hleft
  have hplace : min (queries.count .bump) n + min 1 (n - min (queries.count .bump) n) =
      min (queries.count .bump + 1) n := by
    omega
  rw [List.getElem?_drop, Nat.add_zero] at hcurrent
  rw [List.getElem?_drop, hplace] at hnext
  refine ⟨_, _, hcurrent, hnext, rfl, rfl, ?_, rfl, hviews.toList_eq⟩
  have hflag : ((ofText source).after queries).isEof = decide (n ≤ queries.count .bump) := by
    rw [Bool.eq_iff_iff, heof, decide_eq_true_iff]
    omega
  rw [serve, hflag]

end Lexer

namespace TokenStream

variable {ts : List Token} {n : Nat}

/-- What the stream over a list shows of it. -/
lemma ofTokens_shows (hn : ts.length = n + 1) :
    ts[0]? = some (ofTokens ts).current ∧ ts[min 1 n]? = some (ofTokens ts).next ∧
      ((ofTokens ts).atEnd = true ↔ n = 0) := by
  match ts, hn with
  | [t], hn =>
    obtain rfl : n = 0 := by simpa using hn.symm
    exact ⟨rfl, rfl, iff_of_true rfl rfl⟩
  | [t, u], hn =>
    obtain rfl : n = 1 := by simpa using hn.symm
    exact ⟨rfl, rfl, by simp [atEnd, ofTokens]⟩
  | t :: u :: v :: rest, hn =>
    have hpos : 0 < n := by
      simp only [List.length_cons] at hn
      omega
    rw [Nat.min_eq_left hpos]
    exact ⟨rfl, rfl, iff_of_false (by simp [atEnd, ofTokens]) (Nat.ne_of_gt hpos)⟩

/-- Consuming the current token takes it away, unless it is the last one. -/
lemma advance_ofTokens (hn : ts.length = n + 1) :
    (ofTokens ts).advance = ofTokens (ts.drop (min 1 n)) := by
  match ts, hn with
  | [t], hn =>
    obtain rfl : n = 0 := by simpa using hn.symm
    rfl
  | t :: u :: rest, hn =>
    have hpos : 0 < n := by
      simp only [List.length_cons] at hn
      omega
    rw [Nat.min_eq_left hpos]
    rfl

lemma iterate_advance_ofTokens (hn : ts.length = n + 1) (k : Nat) :
    advance^[k] (ofTokens ts) = ofTokens (ts.drop (min k n)) := by
  induction k generalizing ts n with
  | zero =>
    rw [Nat.zero_min]
    rfl
  | succ k ih =>
    rw [Function.iterate_succ_apply, advance_ofTokens hn, ih (length_drop_min hn 1),
      drop_min_drop_min]

/-- The streams on which parsers work show what windows show: after any queries to a window, the
stream from which as many tokens were consumed as the window was moved has the same current token and
the same next one, and it is at its end exactly if the window is. -/
theorem iterate_advance_shows (source : String) (queries : List Lexer.Query) :
    let s := advance^[queries.count .bump] (ofText source)
    let l := (Lexer.ofText source).after queries
    s.current = l.current ∧ s.next = l.next ∧ s.atEnd = l.isEof := by
  intro s l
  obtain ⟨n, hn, -⟩ := (scans_tokenize source).map_isEof
  have hviews := (Lexer.Views.ofText source).after hn queries
  have hleft := length_drop_min hn (queries.count .bump)
  have hs : s = ofTokens ((tokenize source).drop (min (queries.count .bump) n)) :=
    iterate_advance_ofTokens hn _
  obtain ⟨hcurrent, hnext, hend⟩ := ofTokens_shows hleft
  rw [← hs] at hcurrent hnext hend
  refine ⟨?_, ?_, ?_⟩
  · exact Option.some.inj (hcurrent.symm.trans hviews.current)
  · exact Option.some.inj (hnext.symm.trans (hviews.next hleft))
  · rw [Bool.eq_iff_iff, hend, hviews.isEof_iff hleft]

end TokenStream

end MiniC
