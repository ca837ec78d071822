import MiniC.Proofs.Staging

/-!
# Two parsers in step

Where a parser fails at a token it has seen nothing behind that token, so it fails as well on every
other text that begins in the same way. `Tracks` says this of two runs: one on the tokens at hand,
and one on any stream that agrees with them up to the token that the first run stops at. The second
run may have other fuel, and it reads `int` where the first one reads `void`. Together with this,
what the first run takes is a phrase, or the beginning of one, of a given language.

The rules follow the steps of the parsers. The language of what is left behind a step is the
language of the whole with the tokens of the step in front.
-/

namespace MiniC

namespace Token

/-- The token with `int`, a type that variables may have, in place of `void`. -/
def withoutVoid (t : Token) : Token :=
  if t.kind = .keyword .void then { t with kind := .keyword .int } else t

lemma withoutVoid_of_ne {t : Token} (h : t.kind ≠ .keyword .void) : t.withoutVoid = t := if_neg h

/-- What does not tell `int` from `void` is the same of both tokens. -/
lemma withoutVoid_kind {γ : Type} (f : TokenKind → γ)
    (hf : f (.keyword .int) = f (.keyword .void)) (t : Token) :
    f t.withoutVoid.kind = f t.kind := by
  rw [withoutVoid]
  split
  · rename_i ht
    rw [ht, ← hf]
  · rfl

lemma withoutVoid_kind_iff {kind : TokenKind} (hkind : kind.toTy? = none) {t : Token} :
    t.withoutVoid.kind = kind ↔ t.kind = kind := by
  have hne : ∀ k : Keyword, k.toTy?.isSome = true → TokenKind.keyword k ≠ kind := by
    rintro k hk rfl
    simp [TokenKind.toTy?] at hkind
    simp [hkind] at hk
  have h := withoutVoid_kind (fun k => decide (k = kind))
    (by simp [hne .int rfl, hne .void rfl]) t
  simpa using h

lemma exists_toTy?_withoutVoid {t : Token} (h : t.kind.toTy?.isSome = true) :
    ∃ ty, t.withoutVoid.kind.toTy? = some ty ∧ ty ≠ .void := by
  by_cases hvoid : t.kind = .keyword .void
  · exact ⟨.i32, by simp [withoutVoid, hvoid, TokenKind.toTy?, Keyword.toTy?], by simp⟩
  · obtain ⟨ty, hty⟩ := Option.isSome_iff_exists.mp h
    refine ⟨ty, by rw [withoutVoid_of_ne hvoid, hty], ?_⟩
    rintro rfl
    cases hkind : t.kind with
    | keyword k =>
      rw [hkind] at hty hvoid
      cases k <;> simp_all [TokenKind.toTy?, Keyword.toTy?]
    | _ => simp [hkind, TokenKind.toTy?] at hty

end Token

namespace TokenStream

variable {t : TokenStream} {m : Nat} {eof k : Token} {read used rest : List Token}

/-- The stream behind the next `n` tokens. -/
def skip (s : TokenStream) (n : Nat) : TokenStream := { s with pending := s.pending.drop n }

lemma skip_skip (s : TokenStream) (i j : Nat) : (s.skip i).skip j = s.skip (i + j) := by
  simp [skip, List.drop_drop]

/-- Whether a stream of at most `m` tokens begins with the tokens `read`, except for `void`. -/
structure Begins (t : TokenStream) (m : Nat) (read : List Token) : Prop where
  length_le : t.pending.length ≤ m
  eof_kind : t.eof.kind = .endOfFile
  tokens : read.map Token.withoutVoid <+: t.pending ++ [t.eof]

namespace Begins

lemma mono {n : Nat} (h : t.Begins m read) (hn : m ≤ n) : t.Begins n read :=
  ⟨h.length_le.trans hn, h.eof_kind, h.tokens⟩

lemma of_isPrefix {start : List Token} (h : t.Begins m read) (hstart : start <+: read) :
    t.Begins m start :=
  ⟨h.length_le, h.eof_kind, (hstart.map _).trans h.tokens⟩

/-- The token read ahead behind some tokens is among what is read behind more of them. -/
lemma lookahead (used : List Token) {more : List Token}
    (h : t.Begins m (used ++ more ++ [TokenStream.current ⟨rest, eof⟩])) :
    t.Begins m (used ++ [TokenStream.current ⟨more ++ rest, eof⟩]) := by
  refine h.of_isPrefix ?_
  rw [List.append_assoc, List.prefix_append_right_inj]
  cases more with
  | nil => exact List.prefix_refl _
  | cons k more => exact ⟨more ++ [TokenStream.current ⟨rest, eof⟩], rfl⟩

lemma current (h : t.Begins m (used ++ [TokenStream.current ⟨rest, eof⟩])) :
    t.current = (TokenStream.current ⟨used ++ rest, eof⟩).withoutVoid := by
  have hfirst := (lookahead [] h).tokens
  obtain ⟨pending, eof'⟩ := t
  cases pending with
  | nil => simpa [TokenStream.current, eq_comm] using hfirst
  | cons u pending => simpa [TokenStream.current, eq_comm] using hfirst

lemma next (h : t.Begins m (k :: used ++ [TokenStream.current ⟨rest, eof⟩])) :
    t.next = (TokenStream.current ⟨used ++ rest, eof⟩).withoutVoid := by
  have hfirst := (lookahead [k] h).tokens
  obtain ⟨pending, eof'⟩ := t
  match pending with
  | [] => simp at hfirst
  | [u] => exact (by simpa using hfirst : _ ∧ _ = eof').2.symm
  | u :: v :: pending => exact (by simpa using hfirst : _ ∧ _ = v).2.symm

lemma skip (h : t.Begins m (used ++ read)) (hread : read ≠ []) :
    (t.skip used.length).Begins (m - used.length) read := by
  obtain ⟨more, hmore⟩ := h.tokens
  have hlength : used.length ≤ t.pending.length := by
    have hpos := List.length_pos_iff.mpr hread
    have htotal := congrArg List.length hmore
    simp only [List.length_append, List.length_map, List.length_singleton] at htotal
    omega
  refine ⟨?_, h.eof_kind, more, ?_⟩
  · have hle := h.length_le
    simp only [TokenStream.skip, List.length_drop]
    omega
  · have hdrop := congrArg (List.drop used.length) hmore
    rw [List.drop_append_of_le_length hlength, List.map_append, List.append_assoc,
      List.drop_left' (List.length_map _)] at hdrop
    exact hdrop

end Begins

end TokenStream

namespace ParseError

/-- Whether an error is about a token, or the end of the file, in a wrong place. -/
def IsSyntax : ParseError → Prop
  | .unexpectedToken .. | .unexpectedEof .. => True
  | _ => False

/-- Whether an error is reported at the token `k`. -/
def Reports : ParseError → Token → Prop
  | .unexpectedToken _ found location, k =>
    k.kind ≠ .endOfFile ∧ found = k.lexeme ∧ location = k.location
  | .unexpectedEof _ location, k => k.kind = .endOfFile ∧ location = k.location
  | _, _ => False

end ParseError

/-- Whether tokens are a phrase of a grammar, whatever it stands for. -/
def Grammar.Phrase {α : Type} (phrase : List Token → α → Prop) (ts : List Token) : Prop :=
  ∃ a, phrase ts a

namespace Parser

open Grammar TokenStream

variable {α β γ δ : Type}

/-- Whether `x` on the tokens `ts` and `y` on streams of at most `m` tokens go in step. If `x`
succeeds it takes a phrase of `L`, and `y` takes the same tokens wherever it meets them with the
same token behind. If `x` fails by its syntax, it has taken the beginning of a phrase, it reports
the token behind, and `y` does not succeed wherever it meets these. If `c` holds, `x` takes a token
in both cases. -/
structure Tracks (eof : Token) (ts : List Token) (c : Prop) (m : Nat) (x : Parser α) (y : Parser β)
    (L : List Token → Prop) : Prop where
  exists_phrase : ∃ more : List Token, L (more.map .withoutVoid)
  ok : ∀ {a s'}, x ⟨ts, eof⟩ = .ok a s' → ∃ used rest, ts = used ++ rest ∧ ⟨rest, eof⟩ = s' ∧
    (c → used ≠ []) ∧ L (used.map .withoutVoid) ∧
    ∀ {t b t'}, t.Begins m (used ++ [current ⟨rest, eof⟩]) → y t = .ok b t' →
      t.skip used.length = t'
  error : ∀ {e s'}, x ⟨ts, eof⟩ = .error e s' → e.IsSyntax → ∃ used rest, ts = used ++ rest ∧
    ⟨rest, eof⟩ = s' ∧ (c → used ≠ []) ∧ (∃ more, L ((used ++ more).map .withoutVoid)) ∧
    e.Reports (current ⟨rest, eof⟩) ∧
    ∀ {t b t'}, t.Begins m (used ++ [current ⟨rest, eof⟩]) → y t ≠ .ok b t'

lemma unexpected_run (expected : String) (s : TokenStream) :
    ∃ e, (unexpected expected : Parser α) s = .error e s ∧ e.Reports s.current := by
  rw [unexpected, peek_bind]
  by_cases hend : s.current.isEof = true
  · have hkind : s.current.kind = .endOfFile := beq_iff_eq.mp hend
    exact ⟨.unexpectedEof expected s.current.location, by rw [if_pos hend]; rfl, hkind, rfl⟩
  · have hkind : s.current.kind ≠ .endOfFile := by simpa [Token.isEof] using hend
    exact ⟨.unexpectedToken expected s.current.lexeme s.current.location, by rw [if_neg hend]; rfl,
      hkind, rfl, rfl⟩

lemma unexpected_bind (expected : String) (f : α → Parser β) :
    unexpected expected >>= f = unexpected expected := by
  rw [unexpected, unexpected, bind_assoc]
  congr 1
  funext t
  split <;> rfl

section

variable {kind : TokenKind} {context : String}

lemma expect_bind_eq (f : Token → Parser α) : expect kind context >>= f = peek >>= fun t =>
    if t.kind = kind then advance >>= f
    else unexpected ("'" ++ kind.text ++ "' in " ++ context) := by
  rw [expect, bind_assoc]
  congr 1
  funext t
  split
  · rfl
  · exact unexpected_bind _ f

lemma accept_bind_eq (f : Bool → Parser α) : accept kind >>= f = peek >>= fun t =>
    if t.kind = kind then advance >>= fun _ => f true else f false := by
  rw [accept, bind_assoc]
  congr 1
  funext t
  split <;> rfl

lemma typeName_bind_eq (f : Ty → Parser α) : typeName context >>= f = peek >>= fun t =>
    match t.kind.toTy? with
    | some ty => advance >>= fun _ => f ty
    | none => unexpected ("type name in " ++ context) := by
  rw [typeName, bind_assoc]
  congr 1
  funext t
  cases t.kind.toTy? with
  | some ty => rfl
  | none => exact unexpected_bind _ f

lemma variableName_bind_eq {ty : Ty} (f : String → Parser α) : variableName ty context >>= f =
    expect .identifier context >>= fun t =>
      if ty.isVoid then throw (.voidVariable t.lexeme t.location) else f t.lexeme := by
  rw [variableName, bind_assoc]
  congr 1
  funext t
  split <;> rfl

end

/-- Where every phrase has a first token, none is read in front of the end of a file. -/
lemma Reads.not_ok {p : Parser α} {phrase : List Token → α → Prop} {t t' : TokenStream} {a : α}
    (hp : Reads t.eof p phrase)
    (hfirst : ∀ {us a}, phrase us a → ∃ u rest, us = u :: rest ∧ u.kind ≠ .endOfFile)
    (hend : t.current.kind = .endOfFile) : p t ≠ .ok a t' := by
  intro hrun
  obtain ⟨used, rest, hts, -, hphrase⟩ := hp _ _ _ hrun
  obtain ⟨u, used, rfl, hu⟩ := hfirst hphrase
  have hcurrent : t.current = u := by
    rw [TokenStream.current, hts]
    rfl
  exact hu (hcurrent ▸ hend)

/-- What follows an item in a list with commas. -/
def moreItems (item : Parser α) : (n : Nat) → α → Parser (List α)
  | 0, a => return [a]
  | n + 1, a => do
    if ← accept (.symbol .comma) then return a :: (← commaSeparatedFrom item n)
    else return [a]

lemma commaSeparatedFrom_eq (item : Parser α) (n : Nat) :
    commaSeparatedFrom item n = item >>= moreItems item n := by
  cases n <;> rfl

lemma moreItems_of_end {item : Parser α} {n : Nat} {a : α} {t : TokenStream}
    (h : t.current.kind = .endOfFile) : moreItems item n a t = .ok [a] t := by
  cases n with
  | zero => rfl
  | succ n =>
    rw [moreItems, accept_bind_eq, peek_bind, if_neg (by simp [h])]
    rfl

namespace Tracks

variable {eof : Token} {ts : List Token} {c : Prop} {m : Nat} {x : Parser α} {y : Parser β}
  {L : List Token → Prop}

lemma weaken {c' : Prop} {n : Nat} {L' : List Token → Prop} (h : Tracks eof ts c m x y L)
    (hc : c' → c) (hn : n ≤ m) (hL : ∀ us, L us → L' us) : Tracks eof ts c' n x y L' where
  exists_phrase := by
    obtain ⟨more, hmore⟩ := h.exists_phrase
    exact ⟨more, hL _ hmore⟩
  ok hx := by
    obtain ⟨used, rest, hts, hs, hused, hphrase, hy⟩ := h.ok hx
    exact ⟨used, rest, hts, hs, hused ∘ hc, hL _ hphrase, fun ht => hy (ht.mono hn)⟩
  error hx he := by
    obtain ⟨used, rest, hts, hs, hused, ⟨more, hmore⟩, hreports, hy⟩ := h.error hx he
    exact ⟨used, rest, hts, hs, hused ∘ hc, ⟨more, hL _ hmore⟩, hreports,
      fun ht => hy (ht.mono hn)⟩

lemma imp {L' : List Token → Prop} (h : Tracks eof ts c m x y L) (hL : ∀ us, L us → L' us) :
    Tracks eof ts c m x y L' :=
  h.weaken id (Nat.le_refl m) hL

lemma mono {c' : Prop} {n : Nat} (h : Tracks eof ts c m x y L) (hc : c' → c) (hn : n ≤ m) :
    Tracks eof ts c' n x y L :=
  h.weaken hc hn fun _ => id

/-- The first parser matters at its place only, and the second one where it succeeds on a stream
that agrees with what the first one reads. -/
lemma congr {x' : Parser α} {y' : Parser β} (h : Tracks eof ts c m x y L)
    (hx : x' ⟨ts, eof⟩ = x ⟨ts, eof⟩)
    (hy : ∀ {used rest t b t'}, ts = used ++ rest → (c → used ≠ []) →
      t.Begins m (used ++ [current ⟨rest, eof⟩]) → y' t = .ok b t' → y t = .ok b t') :
    Tracks eof ts c m x' y' L where
  exists_phrase := h.exists_phrase
  ok hrun := by
    obtain ⟨used, rest, hts, hs, hused, hphrase, hskip⟩ := h.ok (hx ▸ hrun)
    exact ⟨used, rest, hts, hs, hused, hphrase, fun ht hrun' => hskip ht (hy hts hused ht hrun')⟩
  error hrun he := by
    obtain ⟨used, rest, hts, hs, hused, hmore, hreports, hfails⟩ := h.error (hx ▸ hrun) he
    exact ⟨used, rest, hts, hs, hused, hmore, hreports,
      fun ht hrun' => hfails ht (hy hts hused ht hrun')⟩

lemma exists_phrase_cons {k : Token} (hk : k.kind.toTy? = none)
    (h : Tracks eof ts c m x y fun vs => L (k :: vs)) :
    ∃ more : List Token, L (more.map .withoutVoid) := by
  obtain ⟨more, hmore⟩ := h.exists_phrase
  have hvoid : k.kind ≠ .keyword .void := by
    intro hkind
    simp [hkind, TokenKind.toTy?, Keyword.toTy?] at hk
  exact ⟨k :: more, by simpa [Token.withoutVoid_of_ne hvoid] using hmore⟩

protected lemma pure (hc : ¬c) (hL : L []) (a : α) (b : β) :
    Tracks eof ts c m (pure a) (pure b) L where
  exists_phrase := ⟨[], hL⟩
  ok hx := by
    obtain ⟨-, rfl⟩ := pure_ok.mp hx
    refine ⟨[], ts, rfl, rfl, fun h => absurd h hc, hL, fun _ hy => ?_⟩
    obtain ⟨-, rfl⟩ := pure_ok.mp hy
    rfl
  error hx := by cases hx

/-- Nothing is to show where the first parser fails for other reasons than syntax. -/
lemma of_error {e : ParseError} {s' : TokenStream}
    (hL : ∃ more : List Token, L (more.map .withoutVoid)) (hx : x ⟨ts, eof⟩ = .error e s')
    (he : ¬e.IsSyntax) : Tracks eof ts c m x y L where
  exists_phrase := hL
  ok hx' := by cases hx.symm.trans hx'
  error hx' he' := by
    cases hx.symm.trans hx'
    exact absurd he' he

protected lemma unexpected (hc : ¬c) (hL : ∃ more : List Token, L (more.map .withoutVoid))
    (expected expected' : String) :
    Tracks eof ts c m (unexpected expected : Parser α) (unexpected expected' : Parser β) L where
  exists_phrase := hL
  ok hx := (unexpected_ok.mp hx).elim
  error hx _ := by
    obtain ⟨e, hrun, hreports⟩ := unexpected_run expected ⟨ts, eof⟩
    cases hrun.symm.trans hx
    exact ⟨[], ts, rfl, rfl, fun h => absurd h hc, hL, hreports, fun _ hy => unexpected_ok.mp hy⟩

lemma skip_eq {used rest : List Token} {a : α} {t t' : TokenStream} {b : β}
    (h : Tracks eof (used ++ rest) c m x y L) (hx : x ⟨used ++ rest, eof⟩ = .ok a ⟨rest, eof⟩)
    (ht : t.Begins m (used ++ [current ⟨rest, eof⟩])) (hy : y t = .ok b t') :
    t.skip used.length = t' := by
  obtain ⟨used', rest', hts, hs, -, -, hskip⟩ := h.ok hx
  obtain rfl : rest' = rest := congrArg TokenStream.pending hs
  obtain rfl := List.append_cancel_right hts
  exact hskip ht hy

lemma not_ok {used rest : List Token} {e : ParseError} {t t' : TokenStream} {b : β}
    (h : Tracks eof (used ++ rest) c m x y L) (hx : x ⟨used ++ rest, eof⟩ = .error e ⟨rest, eof⟩)
    (he : e.IsSyntax) (ht : t.Begins m (used ++ [current ⟨rest, eof⟩])) : y t ≠ .ok b t' := by
  obtain ⟨used', rest', hts, hs, -, -, -, hfails⟩ := h.error hx he
  obtain rfl : rest' = rest := congrArg TokenStream.pending hs
  obtain rfl := List.append_cancel_right hts
  exact hfails ht

section

variable {f : α → Parser γ} {g : β → Parser δ} {L₁ : List Token → Prop}

/-- Behind a parser in step that has succeeded, parsers in step go on. -/
lemma bind_of_ok [Nonempty β] (us : List Token) {rest : List Token} {a : α}
    (hx : Tracks eof (us ++ rest) c m x y L₁) (hused : c → us ≠ [])
    (hrun : x ⟨us ++ rest, eof⟩ = .ok a ⟨rest, eof⟩)
    (hf : ∀ b, Tracks eof rest False (m - us.length) (f a) (g b)
      fun vs => L (us.map .withoutVoid ++ vs)) :
    Tracks eof (us ++ rest) c m (x >>= f) (y >>= g) L := by
  have hnext : (x >>= f) ⟨us ++ rest, eof⟩ = f a ⟨rest, eof⟩ := by rw [bind_run, hrun]
  have hf₀ := hf (Classical.arbitrary β)
  refine ⟨?_, fun {a' s'} hrun' => ?_, fun {e s'} hrun' he => ?_⟩
  · obtain ⟨more, hmore⟩ := hf₀.exists_phrase
    exact ⟨us ++ more, by simpa using hmore⟩
  · obtain ⟨vs, rest, rfl, rfl, -, hvs, -⟩ := hf₀.ok (hnext ▸ hrun')
    refine ⟨us ++ vs, rest, by simp, rfl, fun h => by simp [hused h], by simpa using hvs, ?_⟩
    intro t b' t' ht hy
    obtain ⟨b, t₁, hy₁, hy₂⟩ := bind_ok.mp hy
    obtain rfl := hx.skip_eq hrun (ht.lookahead us) hy₁
    rw [List.append_assoc] at ht
    have hskip := (hf b).skip_eq (hnext ▸ hrun') (ht.skip (by simp)) hy₂
    rw [← hskip, skip_skip, List.length_append]
  · obtain ⟨vs, rest, rfl, rfl, -, ⟨more, hmore⟩, hreports, -⟩ := hf₀.error (hnext ▸ hrun') he
    refine ⟨us ++ vs, rest, by simp, rfl, fun h => by simp [hused h],
      ⟨more, by simpa using hmore⟩, hreports, ?_⟩
    intro t b' t' ht hy
    obtain ⟨b, t₁, hy₁, hy₂⟩ := bind_ok.mp hy
    obtain rfl := hx.skip_eq hrun (ht.lookahead us) hy₁
    rw [List.append_assoc] at ht
    exact (hf b).not_ok (hnext ▸ hrun') he (ht.skip (by simp)) hy₂

/-- Behind a parser in step that has failed, it matters only that phrases can be completed. -/
lemma bind_of_error {e : ParseError} {s' : TokenStream} (hx : Tracks eof ts c m x y L₁)
    (hrun : x ⟨ts, eof⟩ = .error e s')
    (hL : ∀ us : List Token, L₁ (us.map .withoutVoid) →
      ∃ more, L ((us ++ more).map Token.withoutVoid)) :
    Tracks eof ts c m (x >>= f) (y >>= g) L := by
  have hnext : (x >>= f) ⟨ts, eof⟩ = .error e s' := by rw [bind_run, hrun]
  refine ⟨?_, fun {a' s''} hrun' => ?_, fun {e' s''} hrun' he => ?_⟩
  · obtain ⟨us, hus⟩ := hx.exists_phrase
    obtain ⟨more, hmore⟩ := hL us hus
    exact ⟨us ++ more, hmore⟩
  · cases hnext.symm.trans hrun'
  · cases hnext.symm.trans hrun'
    obtain ⟨us, rest, rfl, rfl, hused, ⟨more, hmore⟩, hreports, hfails⟩ := hx.error hrun he
    obtain ⟨more', hmore'⟩ := hL _ hmore
    refine ⟨us, rest, rfl, rfl, hused, ⟨more ++ more', by simpa using hmore'⟩, hreports, ?_⟩
    intro t b' t' ht hy
    obtain ⟨b, t₁, hy₁, -⟩ := bind_ok.mp hy
    exact hfails ht hy₁

/-- A parser in step, and behind it parsers in step for each phrase that it may have taken. -/
protected lemma bind [Nonempty α] [Nonempty β] (hx : Tracks eof ts c m x y L₁)
    (hf : ∀ a b us rest, L₁ us → rest.length ≤ ts.length - us.length →
      Tracks eof rest False (m - us.length) (f a) (g b) fun vs => L (us ++ vs)) :
    Tracks eof ts c m (x >>= f) (y >>= g) L := by
  cases hrun : x ⟨ts, eof⟩ with
  | ok a s' =>
    obtain ⟨us, rest, rfl, rfl, hused, hus, -⟩ := hx.ok hrun
    exact hx.bind_of_ok us hused hrun fun b => by simpa using hf a b _ rest hus (by simp)
  | error e s' =>
    refine hx.bind_of_error hrun fun us hus => ?_
    obtain ⟨more, hmore⟩ := (hf (Classical.arbitrary α) (Classical.arbitrary β) _ [] hus
      (Nat.zero_le _)).exists_phrase
    exact ⟨more, by simpa using hmore⟩

end

/-- What the second parser does may depend on its stream. -/
lemma of_forall_stream (h : ∀ t : TokenStream, t.pending.length ≤ m →
      ∃ y' : Parser β, y t = y' t ∧ Tracks eof ts c t.pending.length x y' L) :
    Tracks eof ts c m x y L := by
  obtain ⟨y', -, h₀⟩ := h ⟨[], eof⟩ (Nat.zero_le m)
  refine ⟨h₀.exists_phrase, fun hx => ?_, fun hx he => ?_⟩
  · obtain ⟨used, rest, rfl, rfl, hused, hphrase, -⟩ := h₀.ok hx
    refine ⟨used, rest, rfl, rfl, hused, hphrase, @fun t b t' ht hy => ?_⟩
    obtain ⟨y', hy', ht'⟩ := h t ht.length_le
    exact ht'.skip_eq hx ⟨Nat.le_refl _, ht.eof_kind, ht.tokens⟩ (hy' ▸ hy)
  · obtain ⟨used, rest, rfl, rfl, hused, hmore, hreports, -⟩ := h₀.error hx he
    refine ⟨used, rest, rfl, rfl, hused, hmore, hreports, @fun t b t' ht hy => ?_⟩
    obtain ⟨y', hy', ht'⟩ := h t ht.length_le
    exact ht'.not_ok hx he ⟨Nat.le_refl _, ht.eof_kind, ht.tokens⟩ (hy' ▸ hy)

lemma remaining_bind {f : Nat → Parser α} {g : Nat → Parser β}
    (h : ∀ k ≤ m, Tracks eof ts c k (f ts.length) (g k) L) :
    Tracks eof ts c m (remaining >>= f) (remaining >>= g) L :=
  of_forall_stream fun t ht => ⟨g t.pending.length, rfl, (h _ ht).congr rfl fun _ _ _ hy => hy⟩

/-- What is read ahead may not matter. -/
lemma peekNext_bind_of_forall {f : Token → Parser α} {g : Token → Parser β}
    (h : ∀ u v, Tracks eof ts c m (f u) (g v) L) :
    Tracks eof ts c m (peekNext >>= f) (peekNext >>= g) L :=
  of_forall_stream fun t ht =>
    ⟨g t.next, rfl, ((h _ t.next).mono id ht).congr rfl fun _ _ _ hy => hy⟩

lemma peek_bind {f : Token → Parser α} {g : Token → Parser β}
    (h : Tracks eof ts c m (f (current ⟨ts, eof⟩)) (g (current ⟨ts, eof⟩).withoutVoid) L) :
    Tracks eof ts c m (peek >>= f) (peek >>= g) L := by
  refine h.congr rfl ?_
  rintro used rest t b t' rfl - ht hy
  rwa [← ht.current]

/-- If a token is taken, the second one is known as well. -/
lemma peekNext_bind {f : Token → Parser α} {g : Token → Parser β} (hc : c)
    (h : Tracks eof ts c m (f (next ⟨ts, eof⟩)) (g (next ⟨ts, eof⟩).withoutVoid) L) :
    Tracks eof ts c m (peekNext >>= f) (peekNext >>= g) L := by
  refine h.congr rfl ?_
  rintro used rest t b t' rfl hused ht hy
  obtain ⟨k, used, rfl⟩ := List.exists_cons_of_ne_nil (hused hc)
  rwa [List.cons_append, next_cons, ← ht.next]

lemma ite {p q : Prop} [Decidable p] [Decidable q] {x' : Parser α} {y' : Parser β} (hpq : q ↔ p)
    (h : p → Tracks eof ts c m x y L) (h' : ¬p → Tracks eof ts c m x' y' L) :
    Tracks eof ts c m (if p then x else x') (if q then y else y') L := by
  by_cases hp : p
  · rw [if_pos hp, if_pos (hpq.mpr hp)]
    exact h hp
  · rw [if_neg hp, if_neg (hpq.not.mpr hp)]
    exact h' hp

section

variable (heof : eof.kind = .endOfFile)

include heof

protected lemma advance (hk : (current ⟨ts, eof⟩).kind ≠ .endOfFile) :
    Tracks eof ts c m advance advance (· = [(current ⟨ts, eof⟩).withoutVoid]) := by
  obtain ⟨k, rest, rfl⟩ := exists_cons heof rfl hk
  refine ⟨⟨[k], rfl⟩, fun hx => ?_, fun hx => by cases hx⟩
  cases hx
  refine ⟨[k], rest, rfl, rfl, nofun, rfl, fun _ hy => ?_⟩
  cases hy
  simp [TokenStream.skip, TokenStream.advance]

lemma advance_bind {f : Token → Parser α} {g : Token → Parser β}
    (hk : (current ⟨ts, eof⟩).kind ≠ .endOfFile)
    (h : ∀ a b k rest, ts = k :: rest → Tracks eof rest False (m - 1) (f a) (g b)
      fun vs => L (k.withoutVoid :: vs)) :
    Tracks eof ts c m (advance >>= f) (advance >>= g) L := by
  have : Nonempty Token := ⟨eof⟩
  have hadvance : Tracks eof ts c m advance advance _ := Tracks.advance heof hk
  obtain ⟨k, rest, rfl⟩ := exists_cons heof rfl hk
  exact hadvance.bind_of_ok [k] nofun rfl fun b => h k b k rest rfl

variable {context context' : String}

lemma expect_bind {kind : TokenKind} {f : Token → Parser α} {g : Token → Parser β}
    (hkind : kind.toTy? = none) (hend : kind ≠ .endOfFile)
    (h : ∀ a b k rest, k.kind = kind → rest.length ≤ ts.length - 1 →
      Tracks eof rest False (m - 1) (f a) (g b) fun vs => L (k :: vs)) :
    Tracks eof ts False m (expect kind context >>= f) (expect kind context' >>= g) L := by
  rw [expect_bind_eq, expect_bind_eq]
  refine peek_bind (ite (Token.withoutVoid_kind_iff hkind) (fun hk => ?_) fun _ => ?_)
  · refine advance_bind heof (hk ▸ hend) ?_
    rintro a b k rest rfl
    exact h a b _ rest ((Token.withoutVoid_kind_iff hkind).mpr hk) (Nat.le_refl _)
  · refine Tracks.unexpected id ?_ _ _
    exact exists_phrase_cons hkind (h eof eof ⟨kind, "", .start⟩ [] rfl (Nat.zero_le _))

lemma accept_bind {kind : TokenKind} {f : Bool → Parser α} {g : Bool → Parser β}
    (hkind : kind.toTy? = none) (hend : kind ≠ .endOfFile)
    (h : ∀ k rest, k.kind = kind → rest.length ≤ ts.length - 1 →
      Tracks eof rest False (m - 1) (f true) (g true) fun vs => L (k :: vs))
    (h' : (current ⟨ts, eof⟩).kind ≠ kind → Tracks eof ts False m (f false) (g false) L) :
    Tracks eof ts False m (accept kind >>= f) (accept kind >>= g) L := by
  rw [accept_bind_eq, accept_bind_eq]
  refine peek_bind (ite (Token.withoutVoid_kind_iff hkind) (fun hk => ?_) h')
  refine advance_bind heof (hk ▸ hend) ?_
  rintro - - k rest rfl
  exact h _ rest ((Token.withoutVoid_kind_iff hkind).mpr hk) (Nat.le_refl _)

/-- The second parser reads a type that is not `void`. -/
lemma typeName_bind {f : Ty → Parser α} {g : Ty → Parser β}
    (h : ∀ ty ty' k rest, k.kind.toTy? = some ty' → ty' ≠ .void → rest.length ≤ ts.length - 1 →
      Tracks eof rest False (m - 1) (f ty) (g ty') fun vs => L (k :: vs)) :
    Tracks eof ts False m (typeName context >>= f) (typeName context' >>= g) L := by
  have hsome := Token.withoutVoid_kind (fun kind => kind.toTy?.isSome) rfl (current ⟨ts, eof⟩)
  rw [typeName_bind_eq, typeName_bind_eq]
  refine peek_bind ?_
  cases hty : (current ⟨ts, eof⟩).kind.toTy? with
  | none =>
    have hty' : (current ⟨ts, eof⟩).withoutVoid.kind.toTy? = none := by simpa [hty] using hsome
    rw [hty']
    refine Tracks.unexpected id ?_ _ _
    obtain ⟨more, hmore⟩ := (h .i32 .i32 ⟨.keyword .int, "", .start⟩ [] rfl (by simp)
      (Nat.zero_le _)).exists_phrase
    exact ⟨⟨.keyword .int, "", .start⟩ :: more, hmore⟩
  | some ty =>
    obtain ⟨ty', hty', hne⟩ := Token.exists_toTy?_withoutVoid (Option.isSome_of_eq_some hty)
    rw [hty']
    refine advance_bind heof (fun hk => by simp [hk, TokenKind.toTy?] at hty) ?_
    rintro - - k rest rfl
    exact h ty ty' _ rest hty' hne (Nat.le_refl _)

/-- The first parser may fail since its variable would be `void`. -/
lemma variableName_bind {ty ty' : Ty} {f : String → Parser α} {g : String → Parser β}
    (hty' : ty' ≠ .void)
    (h : ∀ a b k rest, k.kind = .identifier → rest.length ≤ ts.length - 1 →
      Tracks eof rest False (m - 1) (f a) (g b) fun vs => L (k :: vs)) :
    Tracks eof ts False m (variableName ty context >>= f) (variableName ty' context' >>= g) L := by
  rw [variableName_bind_eq, variableName_bind_eq]
  refine expect_bind heof rfl (by simp) fun a b k rest hk hrest => ?_
  have hvoid : ty'.isVoid = false := by cases ty' <;> simp_all [Ty.isVoid]
  have hnext := h a.lexeme b.lexeme k rest hk hrest
  cases ty.isVoid with
  | true => exact of_error hnext.exists_phrase rfl id
  | false => simpa [hvoid] using hnext

variable {item : List Token → γ → Prop}

/-- If one of the streams has no token left, the second parser is at the end of a file. -/
lemma congr_of_end {y' : Parser β} (h : Tracks eof ts c m x y L) (hend : ts = [] ∨ m = 0)
    (hy : ∀ {t b t'}, t.eof.kind = .endOfFile → t.current.kind = .endOfFile → y' t = .ok b t' →
      y t = .ok b t') :
    Tracks eof ts c m x y' L := by
  refine h.congr rfl ?_
  rintro used rest t b t' hts - ht hrun
  refine hy ht.eof_kind ?_ hrun
  rcases hend with rfl | rfl
  · rw [ht.current, ← hts, Token.withoutVoid_kind_iff rfl]
    exact heof
  · have hpending := List.length_eq_zero_iff.mp (Nat.le_zero.mp ht.length_le)
    rw [TokenStream.current, hpending]
    exact ht.eof_kind

/-- Items with commas between them, with fuel for all tokens of both streams. -/
lemma commaSeparatedFrom {n k : Nat} [Nonempty α] [Nonempty β]
    (hitem : ∀ rest, rest.length ≤ n → Tracks eof rest False m x y (Phrase item))
    (hn : ts.length ≤ n) (hk : k ≤ m) :
    Tracks eof ts False k (commaSeparatedFrom x n) (commaSeparatedFrom y k)
      (Phrase (CommaSeparated item)) := by
  induction n generalizing ts k with
  | zero =>
    rw [commaSeparatedFrom_eq, commaSeparatedFrom_eq]
    refine ((hitem ts hn).mono id hk).bind fun a b us rest ⟨v, hv⟩ hrest => ?_
    have hphrase : Phrase (CommaSeparated item) (us ++ []) :=
      ⟨[v], by simpa using CommaSeparated.single hv⟩
    have hempty : rest = [] := List.length_eq_zero_iff.mp (by omega)
    exact (Tracks.pure id hphrase [a] [b]).congr_of_end heof (Or.inl hempty)
      fun _ hend hrun => (moreItems_of_end hend).symm.trans hrun
  | succ n ih =>
    rw [commaSeparatedFrom_eq, commaSeparatedFrom_eq]
    refine ((hitem ts hn).mono id hk).bind fun a b us rest ⟨v, hv⟩ hrest => ?_
    have hmore : Tracks eof rest False (k - us.length) (moreItems x (n + 1) a)
        (moreItems y (k - 1 + 1) b) fun vs => Phrase (CommaSeparated item) (us ++ vs) := by
      refine accept_bind heof rfl (by simp) (fun comma rest' hcomma hrest' => ?_) fun _ => ?_
      · have hitems : Tracks eof rest' False (k - 1) (Parser.commaSeparatedFrom x n)
            (Parser.commaSeparatedFrom y (k - 1)) (Phrase (CommaSeparated item)) :=
          ih (fun rest h => hitem rest (by omega)) (by omega) (by omega)
        refine (hitems.mono id (by omega)).bind fun as bs ws rest ⟨vs, hvs⟩ _ => ?_
        exact Tracks.pure id ⟨v :: vs, by simpa using CommaSeparated.cons hv hcomma hvs⟩ _ _
      · exact Tracks.pure id ⟨[v], by simpa using CommaSeparated.single hv⟩ _ _
    cases k with
    | zero =>
      refine hmore.congr_of_end heof (Or.inr (Nat.zero_sub _)) fun _ hend hrun => ?_
      rw [moreItems_of_end hend] at hrun ⊢
      exact hrun
    | succ k => exact hmore

protected lemma commaSeparated [Nonempty α] [Nonempty β]
    (hitem : ∀ rest, rest.length ≤ ts.length → Tracks eof rest False m x y (Phrase item)) :
    Tracks eof ts False m (commaSeparated x) (commaSeparated y) (Phrase (CommaSeparated item)) :=
  remaining_bind fun _ hk => commaSeparatedFrom heof hitem (Nat.le_refl _) hk

lemma itemsUnless {stop : TokenKind} (hstop : stop.toTy? = none) [Nonempty α] [Nonempty β]
    (hitem : ∀ rest, rest.length ≤ ts.length → Tracks eof rest False m x y (Phrase item)) :
    Tracks eof ts False m (itemsUnless stop x) (itemsUnless stop y)
      (Phrase (Optional (CommaSeparated item))) := by
  refine peek_bind (ite (Token.withoutVoid_kind_iff hstop) (fun _ => ?_) fun _ => ?_)
  · exact Tracks.pure id ⟨none, .none⟩ [] []
  · exact (Tracks.commaSeparated heof hitem).imp fun us ⟨as, has⟩ => ⟨some as, .some has⟩

end

end Tracks

end Parser

end MiniC
