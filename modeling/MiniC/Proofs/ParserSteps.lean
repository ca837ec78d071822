import MiniC.Definition.Parser
import MiniC.Proofs.Grammar

/-!
# Steps of parsers

What a step of a parser takes and gives where it succeeds, on streams that end with the end of the
file. `Reads` says that a parser takes nothing but phrases of a grammar, and `Accepts` that it takes
the phrases of a grammar, up to a length, if a token that may follow stands behind them.
-/

namespace MiniC

namespace TokenStream

variable {t u eof : Token} {ts : List Token}

@[simp] lemma current_cons : current ⟨t :: ts, eof⟩ = t := rfl

@[simp] lemma current_nil : current ⟨[], eof⟩ = eof := rfl

@[simp] lemma next_cons : next ⟨t :: ts, eof⟩ = current ⟨ts, eof⟩ := rfl

@[simp] lemma advance_cons : advance ⟨t :: ts, eof⟩ = ⟨ts, eof⟩ := rfl

/-- A token that is not the end of the file is one of the pending tokens. -/
lemma exists_cons (heof : eof.kind = .endOfFile) {kind : TokenKind}
    (h : (current ⟨ts, eof⟩).kind = kind) (hkind : kind ≠ .endOfFile) :
    ∃ t rest, ts = t :: rest := by
  cases ts with
  | nil => exact absurd (h.symm.trans heof) hkind
  | cons t rest => exact ⟨t, rest, rfl⟩

end TokenStream

namespace Parser

open Grammar TokenStream

variable {α β : Type}

section

variable {s s' : TokenStream}

lemma pure_ok {a b : α} : (pure a : Parser α) s = .ok b s' ↔ a = b ∧ s = s' := by
  change EStateM.Result.ok a s = .ok b s' ↔ _
  simp

lemma throw_ok {e : ParseError} {b : α} : (throw e : Parser α) s = .ok b s' ↔ False := by
  change EStateM.Result.error e s = .ok b s' ↔ _
  simp

lemma bind_ok {x : Parser α} {f : α → Parser β} {b : β} :
    (x >>= f) s = .ok b s' ↔ ∃ a t, x s = .ok a t ∧ f a t = .ok b s' := by
  change EStateM.bind x f s = .ok b s' ↔ _
  rw [EStateM.bind]
  cases x s <;> simp

lemma ite_ok {p : Prop} [Decidable p] {x y : Parser α} {a : α} :
    (if p then x else y) s = .ok a s' ↔ p ∧ x s = .ok a s' ∨ ¬p ∧ y s = .ok a s' := by
  by_cases hp : p <;> simp [hp]

lemma peek_bind (f : Token → Parser α) : (peek >>= f) s = f s.current s := rfl

lemma peekNext_bind (f : Token → Parser α) : (peekNext >>= f) s = f s.next s := rfl

lemma advance_bind (f : Token → Parser α) : (advance >>= f) s = f s.current s.advance := rfl

lemma remaining_bind (f : Nat → Parser α) : (remaining >>= f) s = f s.pending.length s := rfl

lemma atEnd_bind (f : Bool → Parser α) : (atEnd >>= f) s = f s.pending.isEmpty s := rfl

lemma unexpected_ok {expected : String} {a : α} : unexpected expected s = .ok a s' ↔ False := by
  rw [unexpected, peek_bind, ite_ok, throw_ok, throw_ok]
  simp

end

section

variable {eof : Token} (heof : eof.kind = .endOfFile) {ts : List Token} {s' : TokenStream}

include heof

lemma expect_ok {kind : TokenKind} (hkind : kind ≠ .endOfFile) {context : String} {t : Token} :
    expect kind context ⟨ts, eof⟩ = .ok t s' ↔
      ∃ rest, ts = t :: rest ∧ t.kind = kind ∧ ⟨rest, eof⟩ = s' := by
  rw [expect, peek_bind, ite_ok, unexpected_ok]
  constructor
  · rintro (⟨hcurrent, htaken⟩ | ⟨-, hfalse⟩)
    · obtain ⟨u, rest, rfl⟩ := exists_cons heof hcurrent hkind
      cases htaken
      exact ⟨rest, rfl, hcurrent, rfl⟩
    · exact hfalse.elim
  · rintro ⟨rest, rfl, ht, rfl⟩
    exact Or.inl ⟨ht, rfl⟩

lemma accept_ok {kind : TokenKind} (hkind : kind ≠ .endOfFile) {b : Bool} :
    accept kind ⟨ts, eof⟩ = .ok b s' ↔
      (∃ t rest, ts = t :: rest ∧ t.kind = kind ∧ true = b ∧ ⟨rest, eof⟩ = s') ∨
        (current ⟨ts, eof⟩).kind ≠ kind ∧ false = b ∧ ⟨ts, eof⟩ = s' := by
  rw [accept, peek_bind, ite_ok, advance_bind, pure_ok, pure_ok]
  constructor
  · rintro (⟨hcurrent, rfl, rfl⟩ | hother)
    · obtain ⟨u, rest, rfl⟩ := exists_cons heof hcurrent hkind
      exact Or.inl ⟨u, rest, rfl, hcurrent, rfl, rfl⟩
    · exact Or.inr hother
  · rintro (⟨t, rest, rfl, ht, rfl, rfl⟩ | hother)
    · exact Or.inl ⟨ht, rfl, rfl⟩
    · exact Or.inr hother

lemma typeName_ok {context : String} {ty : Ty} :
    typeName context ⟨ts, eof⟩ = .ok ty s' ↔
      ∃ t rest, ts = t :: rest ∧ t.kind.toTy? = some ty ∧ ⟨rest, eof⟩ = s' := by
  rw [typeName, peek_bind]
  cases hty : (current ⟨ts, eof⟩).kind.toTy? with
  | none =>
    rw [unexpected_ok, false_iff]
    rintro ⟨t, rest, rfl, ht, -⟩
    cases ht.symm.trans hty
  | some ty' =>
    have hcurrent : (current ⟨ts, eof⟩).kind ≠ .endOfFile := by
      intro h
      rw [h] at hty
      cases hty
    obtain ⟨u, rest, rfl⟩ := exists_cons heof rfl hcurrent
    simp only [advance_bind, pure_ok, advance_cons, List.cons.injEq]
    constructor
    · rintro ⟨rfl, rfl⟩
      exact ⟨u, rest, ⟨rfl, rfl⟩, hty, rfl⟩
    · rintro ⟨_, _, ⟨rfl, rfl⟩, ht, rfl⟩
      exact ⟨Option.some.inj (hty.symm.trans ht), rfl⟩

lemma variableName_ok {ty : Ty} {context name : String} :
    variableName ty context ⟨ts, eof⟩ = .ok name s' ↔
      ∃ t rest, ts = t :: rest ∧ t.kind = .identifier ∧ ty ≠ .void ∧ t.lexeme = name ∧
        ⟨rest, eof⟩ = s' := by
  have hvoid : ty.isVoid = true ↔ ty = .void := by cases ty <;> simp [Ty.isVoid]
  have hkind : TokenKind.identifier ≠ .endOfFile := by simp
  simp only [variableName, bind_ok, expect_ok heof hkind, ite_ok, throw_ok, pure_ok, and_false,
    false_or, hvoid]
  constructor
  · rintro ⟨t, _, ⟨rest, rfl, ht, rfl⟩, hty, rfl, rfl⟩
    exact ⟨t, rest, rfl, ht, hty, rfl, rfl⟩
  · rintro ⟨t, rest, rfl, ht, hty, rfl, rfl⟩
    exact ⟨t, _, ⟨rest, rfl, ht, rfl⟩, hty, rfl, rfl⟩

end

section

variable {eof t : Token} {rest : List Token} {kind : TokenKind}

lemma expect_of_kind (h : t.kind = kind) (context : String) :
    expect kind context ⟨t :: rest, eof⟩ = .ok t ⟨rest, eof⟩ := by
  rw [expect, peek_bind, ite_ok]
  exact Or.inl ⟨h, rfl⟩

lemma accept_of_kind (h : t.kind = kind) :
    accept kind ⟨t :: rest, eof⟩ = .ok true ⟨rest, eof⟩ := by
  rw [accept, peek_bind, ite_ok]
  exact Or.inl ⟨h, rfl⟩

lemma accept_of_ne (h : (current ⟨rest, eof⟩).kind ≠ kind) :
    accept kind ⟨rest, eof⟩ = .ok false ⟨rest, eof⟩ := by
  rw [accept, peek_bind, ite_ok]
  exact Or.inr ⟨h, rfl⟩

lemma typeName_of_kind {ty : Ty} (h : t.kind.toTy? = some ty) (context : String) :
    typeName context ⟨t :: rest, eof⟩ = .ok ty ⟨rest, eof⟩ := by
  rw [typeName, peek_bind, current_cons, h]
  rfl

lemma variableName_of_kind {ty : Ty} (hty : ty ≠ .void) (h : t.kind = .identifier)
    (context : String) : variableName ty context ⟨t :: rest, eof⟩ = .ok t.lexeme ⟨rest, eof⟩ := by
  refine bind_ok.mpr ⟨t, _, expect_of_kind h context, ite_ok.mpr (Or.inr ⟨?_, rfl⟩)⟩
  cases ty <;> simp_all [Ty.isVoid]

end

/-- Whether a parser takes only phrases of a grammar, together with what they stand for. -/
def Reads (eof : Token) (p : Parser α) (phrase : List Token → α → Prop) : Prop :=
  ∀ ts a s', p ⟨ts, eof⟩ = .ok a s' →
    ∃ used rest, ts = used ++ rest ∧ ⟨rest, eof⟩ = s' ∧ phrase used a

/-- Whether a parser takes the phrases of at most `n` tokens in front of a token that may follow. -/
def Accepts (eof : Token) (p : Parser α) (phrase : List Token → α → Prop)
    (follows : TokenKind → Prop) (n : Nat) : Prop :=
  ∀ ts a rest, phrase ts a → ts.length ≤ n → follows (current ⟨rest, eof⟩).kind →
    p ⟨ts ++ rest, eof⟩ = .ok a ⟨rest, eof⟩

variable {eof : Token} {p item : Parser α} {phrase : List Token → α → Prop}
  {follows : TokenKind → Prop} {n : Nat}

lemma commaSeparated_reads (heof : eof.kind = .endOfFile) (hitem : Reads eof item phrase) :
    Reads eof (commaSeparated item) (CommaSeparated phrase) := by
  have hfrom : ∀ n, Reads eof (commaSeparatedFrom item n) (CommaSeparated phrase) := by
    intro n
    induction n with
    | zero =>
      intro ts as s' h
      simp only [commaSeparatedFrom, bind_ok, pure_ok] at h
      obtain ⟨a, s, h, rfl, rfl⟩ := h
      obtain ⟨used, rest, hts, hs, ha⟩ := hitem ts a s h
      exact ⟨used, rest, hts, hs, .single ha⟩
    | succ n ih =>
      intro ts as s' h
      simp only [commaSeparatedFrom, bind_ok, ite_ok, pure_ok] at h
      obtain ⟨a, s, hitemRun, b, s₁, haccept, h⟩ := h
      obtain ⟨used, rest, rfl, rfl, ha⟩ := hitem ts a s hitemRun
      rcases (accept_ok heof (by simp)).mp haccept with
        ⟨comma, rest, rfl, hcomma, rfl, rfl⟩ | ⟨-, rfl, rfl⟩
      · rcases h with ⟨-, as', s₂, hmore, rfl, rfl⟩ | ⟨hfalse, -⟩
        · obtain ⟨used', rest', rfl, rfl, has⟩ := ih rest as' s₂ hmore
          exact ⟨used ++ comma :: used', rest', by simp, rfl, .cons ha hcomma has⟩
        · exact absurd rfl hfalse
      · rcases h with ⟨htrue, -⟩ | ⟨-, rfl, rfl⟩
        · cases htrue
        · exact ⟨used, rest, rfl, rfl, .single ha⟩
  intro ts as s' h
  rw [commaSeparated, remaining_bind] at h
  exact hfrom _ ts as s' h

lemma commaSeparatedFrom_accepts (hitem : Accepts eof item phrase follows n)
    (hcomma : follows (.symbol .comma)) {ts rest : List Token} {as : List α}
    (h : CommaSeparated phrase ts as) (hlength : ts.length ≤ n)
    (hfollows : follows (current ⟨rest, eof⟩).kind)
    (hend : (current ⟨rest, eof⟩).kind ≠ .symbol .comma) {m : Nat} (hm : ts.length ≤ m) :
    commaSeparatedFrom item m ⟨ts ++ rest, eof⟩ = .ok as ⟨rest, eof⟩ := by
  induction h generalizing m with
  | @single ts a ha =>
    have hrun := hitem ts a rest ha hlength hfollows
    cases m with
    | zero => exact bind_ok.mpr ⟨a, _, hrun, rfl⟩
    | succ m => exact bind_ok.mpr ⟨a, _, hrun, bind_ok.mpr ⟨false, _, accept_of_ne hend, rfl⟩⟩
  | @cons ts us comma a as ha hc _ ih =>
    simp only [List.length_append, List.length_cons] at hlength hm
    obtain ⟨m, rfl⟩ : ∃ k, m = k + 1 := ⟨m - 1, by omega⟩
    have hrun := hitem ts a (comma :: us ++ rest) ha (by omega) (by simpa [hc] using hcomma)
    have hmore := ih (by omega) (m := m) (by omega)
    rw [List.append_assoc]
    refine bind_ok.mpr ⟨a, _, hrun, bind_ok.mpr ⟨true, _, accept_of_kind hc, ?_⟩⟩
    exact bind_ok.mpr ⟨as, _, hmore, rfl⟩

lemma commaSeparated_accepts (hitem : Accepts eof item phrase follows n)
    (hcomma : follows (.symbol .comma)) :
    Accepts eof (commaSeparated item) (CommaSeparated phrase)
      (fun kind => follows kind ∧ kind ≠ .symbol .comma) n := by
  intro ts as rest h hlength hfollows
  rw [commaSeparated, remaining_bind]
  exact commaSeparatedFrom_accepts hitem hcomma h hlength hfollows.1 hfollows.2 (by simp)

/-- Items with commas between them, or none in front of `stop`. -/
def itemsUnless (stop : TokenKind) (item : Parser α) : Parser (List α) := do
  if (← peek).kind = stop then pure [] else commaSeparated item

lemma itemsUnless_bind (stop : TokenKind) (item : Parser α) (f : List α → Parser β) :
    itemsUnless stop item >>= f = peek >>= fun t =>
      if t.kind = stop then pure [] >>= f else commaSeparated item >>= f := by
  rw [itemsUnless, bind_assoc]
  congr 1
  funext t
  split <;> rfl

lemma itemsUnless_reads (heof : eof.kind = .endOfFile) (hitem : Reads eof item phrase)
    (stop : TokenKind) : Reads eof (itemsUnless stop item) fun ts as =>
      ∃ items, Optional (CommaSeparated phrase) ts items ∧ items.getD [] = as := by
  intro ts as s' h
  rw [itemsUnless, peek_bind, ite_ok, pure_ok] at h
  rcases h with ⟨-, rfl, rfl⟩ | ⟨-, h⟩
  · exact ⟨[], ts, rfl, rfl, none, .none, rfl⟩
  · obtain ⟨used, rest, hts, hs, has⟩ := commaSeparated_reads heof hitem ts as s' h
    exact ⟨used, rest, hts, hs, some as, .some has, rfl⟩

lemma itemsUnless_accepts (hitem : Accepts eof item phrase follows n)
    (hcomma : follows (.symbol .comma)) {stop : TokenKind}
    (hstop : follows stop ∧ stop ≠ .symbol .comma)
    (hfirst : ∀ ts a rest, phrase ts a → (current ⟨ts ++ rest, eof⟩).kind ≠ stop)
    {ts rest : List Token} {items : Option (List α)}
    (h : Optional (CommaSeparated phrase) ts items) (hlength : ts.length ≤ n)
    (hrest : (current ⟨rest, eof⟩).kind = stop) :
    itemsUnless stop item ⟨ts ++ rest, eof⟩ = .ok (items.getD []) ⟨rest, eof⟩ := by
  rw [itemsUnless, peek_bind, ite_ok]
  cases h with
  | none => exact Or.inl ⟨hrest, rfl⟩
  | @some _ as h =>
    refine Or.inr ⟨?_, ?_⟩
    · cases h with
      | single ha => exact hfirst _ _ _ ha
      | cons ha _ _ =>
        rw [List.append_assoc]
        exact hfirst _ _ _ ha
    · exact commaSeparated_accepts hitem hcomma ts as rest h hlength (hrest ▸ hstop)

end Parser

end MiniC
