import MiniC.Compiler
import MiniC.Proofs.ProgramGrammar

/-!
# Parsing first, lowering afterwards

The compiler lowers each definition as soon as it is parsed. `Parses` says what parsing definition
after definition gives on its own: the definitions in front of the end of the file or of the first
error. Lowering all of these in order, and only then reporting the error of the parser, has the same
outcome as compiling.
-/

namespace MiniC

/-- A step goes on from the state in which the step before it succeeded. -/
lemma bind_run {ε σ α β : Type} (x : EStateM ε σ α) (f : α → EStateM ε σ β) (s : σ) :
    (x >>= f) s = match x s with
      | .ok a s' => f a s'
      | .error e s' => .error e s' := by
  change EStateM.bind x f s = _
  rw [EStateM.bind]
  cases x s <;> rfl

namespace Parser

/-- Whether parsing definition after definition gives `ds` and then stops, with an error or at the
end of the file. -/
inductive Parses : TokenStream → List Definition → Option ParseError → Prop where
  | done {s : TokenStream} (hend : s.atEnd = true) : Parses s [] none
  | failed {s s' : TokenStream} {e : ParseError} (hend : s.atEnd = false)
      (he : definition s = .error e s') : Parses s [] (some e)
  | next {s s' : TokenStream} {d : Definition} {ds : List Definition} {stop : Option ParseError}
      (hend : s.atEnd = false) (hd : definition s = .ok d s') (hrest : Parses s' ds stop) :
      Parses s (d :: ds) stop

variable {s s' : TokenStream} {d : Definition} {ds : List Definition} {stop : Option ParseError}

lemma Parses.unique {ds' : List Definition} {stop' : Option ParseError} (h : Parses s ds stop)
    (h' : Parses s ds' stop') : ds = ds' ∧ stop = stop' := by
  induction h generalizing ds' with
  | done hend =>
    cases h' with
    | done => exact ⟨rfl, rfl⟩
    | failed hend' => simp [hend] at hend'
    | next hend' => simp [hend] at hend'
  | failed hend he =>
    cases h' with
    | done hend' => simp [hend] at hend'
    | failed _ he' =>
      cases he.symm.trans he'
      exact ⟨rfl, rfl⟩
    | next _ hd' => cases he.symm.trans hd'
  | next hend hd _ ih =>
    cases h' with
    | done hend' => simp [hend] at hend'
    | failed _ he' => cases hd.symm.trans he'
    | next _ hd' hrest' =>
      cases hd.symm.trans hd'
      obtain ⟨rfl, rfl⟩ := ih hrest'
      exact ⟨rfl, rfl⟩

/-- A definition takes a token, and leaves the end of the file where it is. -/
lemma definition_progress (heof : s.eof.kind = .endOfFile) (h : definition s = .ok d s') :
    s'.eof = s.eof ∧ s'.pending.length < s.pending.length := by
  have hreads : Reads s.eof definition (Grammar.Defines true) := definition_reads heof
  obtain ⟨used, rest, hts, rfl, hd⟩ := hreads _ _ _ h
  obtain ⟨t, used, rfl⟩ := hd.first
  have hlength := congrArg List.length hts
  simp only [List.length_append, List.length_cons] at hlength
  exact ⟨rfl, by simp only; omega⟩

/-- Parsing comes to an end. -/
lemma exists_parses (heof : s.eof.kind = .endOfFile) : ∃ ds stop, Parses s ds stop := by
  induction hn : s.pending.length using Nat.strong_induction_on generalizing s with
  | _ n ih =>
    cases hend : s.atEnd with
    | true => exact ⟨[], none, .done hend⟩
    | false =>
      cases hrun : definition s with
      | error e s' => exact ⟨[], some e, .failed hend hrun⟩
      | ok d s' =>
        obtain ⟨heof', hless⟩ := definition_progress heof hrun
        obtain ⟨ds, stop, hrest⟩ := ih _ (hn ▸ hless) (heof' ▸ heof) rfl
        exact ⟨d :: ds, stop, .next hend hrun hrest⟩

/-- In front of a token, fuel for all tokens is not used up. -/
lemma exists_succ {n : Nat} (hend : s.atEnd = false) (hn : s.pending.length ≤ n) :
    ∃ m, n = m + 1 := by
  have hne : s.pending ≠ [] := by simpa [TokenStream.atEnd] using hend
  have hpos := List.length_pos_iff.mpr hne
  exact ⟨n - 1, by omega⟩

/-- With fuel for all tokens, the definitions of a whole program are those that parsing gives. -/
lemma Parses.definitionsFrom {n : Nat} (h : Parses s ds stop) (heof : s.eof.kind = .endOfFile)
    (hn : s.pending.length ≤ n) : ∃ s', definitionsFrom n s = match stop with
      | none => .ok ds s'
      | some e => .error e s' := by
  induction h generalizing n with
  | @done s hend =>
    have hempty : s.pending.isEmpty = true := hend
    refine ⟨s, ?_⟩
    cases n with
    | zero => rfl
    | succ n =>
      rw [Parser.definitionsFrom, atEnd_bind, if_pos hempty]
      rfl
  | @failed s s' e hend he =>
    have hmore : ¬s.pending.isEmpty = true := Bool.eq_false_iff.mp hend
    obtain ⟨n, rfl⟩ := exists_succ hend hn
    refine ⟨s', ?_⟩
    rw [Parser.definitionsFrom, atEnd_bind, if_neg hmore, bind_run, he]
  | @next s s' d ds stop hend hd _ ih =>
    have hmore : ¬s.pending.isEmpty = true := Bool.eq_false_iff.mp hend
    obtain ⟨n, rfl⟩ := exists_succ hend hn
    obtain ⟨heof', hless⟩ := definition_progress heof hd
    obtain ⟨s'', hrest⟩ := ih (n := n) (heof' ▸ heof) (by omega)
    refine ⟨s'', ?_⟩
    rw [Parser.definitionsFrom, atEnd_bind, if_neg hmore, bind_run, hd]
    simp only [bind_run, hrest]
    cases stop <;> rfl

end Parser

/-- What a run gives and leaves behind, without its log. -/
def Run.outcome {α : Type} (r : Run α) : EStateM.Result CompileError Compiler α :=
  match r.result with
  | .ok a => .ok a r.compiler
  | .error e => .error e r.compiler

namespace Compiler

/-- Lowers a definition. The compiler goes on from here also if this fails. -/
def lowering (d : Definition) : EStateM CompileError Compiler Segment :=
  fun c => (c.lowerDefinition d).outcome

/-- Lowers definitions in order up to the first that fails. If all are lowered, what stopped the
parser behind them is the error. -/
def staged (ds : List Definition) (stop : Option ParseError) :
    EStateM CompileError Compiler (List Segment) := do
  let segs ← ds.mapM lowering
  match stop with
  | none => return segs
  | some e => throw (.parse e)

lemma staged_cons (d : Definition) (ds : List Definition) (stop : Option ParseError) :
    staged (d :: ds) stop = do
      let seg ← lowering d
      let segs ← staged ds stop
      return seg :: segs := by
  rw [staged, staged, List.mapM_cons]
  cases stop with
  | none => simp
  | some e =>
    simp only [bind_assoc, pure_bind]
    rfl

variable {s : TokenStream} {ds : List Definition} {stop : Option ParseError}

/-- With fuel for all tokens, lowering each definition as soon as it is parsed has the same outcome
as lowering all of them afterwards. -/
lemma compileFrom_outcome {n : Nat} (h : Parser.Parses s ds stop) (heof : s.eof.kind = .endOfFile)
    (hn : s.pending.length ≤ n) (c : Compiler) :
    (compileFrom n c s).outcome = staged ds stop c := by
  induction h generalizing n c with
  | @done s hend =>
    cases n with
    | zero => rfl
    | succ n =>
      rw [compileFrom, if_pos hend]
      rfl
  | @failed s s' e hend he =>
    obtain ⟨n, rfl⟩ := Parser.exists_succ hend hn
    rw [compileFrom, if_neg (Bool.eq_false_iff.mp hend), he]
    rfl
  | @next s s' d ds stop hend hd _ ih =>
    obtain ⟨n, rfl⟩ := Parser.exists_succ hend hn
    obtain ⟨heof', hless⟩ := Parser.definition_progress heof hd
    have hmore := ih (heof' ▸ heof) (n := n) (by omega) (c.lowerDefinition d).compiler
    have hfirst : lowering d c = (c.lowerDefinition d).outcome := rfl
    rw [compileFrom, if_neg (Bool.eq_false_iff.mp hend), hd, staged_cons, bind_run, hfirst]
    cases hresult : (c.lowerDefinition d).result with
    | error e => simp only [Run.outcome, hresult]
    | ok seg =>
      simp only [Run.outcome, hresult, bind_run, ← hmore]
      cases (compileFrom n (c.lowerDefinition d).compiler s').result <;> rfl

lemma outcome_ok {α : Type} {r : Run α} {a : α} {c : Compiler} :
    r.outcome = .ok a c ↔ r.result = .ok a ∧ r.compiler = c := by
  rw [Run.outcome]
  cases r.result <;> simp

lemma outcome_error {α : Type} {r : Run α} {e : CompileError} {c : Compiler} :
    r.outcome = .error e c ↔ r.result = .error e ∧ r.compiler = c := by
  rw [Run.outcome]
  cases r.result <;> simp

/-- What stopped the parser counts once all definitions are lowered. -/
lemma staged_run (ds : List Definition) (stop : Option ParseError) (c : Compiler) :
    staged ds stop c = match ds.mapM lowering c with
      | .ok segs c' => stop.elim (.ok segs c') fun e => .error (.parse e) c'
      | .error e c' => .error e c' := by
  rw [staged, bind_run]
  cases ds.mapM lowering c <;> cases stop <;> rfl

lemma staged_ok {c c' : Compiler} {segs : List Segment} :
    staged ds stop c = .ok segs c' ↔ stop = none ∧ ds.mapM lowering c = .ok segs c' := by
  rw [staged_run]
  cases ds.mapM lowering c <;> cases stop <;> simp

lemma mapM_lowering_forall {I : FunctionTable → Prop} {P : Segment → Prop} {c c' : Compiler}
    {segs : List Segment} (hc : I c.functions)
    (hstep : ∀ d ∈ ds, ∀ (c : Compiler) (seg), I c.functions →
      (c.lowerDefinition d).result = .ok seg →
        P seg ∧ I (c.lowerDefinition d).compiler.functions)
    (h : ds.mapM lowering c = .ok segs c') : ∀ seg ∈ segs, P seg := by
  induction ds generalizing c segs with
  | nil =>
    cases h
    simp
  | cons d ds ih =>
    rw [List.mapM_cons, bind_run] at h
    cases hfirst : lowering d c with
    | error e t => simp [hfirst] at h
    | ok seg t =>
      obtain ⟨hresult, rfl⟩ := outcome_ok.mp hfirst
      obtain ⟨hseg, ht⟩ := hstep d List.mem_cons_self c seg hc hresult
      simp only [hfirst, bind_run] at h
      cases hmore : ds.mapM lowering (c.lowerDefinition d).compiler with
      | error e t' => simp [hmore] at h
      | ok more t' =>
        simp only [hmore] at h
        cases h
        exact List.forall_mem_cons.mpr
          ⟨hseg, ih ht (fun x hx => hstep x (List.mem_cons_of_mem d hx)) hmore⟩

end Compiler

lemma eof_ofText (source : String) : (TokenStream.ofText source).eof.kind = .endOfFile :=
  (scans_tokenize source).getLast

/-- Compiling a source has the outcome of parsing it first and lowering it afterwards. -/
lemma Compiler.compile_outcome {source : String} {ds : List Definition} {stop : Option ParseError}
    (h : Parser.Parses (.ofText source) ds stop) (c : Compiler) :
    (c.compile source).outcome = staged ds stop c := by
  rw [← compileFrom_outcome h (eof_ofText source) (Nat.le_refl _) c, compile, Run.outcome,
    Run.outcome]

/-- A source is parsed if parsing definition after definition comes to the end of the file. -/
lemma parseSource_eq {source : String} {ds : List Definition} {stop : Option ParseError}
    (h : Parser.Parses (.ofText source) ds stop) :
    parseSource source = stop.elim (.ok ds) .error := by
  obtain ⟨s', hrun⟩ := h.definitionsFrom (eof_ofText source) (Nat.le_refl _)
  rw [parseSource, Parser.translationUnit, Parser.remaining_bind, hrun]
  cases stop <;> rfl

/-- What lowering keeps true of the functions, and makes true of the code of a definition, is true of
all code of a source text. -/
lemma compileSource_forall {I : FunctionTable → Prop} {P : Segment → Prop} {options : Options}
    {source : String} {segs : List Segment} (h : compileSource options source = .ok segs)
    (hstart : I {}) (hstep : ∀ ds, parseSource source = .ok ds → ∀ d ∈ ds, ∀ (c : Compiler) (seg),
      I c.functions → (c.lowerDefinition d).result = .ok seg →
        P seg ∧ I (c.lowerDefinition d).compiler.functions) : ∀ seg ∈ segs, P seg := by
  obtain ⟨ds, stop, hparses⟩ := Parser.exists_parses (eof_ofText source)
  have houtcome := Compiler.compile_outcome hparses { options }
  rw [Compiler.outcome_ok.mpr ⟨h, rfl⟩, eq_comm, Compiler.staged_ok] at houtcome
  obtain ⟨rfl, hlowered⟩ := houtcome
  exact Compiler.mapM_lowering_forall hstart (hstep ds (parseSource_eq hparses)) hlowered

/-- Compiling a source text, each definition as soon as it is parsed, is the same as parsing it and
then lowering the definitions that were parsed, in order, where an error of the parser counts only
if all of these were lowered. In particular a source has code if and only if it can be parsed and
all its definitions can be lowered in order, starting without any functions. -/
theorem Compiler.compile_staged (c : Compiler) (source : String) :
    (∃ ds stop, Parser.Parses (.ofText source) ds stop ∧
      (c.compile source).outcome = staged ds stop c) ∧
    ∀ options segs, compileSource options source = .ok segs ↔
      ∃ ds c', parseSource source = .ok ds ∧
        ds.mapM lowering ({ options } : Compiler) = .ok segs c' := by
  obtain ⟨ds, stop, hparses⟩ := Parser.exists_parses (eof_ofText source)
  refine ⟨⟨ds, stop, hparses, compile_outcome hparses c⟩, fun options segs => ?_⟩
  have houtcome := compile_outcome hparses { options }
  have hresult : compileSource options source = .ok segs ↔
      ∃ c', staged ds stop ({ options } : Compiler) = .ok segs c' := by
    simp only [← houtcome, outcome_ok, exists_and_left, exists_eq', and_true]
    rfl
  rw [hresult, parseSource_eq hparses]
  simp only [staged_ok]
  cases stop with
  | none => simp
  | some e => simp

-- The first definition is refused before the parser comes to the error in the second one.
example : compileSource {} "void f() \x7b g(); \x7d int h(" =
    .error (.scope (.undeclaredFunction "g")) := by
  decide +kernel

end MiniC
