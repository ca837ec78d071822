import Mathlib.Data.Finset.Card
import MiniC.Proofs.Callees
import MiniC.Proofs.Staging

/-!
# What a compiler remembers

A compiler gets definitions to lower, one at a time or as the text of a source, and any of them may
fail. Its table of functions depends only on the definitions that were handed over for lowering, in
order: every name has the signature of the first definition with that name. So the history of the
compiler is a list of definitions, and each request adds some to its end.
-/

namespace MiniC

namespace Parser

/-- The definitions in front of the end of the file or of the first error; `n` bounds their
number. -/
def parsedFrom : (n : Nat) → TokenStream → List Definition
  | 0, _ => []
  | n + 1, s =>
    if s.atEnd then []
    else
      match definition s with
      | .error _ _ => []
      | .ok d s' => d :: parsedFrom n s'

lemma Parses.parsedFrom_eq {s : TokenStream} {ds : List Definition} {stop : Option ParseError}
    {n : Nat} (h : Parses s ds stop) (heof : s.eof.kind = .endOfFile) (hn : s.pending.length ≤ n) :
    parsedFrom n s = ds := by
  induction h generalizing n with
  | done hend =>
    cases n with
    | zero => rfl
    | succ n => rw [parsedFrom, if_pos hend]
  | failed hend he =>
    obtain ⟨n, rfl⟩ := exists_succ hend hn
    rw [parsedFrom, if_neg (Bool.eq_false_iff.mp hend), he]
  | next hend hd _ ih =>
    obtain ⟨n, rfl⟩ := exists_succ hend hn
    obtain ⟨heof', hless⟩ := definition_progress heof hd
    rw [parsedFrom, if_neg (Bool.eq_false_iff.mp hend), hd]
    exact congrArg _ (ih (heof' ▸ heof) (by omega))

end Parser

namespace Compiler

/-- The definitions of a source in front of the first error of the parser. -/
def parsed (source : String) : List Definition :=
  let s := TokenStream.ofText source
  Parser.parsedFrom s.pending.length s

/-- Those of the definitions that are handed over for lowering: the first that fails is the last
one. -/
def attempted (c : Compiler) : List Definition → List Definition
  | [] => []
  | d :: ds =>
    match (c.lowerDefinition d).result with
    | .error _ => [d]
    | .ok _ => d :: (c.lowerDefinition d).compiler.attempted ds

/-- What a compiler is asked to do. -/
inductive Request where
  | lower (d : Definition)
  | compile (source : String)

/-- The compiler after a request, whether it failed or not. -/
def answer (c : Compiler) : Request → Compiler
  | .lower d => (c.lowerDefinition d).compiler
  | .compile source => (c.compile source).compiler

/-- The definitions that are handed over for lowering in the course of a request. -/
def handed (c : Compiler) : Request → List Definition
  | .lower d => [d]
  | .compile source => c.attempted (parsed source)

/-- The compiler after requests, one after the other. -/
def answerAll (c : Compiler) (requests : List Request) : Compiler := requests.foldl answer c

/-- The definitions that are handed over in the course of requests. -/
def history : Compiler → List Request → List Definition
  | _, [] => []
  | c, request :: rest => c.handed request ++ history (c.answer request) rest

/-- The compiler after definitions, each of which may fail. -/
def lowerEach (c : Compiler) (ds : List Definition) : Compiler :=
  ds.foldl (fun c d => (c.lowerDefinition d).compiler) c

/-- The state that is left behind. -/
def stateAfter {ε σ α : Type} : EStateM.Result ε σ α → σ
  | .ok _ s | .error _ s => s

lemma stateAfter_outcome {α : Type} (r : Run α) : stateAfter r.outcome = r.compiler := by
  rw [Run.outcome]
  cases r.result <;> rfl

lemma stateAfter_staged (c : Compiler) (ds : List Definition) (stop : Option ParseError) :
    stateAfter (staged ds stop c) = c.lowerEach (c.attempted ds) := by
  induction ds generalizing c with
  | nil => cases stop <;> rfl
  | cons d ds ih =>
    have hfirst : lowering d c = (c.lowerDefinition d).outcome := rfl
    rw [staged_cons, bind_run, hfirst, attempted]
    cases hresult : (c.lowerDefinition d).result with
    | error e => simp only [Run.outcome, hresult, stateAfter, lowerEach, List.foldl]
    | ok seg =>
      have hrest := ih (c.lowerDefinition d).compiler
      simp only [Run.outcome, hresult, bind_run, lowerEach, List.foldl] at hrest ⊢
      rw [← hrest]
      cases staged ds stop (c.lowerDefinition d).compiler <;> rfl

/-- A request leaves the compiler as handing over its definitions one by one would. -/
lemma answer_eq (c : Compiler) (request : Request) :
    c.answer request = c.lowerEach (c.handed request) := by
  cases request with
  | lower d => rfl
  | compile source =>
    obtain ⟨ds, stop, hparses⟩ := Parser.exists_parses (eof_ofText source)
    have hparsed : parsed source = ds := hparses.parsedFrom_eq (eof_ofText source) (Nat.le_refl _)
    rw [answer, handed, hparsed, ← stateAfter_staged c ds stop, ← compile_outcome hparses c,
      stateAfter_outcome]

lemma answerAll_eq (c : Compiler) (requests : List Request) :
    c.answerAll requests = c.lowerEach (c.history requests) := by
  induction requests generalizing c with
  | nil => rfl
  | cons request rest ih =>
    rw [history, lowerEach, List.foldl_append, ← lowerEach, ← lowerEach, ← answer_eq, ← ih]
    rfl

end Compiler

namespace FunctionTable

/-- Whether the table is the one that the definitions leave, the oldest first: of those with one
name the first counts. -/
structure Records (f : FunctionTable) (ds : List Definition) : Prop where
  find : ∀ name, f.find? name = (ds.find? fun d => d.name == name).map Definition.signature
  size : f.size = (ds.map Definition.name).toFinset.card

namespace Records

variable {f : FunctionTable} {ds : List Definition}

lemma nil : Records {} [] := ⟨fun _ => rfl, rfl⟩

lemma isSome_find (h : Records f ds) (name : String) :
    (f.find? name).isSome = true ↔ name ∈ (ds.map Definition.name).toFinset := by
  rw [h.find, Option.isSome_map, List.find?_isSome]
  simp

/-- A name that is known already changes nothing. -/
lemma known (h : Records f ds) {d : Definition} (hd : (f.find? d.name).isSome = true) :
    Records f (ds ++ [d]) where
  find name := by
    rw [h.find, List.find?_append]
    cases hfirst : ds.find? fun d => d.name == name with
    | some first => rfl
    | none =>
      have hne : ¬d.name = name := by
        rintro rfl
        rw [h.find, hfirst] at hd
        cases hd
      simp [hne]
  size := by
    have hmem := (h.isSome_find d.name).mp hd
    rw [h.size, List.map_append, List.toFinset_append, List.map_singleton, List.toFinset_cons,
      List.toFinset_nil, insert_empty_eq, Finset.union_comm, ← Finset.insert_eq,
      Finset.insert_eq_of_mem hmem]

/-- A new name gets its signature. -/
lemma new (h : Records f ds) {d : Definition} (hd : (f.find? d.name).isSome = false) :
    Records ⟨(d.name, d.signature) :: f.entries⟩ (ds ++ [d]) where
  find name := by
    have hold : f.entries.lookup name = _ := h.find name
    rw [find?, List.lookup_cons, hold, List.find?_append]
    by_cases hname : name = d.name
    · subst hname
      rw [h.find, Option.isSome_map, Option.isSome_eq_false_iff, Option.isNone_iff_eq_none] at hd
      simp [hd]
    · have hne : (name == d.name) = false := beq_eq_false_iff_ne.mpr hname
      cases hfirst : ds.find? fun d => d.name == name <;> simp [hne, Ne.symm hname]
  size := by
    have hmem : d.name ∉ (ds.map Definition.name).toFinset := by
      rw [← h.isSome_find, hd]
      exact Bool.false_ne_true
    rw [List.map_append, List.toFinset_append, List.map_singleton, List.toFinset_cons,
      List.toFinset_nil, insert_empty_eq, Finset.union_comm, ← Finset.insert_eq,
      Finset.card_insert_of_notMem hmem, ← h.size]
    rfl

end Records

end FunctionTable

namespace Compiler

open FunctionTable

/-- A name that is known already is refused, and the compiler stays as it is. -/
lemma lowerDefinition_known {c : Compiler} {d : Definition}
    (h : (c.functions.find? d.name).isSome = true) :
    (c.lowerDefinition d).result = .error (.scope (.functionRedefined d.name)) ∧
      (c.lowerDefinition d).compiler = c := by
  rw [lowerDefinition, register, if_pos h]
  exact ⟨rfl, rfl⟩

/-- A definition with a new name is entered, whether it can be lowered or not. -/
lemma lowerDefinition_new {c : Compiler} {d : Definition}
    (h : (c.functions.find? d.name).isSome = false) :
    (c.lowerDefinition d).compiler =
      { c with functions := ⟨(d.name, d.signature) :: c.functions.entries⟩ } := by
  rw [lowerDefinition, register, if_neg (Bool.eq_false_iff.mp h)]

/-- One more definition is one more in the history of the table. -/
lemma lowerDefinition_records {c : Compiler} {ds : List Definition} (h : c.functions.Records ds)
    (d : Definition) : (c.lowerDefinition d).compiler.functions.Records (ds ++ [d]) := by
  cases hd : (c.functions.find? d.name).isSome with
  | true =>
    rw [(lowerDefinition_known hd).2]
    exact h.known hd
  | false =>
    rw [lowerDefinition_new hd]
    exact h.new hd

lemma lowerEach_records {c : Compiler} {ds : List Definition} (h : c.functions.Records ds)
    (more : List Definition) : (c.lowerEach more).functions.Records (ds ++ more) := by
  induction more generalizing c ds with
  | nil => rwa [List.append_nil]
  | cons d more ih =>
    have hrest := ih (lowerDefinition_records h d)
    rwa [List.append_assoc] at hrest

/-- The history of a table of functions. After any requests, each of which may fail, a function has
the signature of the first definition with its name that was handed over for lowering, and there are
as many functions as such names. Whatever follows, no signature is changed or removed. A definition
whose name is known is refused, and the compiler stays as it is. -/
theorem functions_history (options : Options) (requests : List Request) :
    let ds := history { options } requests
    let c := answerAll { options } requests
    (∀ name, c.functions.lookup name = match ds.find? fun d => d.name == name with
      | some d => .ok d.signature
      | none => .error (.undeclaredFunction name)) ∧
    c.functions.size = (ds.map Definition.name).toFinset.card ∧
    (∀ more name s, c.functions.lookup name = .ok s →
      (c.answerAll more).functions.lookup name = .ok s) ∧
    ∀ d s, c.functions.lookup d.name = .ok s →
      (c.lowerDefinition d).result = .error (.scope (.functionRedefined d.name)) ∧
        (c.lowerDefinition d).compiler = c := by
  intro ds c
  have hrecords : c.functions.Records ds := by
    have hempty : ({ options } : Compiler).functions.Records [] := .nil
    have hc : c = _ := answerAll_eq { options } requests
    rw [hc]
    exact lowerEach_records hempty ds
  have hfind : ∀ {f : FunctionTable} {name : String} {s : Signature},
      f.lookup name = .ok s ↔ f.find? name = some s := by
    intro f name s
    rw [FunctionTable.lookup]
    cases f.find? name <;> simp
  refine ⟨fun name => ?_, hrecords.size, fun more name s hs => ?_, fun d s hs => ?_⟩
  · rw [FunctionTable.lookup, hrecords.find]
    cases ds.find? fun d => d.name == name <;> rfl
  · have hmore := lowerEach_records hrecords (c.history more)
    rw [← answerAll_eq] at hmore
    rw [hfind, hrecords.find] at hs
    rw [hfind, hmore.find, List.find?_append]
    obtain ⟨d, hd, rfl⟩ := Option.map_eq_some_iff.mp hs
    rw [hd]
    rfl
  · exact lowerDefinition_known (by rw [hfind.mp hs]; rfl)

-- The body of `f` fails, then `f` is defined again, then the parser fails: `h` and `m` are never
-- handed over.
example : (history {} [.compile "int f() \x7b return x; \x7d",
    .compile "void g() \x7b\x7d void f() \x7b\x7d void h() \x7b\x7d",
    .compile "void k() \x7b\x7d int m("]).map Definition.name = ["f", "g", "f", "k"] := by
  decide +kernel

end Compiler

end MiniC
