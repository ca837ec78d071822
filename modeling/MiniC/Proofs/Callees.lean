import MiniC.Compiler
import MiniC.Proofs.CastErasure
import MiniC.Proofs.StmtSteps

/-!
# Code depends on the rest of a program through callees only

Lowering reads the table of functions in one place: a call looks up its callee. So two tables with
the same signatures for the functions that a tree calls give the same lowering, as a function of the
state. A compiler keeps nothing but its table between definitions, and the definition itself is in
the table by the time its body is lowered.
-/

namespace MiniC

/-- Whether the expression itself is a call of the function. -/
def Expr.isCallOf (name : String) : Expr → Bool
  | .call callee _ => callee == name
  | _ => false

/-- Whether a call of the function stands anywhere in the definition. -/
def Definition.calls (d : Definition) (name : String) : Bool := d.any (Expr.isCallOf name)

namespace FunctionTable

variable {f f' : FunctionTable} {p q : String → Bool}

/-- Whether two tables agree on the names that `called` holds of. -/
def AgreeOn (f f' : FunctionTable) (called : String → Bool) : Prop :=
  ∀ name, called name = true → f.lookup name = f'.lookup name

@[simp] lemma agreeOn_or :
    f.AgreeOn f' (fun name => p name || q name) ↔ f.AgreeOn f' p ∧ f.AgreeOn f' q := by
  simp only [AgreeOn, Bool.or_eq_true, or_imp, forall_and]

@[simp] lemma agreeOn_any {α : Type} {xs : List α} {r : String → α → Bool} :
    f.AgreeOn f' (fun name => xs.any (r name)) ↔ ∀ x ∈ xs, f.AgreeOn f' fun name => r name x := by
  simp only [AgreeOn, List.any_eq_true]
  constructor
  · intro h x hx name hname
    exact h name ⟨x, hx, hname⟩
  · rintro h name ⟨x, hx, hname⟩
    exact h x hx name hname

@[simp] lemma agreeOn_optionAny {α : Type} {o : Option α} {r : String → α → Bool} :
    f.AgreeOn f' (fun name => o.any (r name)) ↔ ∀ x ∈ o, f.AgreeOn f' fun name => r name x := by
  cases o with
  | none => simp [AgreeOn]
  | some x => simp

lemma lookup_register {name : String} {s : Signature} (h : f.register name s = .ok f')
    (name' : String) : f'.lookup name' = if name' = name then .ok s else f.lookup name' := by
  rw [register] at h
  split at h
  · cases h
  · cases h
    by_cases hname : name' = name
    · simp [lookup, find?, hname]
    · simp [lookup, find?, List.lookup_cons, hname, beq_eq_false_iff_ne.mpr hname]

/-- Tables that agree still do when both get the same entry. -/
lemma AgreeOn.register {name : String} {s : Signature} {g g' : FunctionTable} (h : f.AgreeOn f' p)
    (hg : f.register name s = .ok g) (hg' : f'.register name s = .ok g') : g.AgreeOn g' p := by
  intro name' hcalled
  rw [lookup_register hg, lookup_register hg', h name' hcalled]

end FunctionTable

open FunctionTable

namespace Expr

variable {env : LowerEnv} {f : FunctionTable} {scope : ScopeId}

lemma lowerAll_congr {es : List Expr}
    (h : ∀ e ∈ es, e.lower env scope = e.lower { env with functions := f } scope) :
    lowerAll env scope es = lowerAll { env with functions := f } scope es := by
  induction es with
  | nil => rfl
  | cons e es ih =>
    rw [List.forall_mem_cons] at h
    rw [lowerAll, lowerAll, h.1, ih h.2]

/-- The lowering of an expression looks up nothing but its callees. -/
lemma lower_congr {e : Expr} (h : env.functions.AgreeOn f fun name => e.any (isCallOf name)) :
    e.lower env scope = e.lower { env with functions := f } scope := by
  induction e using Expr.induction with
  | int | float | var | preIncrement | postIncrement => rfl
  | arith op left right hl hr | compare op left right hl hr | logicalAnd left right hl hr
  | logicalOr left right hl hr =>
    simp only [any, isCallOf, Bool.false_or, agreeOn_or] at h
    rw [lower, lower, hl h.1, hr h.2]
  | boolCast operand ho =>
    simp only [any, isCallOf, Bool.false_or] at h
    rw [lower, lower, ho h]
  | conditional condition onTrue onFalse hc ht hf =>
    simp only [any, isCallOf, Bool.false_or, agreeOn_or] at h
    rw [lower, lower, hc h.1.1, ht h.1.2, hf h.2]
    rfl
  | assign target value hvalue =>
    simp only [any, isCallOf, Bool.false_or] at h
    rw [lower, lower, hvalue h]
    rfl
  | call callee arguments harguments =>
    simp only [any, isCallOf, listAny_eq_any, agreeOn_or, agreeOn_any] at h
    have hcallee : env.functions.lookup callee = f.lookup callee := h.1 callee (beq_self_eq_true _)
    have hparts := lowerAll_congr fun e he => harguments e he (h.2 e he)
    rw [lower, lower, hparts, Lower.call, Lower.call, hcallee]

end Expr

namespace Stmt

variable {env : LowerEnv} {f : FunctionTable}

lemma declaration_congr {scope : ScopeId} {ds : List Declarator}
    (h : ∀ d ∈ ds, env.functions.AgreeOn f fun name => d.any (Expr.isCallOf name)) :
    Lower.declaration env scope ds = Lower.declaration { env with functions := f } scope ds := by
  induction ds with
  | nil => rfl
  | cons d ds ih =>
    rw [List.forall_mem_cons] at h
    have hd : Lower.declarator env scope d =
        Lower.declarator { env with functions := f } scope d := by
      obtain ⟨name, ty, initializer⟩ := d
      cases initializer with
      | none => rfl
      | some e =>
        have he : e.lower env scope = e.lower { env with functions := f } scope :=
          Expr.lower_congr h.1
        simp only [Lower.declarator, he]
        rfl
    rw [Lower.declaration, Lower.declaration, hd, ih h.2]

lemma lowerAll_congr {body : List Stmt}
    (h : ∀ x ∈ body, x.lower env = x.lower { env with functions := f }) (ctx : Context)
    (code : Code) :
    lowerAll env body ctx code = lowerAll { env with functions := f } body ctx code := by
  induction body generalizing code with
  | nil => rfl
  | cons x body ih =>
    rw [List.forall_mem_cons] at h
    simp only [lowerAll, h.1, ih h.2]

/-- The lowering of a statement looks up nothing but the callees of its expressions. -/
lemma lower_congr {x : Stmt}
    (h : env.functions.AgreeOn f fun name => x.any (Expr.isCallOf name)) :
    x.lower env = x.lower { env with functions := f } := by
  have hpart : ∀ {part : Option Expr},
      (∀ e ∈ part, env.functions.AgreeOn f fun name => e.any (Expr.isCallOf name)) →
      (part.map fun e scope => e.lower env scope) =
        part.map fun e scope => e.lower { env with functions := f } scope := by
    intro part hpart
    refine Option.map_congr fun e he => ?_
    funext scope
    exact Expr.lower_congr (hpart e he)
  induction x using Stmt.induction with
  | expression e =>
    funext ctx
    rw [lower, lower, Expr.lower_congr h]
  | declaration ds =>
    simp only [any, agreeOn_any] at h
    funext ctx
    exact declaration_congr h
  | compound body hbody =>
    simp only [any, listAny_eq_any, agreeOn_any] at h
    funext ctx
    simp only [lower, lowerAll_congr fun x hx => hbody x hx (h x hx)]
  | ifElse condition onTrue onFalse htrue hfalse =>
    funext ctx
    cases onFalse with
    | none =>
      simp only [any, agreeOn_or] at h
      rw [lower, lower, Expr.lower_congr h.1, htrue h.2]
      rfl
    | some onFalse =>
      simp only [any, agreeOn_or] at h
      rw [lower, lower, Expr.lower_congr h.1.1, htrue h.1.2, hfalse onFalse rfl h.2]
      rfl
  | whileLoop condition body hbody =>
    simp only [any, agreeOn_or] at h
    funext ctx
    rw [lower, lower, Expr.lower_congr h.1, hbody h.2]
    rfl
  | forLoop init condition step body hinit hbody =>
    simp only [any_forLoop, agreeOn_or, agreeOn_optionAny] at h
    obtain ⟨⟨⟨hi, hc⟩, hs⟩, hb⟩ := h
    funext ctx
    cases init with
    | none =>
      rw [lower, lower, hpart hc, hpart hs, hbody hb]
      rfl
    | some init =>
      rw [lower, lower, hpart hc, hpart hs, hbody hb, hinit init rfl (hi init rfl)]
      rfl
  | ret value =>
    funext ctx
    cases value with
    | none => rfl
    | some e =>
      rw [lower, lower, Option.map_some, Option.map_some, Expr.lower_congr h]
      rfl
  | brk => rfl
  | cont => rfl

end Stmt

lemma Lower.paramSlots_congr (env : LowerEnv) (f : FunctionTable) (pairs : List (Param × Value)) :
    paramSlots env pairs = paramSlots { env with functions := f } pairs := by
  induction pairs with
  | nil => rfl
  | cons pair rest ih =>
    obtain ⟨p, argument⟩ := pair
    simp only [paramSlots, ih]
    rfl

/-- The lowering of a definition looks up nothing but its callees. -/
lemma Definition.lower_congr {d : Definition} {f f' : FunctionTable} (options : Options)
    (h : f.AgreeOn f' d.calls) : d.lower f options = d.lower f' options := by
  have hbody : ∀ x ∈ d.body, f.AgreeOn f' fun name => x.any (Expr.isCallOf name) := by
    rwa [← agreeOn_any, ← funext fun name => Stmt.listAny_eq_any (Expr.isCallOf name) d.body]
  have hlower : d.lowerIn (.ofSignature f options d.signature) =
      d.lowerIn (.ofSignature f' options d.signature) := by
    have hparams := Lower.paramSlots_congr (.ofSignature f options d.signature) f'
    have hstmts : ∀ ctx code, Stmt.lowerAll (.ofSignature f options d.signature) d.body ctx code =
        Stmt.lowerAll (.ofSignature f' options d.signature) d.body ctx code :=
      Stmt.lowerAll_congr fun x hx => Stmt.lower_congr (hbody x hx)
    simp only [lowerIn, Stmt.lowerBlock, hparams, hstmts]
    rfl
  rw [lower, lower, hlower]
  rfl

/-- The code of a definition depends on the rest of the program only through the signatures of the
functions that it calls. From two tables without the definition that agree on all functions called
in it, the compiler gives the same segment or the same error, and reports the same on the way. -/
theorem Compiler.lowerDefinition_callees (options : Options) {d : Definition} {f f' : FunctionTable}
    (hnew : f.find? d.name = none) (hnew' : f'.find? d.name = none)
    (hcallees : ∀ name, d.calls name = true → f.lookup name = f'.lookup name) :
    (lowerDefinition ⟨f, options⟩ d).result = (lowerDefinition ⟨f', options⟩ d).result ∧
      (lowerDefinition ⟨f, options⟩ d).log = (lowerDefinition ⟨f', options⟩ d).log := by
  have hreg : ∀ g : FunctionTable, g.find? d.name = none →
      g.register d.name d.signature = .ok ⟨(d.name, d.signature) :: g.entries⟩ := by
    intro g hg
    rw [FunctionTable.register, hg]
    rfl
  have hagree := AgreeOn.register hcallees (hreg f hnew) (hreg f' hnew')
  have hlower := Definition.lower_congr options hagree
  simp only [lowerDefinition, hreg f hnew, hreg f' hnew', hlower, and_self]

/-- A function that calls itself and `g`. -/
def Definition.descending : Definition := ⟨"f", .i32, [⟨"n", .i32⟩], [.ret (some
  (.arith .add (.call "g" [.var "n"]) (.call "f" [.arith .sub (.var "n") (.int 1)])))]⟩

/-- It does not matter that `h` failed before, nor what the body of `g` was. -/
theorem descending_same_code :
    let f := (({} : Compiler).compile
      "int g(int a) \x7b return a; \x7d void h() \x7b break; \x7d").compiler.functions
    let f' := (({} : Compiler).compile
      "void k() \x7b\x7d int g(int b) \x7b return b * b; \x7d").compiler.functions
    f ≠ f' ∧ ∃ seg, (Compiler.lowerDefinition ⟨f, {}⟩ Definition.descending).result = .ok seg ∧
      (Compiler.lowerDefinition ⟨f', {}⟩ Definition.descending).result = .ok seg := by
  intro f f'
  have hf : f = ⟨[("h", ⟨.void, []⟩), ("g", ⟨.i32, [.i32]⟩)]⟩ := by decide +kernel
  have hf' : f' = ⟨[("g", ⟨.i32, [.i32]⟩), ("k", ⟨.void, []⟩)]⟩ := by decide +kernel
  have hcallees : ∀ name, Definition.descending.calls name = true →
      f.lookup name = f'.lookup name := by
    intro name hname
    have hcases : "g" = name ∨ "f" = name := by
      simpa [Definition.calls, Definition.any, Definition.descending, Stmt.listAny, Stmt.any,
        Expr.any, Expr.listAny, Expr.isCallOf] using hname
    rw [hf, hf']
    rcases hcases with rfl | rfl <;> decide
  have hsame := Compiler.lowerDefinition_callees {} (by rw [hf]; decide) (by rw [hf']; decide)
    hcallees
  have haccepted : (Compiler.lowerDefinition ⟨f, {}⟩ Definition.descending).result.isOk = true := by
    decide +kernel
  refine ⟨by rw [hf, hf']; decide, ?_⟩
  rw [← hsame.1]
  cases hresult : (Compiler.lowerDefinition ⟨f, {}⟩ Definition.descending).result with
  | error e =>
    rw [hresult] at haccepted
    cases haccepted
  | ok seg => exact ⟨seg, rfl, rfl⟩

end MiniC
