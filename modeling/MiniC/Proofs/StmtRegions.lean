import MiniC.Proofs.Preservation
import MiniC.Proofs.Regions

/-!
# Statements are regions

A statement is entered at its start, and control comes to its end unless its code ends with a
terminator. It leads to the ends of the loops around it, where no more values are asked for than it
started with. All slots that a scope sees are there at the end of a statement in that scope, unless
a part of an `if` or of a `while` loop is a declaration.
-/

namespace MiniC

namespace Code

/-- Behind code that control runs through, only the code that follows counts. -/
lemma endsWithTerminator_append_eq {code : Code} (h : endsWithTerminator code = false)
    (code' : Code) : endsWithTerminator (code ++ code') = endsWithTerminator code' := by
  cases hlast : code'.getLast? with
  | none =>
    rw [List.getLast?_eq_none_iff.mp hlast, List.append_nil, h]
    rfl
  | some i => rw [endsWithTerminator, endsWithTerminator, List.getLast?_append, hlast]; rfl

lemma endsWithTerminator_label_eq (before : Code) (l : Label) (code : Code) :
    endsWithTerminator (before ++ .label l :: code) = endsWithTerminator code := by
  have hopen : endsWithTerminator (before ++ [.label l]) = false :=
    endsWithTerminator_concat before (.label l)
  have hends := endsWithTerminator_append_eq hopen code
  rwa [List.append_assoc, List.singleton_append] at hends

end Code

/-- The end of code in block `b`, with the values `A` if control comes to it. -/
def Point.after (b : Nat) (code : Code) (A : Set Value) : Point :=
  if code.endsWithTerminator then .dead b else .live b A

namespace Point

variable {b : Nat} {code : Code} {A : Set Value}

lemma after_of_open (h : code.endsWithTerminator = false) : after b code A = .live b A := by
  rw [after, h, if_neg Bool.false_ne_true]

lemma after_of_closed (h : code.endsWithTerminator = true) : after b code A = .dead b := by
  rw [after, if_pos h]

lemma after_congr {code' : Code} (h : code'.endsWithTerminator = code.endsWithTerminator) :
    after b code' A = after b code A := by
  rw [after, after, h]

end Point

/-- A jump behind code, which may be left out if control does not arrive there. -/
lemma Region.jumpAfter {slots : Bool} {T : Plan → Prop} {p : Point} {b : Nat} {A : Set Value}
    {code last jump : Code} {G : List (Nat × Entry)} {l : Label} {elide : Bool}
    (h : Region slots T p code (.after b last A) G)
    (hjump : jump = if elide && last.endsWithTerminator then [] else [.jump l])
    (hl : ∀ P : Plan, T P → P.Admits A l) : Region slots T p (code ++ jump) (.dead b) G := by
  have htargets : ∀ m ∈ (Instr.jump l).targets, m = l := fun m hm => List.mem_singleton.mp hm
  have hregion : Region slots T (.after b last A) jump (.dead b) [] := by
    cases hends : last.endsWithTerminator with
    | false =>
      rw [hends, Bool.and_false, if_neg Bool.false_ne_true] at hjump
      rw [Point.after_of_open hends, hjump]
      refine .leave rfl (by simp [Instr.operands]) fun P hP m hm => ?_
      rw [htargets m hm]
      exact (hl P hP).accepts slots b
    | true =>
      rw [Point.after_of_closed hends, hjump]
      split
      · exact .nil _
      · refine .skip (Or.inr rfl) fun P hP m hm => ?_
        rw [htargets m hm]
        exact (hl P hP).2
  have hwhole := h.append hregion
  rwa [List.append_nil] at hwhole

/-- The assumption `T`, and that the blocks `ns` start with the values `A` and without a `phi`. -/
def Starting (T : Plan → Prop) (A : Set Value) (ns : List Nat) : Plan → Prop :=
  Assuming T (ns.map fun n => (n, ⟨A, []⟩)) []

lemma Starting.admits {T : Plan → Prop} {A A' : Set Value} {ns : List Nat} {n : Nat} (hn : n ∈ ns)
    (hA : A ⊆ A') : ∀ P : Plan, Starting T A ns P → P.Admits A' (.pending n) := by
  intro P hP
  have hadmits : P.Admits A (.pending n) := Assuming.admits hP (List.mem_map.mpr ⟨n, hn, rfl⟩)
  exact hadmits.mono hA

/-- Whether `break` and `continue` may jump with the values `A`. -/
def Context.Leads (ctx : Context) (T : Plan → Prop) (A : Set Value) : Prop :=
  ∀ P : Plan, T P → ∀ targets ∈ ctx.loop, P.Admits A targets.1 ∧ P.Admits A targets.2

namespace Context.Leads

variable {ctx : Context} {T : Plan → Prop} {A A' : Set Value}

lemma mono (h : ctx.Leads T A) (hA : A ⊆ A') : ctx.Leads T A' := by
  intro P hP targets htargets
  obtain ⟨h₁, h₂⟩ := h P hP targets htargets
  exact ⟨h₁.mono hA, h₂.mono hA⟩

lemma starting (h : ctx.Leads T A) (A' : Set Value) (ns : List Nat) :
    ctx.Leads (Starting T A' ns) A := fun P hP => h P hP.1

/-- A loop leads to the blocks behind it and of its test. -/
lemma loop (T : Plan → Prop) (ns : List Nat) {m n : Nat} (hm : m ∈ ns) (hn : n ∈ ns)
    (scope : ScopeId) :
    Leads { scope, loop := some (.pending m, .pending n) } (Starting T A ns) A := by
  rintro P hP targets ⟨⟩
  exact ⟨Starting.admits hm subset_rfl P hP, Starting.admits hn subset_rfl P hP⟩

end Context.Leads

lemma Sees.opened {slots : Bool} {scope : ScopeId} {s : LowerState} {A : Set Value}
    (h : Sees slots scope s A) : Sees slots s.scopes.scopes.length (s.opened scope) A := by
  intro hslots
  obtain ⟨hord, hscope, hvisible⟩ := h hslots
  refine ⟨(Scopes.openChild_keeps hscope).ordered hord, s.length_lt_opened scope, ?_⟩
  rw [LowerState.opened, Scopes.visible_openChild hord hscope]
  exact hvisible

/-- A declared variable is seen once its slot is there. -/
lemma Sees.declare {slots : Bool} {scope : ScopeId} {s : LowerState} {A : Set Value}
    (h : Sees slots scope s A) {name : String} {slot : Value} {scopes : Scopes}
    (hs : s.drawn.scopes.declare scope name slot = .ok scopes) :
    Sees slots scope { s with scopes } (insert slot A) := by
  intro hslots
  obtain ⟨hord, hscope, hvisible⟩ := h hslots
  have hgrows := Lower.declareSlot_grows hs hscope
  refine ⟨hgrows.ordered hord hscope, Nat.lt_of_lt_of_le hscope hgrows.size_le, ?_⟩
  rw [hgrows.visible_eq hord hscope]
  intro x hx
  rcases List.mem_cons.mp hx with rfl | hx
  · exact Set.mem_insert _ _
  · exact Set.mem_insert_of_mem _ (hvisible x hx)

namespace Lower

variable {slots : Bool} {T : Plan → Prop} {s t s' : LowerState} {env : LowerEnv} {scope : ScopeId}
  {ctx : Context} {A A' A'' : Set Value} {code code' : Code} {G G' : List (Nat × Entry)}

/-- The code of a statement: control goes through it from start to end unless it ends with a
terminator, and at the end the slots of the variables are there. -/
structure Runs (slots : Bool) (T : Plan → Prop) (scope : ScopeId) (s : LowerState) (A : Set Value)
    (code : Code) (s' : LowerState) (A' : Set Value) (G : List (Nat × Entry)) : Prop where
  grows : A ⊆ A'
  sees : Sees slots scope s' A'
  region : Region slots T (.live s.block.id A) code (.after s'.block.id code A') G

/-- Whether control runs through the code of a statement wherever its variables are there. -/
def CodeRuns (slots : Bool) (ctx : Context) (x : Lower Code) : Prop :=
  ∀ ⦃s code s'⦄, x s = .ok code s' → ∀ ⦃A T⦄, Sees slots ctx.scope s A → ctx.Leads T A →
    ∃ A' G, Runs slots T ctx.scope s A code s' A' G

namespace Runs

lemma of_passes (h : Passes slots T s A code s' A' G) (hs : Sees slots scope s A)
    (hopen : code.endsWithTerminator = false) : Runs slots T scope s A code s' A' G :=
  ⟨h.grows, h.sees hs, by rw [Point.after_of_open hopen]; exact h.region⟩

lemma append_open (h : Runs slots T scope s A code t A' G) (hopen : code.endsWithTerminator = false)
    (h' : Runs slots T scope t A' code' s' A'' G') :
    Runs slots T scope s A (code ++ code') s' A'' (G ++ G') := by
  have hfirst := h.region
  rw [Point.after_of_open hopen] at hfirst
  refine ⟨h.grows.trans h'.grows, h'.sees, ?_⟩
  rw [Point.after_congr (Code.endsWithTerminator_append_eq hopen code')]
  exact hfirst.append h'.region

/-- Code that ends with the label behind a statement, where the entries of its own blocks are no
longer assumed. -/
lemma of_label {ns : List Nat} {b : Nat} {l : Label}
    (h : Region slots (Starting T A' ns) (.live s.block.id A) code (.dead b) G)
    (hns : ∀ n ∈ ns, (n, ⟨A', []⟩) ∈ G ++ [(l.id, ⟨A', []⟩)]) (hblock : s'.block.id = l.id)
    (hA : A ⊆ A') (hs : Sees slots scope s' A') :
    Runs slots T scope s A (code ++ [.label l]) s' A' (G ++ [(l.id, ⟨A', []⟩)]) := by
  refine ⟨hA, hs, ?_⟩
  rw [Point.after_of_open (Code.endsWithTerminator_concat code (.label l)), hblock]
  refine (h.append (.label l A')).discharge ?_ (List.nil_subset _)
  intro g hg
  obtain ⟨n, hn, rfl⟩ := List.mem_map.mp hg
  exact hns n hn

end Runs

/-- An allocation for a variable. -/
lemma declare_runs {name : String} {ty : Ty} {scopes : Scopes} {align : Nat}
    (hs : Sees slots scope s A)
    (h : s.drawn.scopes.declare scope name (.slot s.next ty) = .ok scopes) :
    Runs slots T scope s A [.alloca (.slot s.next ty) align] { s with scopes }
      (insert (.slot s.next ty) A) [] := by
  have halloca : Passes slots T s A [.alloca (.slot s.next ty) align] s.drawn
      (insert (.slot s.next ty) A) [] := .define rfl (by simp [Instr.operands]) rfl
  exact ⟨halloca.grows, hs.declare h, halloca.region⟩

lemma declarator_runs (hs : Sees slots scope s A) {d : Declarator}
    (h : declarator env scope d s = .ok code s') (T : Plan → Prop) :
    ∃ A' G, Runs slots T scope s A code s' A' G := by
  obtain ⟨-, scopes, hdeclare, h⟩ := declarator_ok h
  have h₀ : Runs slots T scope s A [.alloca (.slot s.next d.ty) (env.options.alignmentFor d.ty)]
      { s with scopes } (insert (.slot s.next d.ty) A) [] := declare_runs hs hdeclare
  rcases h with ⟨-, rfl, rfl⟩ | ⟨e, init, v, -, hv, -, rfl⟩
  · exact ⟨_, _, h₀⟩
  · obtain ⟨A₁, G₁, h₁, hready⟩ := operandAs_passes e.lower_passes hv h₀.sees T
    have hstore : Passes slots T s' A₁ [.store v (.slot s.next d.ty)
        (env.options.alignmentFor d.ty)] s' A₁ [] := by
      refine .plain rfl ?_ rfl
      simpa [Instr.operands] using ⟨hready, Value.Ready.of_mem (h₁.grows (Set.mem_insert _ _))⟩
    have hinit := Runs.of_passes (h₁.append hstore) h₀.sees
      (Code.endsWithTerminator_concat init (.store v (.slot s.next d.ty)
        (env.options.alignmentFor d.ty)))
    exact ⟨_, _, h₀.append_open rfl hinit⟩

lemma declaration_runs {ds : List Declarator} :
    CodeRuns slots ctx (declaration env ctx.scope ds) := by
  intro s code s' h A T hs hctx
  clear hctx
  induction ds generalizing s code A with
  | nil =>
    obtain ⟨rfl, rfl⟩ := pure_ok.mp h
    exact ⟨A, [], .of_passes (.refl s A) hs rfl⟩
  | cons d rest ih =>
    obtain ⟨first, more, t, hd, hrest, rfl⟩ := declaration_cons_ok h
    obtain ⟨A₁, G₁, h₁⟩ := declarator_runs hs hd T
    obtain ⟨A₂, G₂, h₂⟩ := ih hrest h₁.sees
    exact ⟨A₂, _, h₁.append_open (Program.declarator_open hd) h₂⟩

lemma branchOn_region {condition : Expr} {onTrue onFalse : Label}
    (h : branchOn (condition.lower env scope) onTrue onFalse s = .ok code s')
    (hs : Sees slots scope s A) (htrue : ∀ P : Plan, T P → P.Admits A onTrue)
    (hfalse : ∀ P : Plan, T P → P.Admits A onFalse) :
    ∃ G, Region slots T (.live s.block.id A) code (.dead s'.block.id) G := by
  obtain ⟨test, v, hv, -, rfl⟩ := branchOn_ok h
  obtain ⟨A₁, G₁, h₁, hready⟩ := operandAs_passes condition.lower_passes hv hs T
  refine ⟨_, h₁.region.append (.leave rfl ?_ ?_)⟩
  · intro w hw
    rw [List.mem_singleton.mp hw]
    exact hready
  · intro P hP l hl
    simp only [Instr.targets, List.mem_cons, List.not_mem_nil, or_false] at hl
    rcases hl with rfl | rfl
    · exact ((htrue P hP).mono h₁.grows).accepts slots _
    · exact ((hfalse P hP).mono h₁.grows).accepts slots _

lemma ifElse_none_runs {condition : Expr} {onTrue : Lower Code} (htrue : CodeRuns slots ctx onTrue)
    (hkeeps : slots = true →
      CodeKeeps ctx.scope (ifElse env (condition.lower env ctx.scope) onTrue none)) :
    CodeRuns slots ctx (ifElse env (condition.lower env ctx.scope) onTrue none) := by
  intro s code s' h A T hs hctx
  have hsees := hs.of_keeps (fun hslots => hkeeps hslots (hs hslots).2.1 h) (Set.Subset.refl A)
  obtain ⟨test, trueCode, jump, t, t₁, log, n, -, htest, -, ht, -, hj, rfl, rfl⟩ := ifElse_none_ok h
  obtain ⟨G₀, h₀⟩ := branchOn_region (T := Starting T A [n, n + 1]) htest
    (hs.of_eq rfl subset_rfl) (Starting.admits (by simp) subset_rfl)
    (Starting.admits (by simp) subset_rfl)
  have hscopes := branchOn_keeps condition.lower_keeps htest
  have hst : Sees slots ctx.scope (t.placed (.pending n)) A := hs.of_eq hscopes subset_rfl
  obtain ⟨A₁, G₁, h₁⟩ := htrue ht hst (hctx.starting A [n, n + 1])
  rw [Code.endsWithTerminator_label_eq] at hj
  have hfirst := (h₀.append ((Region.label (.fixed n t.next) A).append h₁.region)).jumpAfter hj
    (Starting.admits (by simp) h₁.grows)
  exact ⟨A, _, .of_label hfirst (by simp [Label.id]) rfl subset_rfl hsees⟩

lemma ifElse_some_runs {condition : Expr} {onTrue onFalse : Lower Code}
    (htrue : CodeRuns slots ctx onTrue) (hfalse : CodeRuns slots ctx onFalse)
    (htrueKeeps : slots = true → CodeKeeps ctx.scope onTrue)
    (hkeeps : slots = true →
      CodeKeeps ctx.scope (ifElse env (condition.lower env ctx.scope) onTrue (some onFalse))) :
    CodeRuns slots ctx (ifElse env (condition.lower env ctx.scope) onTrue (some onFalse)) := by
  intro s code s' h A T hs hctx
  have hsees := hs.of_keeps (fun hslots => hkeeps hslots (hs hslots).2.1 h) (Set.Subset.refl A)
  obtain ⟨test, trueCode, trueJump, falseCode, falseJump, t, t₁, t₂, log₁, log₂, n, m, -, htest, -,
    ht, -, -, hf, -, hj₁, hj₂, rfl, rfl⟩ := ifElse_some_ok h
  obtain ⟨G₀, h₀⟩ := branchOn_region (T := Starting T A [n, n + 1, m]) htest
    (hs.of_eq rfl subset_rfl) (Starting.admits (by simp) subset_rfl)
    (Starting.admits (by simp) subset_rfl)
  have hscopes := branchOn_keeps condition.lower_keeps htest
  have hst : Sees slots ctx.scope (t.placed (.pending n)) A := hs.of_eq hscopes subset_rfl
  obtain ⟨A₁, G₁, h₁⟩ := htrue ht hst (hctx.starting A [n, n + 1, m])
  have hst₁ : Sees slots ctx.scope t₁ A :=
    hst.of_keeps (fun hslots => htrueKeeps hslots (hst hslots).2.1 ht) subset_rfl
  obtain ⟨A₂, G₂, h₂⟩ :=
    hfalse hf (hst₁.of_eq rfl subset_rfl) (hctx.starting A [n, n + 1, m])
  rw [Code.endsWithTerminator_label_eq] at hj₁ hj₂
  have hfirst := (h₀.append ((Region.label (.fixed n t.next) A).append h₁.region)).jumpAfter hj₁
    (Starting.admits (by simp) h₁.grows)
  have hsecond := (hfirst.append ((Region.label (.fixed (n + 1) t₁.next) A).append
    h₂.region)).jumpAfter hj₂ (Starting.admits (by simp) h₂.grows)
  exact ⟨A, _, .of_label hsecond (by simp [Label.id]) rfl subset_rfl hsees⟩

lemma whileLoop_runs {condition : Expr} {body : Context → Lower Code}
    (hbody : ∀ loop, CodeRuns slots { ctx with loop } (body { ctx with loop }))
    (hkeeps : slots = true →
      CodeKeeps ctx.scope (whileLoop env ctx (condition.lower env ctx.scope) body)) :
    CodeRuns slots ctx (whileLoop env ctx (condition.lower env ctx.scope) body) := by
  intro s code s' h A T hs hctx
  have hsees := hs.of_keeps (fun hslots => hkeeps hslots (hs hslots).2.1 h) (Set.Subset.refl A)
  obtain ⟨test, bodyCode, back, t, t₁, log₀, log, n, -, htest, -, hb, -, hback, rfl, rfl⟩ :=
    whileLoop_ok h
  have hentering : Region slots (Starting T A [n, n + 1, n + 2]) (.live s.block.id A)
      [.jump (.pending n)] (.dead s.block.id) [] := by
    refine .leave rfl (by simp [Instr.operands]) fun P hP l hl => ?_
    rw [List.mem_singleton.mp hl]
    exact (Starting.admits (by simp) subset_rfl P hP).accepts slots _
  obtain ⟨G₀, h₀⟩ := branchOn_region (T := Starting T A [n, n + 1, n + 2]) htest
    (hs.of_eq rfl subset_rfl) (Starting.admits (by simp) subset_rfl)
    (Starting.admits (by simp) subset_rfl)
  have hscopes := branchOn_keeps condition.lower_keeps htest
  have hst : Sees slots ctx.scope (t.placed (.pending (n + 1))) A := hs.of_eq hscopes subset_rfl
  obtain ⟨A₁, G₁, h₁⟩ := hbody _ hb hst
    (Context.Leads.loop T [n, n + 1, n + 2] (by simp) (by simp) ctx.scope)
  rw [Code.endsWithTerminator_label_eq] at hback
  have hloopCode := ((hentering.append ((Region.label (.fixed n s.next) A).append h₀)).append
    ((Region.label (.fixed (n + 1) t.next) A).append h₁.region)).jumpAfter hback
    (Starting.admits (by simp) h₁.grows)
  exact ⟨A, _, .of_label hloopCode (by simp [Label.id]) rfl subset_rfl hsees⟩

/-- Where control does not arrive, a block that nothing jumps to may promise every value. -/
lemma openBlockAfter_region {opened : Code} (h : openBlockAfter code s = .ok opened s')
    (hs : Sees slots scope s A) (T : Plan → Prop) :
    Code.endsWithTerminator (code ++ opened) = false ∧ ∃ A' G, A ⊆ A' ∧ Sees slots scope s' A' ∧
      Region slots T (.after s.block.id code A) opened (.live s'.block.id A') G := by
  have hscopes := openBlockAfter_keeps h
  rcases openBlockAfter_ok h with ⟨hends, rfl, rfl⟩ | ⟨hends, rfl, log, rfl⟩
  · rw [List.append_nil, Point.after_of_open hends]
    exact ⟨hends, A, [], Set.Subset.refl A, hs, .nil _⟩
  · rw [Point.after_of_closed hends]
    exact ⟨Code.endsWithTerminator_concat _ _, Set.univ, _, Set.subset_univ A,
      hs.of_eq hscopes (Set.subset_univ A), .label _ _⟩

lemma stepAfter_region {step : Option Expr}
    (h : stepAfter code (step.map fun e => e.lower env scope) s = .ok code' s')
    (hs : Sees slots scope s A) (T : Plan → Prop) :
    ∃ added A' G, code' = code ++ added ∧ A ⊆ A' ∧
      Region slots T (.after s.block.id code A) added (.after s'.block.id code' A') G := by
  rcases stepAfter_ok h with ⟨-, rfl, rfl⟩ | ⟨x, opened, seg, t, hx, ho, hseg, rfl⟩
  · exact ⟨[], A, [], (List.append_nil _).symm, Set.Subset.refl A, .nil _⟩
  · obtain ⟨e, -, rfl⟩ := Option.map_eq_some_iff.mp hx
    obtain ⟨hends, A₁, G₁, hA₁, hst, h₁⟩ := openBlockAfter_region ho hs T
    obtain ⟨A₂, G₂, h₂, -⟩ := e.lower_passes hseg hst T
    refine ⟨opened ++ seg.instructions, A₂, G₁ ++ G₂, List.append_assoc .., hA₁.trans h₂.grows, ?_⟩
    rw [Point.after_of_open (Code.endsWithTerminator_append hends (e.lower_open hseg))]
    exact h₁.append h₂.region

lemma loopTest_region {before : Code} {condition : Option Expr} {bodyLabel exitLabel : Label}
    (h : loopTest env before (condition.map fun e => e.lower env scope) bodyLabel exitLabel s =
      .ok code s') (hbefore : before.endsWithTerminator = false) (hs : Sees slots scope s A)
    (hbody : ∀ P : Plan, T P → P.Admits A bodyLabel)
    (hexit : ∀ P : Plan, T P → P.Admits A exitLabel) :
    ∃ G, Region slots T (.live s.block.id A) code (.dead s'.block.id) G := by
  rcases loopTest_ok h with ⟨-, ⟨log, rfl⟩, hjump⟩ | ⟨c, hc, htest⟩
  · have hstart : Region slots T (.live s.block.id A) [] (.after s.block.id before A) [] := by
      rw [Point.after_of_open hbefore]
      exact .nil _
    exact ⟨[], hstart.jumpAfter hjump hbody⟩
  · obtain ⟨e, -, rfl⟩ := Option.map_eq_some_iff.mp hc
    exact branchOn_region htest hs hbody hexit

lemma initial_runs {init : Option (Context → Lower Code)}
    (hinit : ∀ x ∈ init, CodeRuns slots ctx (x ctx)) : CodeRuns slots ctx (initial init ctx) := by
  intro s code s' h A T hs hctx
  rcases initial_ok h with ⟨-, rfl, rfl⟩ | ⟨x, rfl, hx⟩
  · exact ⟨A, [], .of_passes (.refl s A) hs rfl⟩
  · exact hinit x rfl hx hs hctx

lemma forLoop_runs {init : Option (Context → Lower Code)}
    (hinit : ∀ x ∈ init, ∀ ctx, CodeRuns slots ctx (x ctx)) {condition step : Option Expr}
    {body : Context → Lower Code} (hbody : ∀ ctx, CodeRuns slots ctx (body ctx))
    (hkeeps : slots = true → CodeKeeps ctx.scope (forLoop env ctx init
      (condition.map fun e scope => e.lower env scope) (step.map fun e scope => e.lower env scope)
      body)) :
    CodeRuns slots ctx (forLoop env ctx init (condition.map fun e scope => e.lower env scope)
      (step.map fun e scope => e.lower env scope) body) := by
  intro s code s' h A T hs hctx
  obtain ⟨initCode, entering, test, bodyCode, stepped, back, t₀, t, t₁, t₂, log₀, log, n, scope,
    rfl, hi, -, hentering, htest, -, hb, hst, -, hback, rfl, rfl⟩ := forLoop_ok h
  rw [Option.map_map] at htest hst
  obtain ⟨A₀, G₀, h₀⟩ := initial_runs (fun x hx => hinit x hx _) hi hs.opened hctx
  have hsees := hs.of_keeps (fun hslots => hkeeps hslots (hs hslots).2.1 h) h₀.grows
  have hfirst : Region slots (Starting T A₀ [n, n + 1, n + 2]) _ _ _ _ := h₀.region.assume _ []
  have hentered := hfirst.jumpAfter hentering (Starting.admits (by simp) subset_rfl)
  obtain ⟨G₁, h₁⟩ := loopTest_region (T := Starting T A₀ [n, n + 1, n + 2]) htest
    (Code.endsWithTerminator_concat _ _) (h₀.sees.of_eq rfl subset_rfl)
    (Starting.admits (by simp) subset_rfl) (Starting.admits (by simp) subset_rfl)
  have hscopes := loopTest_keeps (Option.forall_mem_map.mpr fun e _ => e.lower_keeps) htest
  obtain ⟨A₁, G₂, h₂⟩ := hbody _ hb (h₀.sees.of_eq hscopes subset_rfl)
    (Context.Leads.loop T [n, n + 1, n + 2] (by simp) (by simp) _)
  obtain ⟨added, A₂, G₃, rfl, hA₂, h₃⟩ :=
    stepAfter_region hst h₂.sees (Starting T A₀ [n, n + 1, n + 2])
  rw [Point.after_congr (Code.endsWithTerminator_label_eq _ _ _)] at h₃
  have hloopCode := ((((hentered.append (Region.label (.fixed n t₀.next) A₀)).append h₁).append
    ((Region.label (.fixed (n + 1) t.next) A₀).append h₂.region)).append h₃).jumpAfter hback
    (Starting.admits (by simp) (h₂.grows.trans hA₂))
  exact ⟨A₀, _, .of_label hloopCode (by simp [Label.id]) rfl h₀.grows hsees⟩

lemma ret_runs {value : Option Expr} :
    CodeRuns slots ctx (ret env (value.map fun e => e.lower env ctx.scope)) := by
  intro s code s' h A T hs hctx
  rcases ret_ok h with ⟨-, -, rfl, rfl⟩ | ⟨x, first, v, conversion, w, t, hx, -, hfirst, hc, rfl⟩
  · refine ⟨A, [], Set.Subset.refl A, hs, ?_⟩
    exact .leave rfl (by simp [Instr.operands]) (by simp [Instr.targets])
  · obtain ⟨e, -, rfl⟩ := Option.map_eq_some_iff.mp hx
    obtain ⟨A₁, G₁, h₁, hv⟩ := e.lower_passes hfirst hs T
    obtain ⟨A₂, G₂, h₂, hw⟩ := coerce_passes hc (hv v rfl) T
    have hpasses := h₁.append h₂
    refine ⟨A₂, G₁ ++ G₂ ++ [], hpasses.grows, hpasses.sees hs, ?_⟩
    rw [Point.after_of_closed (Code.endsWithTerminator_concat _ _)]
    refine hpasses.region.append (.leave rfl ?_ (by simp [Instr.targets]))
    intro u hu
    rw [List.mem_singleton.mp hu]
    exact hw

lemma leave_runs {target : Option Label} {outside : LoweringError}
    (htarget : ∀ l ∈ target, ∃ targets ∈ ctx.loop, l = targets.1 ∨ l = targets.2) :
    CodeRuns slots ctx (leave target outside) := by
  intro s code s' h A T hs hctx
  obtain ⟨l, hl, rfl, rfl⟩ := leave_ok h
  obtain ⟨targets, hmem, hor⟩ := htarget l hl
  refine ⟨A, [], Set.Subset.refl A, hs, .leave rfl (by simp [Instr.operands]) ?_⟩
  intro P hP m hm
  rw [List.mem_singleton.mp hm]
  obtain ⟨h₁, h₂⟩ := hctx P hP targets hmem
  rcases hor with rfl | rfl
  · exact h₁.accepts slots _
  · exact h₂.accepts slots _

end Lower

namespace Stmt

open Lower

variable {slots : Bool} {env : LowerEnv}

/-- Control runs through statements behind `before`. -/
lemma lowerAll_region {body : List Stmt} {ctx : Context}
    (hbody : ∀ x ∈ body, CodeRuns slots ctx (x.lower env ctx)) {before code : Code}
    {s s' : LowerState} {A : Set Value} {T : Plan → Prop}
    (h : lowerAll env body ctx before s = .ok code s') (hs : Sees slots ctx.scope s A)
    (hctx : ctx.Leads T A) :
    ∃ added A' G, code = before ++ added ∧ A ⊆ A' ∧ Sees slots ctx.scope s' A' ∧
      Region slots T (.after s.block.id before A) added (.after s'.block.id code A') G := by
  induction body generalizing before s A with
  | nil =>
    obtain ⟨rfl, rfl⟩ := lowerAll_nil_ok h
    exact ⟨[], A, [], (List.append_nil _).symm, Set.Subset.refl A, hs, .nil _⟩
  | cons x rest ih =>
    obtain ⟨opened, added, t, t', ho, hx, hrest⟩ := lowerAll_cons_ok h
    obtain ⟨hends, A₁, G₁, hA₁, hst, h₁⟩ := openBlockAfter_region ho hs T
    obtain ⟨A₂, G₂, h₂⟩ := hbody x List.mem_cons_self hx hst (hctx.mono hA₁)
    have hA₂ := hA₁.trans h₂.grows
    obtain ⟨more, A₃, G₃, rfl, hA₃, hs', h₃⟩ := ih (fun y hy => hbody y (List.mem_cons_of_mem x hy))
      hrest h₂.sees (hctx.mono hA₂)
    rw [Point.after_congr (Code.endsWithTerminator_append_eq hends added)] at h₃
    refine ⟨opened ++ added ++ more, A₃, G₁ ++ G₂ ++ G₃, by simp, hA₂.trans hA₃, hs', ?_⟩
    exact (h₁.append h₂.region).append h₃

lemma lower_keeps (env : LowerEnv) {x : Stmt} (hscoped : slots = true → x.armsScoped = true)
    (hdeclaration : x.isDeclaration = false) (ctx : Context) :
    slots = true → CodeKeeps ctx.scope (x.lower env ctx) :=
  fun hslots => (x.lower_grows_of_armsScoped (hscoped hslots) ctx).2 hdeclaration

/-- Control runs through every statement, with an account of the temporaries, and of the slots too
where no part of an `if` and no body of a `while` loop is a declaration. -/
theorem lower_runs (x : Stmt) (hscoped : slots = true → x.armsScoped = true) (ctx : Context) :
    CodeRuns slots ctx (x.lower env ctx) := by
  induction x using Stmt.induction generalizing ctx with
  | expression e =>
    intro s code s' h A T hs hctx
    obtain ⟨seg, he, rfl⟩ := lower_expression_ok h
    obtain ⟨A', G, hpasses, -⟩ := e.lower_passes he hs T
    exact ⟨A', G, .of_passes hpasses hs (e.lower_open he)⟩
  | declaration ds => exact declaration_runs
  | compound body hbody =>
    have hparts : ∀ x ∈ body, slots = true → x.armsScoped = true := by
      intro x hx hslots
      have hall := hscoped hslots
      rw [armsScoped, allArmsScoped_iff] at hall
      exact hall x hx
    intro s code s' h A T hs hctx
    have hkeeps : slots = true → s.scopes.Keeps s'.scopes :=
      fun hslots => lower_keeps env hscoped rfl ctx hslots (hs hslots).2.1 h
    obtain ⟨added, A', G, rfl, hA, -, hregion⟩ := lowerAll_region
      (fun x hx => hbody x hx (hparts x hx) _) (lower_compound_ok h) hs.opened hctx
    exact ⟨A', G, hA, hs.of_keeps hkeeps hA, hregion⟩
  | ifElse condition onTrue onFalse htrue hfalse =>
    cases onFalse with
    | none =>
      have hkeeps := lower_keeps env hscoped rfl ctx
      simp only [armsScoped, Bool.and_eq_true] at hscoped
      exact ifElse_none_runs (htrue (fun hslots => (hscoped hslots).2) ctx) hkeeps
    | some onFalse =>
      have hkeeps := lower_keeps env hscoped rfl ctx
      simp only [armsScoped, Bool.and_eq_true, Bool.not_eq_true'] at hscoped
      refine ifElse_some_runs (htrue (fun hslots => (hscoped hslots).1.2) ctx)
        (hfalse onFalse rfl (fun hslots => (hscoped hslots).2.2) ctx) ?_ hkeeps
      intro hslots
      exact (onTrue.lower_grows_of_armsScoped (hscoped hslots).1.2 ctx).2 (hscoped hslots).1.1
  | whileLoop condition body hbody =>
    have hkeeps := lower_keeps env hscoped rfl ctx
    simp only [armsScoped, Bool.and_eq_true] at hscoped
    exact whileLoop_runs (fun loop => hbody (fun hslots => (hscoped hslots).2) _) hkeeps
  | forLoop init condition step body hinit hbody =>
    cases init with
    | none =>
      have hkeeps := lower_keeps env hscoped rfl ctx
      simp only [armsScoped] at hscoped
      rw [lower] at hkeeps ⊢
      exact forLoop_runs (by simp) (hbody hscoped) hkeeps
    | some init =>
      have hkeeps := lower_keeps env hscoped rfl ctx
      simp only [armsScoped, Bool.and_eq_true] at hscoped
      rw [lower] at hkeeps ⊢
      refine forLoop_runs ?_ (hbody fun hslots => (hscoped hslots).2) hkeeps
      rintro x ⟨⟩
      exact hinit init rfl fun hslots => (hscoped hslots).1
  | ret value => exact ret_runs
  | brk =>
    refine leave_runs ?_
    intro l hl
    obtain ⟨targets, hmem, rfl⟩ := Option.map_eq_some_iff.mp hl
    exact ⟨targets, hmem, Or.inl rfl⟩
  | cont =>
    refine leave_runs ?_
    intro l hl
    obtain ⟨targets, hmem, rfl⟩ := Option.map_eq_some_iff.mp hl
    exact ⟨targets, hmem, Or.inr rfl⟩

end Stmt

namespace Lower

variable {slots : Bool} {T : Plan → Prop} {s s' : LowerState} {env : LowerEnv} {A : Set Value}
  {code : Code}

lemma paramSlots_runs {pairs : List (Param × Value)} (h : paramSlots env pairs s = .ok code s')
    (hs : Sees slots Scopes.root s A) (hpairs : ∀ pair ∈ pairs, pair.2.Ready slots A)
    (T : Plan → Prop) : ∃ A' G, Runs slots T Scopes.root s A code s' A' G := by
  induction pairs generalizing s code A with
  | nil =>
    obtain ⟨rfl, rfl⟩ := pure_ok.mp h
    exact ⟨A, [], .of_passes (.refl s A) hs rfl⟩
  | cons pair rest ih =>
    obtain ⟨-, -, scopes, more, hdeclare, hrest, rfl⟩ := paramSlots_cons_ok h
    have h₀ : Runs slots T Scopes.root s A [.alloca (.slot s.next pair.1.ty)
        (env.options.alignmentFor pair.1.ty)] { s with scopes } _ [] := declare_runs hs hdeclare
    have hready : ∀ x ∈ pair :: rest, x.2.Ready slots (insert (.slot s.next pair.1.ty) A) :=
      fun x hx => (hpairs x hx).mono h₀.grows
    have hstore : Passes slots T { s with scopes } (insert (.slot s.next pair.1.ty) A)
        [.store pair.2 (.slot s.next pair.1.ty) (env.options.alignmentFor pair.1.ty)]
        { s with scopes } (insert (.slot s.next pair.1.ty) A) [] := by
      refine .plain rfl ?_ rfl
      simpa [Instr.operands] using
        ⟨hready pair List.mem_cons_self, Value.Ready.of_mem (Set.mem_insert _ _)⟩
    obtain ⟨A₁, G₁, h₁⟩ := ih hrest h₀.sees fun x hx => hready x (List.mem_cons_of_mem pair hx)
    exact ⟨A₁, _, h₀.append_open rfl ((Runs.of_passes hstore h₀.sees rfl).append_open rfl h₁)⟩

/-- The last lines of a function keep to every plan. -/
lemma ending_region {b : Nat} {frame : Code}
    (hends : frame.endsWithTerminator = code.endsWithTerminator) (returnTy : Ty) :
    ∃ q, Region slots T (.after b code A) (ending returnTy frame ++ [.functionEnd]) q [] := by
  have hskip : Region slots T (.dead b) [.functionEnd] (.dead b) [] :=
    .skip (Or.inl rfl) (by simp [Instr.targets])
  rw [ending, hends]
  cases hcode : code.endsWithTerminator with
  | true =>
    rw [Point.after_of_closed hcode]
    exact ⟨_, hskip⟩
  | false =>
    rw [Point.after_of_open hcode]
    split
    · have hret : Region slots T (.live b A) [.ret none] (.dead b) [] :=
        .leave rfl (by simp [Instr.operands]) (by simp [Instr.targets])
      exact ⟨_, hret.append hskip⟩
    · exact ⟨_, .plain rfl (by simp [Instr.operands])⟩

end Lower

/-- Whether code keeps to the plan behind its first instruction, which defines all that the block of
`entry` asks for. The plan has no other jumps than the code, and the code starts no block twice. -/
structure Plan.Charts (slots : Bool) (P : Plan) (code : Code) (first : Instr) (entry : Label)
    (rest : Code) : Prop where
  code_eq : code = first :: .label entry :: rest
  first_plain : first.isPlain = true
  first_reads : first.operands = []
  values_subset : ∀ v ∈ (P.entry entry.id).values, v ∈ first.results
  edges_subset : ∀ e ∈ P.edges, e ∈ Code.edges entry.id (.label entry :: rest)
  nodup : (code.markers.map Label.id).Nodup
  flows : ∃ q, Flows slots P (.dead entry.id) (.label entry :: rest) q

/-- Every `phi` stands behind the label of its block, and the plan knows what it takes. -/
lemma Plan.Charts.joins {slots : Bool} {P : Plan} {code rest front back : Code} {first : Instr}
    {entry : Label} {r : Value} {incoming : List (Value × Label)}
    (h : P.Charts slots code first entry rest) (hphi : code = front ++ .phi r incoming :: back) :
    ∃ front' l, front = front' ++ [.label l] ∧ P.Joins l incoming := by
  have hcode := h.code_eq.symm.trans hphi
  cases front with
  | nil =>
    have hplain := h.first_plain
    rw [(List.cons_eq_cons.mp hcode).1] at hplain
    cases hplain
  | cons j front =>
    obtain ⟨q, hflows⟩ := h.flows
    rw [(List.cons_eq_cons.mp hcode).2] at hflows
    obtain ⟨front', l, rfl, hl⟩ := Flows.joins_of_phi front hflows
    exact ⟨j :: front', l, rfl, hl⟩

/-- The parameters are all that a function starts with. -/
lemma LowerEnv.start_sees (env : LowerEnv) (slots : Bool) (A : Set Value) :
    Sees slots Scopes.root env.start A := by
  refine fun _ => ⟨?_, Nat.one_pos, ?_⟩
  · intro id parent hparent
    cases id with
    | zero => cases hparent
    | succ id => cases hparent
  · intro x hx
    cases hx

namespace Definition

/-- The blocks of a function, before their labels are resolved. -/
def blocks (d : Definition) (env : LowerEnv) (paramCode body : Code) : Code :=
  .label env.entry :: (paramCode ++ (body ++
    (Lower.ending env.returnTy (d.frame env paramCode body) ++ [.functionEnd])))

lemma wholeCode_eq (d : Definition) (env : LowerEnv) (paramCode body : Code) :
    d.wholeCode env paramCode body =
      .functionBegin d.name d.returnTy env.params :: d.blocks env paramCode body := by
  simp [wholeCode, frame, blocks]

end Definition

namespace Definition.Lowered

variable {d : Definition} {env : LowerEnv} {seg : Segment} {slots : Bool}

/-- The code of a function behind its first line is a region. -/
lemma region (w : d.Lowered env seg)
    (hscoped : slots = true → ∀ x ∈ d.body, x.armsScoped = true) (T : Plan → Prop) :
    ∃ q G, Region slots T (.dead 0) (d.blocks env w.paramCode w.body) q
      ((0, ⟨{v | v ∈ env.params}, []⟩) :: G) := by
  have hentry : env.entry.id = 0 := by rw [w.entry]; rfl
  have hlabel : Region slots T (.dead 0) [.label env.entry] (.live 0 {v | v ∈ env.params})
      [(0, ⟨{v | v ∈ env.params}, []⟩)] := by
    have hregion : Region slots T (.dead 0) [.label env.entry] _ _ :=
      .label env.entry {v | v ∈ env.params}
    rwa [hentry] at hregion
  obtain ⟨A₁, G₁, h₁⟩ := Lower.paramSlots_runs w.params_ok
    (env.start_sees slots {v | v ∈ env.params})
    (fun pair hpair => .of_mem (List.of_mem_zip hpair).2) T
  have hparams := h₁.region
  rw [Point.after_of_open (Program.paramSlots_open w.params_ok)] at hparams
  have hstart : env.start.block.id = 0 := hentry
  rw [hstart] at hparams
  obtain ⟨added, A₂, G₂, hadded, -, -, h₂⟩ := Stmt.lowerAll_region (T := T)
    (fun x hx => x.lower_runs (fun hslots => hscoped hslots x hx) _) w.body_ok h₁.sees.opened
    (by simp [Context.Leads])
  rw [List.nil_append] at hadded
  subst hadded
  have hframe : (d.frame env w.paramCode w.body).endsWithTerminator =
      w.body.endsWithTerminator := by
    have hopen := Code.endsWithTerminator_label
      [.functionBegin d.name d.returnTy env.params] env.entry (Program.paramSlots_open w.params_ok)
    exact Code.endsWithTerminator_append_eq hopen w.body
  obtain ⟨q, h₃⟩ := Lower.ending_region (T := T) (A := A₂) hframe env.returnTy
  have hrest := hparams.append (h₂.append h₃)
  exact ⟨q, _, hlabel.append hrest⟩

/-- There is a plan for every function. It accounts for the slots where no part of an `if` and no
body of a `while` loop is a declaration. -/
theorem charts (w : d.Lowered env seg) (slots : Bool)
    (hscoped : slots = true → ∀ x ∈ d.body, x.armsScoped = true) :
    ∃ P first entry rest, Plan.Charts slots P seg.instructions first entry rest := by
  obtain ⟨q, G, hregion⟩ := w.region hscoped fun _ => True
  have hentry : env.entry.id = 0 := by rw [w.entry]; rfl
  have hid : ∀ l, (w.final.labels.named l).id = l.id := fun _ => rfl
  have hcode := w.code
  rw [wholeCode_eq, List.map_cons] at hcode
  have hids : (Code.markers seg.instructions).map Label.id =
      (Code.markers (d.blocks env w.paramCode w.body)).map Label.id := by
    rw [hcode, Code.markers_cons_of_none rfl, Code.markers_relabel, List.map_map]
    exact List.map_congr_left fun l _ => hid l
  have hkeys := w.nodup_ids
  rw [hids, ← hregion.keys] at hkeys
  obtain ⟨P, hmeets, hedges⟩ := Plan.exists_meets hkeys
    {e | e ∈ Code.edges 0 (d.blocks env w.paramCode w.body)}
  refine ⟨P, _, w.final.labels.named env.entry, _, hcode, rfl, rfl, ?_, ?_, w.nodup_ids, q, ?_⟩
  · rw [hid, hentry, hmeets _ List.mem_cons_self]
    exact fun v hv => hv
  · rw [hid, hentry, hedges, ← Code.edges_relabel hid]
    exact fun e he => he
  · rw [hid, hentry]
    exact (hregion.flows P trivial hmeets fun e he => by rw [hedges]; exact he).relabel hid

end Definition.Lowered

end MiniC
