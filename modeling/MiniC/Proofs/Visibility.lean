import MiniC.Proofs.StmtSteps
import MiniC.Proofs.TreeInduction
import MiniC.Proofs.Evaluation

/-!
# Visible variables

Names are looked up in a scope and then in those around it. Seen as one list, the innermost variable
first, a declaration puts a variable in front, and any other statement leaves the list of its scope
as it is, whatever it declares in scopes of its own.
-/

namespace MiniC

namespace Scopes

/-- The variables that a scope sees, the innermost first. -/
def visible (s : Scopes) (scope : ScopeId) : List (String × Value) :=
  (s.chain scope).flatMap fun id => (s.scopes[id]?.map Scope.bindings).getD []

/-- Whether every scope comes after the one around it. -/
def Ordered (s : Scopes) : Prop := ∀ id parent, s.parent? id = some parent → parent < id

variable {s s' : Scopes} {scope : ScopeId}

lemma lookup_ok {name : String} {v : Value} :
    s.lookup scope name = .ok v ↔ (s.visible scope).lookup name = some v := by
  have hchain : ∀ ids : List ScopeId, ids.findSome? (fun id => s.binding? id name) =
      (ids.flatMap fun id => (s.scopes[id]?.map Scope.bindings).getD []).lookup name := by
    intro ids
    induction ids with
    | nil => rfl
    | cons id rest ih =>
      rw [List.findSome?_cons, List.flatMap_cons, List.lookup_append, ← ih, binding?]
      cases s.scopes[id]? with
      | none => rfl
      | some found =>
        simp only [Option.bind_some, Option.map_some, Option.getD_some]
        cases found.bindings.lookup name <;> rfl
  rw [lookup, hchain, visible]
  cases List.lookup name (List.flatMap _ (s.chain scope)) <;> simp

/-- A name that is found is visible. -/
lemma mem_visible_of_lookup {name : String} {v : Value} (h : s.lookup scope name = .ok v) :
    (name, v) ∈ s.visible scope := by
  obtain ⟨front, back, hvisible, -⟩ := List.lookup_eq_some_iff.mp (lookup_ok.mp h)
  rw [hvisible]
  exact List.mem_append_right front List.mem_cons_self

lemma chainFrom_congr (h : s.Ordered) {bound : ScopeId}
    (hsame : ∀ id ≤ bound, s'.scopes[id]? = s.scopes[id]?) {n : Nat} {id : ScopeId} (hid : id ≤ bound) :
    s'.chainFrom n id = s.chainFrom n id := by
  induction n generalizing id with
  | zero => rfl
  | succ n ih =>
    have hparent : s'.parent? id = s.parent? id := by rw [parent?, parent?, hsame id hid]
    rw [chainFrom, chainFrom, hparent]
    cases hp : s.parent? id with
    | none => rfl
    | some parent =>
      have hlt := h id parent hp
      simp only [ih (Nat.le_trans (Nat.le_of_lt hlt) hid)]

lemma mem_chainFrom_le (h : s.Ordered) {n : Nat} {id other : ScopeId}
    (hmem : other ∈ s.chainFrom n id) : other ≤ id := by
  induction n generalizing id with
  | zero => cases hmem
  | succ n ih =>
    rw [chainFrom] at hmem
    cases hp : s.parent? id with
    | none =>
      simp only [hp, List.mem_singleton] at hmem
      exact Nat.le_of_eq hmem
    | some parent =>
      simp only [hp, List.mem_cons] at hmem
      rcases hmem with rfl | hmem
      · exact Nat.le_refl _
      · exact Nat.le_trans (ih hmem) (Nat.le_of_lt (h id parent hp))

/-- What a scope sees depends on the scopes up to it only. -/
lemma visible_congr (h : s.Ordered) (hsame : ∀ id ≤ scope, s'.scopes[id]? = s.scopes[id]?) :
    s'.visible scope = s.visible scope := by
  have hchain : s'.chain scope = s.chain scope := chainFrom_congr h hsame (Nat.le_refl _)
  rw [visible, visible, hchain, List.flatMap_def, List.flatMap_def]
  congr 1
  refine List.map_congr_left fun id hid => ?_
  rw [hsame id (mem_chainFrom_le h hid)]

lemma visible_of_scopes_eq (h : s'.scopes = s.scopes) : s'.visible scope = s.visible scope := by
  have hchain : ∀ n id, s'.chainFrom n id = s.chainFrom n id := by
    intro n
    induction n with
    | zero => exact fun _ => rfl
    | succ n ih =>
      intro id
      rw [chainFrom, chainFrom, parent?, parent?, h]
      cases s.scopes[id]?.bind Scope.parent with
      | none => rfl
      | some parent => simp only [ih]
  rw [visible, visible, chain, chain, hchain, h]

/-- More than enough rounds find the same chain. -/
lemma chainFrom_of_lt (h : s.Ordered) {id : ScopeId} :
    ∀ {n : Nat}, id < n → s.chainFrom n id = s.chain id := by
  induction id using Nat.strongRecOn with
  | ind id ih =>
    intro n hn
    cases n with
    | zero => exact absurd hn (Nat.not_lt_zero id)
    | succ n =>
      rw [chain, chainFrom, chainFrom]
      cases hp : s.parent? id with
      | none => rfl
      | some parent =>
        have hlt := h id parent hp
        simp only [ih parent hlt (Nat.lt_of_lt_of_le hlt (Nat.le_of_lt_succ hn)), ih parent hlt hlt]

/-- A scope sees its own variables in front of those that the scope around it sees. -/
lemma visible_of_parent (h : s.Ordered) {found : Scope} (hfound : s.scopes[scope]? = some found) :
    s.visible scope = found.bindings ++
      match found.parent with
      | some parent => s.visible parent
      | none => [] := by
  have hparent : s.parent? scope = found.parent := by rw [parent?, hfound]; rfl
  rw [visible, chain, chainFrom, hparent]
  cases hp : found.parent with
  | none => simp [hfound]
  | some parent =>
    have hlt : parent < scope := h scope parent (by rw [hparent, hp])
    simp only [List.flatMap_cons, hfound, Option.map_some, Option.getD_some,
      chainFrom_of_lt h hlt]
    rfl

end Scopes

/-- From `s` to `s'`, scopes were added and `added` was declared in `scope`; nothing else changed. -/
structure Scopes.Grows (scope : ScopeId) (added : List (String × Value)) (s s' : Scopes) : Prop where
  ordered : s.Ordered → scope < s.scopes.length → s'.Ordered
  size_le : s.scopes.length ≤ s'.scopes.length
  other : ∀ id < s.scopes.length, id ≠ scope → s'.scopes[id]? = s.scopes[id]?
  here : s'.scopes[scope]? = s.scopes[scope]?.map fun x => { x with bindings := added ++ x.bindings }

/-- From `s` to `s'`, scopes were added and nothing else changed. -/
structure Scopes.Keeps (s s' : Scopes) : Prop where
  ordered : s.Ordered → s'.Ordered
  size_le : s.scopes.length ≤ s'.scopes.length
  same : ∀ id < s.scopes.length, s'.scopes[id]? = s.scopes[id]?

namespace Scopes

variable {s t s' : Scopes} {scope : ScopeId} {added more : List (String × Value)}

lemma Keeps.of_eq (h : s'.scopes = s.scopes) : Keeps s s' where
  ordered hs := by
    intro id parent hp
    rw [parent?, h] at hp
    exact hs id parent hp
  size_le := Nat.le_of_eq (by rw [h])
  same id _ := by rw [h]

lemma Keeps.trans (h : Keeps s t) (h' : Keeps t s') : Keeps s s' where
  ordered hs := h'.ordered (h.ordered hs)
  size_le := Nat.le_trans h.size_le h'.size_le
  same id hid := by rw [h'.same id (Nat.lt_of_lt_of_le hid h.size_le), h.same id hid]

lemma Keeps.visible_eq (h : Keeps s s') (hs : s.Ordered) (hscope : scope < s.scopes.length) :
    s'.visible scope = s.visible scope :=
  visible_congr hs fun id hid => h.same id (Nat.lt_of_le_of_lt hid hscope)

lemma Keeps.grows (h : Keeps s s') (hscope : scope < s.scopes.length) : Grows scope [] s s' where
  ordered hs _ := h.ordered hs
  size_le := h.size_le
  other id hid _ := h.same id hid
  here := by
    rw [h.same scope hscope]
    cases s.scopes[scope]? <;> rfl

lemma Grows.trans (h : Grows scope added s t) (h' : Grows scope more t s') :
    Grows scope (more ++ added) s s' where
  ordered hs hscope := h'.ordered (h.ordered hs hscope) (Nat.lt_of_lt_of_le hscope h.size_le)
  size_le := Nat.le_trans h.size_le h'.size_le
  other id hid hne := by rw [h'.other id (Nat.lt_of_lt_of_le hid h.size_le) hne, h.other id hid hne]
  here := by
    rw [h'.here, h.here]
    cases s.scopes[scope]? <;> simp

/-- A scope sees what was declared in it in front of what it saw before. -/
lemma Grows.visible_eq (h : Grows scope added s s') (hs : s.Ordered)
    (hscope : scope < s.scopes.length) : s'.visible scope = added ++ s.visible scope := by
  have hfound := List.getElem?_eq_getElem hscope
  have hfound' := h.here
  rw [hfound, Option.map_some] at hfound'
  rw [visible_of_parent (h.ordered hs hscope) hfound', visible_of_parent hs hfound, List.append_assoc]
  congr 2
  cases hp : (s.scopes[scope]).parent with
  | none => rfl
  | some parent =>
    have hlt : parent < scope := hs scope parent (by rw [parent?, hfound]; exact hp)
    refine visible_congr hs fun id hid => h.other id ?_ ?_
    · exact Nat.lt_of_le_of_lt hid (Nat.lt_trans hlt hscope)
    · exact Nat.ne_of_lt (Nat.lt_of_le_of_lt hid hlt)

lemma openChild_keeps (hs : scope < s.scopes.length) : Keeps s (s.openChild scope).2 where
  ordered := by
    intro hord id parent hp
    rw [parent?, getElem?_openChild] at hp
    split at hp
    · rename_i hnew
      cases hp
      rwa [hnew]
    · exact hord id parent hp
  size_le := by simp [openChild]
  same id hid := by rw [getElem?_openChild, if_neg (Nat.ne_of_lt hid)]

/-- A new scope sees what the scope around it sees. -/
lemma visible_openChild (hord : s.Ordered) (hs : scope < s.scopes.length) :
    (s.openChild scope).2.visible s.scopes.length = s.visible scope := by
  have hkeeps := openChild_keeps hs
  have hfound : (s.openChild scope).2.scopes[s.scopes.length]? = some ⟨some scope, []⟩ := by
    simp [openChild]
  rw [visible_of_parent (hkeeps.ordered hord) hfound, List.nil_append]
  exact hkeeps.visible_eq hord hs

/-- What grew inside of a scope that was just opened leaves the others as they were. -/
lemma Grows.keeps_of_openChild (hs : scope < s.scopes.length)
    (h : Grows s.scopes.length added (s.openChild scope).2 s') : Keeps s s' where
  ordered hord := h.ordered ((openChild_keeps hs).ordered hord) (by simp [openChild])
  size_le := Nat.le_trans (openChild_keeps hs).size_le h.size_le
  same id hid := by
    have hlt := Nat.lt_of_lt_of_le hid (openChild_keeps (s := s) hs).size_le
    rw [h.other id hlt (Nat.ne_of_lt hid), (openChild_keeps hs).same id hid]

lemma declare_grows {name : String} {slot : Value} (h : s.declare scope name slot = .ok s') :
    Grows scope [(name, slot)] s s' := by
  rw [declare] at h
  split at h
  · cases h
  · cases h
    constructor
    · intro hord _ id parent hp
      refine hord id parent ?_
      rw [parent?, List.getElem?_modify] at hp
      rw [parent?]
      cases hfound : s.scopes[id]? with
      | none => simp [hfound] at hp
      | some found =>
        rw [hfound] at hp
        by_cases hid : scope = id
        · simpa [hid, Scope.bind] using hp
        · simpa [hid] using hp
    · simp
    · intro id _ hne
      exact List.getElem?_modify_ne _ _ (Ne.symm hne)
    · exact List.getElem?_modify_eq _ _ _

lemma declare_next {name : String} {slot : Value} (h : s.declare scope name slot = .ok s') :
    s'.nextNumber = s.nextNumber := by
  rw [declare] at h
  split at h <;> cases h
  rfl

/-- Whether `P` holds of every slot that a variable stands for. -/
def Binds (P : Value → Prop) (s : Scopes) : Prop :=
  ∀ scope ∈ s.scopes, ∀ b ∈ scope.bindings, P b.2

variable {P : Value → Prop}

lemma Binds.of_eq (h : s.Binds P) (heq : s'.scopes = s.scopes) : s'.Binds P := by
  rwa [Binds, heq]

lemma Binds.lookup (h : s.Binds P) {name : String} {slot : Value}
    (hl : s.lookup scope name = .ok slot) : P slot := by
  obtain ⟨id, -, hb⟩ := List.mem_flatMap.mp (mem_visible_of_lookup hl)
  cases hfound : s.scopes[id]? with
  | none => simp [hfound] at hb
  | some found =>
    simp only [hfound, Option.map_some, Option.getD_some] at hb
    exact h found (List.mem_of_getElem? hfound) _ hb

lemma Binds.openChild (h : s.Binds P) (scope : ScopeId) : (s.openChild scope).2.Binds P := by
  intro x hx b hb
  rcases List.mem_append.mp hx with hx | hx
  · exact h x hx b hb
  · rw [List.mem_singleton.mp hx] at hb
    cases hb

lemma Binds.declare (h : s.Binds P) {name : String} {slot : Value}
    (hs : s.declare scope name slot = .ok s') (hslot : P slot) : s'.Binds P := by
  rw [Scopes.declare] at hs
  split at hs
  · cases hs
  · cases hs
    intro x hx b hb
    obtain ⟨k, hk⟩ := List.mem_iff_getElem?.mp hx
    rw [List.getElem?_modify] at hk
    cases hfound : s.scopes[k]? with
    | none => simp [hfound] at hk
    | some found =>
      have hold := h found (List.mem_of_getElem? hfound)
      rw [hfound] at hk
      by_cases hid : scope = k
      · simp only [hid, ↓reduceIte, Option.map_eq_map, Option.map_some, Option.some.injEq] at hk
        rw [← hk, Scope.bind, List.mem_cons] at hb
        rcases hb with rfl | hb
        · exact hslot
        · exact hold b hb
      · simp only [hid, ↓reduceIte, Option.map_eq_map, Option.map_some, Option.some.injEq] at hk
        exact hold b (hk ▸ hb)

end Scopes

namespace Lower

variable {s s' : LowerState} {env : LowerEnv} {scope : ScopeId}

/-- Whether a lowering changes no scope. -/
def SegmentKeeps (x : Lower Segment) : Prop :=
  ∀ ⦃s seg s'⦄, x s = .ok seg s' → s'.scopes.scopes = s.scopes.scopes

lemma coerce_keeps {v : Value} {ty : Ty} {context : String} {r : Code × Value}
    (h : coerce v ty context s = .ok r s') : s'.scopes.scopes = s.scopes.scopes := by
  rcases coerce_ok h with ⟨w, -, rfl, rfl⟩ | ⟨-, -, -, -, rfl, rfl⟩
  · rfl
  · rfl

lemma operandAs_keeps {x : Lower Segment} (hx : SegmentKeeps x) {ty : Ty} {context : String}
    {r : Code × Value} (h : operandAs x ty context s = .ok r s') :
    s'.scopes.scopes = s.scopes.scopes := by
  obtain ⟨code, v, conversion, t, hlow, hc, -⟩ := operandAs_ok h
  rw [coerce_keeps hc, hx hlow]

lemma arm_keeps {x : Lower Segment} (hx : SegmentKeeps x) {keepBoolean : Bool} {r : Code × Value}
    (h : arm keepBoolean x s = .ok r s') : s'.scopes.scopes = s.scopes.scopes := by
  obtain ⟨code, v, conversion, t, hlow, -, ⟨-, -, -, rfl⟩ | ⟨-, -, hc⟩⟩ := arm_ok h
  · exact hx hlow
  · rw [coerce_keeps hc, hx hlow]

lemma arguments_keeps {args : List (Lower Segment)} (hargs : ∀ x ∈ args, SegmentKeeps x)
    {tys : List Ty} {r : Code × List Value} (h : arguments args tys s = .ok r s') :
    s'.scopes.scopes = s.scopes.scopes := by
  induction args generalizing tys s r with
  | nil =>
    obtain ⟨rfl, rfl⟩ := pure_ok.mp h
    rfl
  | cons x rest ih =>
    cases tys with
    | nil =>
      obtain ⟨rfl, rfl⟩ := pure_ok.mp h
      rfl
    | cons ty tys =>
      obtain ⟨code, v, more, vs, t, hx, hrest, rfl⟩ := arguments_cons_ok h
      rw [ih (fun y hy => hargs y (List.mem_cons_of_mem x hy)) hrest,
        operandAs_keeps (hargs x List.mem_cons_self) hx]

end Lower

open Lower in
theorem Expr.lower_keeps {env : LowerEnv} {scope : ScopeId} (e : Expr) :
    SegmentKeeps (e.lower env scope) := by
  refine Expr.lower_induction (Φ := SegmentKeeps) ?constant ?readVariable ?increment ?binary
    ?comparison ?booleanCast ?conditional ?assignment ?call e
  case constant =>
    intro v hv s seg s' h
    obtain ⟨rfl, rfl⟩ := pure_ok.mp h
    rfl
  case readVariable =>
    intro name s seg s' h
    obtain ⟨id, ty, -, rfl, -⟩ := readVariable_ok h
    rfl
  case increment =>
    intro name delta before s seg s' h
    obtain ⟨id, ty, -, -, rfl, -⟩ := increment_ok h
    rfl
  case binary =>
    intro op ty left right hl hr s seg s' h
    obtain ⟨leftCode, lhs, rightCode, rhs, t, t', hleft, hright, rfl, -⟩ := binary_ok h
    rw [LowerState.drawn_scopes, operandAs_keeps hr hright, operandAs_keeps hl hleft]
  case comparison =>
    intro relation left right hl hr s seg s' h
    obtain ⟨leftCode, lhs, rightCode, rhs, leftConversion, lhs', rightConversion, rhs', ty, t₁, t₂,
      t₃, t₄, hleft, hright, -, hcl, hcr, rfl, -⟩ := comparison_ok h
    rw [LowerState.drawn_scopes, coerce_keeps hcr, coerce_keeps hcl, hr hright, hl hleft]
  case booleanCast =>
    intro inner hx s seg s' h
    obtain ⟨code, v, t, hlow, ⟨-, rfl, -⟩ | ⟨-, -, rfl, -⟩⟩ := booleanCast_ok h
    · exact hx hlow
    · rw [LowerState.drawn_scopes, hx hlow]
  case conditional =>
    intro keepBoolean condition onTrue onFalse hcond htrue hfalse s seg s' h
    obtain ⟨test, v, trueCode, trueValue, trueJump, falseCode, falseValue, falseJump, trueValue',
      falseValue', ty, t, t₁, t₂, log₁, log₂, n, -, hc, -, ht, -, hf, -, -, -, -, -, -, -, -, rfl,
      -⟩ := conditional_ok h
    have h₁ := operandAs_keeps hcond hc
    have h₂ := arm_keeps htrue ht
    have h₃ := arm_keeps hfalse hf
    simp only [LowerState.placed_scopes, LowerState.allocated_scopes,
      LowerState.logged_scopes] at h₂ h₃
    rw [LowerState.drawn_scopes, LowerState.placed_scopes, LowerState.logged_scopes, h₃, h₂, h₁]
  case assignment =>
    intro target value hx s seg s' h
    obtain ⟨id, ty, code, v, -, -, hv, -, -⟩ := assignment_ok h
    exact operandAs_keeps hx hv
  case call =>
    intro callee args hargs s seg s' h
    obtain ⟨signature, code, values, t, -, -, ha, ⟨-, rfl, -⟩ | ⟨-, rfl, -⟩⟩ := call_ok h
    · exact arguments_keeps hargs ha
    · rw [LowerState.drawn_scopes, arguments_keeps hargs ha]

namespace Lower

variable {s s' : LowerState} {env : LowerEnv} {scope : ScopeId} {ctx : Context} {code : Code}

/-- Whether a lowering leaves all scopes as they are, apart from new ones. -/
def CodeKeeps (scope : ScopeId) (x : Lower Code) : Prop :=
  ∀ ⦃s code s'⦄, scope < s.scopes.scopes.length → x s = .ok code s' → s.scopes.Keeps s'.scopes

/-- Whether a lowering declares variables at most in the given scope, apart from new ones. -/
def CodeGrows (scope : ScopeId) (x : Lower Code) : Prop :=
  ∀ ⦃s code s'⦄, scope < s.scopes.scopes.length → x s = .ok code s' →
    ∃ added, s.scopes.Grows scope added s'.scopes

lemma CodeKeeps.codeGrows {x : Lower Code} (hx : CodeKeeps scope x) : CodeGrows scope x :=
  fun _ _ _ hscope h => ⟨[], (hx hscope h).grows hscope⟩

/-- The slot of a variable takes the next number. -/
lemma declareSlot_grows {name : String} {slot : Value} {scopes : Scopes}
    (h : s.drawn.scopes.declare scope name slot = .ok scopes)
    (hscope : scope < s.scopes.scopes.length) : s.scopes.Grows scope [(name, slot)] scopes := by
  have hdrawn : s.scopes.Keeps s.drawn.scopes := .of_eq rfl
  exact (hdrawn.grows hscope).trans (Scopes.declare_grows h)

lemma declarator_grows {d : Declarator} (h : declarator env scope d s = .ok code s')
    (hscope : scope < s.scopes.scopes.length) :
    s.scopes.Grows scope [(d.name, .slot s.next d.ty)] s'.scopes := by
  obtain ⟨-, scopes, hs, h⟩ := declarator_ok h
  have hdeclared := declareSlot_grows hs hscope
  rcases h with ⟨-, rfl, -⟩ | ⟨e, init, v, -, hv, -, -⟩
  · exact hdeclared
  · have hinit : Scopes.Keeps scopes s'.scopes := .of_eq (operandAs_keeps e.lower_keeps hv)
    have hscope' := Nat.lt_of_lt_of_le hscope hdeclared.size_le
    exact hdeclared.trans (hinit.grows hscope')

lemma declaration_grows (ds : List Declarator) : CodeGrows scope (declaration env scope ds) := by
  induction ds with
  | nil =>
    intro s code s' hscope h
    obtain ⟨rfl, rfl⟩ := pure_ok.mp h
    exact ⟨[], (Scopes.Keeps.of_eq rfl).grows hscope⟩
  | cons d rest ih =>
    intro s code s' hscope h
    obtain ⟨first, more, t, hd, hrest, rfl⟩ := declaration_cons_ok h
    have h₁ := declarator_grows hd hscope
    obtain ⟨added, h₂⟩ := ih (Nat.lt_of_lt_of_le hscope h₁.size_le) hrest
    exact ⟨_, h₁.trans h₂⟩

lemma branchOn_keeps {condition : Lower Segment} (hcond : SegmentKeeps condition)
    {onTrue onFalse : Label} (h : branchOn condition onTrue onFalse s = .ok code s') :
    s'.scopes.scopes = s.scopes.scopes := by
  obtain ⟨test, v, hv, -, rfl⟩ := branchOn_ok h
  exact operandAs_keeps hcond hv

lemma ifElse_none_keeps {condition : Lower Segment} (hcond : SegmentKeeps condition)
    {onTrue : Lower Code} (htrue : CodeKeeps scope onTrue) :
    CodeKeeps scope (ifElse env condition onTrue none) := by
  intro s code s' hscope h
  obtain ⟨test, trueCode, jump, t, t₁, log, n, -, htest, -, ht, -, -, rfl, -⟩ := ifElse_none_ok h
  have h₁ := branchOn_keeps hcond htest
  have h₂ : s.scopes.Keeps (t.placed (.pending n)).scopes := .of_eq h₁
  have h₃ := htrue (Nat.lt_of_lt_of_le hscope h₂.size_le) ht
  exact h₂.trans (h₃.trans (.of_eq rfl))

lemma ifElse_some_keeps {condition : Lower Segment} (hcond : SegmentKeeps condition)
    {onTrue onFalse : Lower Code} (htrue : CodeKeeps scope onTrue)
    (hfalse : CodeKeeps scope onFalse) :
    CodeKeeps scope (ifElse env condition onTrue (some onFalse)) := by
  intro s code s' hscope h
  obtain ⟨test, trueCode, trueJump, falseCode, falseJump, t, t₁, t₂, log₁, log₂, n, m, -, htest,
    -, ht, -, -, hf, -, -, -, rfl, -⟩ := ifElse_some_ok h
  have h₁ := branchOn_keeps hcond htest
  have h₂ : s.scopes.Keeps (t.placed (.pending n)).scopes := .of_eq h₁
  have h₃ := h₂.trans (htrue (Nat.lt_of_lt_of_le hscope h₂.size_le) ht)
  have h₄ : s.scopes.Keeps ((t₁.allocated.logged log₁).placed (.pending (n + 1))).scopes :=
    h₃.trans (.of_eq rfl)
  have h₅ := h₄.trans (hfalse (Nat.lt_of_lt_of_le hscope h₄.size_le) hf)
  exact h₅.trans (.of_eq rfl)

lemma whileLoop_keeps {condition : Lower Segment} (hcond : SegmentKeeps condition)
    {body : Context → Lower Code} (hbody : ∀ loop, CodeKeeps ctx.scope (body { ctx with loop })) :
    CodeKeeps ctx.scope (whileLoop env ctx condition body) := by
  intro s code s' hscope h
  obtain ⟨test, bodyCode, back, t, t₁, log₀, log, n, -, htest, -, hb, -, -, rfl, -⟩ :=
    whileLoop_ok h
  have h₁ := branchOn_keeps hcond htest
  have h₂ : s.scopes.Keeps (t.placed (.pending (n + 1))).scopes := .of_eq h₁
  have h₃ := hbody _ (Nat.lt_of_lt_of_le hscope h₂.size_le) hb
  exact h₂.trans (h₃.trans (.of_eq rfl))

lemma openBlockAfter_keeps {opened : Code} (h : openBlockAfter code s = .ok opened s') :
    s'.scopes.scopes = s.scopes.scopes := by
  rcases openBlockAfter_ok h with ⟨-, -, rfl⟩ | ⟨-, -, log, rfl⟩
  · rfl
  · rfl

lemma stepAfter_keeps {step : Option (Lower Segment)} (hstep : ∀ x ∈ step, SegmentKeeps x)
    {code' : Code} (h : stepAfter code step s = .ok code' s') :
    s'.scopes.scopes = s.scopes.scopes := by
  rcases stepAfter_ok h with ⟨-, rfl, -⟩ | ⟨x, opened, seg, t, rfl, ho, hx, -⟩
  · rfl
  · rw [hstep x rfl hx, openBlockAfter_keeps ho]

lemma loopTest_keeps {before : Code} {condition : Option (Lower Segment)}
    (hcond : ∀ x ∈ condition, SegmentKeeps x) {bodyLabel exitLabel : Label}
    (h : loopTest env before condition bodyLabel exitLabel s = .ok code s') :
    s'.scopes.scopes = s.scopes.scopes := by
  rcases loopTest_ok h with ⟨-, ⟨log, rfl⟩, -⟩ | ⟨c, rfl, hc⟩
  · rfl
  · exact branchOn_keeps (hcond c rfl) hc

/-- The scope of a loop's header is open when its parts are lowered. -/
lemma forLoop_keeps {init : Option (Context → Lower Code)}
    (hinit : ∀ x ∈ init, ∀ ctx : Context, CodeGrows ctx.scope (x ctx))
    {condition step : Option (ScopeId → Lower Segment)}
    (hcond : ∀ x ∈ condition, ∀ scope, SegmentKeeps (x scope))
    (hstep : ∀ x ∈ step, ∀ scope, SegmentKeeps (x scope))
    {body : Context → Lower Code} (hbody : ∀ ctx : Context, CodeGrows ctx.scope (body ctx)) :
    CodeKeeps ctx.scope (forLoop env ctx init condition step body) := by
  intro s code s' hscope h
  obtain ⟨initCode, entering, test, bodyCode, stepped, back, t₀, t, t₁, t₂, log₀, log, n, scope,
    rfl, hi, -, -, htest, -, hb, hst, -, -, rfl, -⟩ := forLoop_ok h
  have hpart : ∀ {part : Option (ScopeId → Lower Segment)} {scope : ScopeId},
      (∀ x ∈ part, ∀ scope, SegmentKeeps (x scope)) → ∀ x ∈ part.map (· scope), SegmentKeeps x :=
    fun h => Option.forall_mem_map.mpr fun x hx => h x hx _
  have hnew := s.length_lt_opened ctx.scope
  have hinitial : ∃ added,
      (s.opened ctx.scope).scopes.Grows s.scopes.scopes.length added t₀.scopes := by
    rcases initial_ok hi with ⟨-, -, rfl⟩ | ⟨x, rfl, hx⟩
    · exact ⟨[], (Scopes.Keeps.of_eq rfl).grows hnew⟩
    · exact hinit x rfl _ hnew hx
  obtain ⟨added, h₀⟩ := hinitial
  have h₁ := loopTest_keeps (hpart hcond) htest
  have h₂ : t₀.scopes.Keeps (t.placed (.pending (n + 1))).scopes := .of_eq h₁
  have hinner := Nat.lt_of_lt_of_le hnew h₀.size_le
  obtain ⟨more, h₃⟩ := hbody _ (Nat.lt_of_lt_of_le hinner h₂.size_le) hb
  have hloop := (h₂.grows hinner).trans h₃
  have hstepped : t₂.scopes.scopes = t₁.scopes.scopes := stepAfter_keeps (hpart hstep) hst
  have h₄ : t₁.scopes.Keeps ((t₂.logged log).placed (.pending (n + 2))).scopes := .of_eq hstepped
  have hexit := hloop.trans (h₄.grows (Nat.lt_of_lt_of_le hinner hloop.size_le))
  exact (h₀.trans hexit).keeps_of_openChild hscope

lemma ret_keeps {value : Option (Lower Segment)} (hvalue : ∀ x ∈ value, SegmentKeeps x) :
    CodeKeeps scope (ret env value) := by
  intro s code s' _ h
  rcases ret_ok h with ⟨-, -, rfl, -⟩ | ⟨x, first, v, conversion, w, t, rfl, -, hx, hc, -⟩
  · exact .of_eq rfl
  · exact .of_eq (by rw [coerce_keeps hc, hvalue x rfl hx])

lemma leave_keeps {target : Option Label} {outside : LoweringError} :
    CodeKeeps scope (leave target outside) := by
  intro s code s' _ h
  obtain ⟨l, -, rfl, -⟩ := leave_ok h
  exact .of_eq rfl

end Lower

namespace Stmt

open Lower

variable {env : LowerEnv}

mutual

/-- Whether no part of an `if` and no body of a `while` loop is a declaration alone, which would
declare its variables in the scope around the statement. The body of a `for` loop may be one, since
the header of the loop has a scope of its own. -/
def armsScoped : Stmt → Bool
  | .compound body => allArmsScoped body
  | .ifElse _ onTrue none => !onTrue.isDeclaration && onTrue.armsScoped
  | .ifElse _ onTrue (some onFalse) =>
    !onTrue.isDeclaration && onTrue.armsScoped && (!onFalse.isDeclaration && onFalse.armsScoped)
  | .whileLoop _ body => !body.isDeclaration && body.armsScoped
  | .forLoop none _ _ body => body.armsScoped
  | .forLoop (some init) _ _ body => init.armsScoped && body.armsScoped
  | _ => true

def allArmsScoped : List Stmt → Bool
  | [] => true
  | x :: rest => x.armsScoped && allArmsScoped rest

end

lemma allArmsScoped_iff {body : List Stmt} :
    allArmsScoped body = true ↔ ∀ x ∈ body, x.armsScoped = true := by
  induction body with
  | nil => simp [allArmsScoped]
  | cons x rest ih => simp [allArmsScoped, ih]

lemma bodiesScoped_of_mem {body : List Stmt} (h : allBodiesScoped body = true) {x : Stmt}
    (hx : x ∈ body) : x.bodiesScoped = true := by
  induction body with
  | nil => cases hx
  | cons y rest ih =>
    rw [allBodiesScoped, Bool.and_eq_true] at h
    rcases List.mem_cons.mp hx with rfl | hx
    · exact h.1
    · exact ih h.2 hx

lemma armsScoped_of_bodiesScoped (x : Stmt) (h : x.bodiesScoped = true) : x.armsScoped = true := by
  induction x using Stmt.induction with
  | compound body hbody =>
    rw [bodiesScoped] at h
    rw [armsScoped, allArmsScoped_iff]
    exact fun x hx => hbody x hx (bodiesScoped_of_mem h hx)
  | ifElse condition onTrue onFalse htrue hfalse =>
    cases onFalse with
    | none =>
      simp only [bodiesScoped, Bool.and_eq_true] at h
      simp only [armsScoped, Bool.and_eq_true]
      exact ⟨h.1, htrue h.2⟩
    | some onFalse =>
      simp only [bodiesScoped, Bool.and_eq_true] at h
      simp only [armsScoped, Bool.and_eq_true]
      exact ⟨⟨h.1.1, htrue h.1.2⟩, h.2.1, hfalse onFalse rfl h.2.2⟩
  | whileLoop condition body hbody =>
    simp only [bodiesScoped, Bool.and_eq_true] at h
    simp only [armsScoped, Bool.and_eq_true]
    exact ⟨h.1, hbody h.2⟩
  | forLoop init condition step body hinit hbody =>
    cases init with
    | none =>
      simp only [bodiesScoped, Bool.and_eq_true] at h
      exact hbody h.2
    | some init =>
      simp only [bodiesScoped, Bool.and_eq_true] at h
      simp only [armsScoped, Bool.and_eq_true]
      exact ⟨hinit init rfl h.1, hbody h.2.2⟩
  | _ => rfl

lemma lowerAll_grows {body : List Stmt} (ctx : Context)
    (hbody : ∀ x ∈ body, CodeGrows ctx.scope (x.lower env ctx)) (before : Code) :
    CodeGrows ctx.scope (lowerAll env body ctx before) := by
  induction body generalizing before with
  | nil =>
    intro s code s' hscope h
    obtain ⟨rfl, rfl⟩ := lowerAll_nil_ok h
    exact ⟨[], (Scopes.Keeps.of_eq rfl).grows hscope⟩
  | cons x rest ih =>
    intro s code s' hscope h
    obtain ⟨opened, added, t, t', ho, hx, hrest⟩ := lowerAll_cons_ok h
    have h₁ : s.scopes.Keeps t.scopes := .of_eq (openBlockAfter_keeps ho)
    obtain ⟨new, h₂⟩ := hbody x List.mem_cons_self (Nat.lt_of_lt_of_le hscope h₁.size_le) hx
    have h₃ := (h₁.grows hscope).trans h₂
    obtain ⟨more, h₄⟩ := ih (fun y hy => hbody y (List.mem_cons_of_mem x hy)) _
      (Nat.lt_of_lt_of_le hscope h₃.size_le) hrest
    exact ⟨_, h₃.trans h₄⟩

/-- A statement declares variables at most in its own scope, and only a declaration does. -/
theorem lower_grows_of_armsScoped (x : Stmt) (hscoped : x.armsScoped = true) (ctx : Context) :
    CodeGrows ctx.scope (x.lower env ctx) ∧
      (x.isDeclaration = false → CodeKeeps ctx.scope (x.lower env ctx)) := by
  have hkept : ∀ {x : Lower Code} {ctx : Context} {p : Prop}, CodeKeeps ctx.scope x →
      CodeGrows ctx.scope x ∧ (p → CodeKeeps ctx.scope x) := fun h => ⟨h.codeGrows, fun _ => h⟩
  have hpart : ∀ (part : Option Expr), ∀ x ∈ part.map (fun e scope => e.lower env scope),
      ∀ scope, SegmentKeeps (x scope) := fun part =>
    Option.forall_mem_map.mpr fun e _ scope => e.lower_keeps
  induction x using Stmt.induction generalizing ctx with
  | expression e =>
    refine hkept ?_
    intro s code s' _ h
    obtain ⟨seg, he, rfl⟩ := lower_expression_ok h
    exact .of_eq (e.lower_keeps he)
  | declaration ds => exact ⟨declaration_grows ds, fun h => by cases h⟩
  | compound body hbody =>
    rw [armsScoped, allArmsScoped_iff] at hscoped
    refine hkept ?_
    intro s code s' hscope h
    have hnew := s.length_lt_opened ctx.scope
    obtain ⟨added, hgrows⟩ := lowerAll_grows { ctx with scope := s.scopes.scopes.length }
      (fun x hx => (hbody x hx (hscoped x hx) _).1) [] hnew (lower_compound_ok h)
    exact hgrows.keeps_of_openChild hscope
  | ifElse condition onTrue onFalse htrue hfalse =>
    cases onFalse with
    | none =>
      simp only [armsScoped, Bool.and_eq_true, Bool.not_eq_true'] at hscoped
      exact hkept (ifElse_none_keeps condition.lower_keeps ((htrue hscoped.2 ctx).2 hscoped.1))
    | some onFalse =>
      simp only [armsScoped, Bool.and_eq_true, Bool.not_eq_true'] at hscoped
      exact hkept (ifElse_some_keeps condition.lower_keeps
        ((htrue hscoped.1.2 ctx).2 hscoped.1.1)
        ((hfalse onFalse rfl hscoped.2.2 ctx).2 hscoped.2.1))
  | whileLoop condition body hbody =>
    simp only [armsScoped, Bool.and_eq_true, Bool.not_eq_true'] at hscoped
    exact hkept (whileLoop_keeps condition.lower_keeps
      fun loop => (hbody hscoped.2 { ctx with loop }).2 hscoped.1)
  | forLoop init condition step body hinit hbody =>
    cases init with
    | none =>
      rw [armsScoped] at hscoped
      rw [lower]
      exact hkept (forLoop_keeps (by simp) (hpart condition) (hpart step)
        fun ctx => (hbody hscoped ctx).1)
    | some init =>
      rw [armsScoped, Bool.and_eq_true] at hscoped
      rw [lower]
      refine hkept (forLoop_keeps ?_ (hpart condition) (hpart step)
        fun ctx => (hbody hscoped.2 ctx).1)
      rintro x ⟨⟩ ctx
      exact (hinit init rfl hscoped.1 ctx).1
  | ret value =>
    exact hkept (ret_keeps (Option.forall_mem_map.mpr fun e _ => e.lower_keeps))
  | brk => exact hkept leave_keeps
  | cont => exact hkept leave_keeps

lemma lower_grows (x : Stmt) (hscoped : x.bodiesScoped = true) (ctx : Context) :
    CodeGrows ctx.scope (x.lower env ctx) ∧
      (x.isDeclaration = false → CodeKeeps ctx.scope (x.lower env ctx)) :=
  x.lower_grows_of_armsScoped (armsScoped_of_bodiesScoped x hscoped) ctx

end Stmt

end MiniC
