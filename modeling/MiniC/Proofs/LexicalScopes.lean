import MiniC.Proofs.Visibility

/-!
# Lexical scopes

A name means what the nearest scope around it binds it to. The scopes around a scope are those that
its parents lead to; since a parent is always older than its children, the walk outwards ends, and a
new binding reaches exactly the scopes inside of its own that see no nearer binding of the name.
-/

namespace MiniC

namespace Scopes

/-- The scopes after a declaration; one that fails leaves them as they are. -/
def afterDeclare (s : Scopes) (id : ScopeId) (name : String) (slot : Value) : Scopes :=
  match s.declare id name slot with
  | .ok s' => s'
  | .error _ => s

/-- The scopes that any sequence of operations on existing scopes can build. -/
inductive Built : Scopes → Prop
  | new : Built {}
  | openChild {s : Scopes} {parent : ScopeId} (h : Built s) (hparent : parent < s.scopes.length) :
    Built (s.openChild parent).2
  | declare {s : Scopes} {id : ScopeId} (h : Built s) (hid : id < s.scopes.length) (name : String)
    (slot : Value) : Built (s.afterDeclare id name slot)
  | freshNumber {s : Scopes} (h : Built s) : Built s.freshNumber.2

/-- Whether `outer` is `inner` itself or a scope around it. -/
inductive Encloses (s : Scopes) (outer : ScopeId) : ScopeId → Prop
  | self : Encloses s outer outer
  | around {inner parent : ScopeId} (hp : s.parent? inner = some parent)
    (h : Encloses s outer parent) : Encloses s outer inner

/-- Whether a name bound in `outer` is not hidden from `inner`: no scope on the way out from
`inner`, before `outer` is reached, binds it. -/
structure Exposes (s : Scopes) (name : String) (outer inner : ScopeId) : Prop where
  encloses : s.Encloses outer inner
  unbound : ∀ id, s.Encloses id inner → s.Encloses outer id → id ≠ outer → s.binding? id name = none

variable {s s' : Scopes} {id outer inner parent scope : ScopeId} {name other : String}
  {slot v : Value}

/-- What holds of a scope once it holds of its parent holds of all scopes. -/
lemma Ordered.induction (h : s.Ordered) {motive : ScopeId → Prop}
    (step : ∀ id, (∀ parent, s.parent? id = some parent → motive parent) → motive id)
    (id : ScopeId) : motive id := by
  induction id using Nat.strongRecOn with
  | ind id ih => exact step id fun parent hp => ih parent (h id parent hp)

lemma chain_eq (h : s.Ordered) (id : ScopeId) :
    s.chain id = id :: ((s.parent? id).map s.chain).getD [] := by
  rw [chain, chainFrom]
  cases hp : s.parent? id with
  | none => rfl
  | some parent =>
    simp only [chainFrom_of_lt h (h id parent hp), Option.map_some, Option.getD_some]

lemma mem_chain_iff (h : s.Ordered) : outer ∈ s.chain inner ↔ s.Encloses outer inner := by
  induction inner using h.induction with
  | step id ih =>
    rw [chain_eq h id, List.mem_cons]
    constructor
    · rintro (rfl | hmem)
      · exact .self
      · cases hp : s.parent? id with
        | none => simp [hp] at hmem
        | some parent =>
          simp only [hp, Option.map_some, Option.getD_some] at hmem
          exact .around hp ((ih parent hp).mp hmem)
    · rintro (- | ⟨hp, henc⟩)
      · exact .inl rfl
      · refine .inr ?_
        simp only [hp, Option.map_some, Option.getD_some]
        exact (ih _ hp).mpr henc

/-- A lookup asks the scope itself and then the one around it. -/
lemma lookup_eq (h : s.Ordered) (id : ScopeId) (name : String) :
    s.lookup id name =
      match s.binding? id name, s.parent? id with
      | some v, _ => .ok v
      | none, some parent => s.lookup parent name
      | none, none => .error (.undeclaredVariable name) := by
  rw [lookup, chain_eq h id, List.findSome?_cons]
  cases s.binding? id name with
  | some v => rfl
  | none =>
    cases s.parent? id with
    | none => rfl
    | some parent => rfl

lemma lookup_error {e : ScopeError} (h : s.lookup id name = .error e) :
    e = .undeclaredVariable name := by
  rw [lookup] at h
  split at h <;> cases h
  rfl

/-- Scopes that see the same variables give a name the same meaning. -/
lemma lookup_congr (h : s'.visible inner = s.visible outer) (name : String) :
    s'.lookup inner name = s.lookup outer name := by
  cases hr : s.lookup outer name with
  | ok v =>
    rw [lookup_ok] at hr ⊢
    rwa [h]
  | error e =>
    cases hr' : s'.lookup inner name with
    | ok v =>
      rw [lookup_ok, h, ← lookup_ok, hr] at hr'
      cases hr'
    | error e' => rw [lookup_error hr, lookup_error hr']

lemma Encloses.le (h : s.Ordered) (henc : s.Encloses outer inner) : outer ≤ inner := by
  induction henc with
  | self => exact Nat.le_refl outer
  | around hp _ ih => exact Nat.le_trans ih (Nat.le_of_lt (h _ _ hp))

/-- A binding of the scope itself is exposed to it, and one further out to a scope that does not
bind the name and whose parent it is exposed to. -/
lemma exposes_iff (h : s.Ordered) :
    s.Exposes name outer inner ↔ outer = inner ∨
      (s.binding? inner name = none ∧ ∃ parent, s.parent? inner = some parent ∧
        s.Exposes name outer parent) := by
  constructor
  · rintro ⟨henc, hunbound⟩
    by_cases heq : outer = inner
    · exact .inl heq
    · cases henc with
      | self => exact absurd rfl heq
      | around hp henc =>
        have hinner := hunbound inner .self (.around hp henc) (Ne.symm heq)
        exact .inr ⟨hinner, _, hp, henc, fun id hid => hunbound id (.around hp hid)⟩
  · rintro (rfl | ⟨hinner, parent, hp, henc, hunbound⟩)
    · refine ⟨.self, fun id hid houter hne => absurd ?_ hne⟩
      exact Nat.le_antisymm (hid.le h) (houter.le h)
    · refine ⟨.around hp henc, fun id hid houter hne => ?_⟩
      cases hid with
      | self => exact hinner
      | around hp' hid =>
        obtain rfl : parent = _ := Option.some.inj (hp.symm.trans hp')
        exact hunbound id hid houter hne

/-- A name has the slot of the nearest scope that binds it. -/
lemma lookup_ok_iff (h : s.Ordered) :
    s.lookup scope name = .ok v ↔
      ∃ id, s.Exposes name id scope ∧ s.binding? id name = some v := by
  induction scope using h.induction with
  | step scope ih =>
    rw [lookup_eq h]
    constructor
    · intro hlookup
      cases hb : s.binding? scope name with
      | some w =>
        simp only [hb, Except.ok.injEq] at hlookup
        exact ⟨scope, (exposes_iff h).mpr (.inl rfl), hb.trans (congrArg some hlookup)⟩
      | none =>
        cases hp : s.parent? scope with
        | none => simp [hb, hp] at hlookup
        | some parent =>
          simp only [hb, hp] at hlookup
          obtain ⟨id, hexposes, hv⟩ := (ih parent hp).mp hlookup
          exact ⟨id, (exposes_iff h).mpr (.inr ⟨hb, parent, hp, hexposes⟩), hv⟩
    · rintro ⟨id, hexposes, hv⟩
      rcases (exposes_iff h).mp hexposes with rfl | ⟨hb, parent, hp, hparent⟩
      · simp only [hv]
      · simp only [hb, hp]
        exact (ih parent hp).mpr ⟨id, hparent, hv⟩

/-- A name has no slot where no scope around binds it. -/
lemma lookup_error_iff (h : s.Ordered) {e : ScopeError} :
    s.lookup scope name = .error e ↔
      e = .undeclaredVariable name ∧ ∀ id, s.Encloses id scope → s.binding? id name = none := by
  have hnone : (∀ id, s.Encloses id scope → s.binding? id name = none) ↔
      (s.chain scope).findSome? (fun id => s.binding? id name) = none := by
    simp only [List.findSome?_eq_none_iff, mem_chain_iff h]
  rw [hnone, lookup]
  cases List.findSome? (fun id => s.binding? id name) (s.chain scope) with
  | some w => simp
  | none => simp [eq_comm]

lemma declare_error_iff {e : ScopeError} :
    s.declare id name slot = .error e ↔ e = .redeclared name ∧ (s.binding? id name).isSome := by
  rw [declare]
  split
  · next hbound => simp [hbound, eq_comm]
  · next hfree => simp [hfree]

lemma declare_parent? (h : s.declare id name slot = .ok s') :
    s'.parent? scope = s.parent? scope := by
  rw [declare] at h
  split at h <;> cases h
  rw [parent?, parent?, List.getElem?_modify]
  cases s.scopes[scope]? with
  | none => rfl
  | some found => by_cases hid : id = scope <;> simp [hid, Scope.bind]

lemma declare_binding? (h : s.declare id name slot = .ok s') (hid : id < s.scopes.length) :
    s'.binding? scope other =
      if scope = id ∧ other = name then some slot else s.binding? scope other := by
  rw [declare] at h
  split at h <;> cases h
  rw [binding?, binding?, List.getElem?_modify]
  by_cases hscope : scope = id
  · subst hscope
    rw [List.getElem?_eq_getElem hid]
    by_cases hother : other = name
    · simp [hother, Scope.bind]
    · simp [hother, Scope.bind, List.lookup_cons, beq_eq_false_iff_ne.mpr hother]
  · simp [hscope, Ne.symm hscope]

lemma openChild_parent? (s : Scopes) (parent id : ScopeId) : (s.openChild parent).2.parent? id =
    if id = s.scopes.length then some parent else s.parent? id := by
  rw [parent?, getElem?_openChild, parent?]
  split <;> rfl

/-- Opening a scope binds no name. -/
lemma openChild_binding? (s : Scopes) (parent id : ScopeId) (name : String) :
    (s.openChild parent).2.binding? id name = s.binding? id name := by
  rw [binding?, getElem?_openChild, binding?]
  split
  · rename_i hnew
    rw [hnew, List.getElem?_eq_none (Nat.le_refl _)]
    rfl
  · rfl

/-- The scopes that a new binding is exposed to see it. -/
lemma lookup_declare_of_exposes (h : s.Ordered) (hid : id < s.scopes.length)
    (hdeclare : s.declare id name slot = .ok s') (hexposes : s.Exposes name id scope) :
    s'.lookup scope name = .ok slot := by
  have h' : s'.Ordered := (declare_grows hdeclare).ordered h hid
  induction scope using h.induction with
  | step scope ih =>
    rw [lookup_eq h', declare_binding? hdeclare hid, declare_parent? hdeclare]
    by_cases heq : scope = id
    · simp [heq]
    · obtain ⟨hb, parent, hp, hparent⟩ := ((exposes_iff h).mp hexposes).resolve_left (Ne.symm heq)
      simp [heq, hb, hp, ih parent hp hparent]

/-- All other lookups are as before. -/
lemma lookup_declare_of_not (h : s.Ordered) (hid : id < s.scopes.length)
    (hdeclare : s.declare id name slot = .ok s')
    (hnot : ¬ (other = name ∧ s.Exposes name id scope)) :
    s'.lookup scope other = s.lookup scope other := by
  have h' : s'.Ordered := (declare_grows hdeclare).ordered h hid
  induction scope using h.induction with
  | step scope ih =>
    rw [exposes_iff h] at hnot
    have hsame : ¬ (scope = id ∧ other = name) :=
      fun ⟨hscope, hother⟩ => hnot ⟨hother, .inl hscope.symm⟩
    rw [lookup_eq h', lookup_eq h, declare_binding? hdeclare hid, declare_parent? hdeclare,
      if_neg hsame]
    cases hb : s.binding? scope other with
    | some w => rfl
    | none =>
      cases hp : s.parent? scope with
      | none => rfl
      | some parent =>
        refine ih parent hp fun ⟨hother, hexposes⟩ => hnot ⟨hother, .inr ⟨?_, parent, hp, hexposes⟩⟩
        rwa [← hother]

lemma Built.ordered (h : Built s) : s.Ordered := by
  induction h with
  | new =>
    intro id parent hp
    cases id <;> cases hp
  | openChild _ hparent ih => exact (openChild_keeps hparent).ordered ih
  | @declare s id _ hid name slot ih =>
    rw [afterDeclare]
    cases hdeclare : s.declare id name slot with
    | ok s' => exact (declare_grows hdeclare).ordered ih hid
    | error _ => exact ih
  | freshNumber _ ih => exact (Keeps.of_eq rfl).ordered ih

/-- Scopes are lexical, whatever built them. Every parent is older than its children, so that the
walk outwards ends. A name means what the nearest scope around it binds it to, and is undeclared
just where no such scope binds it. A new binding is seen by exactly the scopes that it is exposed
to, and no other lookup changes; one that its own scope already has is refused and changes nothing.
A scope that is opened is a new one inside of its parent that binds nothing. It sees what its parent
sees and leaves all others as they were. -/
theorem Built.lexical (hs : Built s) :
    ((∀ id parent, s.parent? id = some parent → parent < id) ∧
      ∀ id, s.chain id = id :: ((s.parent? id).map s.chain).getD [] ∧
        ∀ outer, outer ∈ s.chain id ↔ s.Encloses outer id) ∧
    (∀ scope name,
      (∀ v, s.lookup scope name = .ok v ↔
        ∃ id, s.Exposes name id scope ∧ s.binding? id name = some v) ∧
      (∀ e, s.lookup scope name = .error e ↔
        e = .undeclaredVariable name ∧ ∀ id, s.Encloses id scope → s.binding? id name = none)) ∧
    (∀ id < s.scopes.length, ∀ name slot,
      (∀ s', s.declare id name slot = .ok s' → ∀ scope other,
        (other = name ∧ s.Exposes name id scope → s'.lookup scope other = .ok slot) ∧
        (s'.lookup scope other ≠ s.lookup scope other ↔
          other = name ∧ s.Exposes name id scope ∧ s.lookup scope other ≠ .ok slot)) ∧
      (∀ e, s.declare id name slot = .error e ↔
        e = .redeclared name ∧ (s.binding? id name).isSome) ∧
      ((s.binding? id name).isSome → ∀ scope other,
        (s.afterDeclare id name slot).lookup scope other = s.lookup scope other)) ∧
    (∀ parent < s.scopes.length,
      ((s.openChild parent).1 = s.scopes.length ∧
        (s.openChild parent).2.scopes.length = s.scopes.length + 1 ∧
        (∀ id, (s.openChild parent).2.parent? id =
          if id = (s.openChild parent).1 then some parent else s.parent? id) ∧
        ∀ id name, (s.openChild parent).2.binding? id name = s.binding? id name) ∧
      ∀ name,
        (∀ scope < s.scopes.length,
          (s.openChild parent).2.lookup scope name = s.lookup scope name) ∧
        (s.openChild parent).2.lookup (s.openChild parent).1 name = s.lookup parent name) ∧
    (∀ scope name, s.freshNumber.2.lookup scope name = s.lookup scope name) := by
  have h := hs.ordered
  refine ⟨⟨h, fun id => ⟨chain_eq h id, fun outer => mem_chain_iff h⟩⟩,
    fun scope name => ⟨fun v => lookup_ok_iff h, fun e => lookup_error_iff h⟩,
    fun id hid name slot => ⟨fun s' hdeclare scope other => ?_, fun e => declare_error_iff, ?_⟩,
    fun parent hparent => ⟨⟨rfl, List.length_append, s.openChild_parent? parent,
      s.openChild_binding? parent⟩, fun name => ⟨fun scope hscope => ?_, ?_⟩⟩,
    fun scope name => ?_⟩
  · have hseen : other = name ∧ s.Exposes name id scope → s'.lookup scope other = .ok slot := by
      rintro ⟨rfl, hexposes⟩
      exact lookup_declare_of_exposes h hid hdeclare hexposes
    refine ⟨hseen, fun hne => ?_, fun ⟨hother, hexposes, hold⟩ => ?_⟩
    · by_cases hcond : other = name ∧ s.Exposes name id scope
      · exact ⟨hcond.1, hcond.2, fun hold => hne ((hseen hcond).trans hold.symm)⟩
      · exact absurd (lookup_declare_of_not h hid hdeclare hcond) hne
    · rw [hseen ⟨hother, hexposes⟩]
      exact Ne.symm hold
  · intro hbound scope other
    rw [afterDeclare, declare_error_iff.mpr ⟨rfl, hbound⟩]
  · exact lookup_congr ((openChild_keeps hparent).visible_eq h hscope) name
  · exact lookup_congr (visible_openChild h hparent) name
  · have hsame : s.freshNumber.2.visible scope = s.visible scope := visible_of_scopes_eq rfl
    exact lookup_congr hsame name

/-- Three scopes inside of each other, with a variable in the outermost. -/
def nested : Scopes :=
  ((({} : Scopes).afterDeclare root "x" (.slot 0 .i32)).openChild root).2.openChild 1 |>.2

theorem Built.lexical_nested :
    Built nested ∧ nested.lookup 2 "x" = .ok (.slot 0 .i32) ∧
      ∃ s', nested.declare 1 "x" (.slot 1 .i32) = .ok s' ∧ s'.lookup 2 "x" = .ok (.slot 1 .i32) ∧
        s'.lookup 0 "x" = .ok (.slot 0 .i32) := by
  have hs : Built nested :=
    .openChild (.openChild (.declare .new (by decide) "x" (.slot 0 .i32)) (by decide)) (by decide)
  have hnested : nested.lookup 2 "x" = .ok (.slot 0 .i32) := by decide +kernel
  obtain ⟨s', hdeclare⟩ : ∃ s', nested.declare 1 "x" (.slot 1 .i32) = .ok s' := ⟨_, rfl⟩
  have hexposes : nested.Exposes "x" 1 2 := by
    refine (exposes_iff hs.ordered).mpr (.inr ⟨by decide +kernel, 1, by decide +kernel, ?_⟩)
    exact (exposes_iff hs.ordered).mpr (.inl rfl)
  have hlate := (hs.lexical.2.2.1 1 (by decide) "x" (.slot 1 .i32)).1 s' hdeclare
  refine ⟨hs, hnested, s', hdeclare, (hlate 2 "x").1 ⟨rfl, hexposes⟩, ?_⟩
  by_contra hne
  have hroot : nested.lookup 0 "x" = .ok (.slot 0 .i32) := by decide +kernel
  obtain ⟨-, hout, -⟩ := (hlate 0 "x").2.mp (hroot ▸ hne)
  exact absurd (hout.encloses.le hs.ordered) (by decide)

end Scopes

end MiniC
