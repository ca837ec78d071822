import MiniC.Proofs.Availability
import MiniC.Proofs.ExprSimulation

/-!
# Expressions are regions

The code of a construct is entered at its start and left at its end, apart from jumps to labels of
the constructs around it. A region is code of which this much is known: the entries `G` of the
blocks that it starts, and that it keeps to every plan that has these entries and meets an
assumption `T` about the blocks around it. Regions are put together like code, and an assumption
about a label is dropped where its block is part of the code.
-/

namespace MiniC

namespace Plan

/-- Whether the blocks of the list have the entries in the list. -/
def Meets (P : Plan) (G : List (Nat × Entry)) : Prop := ∀ g ∈ G, P.entry g.1 = g.2

/-- Whether the plan has the jumps of the code, which begins in block `b`. -/
def Covers (P : Plan) (b : Nat) (code : Code) : Prop := ∀ e ∈ code.edges b, e ∈ P.edges

/-- Whether a jump to a label without a `phi` may bring the values `A`. -/
def Admits (P : Plan) (A : Set Value) (l : Label) : Prop :=
  (P.entry l.id).values ⊆ A ∧ (P.entry l.id).incoming = []

lemma Admits.mono {P : Plan} {A A' : Set Value} {l : Label} (h : P.Admits A l) (hA : A ⊆ A') :
    P.Admits A' l := ⟨h.1.trans hA, h.2⟩

lemma Admits.accepts {P : Plan} {A : Set Value} {l : Label} (h : P.Admits A l) (slots : Bool)
    (b : Nat) : (P.entry l.id).Accepts slots b A where
  values_subset := h.1
  listed := Or.inl h.2
  brought v hv := by
    rw [h.2] at hv
    cases hv

/-- Blocks with numbers of their own can have any entries. -/
lemma exists_meets {G : List (Nat × Entry)} (h : (G.map Prod.fst).Nodup) (edges : Set (Nat × Nat)) :
    ∃ P : Plan, P.Meets G ∧ P.edges = edges := by
  classical
  refine ⟨⟨fun l => if h : ∃ g ∈ G, g.1 = l then h.choose.2 else ⟨∅, []⟩, edges⟩, ?_, rfl⟩
  intro g hg
  have hex : ∃ g' ∈ G, g'.1 = g.1 := ⟨g, hg, rfl⟩
  have hsame : hex.choose = g :=
    List.inj_on_of_nodup_map h hex.choose_spec.1 hg hex.choose_spec.2
  change (if h : ∃ g' ∈ G, g'.1 = g.1 then h.choose.2 else ⟨∅, []⟩) = g.2
  rw [dif_pos hex, hsame]

end Plan

/-- The assumption `T` with entries of some more blocks and with some more jumps. -/
def Assuming (T : Plan → Prop) (L : List (Nat × Entry)) (E : List (Nat × Nat)) (P : Plan) : Prop :=
  T P ∧ P.Meets L ∧ ∀ e ∈ E, e ∈ P.edges

namespace Assuming

variable {T : Plan → Prop} {L : List (Nat × Entry)} {E : List (Nat × Nat)} {P : Plan}

lemma entry_eq (h : Assuming T L E P) {l : Nat} {e : Entry} (hl : (l, e) ∈ L) : P.entry l = e :=
  h.2.1 _ hl

lemma admits (h : Assuming T L E P) {A : Set Value} {l : Label} (hl : (l.id, ⟨A, []⟩) ∈ L) :
    P.Admits A l := by
  rw [Plan.Admits, h.entry_eq hl]
  exact ⟨Set.Subset.refl A, rfl⟩

end Assuming

/-- Code from `p` to `q` that starts the blocks of `G`, for plans that meet `T`. -/
structure Region (slots : Bool) (T : Plan → Prop) (p : Point) (code : Code) (q : Point)
    (G : List (Nat × Entry)) : Prop where
  block : q.block = code.lastBlock p.block
  keys : G.map Prod.fst = code.markers.map Label.id
  flows : ∀ P : Plan, T P → P.Meets G → P.Covers p.block code → Flows slots P p code q

namespace Region

variable {slots : Bool} {T : Plan → Prop} {p q r : Point} {code code' : Code}
  {G G' : List (Nat × Entry)} {b : Nat} {A : Set Value} {i : Instr} {l : Label}

lemma nil (p : Point) : Region slots T p [] p [] where
  block := rfl
  keys := rfl
  flows _ _ _ _ := .nil p

lemma append (h : Region slots T p code q G) (h' : Region slots T q code' r G') :
    Region slots T p (code ++ code') r (G ++ G') where
  block := by rw [h'.block, h.block, Code.lastBlock_append]
  keys := by rw [List.map_append, h.keys, h'.keys, Code.markers_append, List.map_append]
  flows P hT hG hC := by
    have hfirst : P.Covers p.block code := fun e he => hC e (Code.edges_append_left he)
    have hsecond : P.Covers q.block code' := by
      intro e he
      rw [h.block] at he
      exact hC e (by rw [Code.edges_append]; exact List.mem_append_right _ he)
    exact (h.flows P hT (fun g hg => hG g (List.mem_append_left _ hg)) hfirst).append
      (h'.flows P hT (fun g hg => hG g (List.mem_append_right _ hg)) hsecond)

lemma assume (h : Region slots T p code q G) (L : List (Nat × Entry)) (E : List (Nat × Nat)) :
    Region slots (Assuming T L E) p code q G where
  block := h.block
  keys := h.keys
  flows P hT hG hC := h.flows P hT.1 hG hC

/-- Assumptions about blocks and jumps of the code itself are dropped. -/
lemma discharge {L : List (Nat × Entry)} {E : List (Nat × Nat)}
    (h : Region slots (Assuming T L E) p code q G) (hL : L ⊆ G) (hE : E ⊆ code.edges p.block) :
    Region slots T p code q G where
  block := h.block
  keys := h.keys
  flows P hT hG hC :=
    h.flows P ⟨hT, fun g hg => hG g (hL hg), fun e he => hC e (hE he)⟩ hG hC

/-- A jump behind the code leads away from the block in which the code ends. -/
lemma mem_edges_jump (h : Region slots T p code q G) (l : Label) :
    (q.block, l.id) ∈ Code.edges p.block (code ++ [.jump l]) :=
  Code.mem_edges.mpr ⟨code, .jump l, [], rfl, h.block.symm, l, List.mem_cons_self, rfl⟩

lemma plain (hi : i.isPlain = true) (reads : ∀ v ∈ i.operands, v.Counts slots → v ∈ A) :
    Region slots T (.live b A) [i] (.live b (A ∪ {v | v ∈ i.results})) [] where
  block := by
    rw [Code.lastBlock_cons, Instr.enter, Instr.marker?_of_isPlain hi]
    rfl
  keys := by rw [Code.markers_cons_of_none (Instr.marker?_of_isPlain hi)]; rfl
  flows _ _ _ _ := .plain hi reads (.nil _)

lemma leave (hi : i.isTerminator = true) (reads : ∀ v ∈ i.operands, v.Counts slots → v ∈ A)
    (goes : ∀ P : Plan, T P → ∀ l ∈ i.targets, (P.entry l.id).Accepts slots b A) :
    Region slots T (.live b A) [i] (.dead b) [] where
  block := by
    rw [Code.lastBlock_cons, Instr.enter, Instr.marker?_of_isTerminator hi]
    rfl
  keys := by rw [Code.markers_cons_of_none (Instr.marker?_of_isTerminator hi)]; rfl
  flows P hT _ _ := .leave hi reads (goes P hT) (.nil _)

lemma skip (hi : i.isPlain = true ∨ i.isTerminator = true)
    (goes : ∀ P : Plan, T P → ∀ l ∈ i.targets, (P.entry l.id).incoming = []) :
    Region slots T (.dead b) [i] (.dead b) [] := by
  have hmarker := hi.elim Instr.marker?_of_isPlain Instr.marker?_of_isTerminator
  constructor
  · rw [Code.lastBlock_cons, Instr.enter, hmarker]
    rfl
  · rw [Code.markers_cons_of_none hmarker]
    rfl
  · exact fun P hT _ _ => .skip hi (goes P hT) (.nil _)

/-- A block that starts with the values `A`. -/
lemma label (l : Label) (A : Set Value) :
    Region slots T (.dead b) [.label l] (.live l.id A) [(l.id, ⟨A, []⟩)] where
  block := rfl
  keys := rfl
  flows P _ hG _ := by
    refine .label l ?_
    rw [hG _ List.mem_cons_self]
    exact .nil _

lemma join {m₁ m₂ : Label} {result v₁ v₂ : Value} (hne : m₁.id ≠ m₂.id)
    (hedges : ∀ P : Plan, T P → (m₁.id, l.id) ∈ P.edges ∧ (m₂.id, l.id) ∈ P.edges) :
    Region slots T (.dead b) [.label l, .phi result [(v₁, m₁), (v₂, m₂)]]
      (.live l.id (insert result A)) [(l.id, ⟨A, [(v₁, m₁.id), (v₂, m₂.id)]⟩)] where
  block := rfl
  keys := rfl
  flows P hT hG _ := by
    have hentry := hG _ List.mem_cons_self
    refine .join hne (by rw [hentry]) (hedges P hT).1 (hedges P hT).2 ?_
    rw [hentry]
    exact .nil _

end Region

/-- Whether the value is there if it is accounted for. -/
def Value.Ready (slots : Bool) (A : Set Value) (v : Value) : Prop := v.Counts slots → v ∈ A

namespace Value.Ready

variable {slots : Bool} {A A' : Set Value} {v w : Value}

lemma mono (h : v.Ready slots A) (hA : A ⊆ A') : v.Ready slots A' := fun hv => hA (h hv)

lemma of_mem (h : v ∈ A) : v.Ready slots A := fun _ => h

lemma of_literal (h : v.isLiteral = true) : v.Ready slots A := by
  intro hv
  rw [hv.1] at h
  cases h

lemma retype (h : v.Ready slots A) {ty : Ty} {context : String}
    (hw : Lower.retypeLiteral v ty context = .ok w) : w.Ready slots A := by
  rcases Lower.retypeLiteral_ok.mp hw with
    ⟨-, rfl⟩ | ⟨-, ⟨n, ty', -, -, -, rfl⟩ | ⟨x, ty', -, -, rfl⟩⟩
  · exact h
  · exact of_literal rfl
  · exact of_literal rfl

end Value.Ready

/-- Whether the slots of all variables that a scope sees are there, if slots are accounted for. -/
def Sees (slots : Bool) (scope : ScopeId) (s : LowerState) (A : Set Value) : Prop :=
  slots = true → s.scopes.Ordered ∧ scope < s.scopes.scopes.length ∧
    ∀ x ∈ s.scopes.visible scope, x.2 ∈ A

namespace Sees

variable {slots : Bool} {scope : ScopeId} {s s' : LowerState} {A A' : Set Value}

lemma of_keeps (h : Sees slots scope s A) (hs : slots = true → s.scopes.Keeps s'.scopes)
    (hA : A ⊆ A') : Sees slots scope s' A' := by
  intro hslots
  obtain ⟨hord, hscope, hvisible⟩ := h hslots
  have hkeeps := hs hslots
  refine ⟨hkeeps.ordered hord, Nat.lt_of_lt_of_le hscope hkeeps.size_le, ?_⟩
  rw [hkeeps.visible_eq hord hscope]
  exact fun x hx => hA (hvisible x hx)

lemma of_eq (h : Sees slots scope s A) (hs : s'.scopes.scopes = s.scopes.scopes) (hA : A ⊆ A') :
    Sees slots scope s' A' :=
  h.of_keeps (fun _ => .of_eq hs) hA

/-- The slot of a variable is there. -/
lemma lookup (h : Sees slots scope s A) {name : String} {id : Nat} {ty : Ty}
    (hl : s.scopes.lookup scope name = .ok (.slot id ty)) : Value.Ready slots A (.slot id ty) := by
  rintro ⟨-, hslots⟩
  exact (h hslots.symm).2.2 _ (Scopes.mem_visible_of_lookup hl)

end Sees

namespace Lower

variable {slots : Bool} {T : Plan → Prop} {s t s' : LowerState} {env : LowerEnv} {scope : ScopeId}
  {A A' A'' : Set Value} {code code' : Code} {G G' : List (Nat × Entry)}

/-- The code of an expression: control goes through it from start to end, and values are added. -/
structure Passes (slots : Bool) (T : Plan → Prop) (s : LowerState) (A : Set Value) (code : Code)
    (s' : LowerState) (A' : Set Value) (G : List (Nat × Entry)) : Prop where
  grows : A ⊆ A'
  scopes : s'.scopes.scopes = s.scopes.scopes
  region : Region slots T (.live s.block.id A) code (.live s'.block.id A') G

namespace Passes

lemma refl (s : LowerState) (A : Set Value) : Passes slots T s A [] s A [] :=
  ⟨Set.Subset.refl A, rfl, .nil _⟩

lemma append (h : Passes slots T s A code t A' G) (h' : Passes slots T t A' code' s' A'' G') :
    Passes slots T s A (code ++ code') s' A'' (G ++ G') :=
  ⟨h.grows.trans h'.grows, h'.scopes.trans h.scopes, h.region.append h'.region⟩

lemma sees (h : Passes slots T s A code s' A' G) (hs : Sees slots scope s A) :
    Sees slots scope s' A' := hs.of_eq h.scopes h.grows

/-- An instruction that defines nothing. -/
lemma plain {i : Instr} (hi : i.isPlain = true) (reads : ∀ v ∈ i.operands, v.Ready slots A)
    (hresults : i.results = []) : Passes slots T s A [i] s A [] := by
  have hregion : Region slots T (.live s.block.id A) [i]
      (.live s.block.id (A ∪ {w | w ∈ i.results})) [] := .plain hi reads
  have hvalues : A ∪ {w | w ∈ i.results} = A := by simp [hresults]
  rw [hvalues] at hregion
  exact ⟨Set.Subset.refl A, rfl, hregion⟩

/-- An instruction that defines one value, of the next number. -/
lemma define {i : Instr} {v : Value} (hi : i.isPlain = true)
    (reads : ∀ v ∈ i.operands, v.Ready slots A) (hresults : i.results = [v]) :
    Passes slots T s A [i] s.drawn (insert v A) [] := by
  have hregion : Region slots T (.live s.block.id A) [i]
      (.live s.block.id (A ∪ {w | w ∈ i.results})) [] := .plain hi reads
  have hvalues : A ∪ {w | w ∈ i.results} = insert v A := by
    ext w
    simp [hresults, or_comm]
  rw [hvalues] at hregion
  exact ⟨Set.subset_insert v A, rfl, hregion⟩

end Passes

/-- Whether control passes the code of an expression wherever its variables are there, and the
result is there then. -/
def SegmentPasses (slots : Bool) (scope : ScopeId) (x : Lower Segment) : Prop :=
  ∀ ⦃s seg s'⦄, x s = .ok seg s' → ∀ ⦃A⦄, Sees slots scope s A → ∀ T,
    ∃ A' G, Passes slots T s A seg.instructions s' A' G ∧ ∀ v ∈ seg.result, v.Ready slots A'

lemma coerce_passes {v : Value} {ty : Ty} {context : String} {r : Code × Value}
    (h : coerce v ty context s = .ok r s') (hv : v.Ready slots A) (T : Plan → Prop) :
    ∃ A' G, Passes slots T s A r.1 s' A' G ∧ r.2.Ready slots A' := by
  rcases coerce_ok h with ⟨w, hw, rfl, rfl⟩ | ⟨-, -, -, -, rfl, rfl⟩
  · exact ⟨A, [], .refl s A, hv.retype hw⟩
  · refine ⟨_, [], .define rfl ?_ rfl, .of_mem (Set.mem_insert _ _)⟩
    simpa [Instr.operands] using hv

lemma operandAs_passes {x : Lower Segment} (hx : SegmentPasses slots scope x) {ty : Ty}
    {context : String} {r : Code × Value} (h : operandAs x ty context s = .ok r s')
    (hs : Sees slots scope s A) (T : Plan → Prop) :
    ∃ A' G, Passes slots T s A r.1 s' A' G ∧ r.2.Ready slots A' := by
  obtain ⟨code, v, conversion, t, hlow, hc, hr⟩ := operandAs_ok h
  obtain ⟨A₁, G₁, h₁, hv⟩ := hx hlow hs T
  obtain ⟨A₂, G₂, h₂, hw⟩ := coerce_passes hc (hv v rfl) T
  rw [hr]
  exact ⟨A₂, _, h₁.append h₂, hw⟩

lemma arm_passes {x : Lower Segment} (hx : SegmentPasses slots scope x) {keepBoolean : Bool}
    {r : Code × Value} (h : arm keepBoolean x s = .ok r s') (hs : Sees slots scope s A)
    (T : Plan → Prop) : ∃ A' G, Passes slots T s A r.1 s' A' G ∧ r.2.Ready slots A' := by
  obtain ⟨code, v, conversion, t, hlow, hr, harm⟩ := arm_ok h
  obtain ⟨A₁, G₁, h₁, hv⟩ := hx hlow hs T
  rw [hr]
  rcases harm with ⟨-, rfl, hr₂, rfl⟩ | ⟨-, -, hc⟩
  · rw [hr₂]
    exact ⟨A₁, _, h₁.append (.refl t A₁), hv v rfl⟩
  · obtain ⟨A₂, G₂, h₂, hw⟩ := coerce_passes hc (hv v rfl) T
    exact ⟨A₂, _, h₁.append h₂, hw⟩

/-- The jump at the end of an arm brings the arm's value to the block of the `phi`. -/
lemma jump_join {b m l : Nat} {A₀ : Set Value} {v w : Value} (hA : A₀ ⊆ A) (hv : v.Ready slots A)
    (hne : b ≠ m) {incoming : List (Value × Nat)}
    (hincoming : incoming = [(v, b), (w, m)] ∨ incoming = [(w, m), (v, b)])
    (hT : ∀ P : Plan, T P → P.entry l = ⟨A₀, incoming⟩) :
    Region slots T (.live b A) [.jump (.pending l)] (.dead b) [] := by
  refine .leave rfl (by simp [Instr.operands]) ?_
  intro P hP target htarget
  rw [List.mem_singleton.mp htarget, Label.id, hT P hP]
  have hlisted : (v, b) ∈ incoming := by rcases hincoming with rfl | rfl <;> simp
  refine ⟨hA, Or.inr ⟨v, hlisted⟩, ?_⟩
  intro x hx
  have hsame : x = v := by rcases hincoming with rfl | rfl <;> simpa [hne] using hx
  rw [hsame]
  exact hv

/-- The jump behind a block that control runs through is never left out. -/
lemma jump_of_open {jump code : Code} {target : Label} (before : Code) (l : Label)
    (hopen : Code.endsWithTerminator code = false)
    (h : jump = if env.options.elideUnreachableJumps &&
      Code.endsWithTerminator (before ++ .label l :: code) then [] else [.jump target]) :
    jump = [.jump target] := by
  rw [h, Code.endsWithTerminator_label before l hopen, Bool.and_false, if_neg Bool.false_ne_true]

/-- What the arms of a conditional assume: they start in the blocks `a` and `b` with what the
condition left, and end in the blocks `m₁` and `m₂` with jumps to the block `c` of the `phi`. -/
def Branching (T : Plan → Prop) (A : Set Value) (a b c : Nat) (v₁ : Value) (m₁ : Nat) (v₂ : Value)
    (m₂ : Nat) : Plan → Prop :=
  Assuming T [(a, ⟨A, []⟩), (b, ⟨A, []⟩), (c, ⟨A, [(v₁, m₁), (v₂, m₂)]⟩)] [(m₁, c), (m₂, c)]

/-- A branch to two arms that meet again. -/
lemma diamond_region {a b c k x y z : Nat} {v v₁ v₂ r : Value} {m₁ m₂ : Label} {A₁ A₂ : Set Value}
    {code₁ code₂ : Code} {G₁ G₂ : List (Nat × Entry)} (hv : v.Ready slots A) (hne : m₁.id ≠ m₂.id)
    (h₁ : Region slots (Branching T A a b c v₁ m₁.id v₂ m₂.id) (.live a A) code₁
      (.live m₁.id A₁) G₁) (hA₁ : A ⊆ A₁) (hv₁ : v₁.Ready slots A₁)
    (h₂ : Region slots (Branching T A a b c v₁ m₁.id v₂ m₂.id) (.live b A) code₂
      (.live m₂.id A₂) G₂) (hA₂ : A ⊆ A₂) (hv₂ : v₂.Ready slots A₂) :
    ∃ G, Region slots T (.live k A) (.branch v (.pending a) (.pending b) :: .label (.fixed a x) ::
      code₁ ++ [.jump (.pending c)] ++ (.label (.fixed b y) :: code₂) ++ [.jump (.pending c)] ++
      [.label (.fixed c z), .phi r [(v₁, m₁), (v₂, m₂)]]) (.live c (insert r A)) G := by
  have hentry : ∀ P, Branching T A a b c v₁ m₁.id v₂ m₂.id P →
      P.entry c = ⟨A, [(v₁, m₁.id), (v₂, m₂.id)]⟩ := fun P hP => Assuming.entry_eq hP (by simp)
  have hbranch : Region slots (Branching T A a b c v₁ m₁.id v₂ m₂.id) (.live k A)
      [.branch v (.pending a) (.pending b)] (.dead k) [] := by
    refine .leave rfl (by simpa [Instr.operands] using fun h => hv h) ?_
    intro P hP l hl
    refine (Assuming.admits hP ?_).accepts slots _
    simp only [Instr.targets, List.mem_cons, List.not_mem_nil, or_false] at hl
    rcases hl with rfl | rfl <;> simp [Label.id]
  have hphi : Region slots (Branching T A a b c v₁ m₁.id v₂ m₂.id) (.dead m₂.id)
      [.label (.fixed c z), .phi r [(v₁, m₁), (v₂, m₂)]] (.live c (insert r A)) _ :=
    .join hne fun P hP => ⟨hP.2.2 _ (by simp [Label.id]), hP.2.2 _ (by simp [Label.id])⟩
  have hfirst := hbranch.append ((Region.label (.fixed a x) A).append h₁)
  have hsecond := (hfirst.append (jump_join hA₁ hv₁ hne (Or.inl rfl) hentry)).append
    ((Region.label (.fixed b y) A).append h₂)
  have hwhole := (hsecond.append (jump_join hA₂ hv₂ hne.symm (Or.inr rfl) hentry)).append hphi
  -- The blocks and the jumps that the arms assume are part of the code.
  refine ⟨_, hwhole.discharge (by simp [Label.id]) ?_⟩
  intro e he
  simp only [List.mem_cons, List.not_mem_nil, or_false] at he
  rcases he with rfl | rfl
  · exact Code.edges_append_left (Code.edges_append_left (Code.edges_append_left
      (hfirst.mem_edges_jump (.pending c))))
  · exact Code.edges_append_left (hsecond.mem_edges_jump (.pending c))

lemma conditional_passes {keepBoolean : Bool} {condition onTrue onFalse : Expr}
    (hcond : SegmentPasses slots scope (condition.lower env scope))
    (htrue : SegmentPasses slots scope (onTrue.lower env scope))
    (hfalse : SegmentPasses slots scope (onFalse.lower env scope)) :
    SegmentPasses slots scope (conditional env keepBoolean (condition.lower env scope)
      (onTrue.lower env scope) (onFalse.lower env scope)) := by
  intro s seg s' h A hs T
  obtain ⟨test, v, trueCode, trueValue, trueJump, falseCode, falseValue, falseJump, trueValue',
    falseValue', ty, t, t₁, t₂, log₁, log₂, n, hn, hc, -, ht, hp₁, hf, -, -, hretype₁, hretype₂, -,
    -, hj₁, hj₂, rfl, rfl⟩ := conditional_ok h
  have hj₁' := jump_of_open (test ++ [.branch v (.pending n) (.pending (n + 1))])
    (.fixed n t.next) (arm_open onTrue.lower_open ht) (by simpa using hj₁)
  have hj₂' := jump_of_open _ _ (arm_open onFalse.lower_open hf) hj₂
  rw [hj₁', hj₂']
  have hpending : t.allocated.allocated.allocated.labels.names[n]? = some none := by
    simp [hn, LowerState.allocated, LabelTable.allocate, LabelTable.size]
  have hne : t₁.block.id ≠ t₂.block.id := Emits.blocks_ne hpending
    (arm_emits onTrue.lower_emits ht) hp₁ (arm_emits onFalse.lower_emits hf)
  obtain ⟨A₀, G₀, h₀, hv⟩ := operandAs_passes hcond hc hs T
  have hst := h₀.sees hs
  obtain ⟨A₁, G₁, h₁, hv₁⟩ := arm_passes htrue ht (hst.of_eq rfl (Set.Subset.refl A₀))
    (Branching T A₀ n (n + 1) (n + 2) trueValue' t₁.block.id falseValue' t₂.block.id)
  obtain ⟨A₂, G₂, h₂, hv₂⟩ := arm_passes hfalse hf (hst.of_eq h₁.scopes (Set.Subset.refl A₀))
    (Branching T A₀ n (n + 1) (n + 2) trueValue' t₁.block.id falseValue' t₂.block.id)
  obtain ⟨G, hdiamond⟩ := diamond_region hv hne h₁.region h₁.grows (hv₁.retype hretype₁) h₂.region
    h₂.grows (hv₂.retype hretype₂)
  have hregion := h₀.region.append hdiamond
  refine ⟨_, _, ⟨h₀.grows.trans (Set.subset_insert _ _),
    h₂.scopes.trans (h₁.scopes.trans h₀.scopes), by simpa [Label.id] using hregion⟩, ?_⟩
  rintro w ⟨⟩
  exact .of_mem (Set.mem_insert _ _)

lemma increment_passes {name : String} {delta : Int} {before : Bool} :
    SegmentPasses slots scope (increment env scope name delta before) := by
  intro s seg s' h A hs T
  obtain ⟨id, ty, hl, -, rfl, rfl⟩ := increment_ok h
  have hslot := hs.lookup hl
  have hload : Passes slots T s A [.load (.temp s.next ty) (.slot id ty)
      (env.options.alignmentFor ty)] s.drawn (insert (.temp s.next ty) A) [] :=
    .define rfl (by simpa [Instr.operands] using hslot) rfl
  have hold : Value.Ready slots (insert (.temp s.next ty) A) (.temp s.next ty) :=
    .of_mem (Set.mem_insert _ _)
  have hsum : Passes slots T s.drawn (insert (.temp s.next ty) A)
      [.binary (.temp (s.next + 1) ty) .add (.temp s.next ty) (.int delta ty)] s.drawn.drawn
      (insert (.temp (s.next + 1) ty) (insert (.temp s.next ty) A)) [] := by
    refine .define rfl ?_ rfl
    simpa [Instr.operands] using ⟨hold, Value.Ready.of_literal rfl⟩
  have hnew : Value.Ready slots (insert (.temp (s.next + 1) ty) (insert (.temp s.next ty) A))
      (.temp (s.next + 1) ty) := .of_mem (Set.mem_insert _ _)
  have hstore : Passes slots T s.drawn.drawn
      (insert (.temp (s.next + 1) ty) (insert (.temp s.next ty) A))
      [.store (.temp (s.next + 1) ty) (.slot id ty) (env.options.alignmentFor ty)] s.drawn.drawn
      (insert (.temp (s.next + 1) ty) (insert (.temp s.next ty) A)) [] := by
    refine .plain rfl ?_ rfl
    simpa [Instr.operands] using ⟨hnew, hslot.mono (hload.grows.trans hsum.grows)⟩
  refine ⟨_, _, hload.append (hsum.append hstore), ?_⟩
  rintro v ⟨⟩
  cases before with
  | false => exact hold.mono hsum.grows
  | true => exact hnew

lemma arguments_passes {args : List (Lower Segment)}
    (hargs : ∀ x ∈ args, SegmentPasses slots scope x) {tys : List Ty} {r : Code × List Value}
    (h : arguments args tys s = .ok r s') (hs : Sees slots scope s A) (T : Plan → Prop) :
    ∃ A' G, Passes slots T s A r.1 s' A' G ∧ ∀ v ∈ r.2, v.Ready slots A' := by
  induction args generalizing tys s r A with
  | nil =>
    obtain ⟨rfl, rfl⟩ := pure_ok.mp h
    exact ⟨A, [], .refl s A, by simp⟩
  | cons x rest ih =>
    cases tys with
    | nil =>
      obtain ⟨rfl, rfl⟩ := pure_ok.mp h
      exact ⟨A, [], .refl s A, by simp⟩
    | cons ty tys =>
      obtain ⟨code, v, more, vs, t, hx, hrest, rfl⟩ := arguments_cons_ok h
      obtain ⟨A₁, G₁, h₁, hv⟩ := operandAs_passes (hargs x List.mem_cons_self) hx hs T
      obtain ⟨A₂, G₂, h₂, hvs⟩ := ih (fun y hy => hargs y (List.mem_cons_of_mem x hy)) hrest
        (h₁.sees hs)
      exact ⟨A₂, _, h₁.append h₂, List.forall_mem_cons.mpr ⟨hv.mono h₂.grows, hvs⟩⟩

lemma call_passes {callee : String} {args : List (Lower Segment)}
    (hargs : ∀ x ∈ args, SegmentPasses slots scope x) :
    SegmentPasses slots scope (call env callee args) := by
  intro s seg s' h A hs T
  obtain ⟨signature, code, values, t, -, -, ha, h⟩ := call_ok h
  obtain ⟨A₁, G₁, h₁, hvs⟩ := arguments_passes hargs ha hs T
  rcases h with ⟨-, rfl, rfl⟩ | ⟨-, rfl, rfl⟩
  · exact ⟨A₁, _, h₁.append (.plain rfl hvs rfl), by simp⟩
  · refine ⟨_, _, h₁.append (.define rfl hvs rfl), ?_⟩
    rintro v ⟨⟩
    exact .of_mem (Set.mem_insert _ _)

end Lower

open Lower in
/-- Control passes the code of every expression. -/
theorem Expr.lower_passes {slots : Bool} {env : LowerEnv} {scope : ScopeId} (e : Expr) :
    SegmentPasses slots scope (e.lower env scope) := by
  refine Expr.lower_induction_parts (Φ := SegmentPasses slots scope) ?constant ?readVariable
    ?increment ?binary ?comparison ?booleanCast ?conditional ?assignment ?call e
  case constant =>
    intro v hv s seg s' h A hs T
    obtain ⟨rfl, rfl⟩ := pure_ok.mp h
    refine ⟨A, [], .refl s A, ?_⟩
    rintro w ⟨⟩
    exact .of_literal hv
  case readVariable =>
    intro name s seg s' h A hs T
    obtain ⟨id, ty, hl, rfl, rfl⟩ := readVariable_ok h
    refine ⟨_, [], .define rfl ?_ rfl, ?_⟩
    · simpa [Instr.operands] using hs.lookup hl
    · rintro v ⟨⟩
      exact .of_mem (Set.mem_insert _ _)
  case increment =>
    intro name delta before
    exact increment_passes
  case binary =>
    intro op ty left right hl hr s seg s' h A hs T
    obtain ⟨leftCode, lhs, rightCode, rhs, t, t', hleft, hright, rfl, -, -, -, rfl⟩ := binary_ok h
    obtain ⟨A₁, G₁, h₁, hv₁⟩ := operandAs_passes hl hleft hs T
    obtain ⟨A₂, G₂, h₂, hv₂⟩ := operandAs_passes hr hright (h₁.sees hs) T
    refine ⟨_, _, (h₁.append h₂).append (.define rfl ?_ rfl), ?_⟩
    · simpa [Instr.operands] using ⟨hv₁.mono h₂.grows, hv₂⟩
    · rintro v ⟨⟩
      exact .of_mem (Set.mem_insert _ _)
  case comparison =>
    intro relation left right hl hr s seg s' h A hs T
    obtain ⟨leftCode, lhs, rightCode, rhs, leftConversion, lhs', rightConversion, rhs', ty, t₁, t₂,
      t₃, t₄, hleft, hright, -, hcl, hcr, rfl, -, -, rfl⟩ := comparison_ok h
    obtain ⟨A₁, G₁, h₁, hv₁⟩ := hl hleft hs T
    obtain ⟨A₂, G₂, h₂, hv₂⟩ := hr hright (h₁.sees hs) T
    -- The left operand is converted behind the blocks of the right one.
    obtain ⟨A₃, G₃, h₃, hv₃⟩ := coerce_passes hcl ((hv₁ lhs rfl).mono h₂.grows) T
    obtain ⟨A₄, G₄, h₄, hv₄⟩ := coerce_passes hcr ((hv₂ rhs rfl).mono h₃.grows) T
    refine ⟨_, _, (((h₁.append h₂).append h₃).append h₄).append (.define rfl ?_ rfl), ?_⟩
    · simpa [Instr.operands] using ⟨hv₃.mono h₄.grows, hv₄⟩
    · rintro v ⟨⟩
      exact .of_mem (Set.mem_insert _ _)
  case booleanCast =>
    intro inner hx s seg s' h A hs T
    obtain ⟨code, v, t, hlow, ⟨-, rfl, rfl⟩ | ⟨-, -, rfl, rfl⟩⟩ := booleanCast_ok h
    · exact hx hlow hs T
    · obtain ⟨A₁, G₁, h₁, hv⟩ := hx hlow hs T
      refine ⟨_, _, h₁.append (.define rfl ?_ rfl), ?_⟩
      · simpa [Instr.operands] using ⟨hv v rfl, Value.Ready.of_literal rfl⟩
      · rintro w ⟨⟩
        exact .of_mem (Set.mem_insert _ _)
  case conditional =>
    intro keepBoolean condition onTrue onFalse hc ht hf
    exact conditional_passes hc ht hf
  case assignment =>
    intro target value hx s seg s' h A hs T
    obtain ⟨id, ty, code, v, hl, -, hv, -, rfl⟩ := assignment_ok h
    obtain ⟨A₁, G₁, h₁, hready⟩ := operandAs_passes hx hv hs T
    refine ⟨A₁, _, h₁.append (.plain rfl ?_ rfl), ?_⟩
    · simpa [Instr.operands] using ⟨hready, (hs.lookup hl).mono h₁.grows⟩
    · rintro w ⟨⟩
      exact hready
  case call =>
    intro callee arguments hargs
    refine call_passes ?_
    intro x hx
    obtain ⟨e, he, rfl⟩ := mem_lowerAll hx
    exact hargs e he

end MiniC
