import MiniC.Proofs.StmtRegions
import MiniC.Proofs.Typing

/-!
# Values are there on every path

A path is a way that control can take through the text of a function, with both ways of a branch and
whatever the values are. Where there is a plan for a function, each path is at a place that the plan
accounts for, with all the values that the plan says are there: this holds at the start, and a step
of control keeps it. So whatever an instruction reads has been defined before on the path.
-/

namespace MiniC

namespace Code

/-- The paths from the start of `code`: control can have run through the instructions `done`, the
last one first, and be in front of `rest`. A block is left at its first terminator. -/
inductive Path (code : Code) : Code → Code → Prop where
  | start : Path code [] code
  | next {done rest : Code} {i : Instr} (path : Path code done (i :: rest))
      (hi : i.isTerminator = false) : Path code (i :: done) rest
  | jump {done rest target : Code} {i : Instr} {l : Label} (path : Path code done (i :: rest))
      (hl : l ∈ i.targets) (htarget : .label l :: target <:+ code) :
      Path code (i :: done) (.label l :: target)

lemma Path.suffix {code done rest : Code} (h : Path code done rest) : rest <:+ code := by
  induction h with
  | start => exact List.suffix_refl code
  | next path hi ih => exact (List.suffix_cons _ _).trans ih
  | jump path hl htarget ih => exact htarget

/-- A path runs through instructions of the code. -/
lemma Path.done_subset {code done rest : Code} (h : Path code done rest) : done ⊆ code := by
  induction h with
  | start => exact List.nil_subset code
  | next path hi ih =>
    exact List.cons_subset.mpr ⟨path.suffix.subset List.mem_cons_self, ih⟩
  | jump path hl htarget ih =>
    exact List.cons_subset.mpr ⟨path.suffix.subset List.mem_cons_self, ih⟩

lemma Path.definedBy {code done rest : Code} (h : Path code done rest)
    (hnodup : (definitions code).Nodup) {v : Value} (hv : v ∈ done.results) :
    code.DefinedBy done v := by
  obtain ⟨i, hi, hvi⟩ := List.mem_flatMap.mp hv
  refine ⟨i, hi, hvi, ?_⟩
  exact filter_definitions hnodup (h.done_subset hi) (Instr.mem_definitions_of_mem_results hvi)

end Code

/-- Whether control can be in front of `rest` behind the instructions `done`, by a plan for the
blocks `tail` of `code`: in front of all code, of a label, of a `phi` behind its label, or in a
block. -/
inductive Plan.Tracks (slots : Bool) (P : Plan) (code tail : Code) (s : Nat) (done : Code) :
    Code → Prop where
  | start : Tracks slots P code tail s done code
  | enter {rest : Code} {l : Label} (htail : .label l :: rest <:+ tail)
      (hvalues : ∀ v ∈ (P.entry l.id).values, v ∈ done.results) :
      Tracks slots P code tail s done (.label l :: rest)
  | join {front rest : Code} {l : Label} {r : Value} {incoming : List (Value × Label)} {q : Point}
      (htail : tail = front ++ .phi r incoming :: rest)
      (hfront : Flows slots P (.dead s) (front ++ [.phi r incoming])
        (.live l.id (insert r (P.entry l.id).values)))
      (hrest : Flows slots P (.live l.id (insert r (P.entry l.id).values)) rest q)
      (hvalues : ∀ v ∈ (P.entry l.id).values, v ∈ done.results)
      (hblock : done.markers.head?.map Label.id = some l.id) :
      Tracks slots P code tail s done (.phi r incoming :: rest)
  | inside {front rest : Code} {b : Nat} {A : Set Value} {q : Point} (htail : tail = front ++ rest)
      (hfront : Flows slots P (.dead s) front (.live b A))
      (hrest : Flows slots P (.live b A) rest q) (hvalues : ∀ v ∈ A, v ∈ done.results)
      (hblock : done.markers.head?.map Label.id = some b) : Tracks slots P code tail s done rest

namespace Plan.Charts

variable {slots : Bool} {P : Plan} {code rest₀ : Code} {first : Instr} {entry : Label}
  (h : P.Charts slots code first entry rest₀)
include h

/-- Behind a label, control is in the block of the label or in front of its `phi`. -/
lemma tracks_label {done rest : Code} {l : Label}
    (htail : .label l :: rest <:+ .label entry :: rest₀)
    (hvalues : ∀ v ∈ (P.entry l.id).values, v ∈ done.results) :
    P.Tracks slots code (.label entry :: rest₀) entry.id (.label l :: done) rest := by
  obtain ⟨q, hflows⟩ := h.flows
  obtain ⟨front, htail⟩ := htail
  rw [← htail] at hflows ⊢
  obtain ⟨m, hfront, hback⟩ := Flows.split (by simp) front hflows
  cases hback with
  | plain hi => cases hi
  | leave hi => cases hi
  | skip hi => cases hi with
    | inl hi => cases hi
    | inr hi => cases hi
  | label l hrest =>
    have hlabel := hfront.append (.label l (.nil _))
    exact .inside (by simp) hlabel hrest hvalues rfl
  | @join _ _ _ _ r _ _ _ _ hne hincoming hedge₁ hedge₂ hrest =>
    have hjoin := hfront.append (.join (r := r) hne hincoming hedge₁ hedge₂ (.nil _))
    rw [List.append_cons] at hjoin
    exact .join (by simp) hjoin hrest hvalues rfl

lemma tracks_next {done rest : Code} {i : Instr}
    (ht : P.Tracks slots code (.label entry :: rest₀) entry.id done (i :: rest))
    (hi : i.isTerminator = false) :
    P.Tracks slots code (.label entry :: rest₀) entry.id (i :: done) rest := by
  generalize hwhole : i :: rest = whole at ht
  cases ht with
  | start =>
    obtain ⟨rfl, rfl⟩ := List.cons_eq_cons.mp (hwhole.trans h.code_eq)
    exact .enter (List.suffix_refl _) fun v hv => List.mem_append_left _ (h.values_subset v hv)
  | enter htail hvalues =>
    obtain ⟨rfl, rfl⟩ := List.cons_eq_cons.mp hwhole
    exact h.tracks_label htail hvalues
  | join htail hfront hrest hvalues hblock =>
    obtain ⟨rfl, rfl⟩ := List.cons_eq_cons.mp hwhole
    refine .inside (by simpa using htail) hfront hrest ?_ hblock
    rintro v (rfl | hv)
    · exact List.mem_cons_self
    · exact List.mem_append_right _ (hvalues v hv)
  | inside htail hfront hrest hvalues hblock =>
    subst hwhole
    cases hrest with
    | plain hplain reads hrest =>
      have hstep := hfront.append (.plain hplain reads (.nil _))
      refine .inside (by simpa using htail) hstep hrest ?_ ?_
      · rintro v (hv | hv)
        · exact List.mem_append_right _ (hvalues v hv)
        · exact List.mem_append_left _ hv
      · rwa [Code.markers_cons_of_none (Instr.marker?_of_isPlain hplain)]
    | leave hleave =>
      rw [hleave] at hi
      cases hi

/-- In front of a terminator, control is in a block. -/
lemma tracks_terminator {done rest : Code} {t : Instr}
    (ht : P.Tracks slots code (.label entry :: rest₀) entry.id done (t :: rest))
    (hterm : t.isTerminator = true) : ∃ front b A,
      .label entry :: rest₀ = front ++ t :: rest ∧
      Flows slots P (.dead entry.id) front (.live b A) ∧
      (∀ l ∈ t.targets, (P.entry l.id).Accepts slots b A) ∧ (∀ v ∈ A, v ∈ done.results) ∧
      done.markers.head?.map Label.id = some b := by
  generalize hwhole : t :: rest = whole at ht
  cases ht with
  | start =>
    obtain ⟨rfl, -⟩ := List.cons_eq_cons.mp (hwhole.trans h.code_eq)
    rw [Instr.isTerminator_of_isPlain h.first_plain] at hterm
    cases hterm
  | enter htail hvalues =>
    obtain ⟨rfl, -⟩ := List.cons_eq_cons.mp hwhole
    cases hterm
  | join htail hfront hrest hvalues hblock =>
    obtain ⟨rfl, -⟩ := List.cons_eq_cons.mp hwhole
    cases hterm
  | inside htail hfront hrest hvalues hblock =>
    subst hwhole
    cases hrest with
    | plain hplain =>
      rw [Instr.isTerminator_of_isPlain hplain] at hterm
      cases hterm
    | leave hi reads goes hrest =>
      exact ⟨_, _, _, htail, hfront, goes, hvalues, hblock⟩

lemma tracks_jump {done rest target : Code} {i : Instr} {l : Label}
    (ht : P.Tracks slots code (.label entry :: rest₀) entry.id done (i :: rest))
    (hl : l ∈ i.targets) (htarget : .label l :: target <:+ code) :
    P.Tracks slots code (.label entry :: rest₀) entry.id (i :: done) (.label l :: target) := by
  obtain ⟨_, b, A, -, -, goes, hvalues, -⟩ :=
    h.tracks_terminator ht (Instr.isTerminator_of_mem_targets hl)
  have hbrought : ∀ v ∈ (P.entry l.id).values, v ∈ Code.results (i :: done) := fun v hv =>
    List.mem_append_right _ (hvalues v ((goes l hl).values_subset hv))
  rw [h.code_eq, List.suffix_cons_iff] at htarget
  rcases htarget with heq | htarget
  · have hplain := h.first_plain
    rw [← (List.cons_eq_cons.mp heq).1] at hplain
    cases hplain
  · exact .enter htarget hbrought

/-- The plan accounts for every path. -/
lemma tracks_path {done rest : Code} (path : code.Path done rest) :
    P.Tracks slots code (.label entry :: rest₀) entry.id done rest := by
  induction path with
  | start => exact .start
  | next path hi ih => exact h.tracks_next ih hi
  | jump path hl htarget ih => exact h.tracks_jump ih hl htarget

/-- Whatever an instruction reads is defined before on every path to it. -/
theorem mem_results_of_path {done rest : Code} {i : Instr} (path : code.Path done (i :: rest))
    {v : Value} (hv : v ∈ i.operands) (hcounts : v.Counts slots) : v ∈ done.results := by
  have ht := h.tracks_path path
  generalize hwhole : i :: rest = whole at ht
  cases ht with
  | start =>
    obtain ⟨rfl, -⟩ := List.cons_eq_cons.mp (hwhole.trans h.code_eq)
    rw [h.first_reads] at hv
    cases hv
  | enter htail hvalues =>
    obtain ⟨rfl, -⟩ := List.cons_eq_cons.mp hwhole
    cases hv
  | join htail hfront hrest hvalues hblock =>
    obtain ⟨rfl, -⟩ := List.cons_eq_cons.mp hwhole
    cases hv
  | inside htail hfront hrest hvalues hblock =>
    subst hwhole
    cases hrest with
    | plain hi reads => exact hvalues v (reads v hv hcounts)
    | leave hi reads => exact hvalues v (reads v hv hcounts)

/-- What a `phi` takes from a block is defined on every path to the end of the block. -/
theorem mem_results_of_phi {r v : Value} {incoming : List (Value × Label)} {m : Label}
    (hphi : .phi r incoming ∈ code) (hv : (v, m) ∈ incoming) (hcounts : v.Counts slots)
    {done rest : Code} {t : Instr} (path : code.Path done (t :: rest))
    (hterm : t.isTerminator = true) (hblock : done.markers.head? = some m) : v ∈ done.results := by
  obtain ⟨front, back, hcode⟩ := List.append_of_mem hphi
  obtain ⟨-, l, -, hjoins⟩ := h.joins hcode
  have hentry : (v, m.id) ∈ (P.entry l.id).incoming := by
    rw [hjoins.entry_eq]
    exact List.mem_map_of_mem hv
  -- The plan has a jump from block `m` to the `phi`, and control leaves the block in one place: the
  -- path is in front of this jump.
  obtain ⟨q, hflows⟩ := h.flows
  have hedge := h.edges_subset _ (hjoins.edge _ hv)
  rcases hflows.accepts_of_edge hedge with
    hnone | ⟨front, t', back, A, htail, hterm', ht', hfront, -⟩
  · rw [hnone] at hentry
    cases hentry
  obtain ⟨front', b, A', htail', hfront', goes, hvalues, hhead⟩ :=
    h.tracks_terminator (h.tracks_path path) hterm
  rw [hblock, Option.map_some, Option.some.injEq] at hhead
  subst hhead
  have hnodup := h.nodup
  rw [h.code_eq, Code.markers_cons_of_none (Instr.marker?_of_isPlain h.first_plain),
    htail] at hnodup
  obtain rfl := Flows.exit_unique (htail.symm.trans htail') hnodup hterm' hfront hterm hfront'
  obtain ⟨l', hl', hid⟩ := ht'
  have haccepts := goes l' hl'
  rw [hid] at haccepts
  exact hvalues v (haccepts.brought v hentry hcounts)

end Plan.Charts

/-- Temporaries dominate their uses. On every path to an instruction, the temporaries that it reads
have been defined. What a `phi` takes from block `m` has been defined on every path to the end of
this block, that is, to a terminator such that `m` is the last label on the path. -/
theorem Compiler.lowerDefinition_temps_dominate {c : Compiler} {d : Definition} {seg : Segment}
    (h : (c.lowerDefinition d).result = .ok seg) :
    (∀ done i rest, Code.Path seg.instructions done (i :: rest) →
      ∀ id ty, .temp id ty ∈ i.operands → Code.DefinedBy seg.instructions done (.temp id ty)) ∧
    ∀ r incoming, .phi r incoming ∈ seg.instructions → ∀ id ty m, (.temp id ty, m) ∈ incoming →
      ∀ done t rest, Code.Path seg.instructions done (t :: rest) → t.isTerminator = true →
        (Code.markers done).head? = some m →
          Code.DefinedBy seg.instructions done (.temp id ty) := by
  obtain ⟨env, rfl, w, -⟩ := lowerDefinition_lowered h
  obtain ⟨count, hdense⟩ := w.definitions_eq (LowerEnv.definitions_params _ _ _)
  have hnodup := Code.nodup_of_dense hdense
  obtain ⟨P, first, entry, rest₀, hcharts⟩ := w.charts false (by simp)
  constructor
  · intro done i rest path id ty hv
    exact path.definedBy hnodup (hcharts.mem_results_of_path path hv ⟨rfl, rfl⟩)
  · intro r incoming hphi id ty m hv done t rest path hterm hblock
    exact path.definedBy hnodup
      (hcharts.mem_results_of_phi hphi hv ⟨rfl, rfl⟩ path hterm hblock)

theorem sumUpTo_temps_dominate : ∃ seg,
    (Compiler.lowerDefinition {} Definition.sumUpTo).result = .ok seg ∧
      (∀ done i rest, Code.Path seg.instructions done (i :: rest) →
        ∀ id ty, .temp id ty ∈ i.operands → Code.DefinedBy seg.instructions done (.temp id ty)) ∧
      ∀ r incoming, .phi r incoming ∈ seg.instructions → ∀ id ty m, (.temp id ty, m) ∈ incoming →
        ∀ done t rest, Code.Path seg.instructions done (t :: rest) → t.isTerminator = true →
          (Code.markers done).head? = some m →
            Code.DefinedBy seg.instructions done (.temp id ty) := by
  obtain ⟨seg, h⟩ := Definition.sumUpTo_accepted
  exact ⟨seg, h, Compiler.lowerDefinition_temps_dominate h⟩

end MiniC
