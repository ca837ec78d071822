import MiniC.Proofs.StmtRegions

/-!
# Joins match the jumps

A `phi` starts the block in which two ways of control meet. A plan lists the blocks that a `phi`
takes its values from: each of them jumps to the block of the `phi`, and no other block does, not
even with a jump that control never comes to. In the text of a function, blocks are told apart by
their labels.
-/

namespace MiniC

lemma Instr.targets_subset_labels (i : Instr) : i.targets ⊆ i.labels := by
  cases i with
  | jump | branch => exact List.Subset.refl _
  | _ => exact List.nil_subset _

namespace Code

/-- Whether `i` stands in the block of `m`: this is the nearest label in front of it. -/
def InBlock (code : Code) (m : Label) (i : Instr) : Prop :=
  ∃ front mid back, code = front ++ .label m :: (mid ++ i :: back) ∧ markers mid = []

variable {b : Nat} {code : Code}

lemma lastBlock_of_markers_eq_nil (h : code.markers = []) : code.lastBlock b = b := by
  induction code with
  | nil => rfl
  | cons i rest ih =>
    cases hi : i.marker? with
    | none =>
      rw [markers_cons_of_none hi] at h
      rw [lastBlock_cons, Instr.enter, hi]
      exact ih h
    | some l =>
      rw [markers, List.filterMap_cons_some hi] at h
      cases h

/-- Code with a label ends in the block of its last label. -/
lemma exists_last_label (h : code.markers ≠ []) : ∃ front m mid,
    code = front ++ .label m :: mid ∧ markers mid = [] ∧ m.id = code.lastBlock b := by
  induction code generalizing b with
  | nil => exact absurd rfl h
  | cons i rest ih =>
    by_cases hrest : markers rest = []
    · cases hi : i.marker? with
      | none =>
        rw [markers_cons_of_none hi] at h
        exact absurd hrest h
      | some l =>
        obtain rfl := Instr.eq_label_of_marker? hi
        refine ⟨[], l, rest, rfl, hrest, ?_⟩
        rw [lastBlock_cons, lastBlock_of_markers_eq_nil hrest]
        rfl
    · obtain ⟨front, m, mid, rfl, hmid, hm⟩ := ih hrest
      exact ⟨i :: front, m, mid, rfl, hmid, hm⟩

end Code

namespace Plan.Charts

variable {slots : Bool} {P : Plan} {code rest₀ : Code} {first : Instr} {entry : Label}
  (h : P.Charts slots code first entry rest₀)
include h

/-- Labels of blocks are told apart by their numbers. -/
lemma label_eq {l l' : Label} (hl : l ∈ code.markers) (hl' : l' ∈ code.markers)
    (hid : l.id = l'.id) : l = l' := List.inj_on_of_nodup_map h.nodup hl hl' hid

/-- The jumps between blocks are the instructions in blocks that jump. -/
lemma mem_edges_iff (hlabels : ∀ i ∈ code, ∀ l ∈ i.labels, l ∈ code.markers) {m l : Label}
    (hm : m ∈ code.markers) (hl : l ∈ code.markers) :
    (m.id, l.id) ∈ Code.edges entry.id (.label entry :: rest₀) ↔
      ∃ i, code.InBlock m i ∧ l ∈ i.targets := by
  constructor
  · intro he
    obtain ⟨front, i, back, htail, hblock, t, ht, hid⟩ := Code.mem_edges.mp he
    have hcode : code = first :: front ++ i :: back := by rw [h.code_eq, htail]; rfl
    have hi : i ∈ code := by simp [hcode]
    obtain rfl := h.label_eq (hlabels i hi t (i.targets_subset_labels ht)) hl hid
    have hfront : Code.markers front ≠ [] := by
      cases front with
      | nil =>
        obtain ⟨rfl, -⟩ := List.cons_eq_cons.mp htail
        cases ht
      | cons j front =>
        obtain ⟨rfl, -⟩ := List.cons_eq_cons.mp htail
        simp
    obtain ⟨front', m', mid, rfl, hmid, hm'⟩ := Code.exists_last_label (b := entry.id) hfront
    have hmem : m' ∈ code.markers := Code.mem_markers.mpr (by simp [hcode])
    obtain rfl := h.label_eq hmem hm (hm'.trans hblock)
    exact ⟨i, ⟨first :: front', mid, back, by simp [hcode], hmid⟩, ht⟩
  · rintro ⟨i, ⟨front, mid, back, hcode, hmid⟩, hi⟩
    cases front with
    | nil =>
      have hplain := h.first_plain
      rw [(List.cons_eq_cons.mp (h.code_eq.symm.trans hcode)).1] at hplain
      cases hplain
    | cons j front =>
      have htail := (List.cons_eq_cons.mp (h.code_eq.symm.trans hcode)).2
      refine Code.mem_edges.mpr ⟨front ++ .label m :: mid, i, back, by simp [htail], ?_, l, hi, rfl⟩
      rw [Code.lastBlock_append, Code.lastBlock_cons, Code.lastBlock_of_markers_eq_nil hmid]
      rfl

/-- The blocks that a `phi` lists are those with a jump to it. -/
lemma phi_edges {front back : Code} {r : Value} {incoming : List (Value × Label)}
    (hphi : code = front ++ .phi r incoming :: back) :
    ∃ front' l, front = front' ++ [.label l] ∧ P.Joins l incoming ∧
      ∀ m, (m, l.id) ∈ Code.edges entry.id (.label entry :: rest₀) ↔
        m ∈ incoming.map fun x => x.2.id := by
  obtain ⟨front', l, rfl, hjoins⟩ := h.joins hphi
  refine ⟨front', l, rfl, hjoins, fun m => ⟨fun he => ?_, fun hm => ?_⟩⟩
  · obtain ⟨q, hflows⟩ := h.flows
    have hne : (P.entry l.id).incoming ≠ [] := by
      obtain ⟨v₁, m₁, v₂, m₂, rfl, -⟩ := hjoins.incoming_eq
      rw [hjoins.entry_eq]
      exact List.cons_ne_nil _ _
    obtain ⟨_, _, _, _, -, -, -, -, haccepts⟩ := (hflows.accepts_of_edge he).resolve_left hne
    obtain ⟨v, hv⟩ := haccepts.listed.resolve_left hne
    rw [hjoins.entry_eq] at hv
    obtain ⟨x, hx, heq⟩ := List.mem_map.mp hv
    exact List.mem_map.mpr ⟨x, hx, (Prod.mk.inj heq).2⟩
  · obtain ⟨x, hx, rfl⟩ := List.mem_map.mp hm
    exact h.edges_subset _ (hjoins.edge x hx)

end Plan.Charts

/-- Joins match the jumps. Every `phi` stands behind the label of a block, it takes a value from
each of two blocks, and these are the blocks in which there is a jump or a branch to its own block.
-/
theorem Compiler.lowerDefinition_phis_match {c : Compiler} {d : Definition} {seg : Segment}
    (h : (c.lowerDefinition d).result = .ok seg) {front back : Code} {r : Value}
    {incoming : List (Value × Label)} (hphi : seg.instructions = front ++ .phi r incoming :: back) :
    ∃ front' l, front = front' ++ [.label l] ∧
      (∃ v₁ m₁ v₂ m₂, incoming = [(v₁, m₁), (v₂, m₂)] ∧ m₁ ≠ m₂) ∧
      ∀ m, m ∈ incoming.map Prod.snd ↔ ∃ i, Code.InBlock seg.instructions m i ∧ l ∈ i.targets := by
  obtain ⟨env, -, w, -⟩ := lowerDefinition_lowered h
  obtain ⟨P, first, entry, rest₀, hcharts⟩ := w.charts false (by simp)
  obtain ⟨front', l, rfl, hjoins, hedges⟩ := hcharts.phi_edges hphi
  have hlabels : ∀ i ∈ seg.instructions, ∀ l ∈ i.labels, l ∈ Code.markers seg.instructions :=
    fun i hi l hl => w.labels_subset_markers hi hl
  have hl : l ∈ Code.markers seg.instructions := Code.mem_markers.mpr (by simp [hphi])
  have hlisted : ∀ m ∈ incoming.map Prod.snd, m ∈ Code.markers seg.instructions :=
    hlabels (.phi r incoming) (by simp [hphi])
  refine ⟨front', l, rfl, ?_, fun m => ⟨fun hm => ?_, ?_⟩⟩
  · obtain ⟨v₁, m₁, v₂, m₂, hincoming, hne⟩ := hjoins.incoming_eq
    exact ⟨v₁, m₁, v₂, m₂, hincoming, fun heq => hne (congrArg Label.id heq)⟩
  · obtain ⟨x, hx, rfl⟩ := List.mem_map.mp hm
    refine (hcharts.mem_edges_iff hlabels (hlisted _ hm) hl).mp ((hedges x.2.id).mpr ?_)
    exact List.mem_map.mpr ⟨x, hx, rfl⟩
  · rintro ⟨i, hi, hil⟩
    have hm : m ∈ Code.markers seg.instructions := by
      obtain ⟨front, mid, back, hcode, -⟩ := hi
      exact Code.mem_markers.mpr (by simp [hcode])
    obtain ⟨x, hx, hid⟩ := List.mem_map.mp
      ((hedges m.id).mp ((hcharts.mem_edges_iff hlabels hm hl).mpr ⟨i, hi, hil⟩))
    have hx' : x.2 ∈ incoming.map Prod.snd := List.mem_map_of_mem hx
    rwa [hcharts.label_eq (hlisted _ hx') hm hid] at hx'

theorem sumUpTo_phi_matches : ∃ seg,
    (Compiler.lowerDefinition {} Definition.sumUpTo).result = .ok seg ∧
      ∃ front l r incoming back,
        seg.instructions = front ++ [.label l] ++ .phi r incoming :: back ∧
        ∀ m, m ∈ incoming.map Prod.snd ↔
          ∃ i, Code.InBlock seg.instructions m i ∧ l ∈ i.targets := by
  obtain ⟨seg, h⟩ := Definition.sumUpTo_accepted
  have hphi : ((Compiler.lowerDefinition {} Definition.sumUpTo).result.map fun seg =>
      seg.instructions.any fun i => !i.incoming.isEmpty) = .ok true := by decide +kernel
  rw [h] at hphi
  obtain ⟨i, hi, hincoming⟩ := List.any_eq_true.mp (Except.ok.inj hphi)
  cases i with
  | phi r incoming =>
    obtain ⟨front, back, hcode⟩ := List.append_of_mem hi
    obtain ⟨front', l, rfl, -, hmatch⟩ := Compiler.lowerDefinition_phis_match h hcode
    exact ⟨seg, h, front', l, r, incoming, back, hcode, hmatch⟩
  | _ => cases hincoming

end MiniC
