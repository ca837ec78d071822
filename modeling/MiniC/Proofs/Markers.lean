import Mathlib.Data.List.Nodup
import MiniC.Proofs.Emission

/-!
# Markers of blocks

The labels that start blocks in emitted code are those that the table of labels got names for while
the code was emitted, each once. A function starts with one label that has its name already, so in
the end its markers are the labels it allocated.
-/

namespace MiniC

/-- The label that an instruction marks. -/
def Instr.marker? : Instr → Option Label
  | .label l => some l
  | _ => none

lemma Instr.marker?_eq_none {i : Instr} (h : ∀ l, i ≠ .label l) : i.marker? = none := by
  cases i with
  | label l => exact absurd rfl (h l)
  | _ => rfl

lemma Instr.eq_label_of_marker? {i : Instr} {l : Label} (h : i.marker? = some l) : i = .label l := by
  cases i with
  | label l' => rw [Option.some.inj h]
  | _ => cases h

/-- The labels whose blocks start in the code, in order. -/
def Code.markers (code : Code) : List Label := code.filterMap Instr.marker?

namespace Code

@[simp] lemma markers_nil : markers [] = [] := rfl

@[simp] lemma markers_append (code code' : Code) :
    markers (code ++ code') = markers code ++ markers code' :=
  List.filterMap_append

@[simp] lemma markers_label (l : Label) (code : Code) :
    markers (.label l :: code) = l :: markers code := rfl

lemma markers_cons_of_none {i : Instr} (h : i.marker? = none) (code : Code) :
    markers (i :: code) = markers code := List.filterMap_cons_none h

lemma mem_markers {code : Code} {l : Label} : l ∈ markers code ↔ Instr.label l ∈ code := by
  simp only [markers, List.mem_filterMap]
  constructor
  · rintro ⟨i, hi, hl⟩
    rwa [← Instr.eq_label_of_marker? hl]
  · intro h
    exact ⟨_, h, rfl⟩

lemma marker?_relabel (f : Label → Label) (i : Instr) :
    (i.relabel f).marker? = i.marker?.map f := by
  cases i with
  | phi result incoming => rw [Instr.relabel_phi]; rfl
  | _ => rfl

lemma markers_relabel (f : Label → Label) (code : Code) :
    markers (code.map (Instr.relabel f)) = (markers code).map f := by
  simp only [markers, List.filterMap_map, List.map_filterMap]
  congr 1
  funext i
  exact marker?_relabel f i

end Code

namespace Emits

variable {s s' : LowerState} {code : Code}

/-- A label keeps its name. -/
lemma name_kept (h : Emits s code s') {id name : Nat}
    (hname : s.labels.names[id]? = some (some name)) :
    s'.labels.names[id]? = some (some name) := by
  induction h with
  | quiet next labels block => rwa [labels]
  | allocate s =>
    have hid := (List.getElem?_eq_some_iff.mp hname).1
    simpa [LowerState.allocated, LabelTable.allocate, List.getElem?_append_left hid] using hname
  | place s id' pending =>
    have hne : id' ≠ id := by
      rintro rfl
      rw [pending] at hname
      cases hname
    simpa [LowerState.placed, Label.id, List.getElem?_set_ne hne] using hname
  | instr i count unmarked known numbers next labels block => rwa [labels]
  | append first second ih₁ ih₂ => exact ih₂ (ih₁ hname)

lemma fixes_kept (h : Emits s code s') {id : Nat} (hid : s.labels.Fixes id) : s'.labels.Fixes id := by
  obtain ⟨name, hname⟩ := hid
  exact ⟨name, h.name_kept hname⟩

/-- A marker carries the name that the table has for it. -/
lemma marker_named (h : Emits s code s') {l : Label} (hl : l ∈ code.markers) :
    ∃ id name, l = .fixed id name ∧ s'.labels.names[id]? = some (some name) := by
  induction h with
  | quiet | allocate => cases hl
  | place s id pending =>
    have hid := (List.getElem?_eq_some_iff.mp pending).1
    exact ⟨id, s.next, List.mem_singleton.mp hl, List.getElem?_set_self hid⟩
  | instr i count unmarked known numbers next labels block =>
    rw [Code.markers_cons_of_none (Instr.marker?_eq_none unmarked)] at hl
    cases hl
  | append first second ih₁ ih₂ =>
    rw [Code.markers_append, List.mem_append] at hl
    rcases hl with hl | hl
    · obtain ⟨id, name, rfl, hname⟩ := ih₁ hl
      exact ⟨id, name, rfl, second.name_kept hname⟩
    · exact ih₂ hl

/-- A label that starts a block had no name before. -/
lemma marker_unnamed (h : Emits s code s') {l : Label} (hl : l ∈ code.markers) :
    ¬s.labels.Fixes l.id := by
  induction h with
  | quiet | allocate => cases hl
  | place s id pending =>
    rintro ⟨name, hname⟩
    rw [List.mem_singleton.mp hl, Label.id, pending] at hname
    cases hname
  | instr i count unmarked known numbers next labels block =>
    rw [Code.markers_cons_of_none (Instr.marker?_eq_none unmarked)] at hl
    cases hl
  | append first second ih₁ ih₂ =>
    rw [Code.markers_append, List.mem_append] at hl
    rcases hl with hl | hl
    · exact ih₁ hl
    · exact fun hid => ih₂ hl (first.fixes_kept hid)

/-- No label starts two blocks. -/
theorem nodup_markers (h : Emits s code s') : (code.markers.map Label.id).Nodup := by
  induction h with
  | quiet | allocate => exact List.nodup_nil
  | place s id pending => exact List.nodup_singleton id
  | instr i count unmarked known numbers next labels block =>
    rw [Code.markers_cons_of_none (Instr.marker?_eq_none unmarked)]
    exact List.nodup_nil
  | append first second ih₁ ih₂ =>
    rw [Code.markers_append, List.map_append]
    refine List.nodup_append.mpr ⟨ih₁, ih₂, ?_⟩
    intro a ha b hb hab
    obtain ⟨l, hl, rfl⟩ := List.mem_map.mp ha
    obtain ⟨m, hm, rfl⟩ := List.mem_map.mp hb
    -- The first part named the label, and a marker of the second part was still unnamed there.
    obtain ⟨id, name, rfl, hname⟩ := first.marker_named hl
    exact second.marker_unnamed hm ⟨name, by rwa [← hab]⟩

/-- Exactly the labels that start a block get names. -/
theorem fixes_iff (h : Emits s code s') {id : Nat} :
    s'.labels.Fixes id ↔ s.labels.Fixes id ∨ id ∈ code.markers.map Label.id := by
  constructor
  · intro hid
    induction h with
    | quiet next labels block =>
      rw [labels] at hid
      exact Or.inl hid
    | allocate s =>
      obtain ⟨name, hname⟩ := hid
      rw [LowerState.getElem?_allocated] at hname
      split at hname
      · cases hname
      · exact Or.inl ⟨name, hname⟩
    | place s id' pending =>
      by_cases heq : id' = id
      · exact Or.inr (by simp [heq, Label.id])
      · obtain ⟨name, hname⟩ := hid
        refine Or.inl ⟨name, ?_⟩
        simpa [LowerState.placed, Label.id, List.getElem?_set_ne heq] using hname
    | instr i count unmarked known numbers next labels block =>
      rw [labels] at hid
      exact Or.inl hid
    | append first second ih₁ ih₂ =>
      rw [Code.markers_append, List.map_append, List.mem_append]
      rcases ih₂ hid with hid | hid
      · rcases ih₁ hid with hid | hid
        · exact Or.inl hid
        · exact Or.inr (Or.inl hid)
      · exact Or.inr (Or.inr hid)
  · rintro (hid | hid)
    · exact h.fixes_kept hid
    · obtain ⟨l, hl, rfl⟩ := List.mem_map.mp hid
      obtain ⟨id, name, rfl, hname⟩ := h.marker_named hl
      exact ⟨name, hname⟩

/-- The block that is being filled is that of the last marker, and the old one if there is none. -/
lemma block_eq (h : Emits s code s') : s'.block = code.markers.getLast?.getD s.block := by
  induction h with
  | quiet next labels block => exact block
  | allocate s => rfl
  | place s id pending => rfl
  | instr i count unmarked known numbers next labels block =>
    rw [Code.markers_cons_of_none (Instr.marker?_eq_none unmarked)]
    exact block
  | append first second ih₁ ih₂ =>
    rw [ih₂, ih₁, Code.markers_append, List.getLast?_append, Option.getD_or]

lemma block_mem (h : Emits s code s') : s'.block = s.block ∨ s'.block ∈ code.markers := by
  rw [h.block_eq]
  cases hlast : code.markers.getLast? with
  | none => exact .inl rfl
  | some l => exact .inr (List.mem_of_getLast? hlast)

/-- The block that is being filled keeps having a name. -/
lemma fixes_block (h : Emits s code s') (hs : s.labels.Fixes s.block.id) :
    s'.labels.Fixes s'.block.id := by
  rcases h.block_mem with hb | hb
  · rw [hb]
    exact h.fixes_kept hs
  · obtain ⟨id, name, hid, hname⟩ := h.marker_named hb
    rw [hid]
    exact ⟨name, hname⟩

/-- Behind a new label, the block that is being filled is a new one. -/
lemma block_unnamed {id : Nat} (pending : s.labels.names[id]? = some none)
    (h : Emits (s.placed (.pending id)) code s') : ¬s.labels.Fixes s'.block.id := by
  rcases h.block_mem with hb | hb
  · rw [hb]
    rintro ⟨name, hname⟩
    rw [LowerState.placed_block, Label.id, Label.id, pending] at hname
    cases hname
  · intro hfixes
    exact h.marker_unnamed hb ((place s id pending).fixes_kept hfixes)

end Emits

lemma LowerState.fixes_placed {s : LowerState} {id : Nat} (h : s.labels.names[id]? = some none) :
    (s.placed (.pending id)).labels.Fixes (s.placed (.pending id)).block.id :=
  ⟨s.next, List.getElem?_set_self (List.getElem?_eq_some_iff.mp h).1⟩

/-- Code behind one new label and code behind the next end in different blocks. -/
lemma Emits.blocks_ne {s t t' : LowerState} {log : List Event} {m n : Nat} {code code' : Code}
    (hm : s.labels.names[m]? = some none) (h : Emits (s.placed (.pending m)) code t)
    (hn : t.labels.names[n]? = some none)
    (h' : Emits ((t.logged log).placed (.pending n)) code' t') : t.block.id ≠ t'.block.id := by
  intro hid
  have hfixes := h.fixes_block (LowerState.fixes_placed hm)
  rw [hid] at hfixes
  exact block_unnamed (s := t.logged log) hn h' hfixes

namespace Definition.Lowered

variable {d : Definition} {env : LowerEnv} {seg : Segment} (w : d.Lowered env seg)

lemma entry_named : w.final.labels.names[0]? = some (some env.params.length) :=
  w.emits.name_kept rfl

/-- Resolving labels changes no marker. -/
lemma named_marker {l : Label} (hl : l ∈ env.entry :: Code.markers (w.paramCode ++ w.body)) :
    w.final.labels.named l = l := by
  rcases List.mem_cons.mp hl with rfl | hl
  · rw [w.entry]
    exact LabelTable.named_of_name w.entry_named
  · obtain ⟨id, name, rfl, hname⟩ := w.emits.marker_named hl
    exact LabelTable.named_of_name hname

lemma wholeCode_markers : Code.markers (d.wholeCode env w.paramCode w.body) =
    env.entry :: Code.markers (w.paramCode ++ w.body) := by
  have hending : ∀ code, Code.markers (Lower.ending env.returnTy code) = [] := by
    intro code
    rw [Lower.ending]
    split <;> rfl
  have hend : Code.markers [.functionEnd] = [] := rfl
  rw [wholeCode, Code.markers_append, Code.markers_append, hending, hend, List.append_nil,
    List.append_nil, frame, List.cons_append, List.cons_append]
  rfl

/-- The markers of a function are its first label and those that its parts placed. -/
theorem markers_eq : Code.markers seg.instructions =
    env.entry :: Code.markers (w.paramCode ++ w.body) := by
  rw [w.code, Code.markers_relabel, w.wholeCode_markers]
  have hmap := List.map_congr_left fun l hl => w.named_marker (l := l) hl
  rw [hmap, List.map_id']

include w in
/-- A function starts every block once. -/
theorem nodup_ids : ((Code.markers seg.instructions).map Label.id).Nodup := by
  rw [w.markers_eq, List.map_cons, List.nodup_cons]
  refine ⟨?_, w.emits.nodup_markers⟩
  intro hmem
  obtain ⟨l, hl, hid⟩ := List.mem_map.mp hmem
  apply w.emits.marker_unnamed hl
  rw [hid, w.entry]
  exact ⟨env.params.length, rfl⟩

/-- The markers of a function are its labels, under the names of the table. -/
theorem mem_markers_iff {l : Label} : l ∈ Code.markers seg.instructions ↔
    ∃ id name, l = .fixed id name ∧ w.final.labels.names[id]? = some (some name) := by
  rw [w.markers_eq, List.mem_cons]
  constructor
  · rintro (rfl | hl)
    · exact ⟨0, _, w.entry, w.entry_named⟩
    · exact w.emits.marker_named hl
  · rintro ⟨id, name, rfl, hname⟩
    rcases w.emits.fixes_iff.mp ⟨name, hname⟩ with hstart | hmem
    · have hzero : id = 0 := Nat.lt_one_iff.mp (List.getElem?_eq_some_iff.mp hstart.choose_spec).1
      rw [hzero, w.entry_named, Option.some.injEq, Option.some.injEq] at hname
      rw [hzero, w.entry, hname]
      exact Or.inl rfl
    · obtain ⟨l, hl, rfl⟩ := List.mem_map.mp hmem
      obtain ⟨id, name', rfl, hname'⟩ := w.emits.marker_named hl
      rw [Label.id, hname', Option.some.injEq, Option.some.injEq] at hname
      rw [← hname]
      exact Or.inr hl

/-- Each label that a function allocated starts a block. -/
theorem mem_ids_iff {id : Nat} :
    id ∈ (Code.markers seg.instructions).map Label.id ↔ id < w.final.labels.size := by
  constructor
  · intro hid
    obtain ⟨l, hl, rfl⟩ := List.mem_map.mp hid
    obtain ⟨id, name, rfl, hname⟩ := w.mem_markers_iff.mp hl
    exact (List.getElem?_eq_some_iff.mp hname).1
  · intro hid
    obtain ⟨name, hname⟩ := w.fixes id hid
    exact List.mem_map.mpr ⟨.fixed id name, w.mem_markers_iff.mpr ⟨id, name, rfl, hname⟩, rfl⟩

include w in
/-- Every label that an instruction of a function names is one of its markers. -/
theorem labels_subset_markers {i : Instr} (hi : i ∈ seg.instructions) {l : Label}
    (hl : l ∈ i.labels) : l ∈ Code.markers seg.instructions := by
  rw [w.code] at hi
  obtain ⟨j, hj, rfl⟩ := List.mem_map.mp hi
  rw [Instr.labels_relabel] at hl
  obtain ⟨m, hm, rfl⟩ := List.mem_map.mp hl
  have hentry : env.entry.id = 0 := by rw [w.entry]; rfl
  have hknown := wholeCode_knows w.emits hentry j hj m hm
  obtain ⟨name, hname⟩ := w.fixes m.id hknown
  exact w.mem_markers_iff.mpr ⟨m.id, name, LabelTable.named_of_name hname, hname⟩

end Definition.Lowered

end MiniC
