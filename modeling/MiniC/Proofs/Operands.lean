import MiniC.Proofs.Numbering

/-!
# What instructions read and define

The values that an instruction defines and those it reads, where a `phi` reads each of its values at
the end of the block beside it. Every value of a function has a number of its own, so that one
instruction of the text alone defines it.
-/

namespace MiniC

/-- A test that only one place of a list passes finds that place. -/
lemma filter_eq_singleton {α : Type} {p : α → Bool} {front back : List α} {a : α} (ha : p a = true)
    (hother : ∀ b ∈ front ++ back, p b = false) : (front ++ a :: back).filter p = [a] := by
  have hnone : ∀ part : List α, part ⊆ front ++ back → part.filter p = [] := by
    intro part hpart
    exact List.filter_eq_nil_iff.mpr fun b hb => by simp [hother b (hpart hb)]
  rw [List.filter_append, List.filter_cons_of_pos ha, hnone front (List.subset_append_left _ _),
    hnone back (List.subset_append_right _ _)]
  rfl

def Value.isSlot : Value → Bool
  | .slot .. => true
  | _ => false

namespace Instr

/-- The values that an instruction defines. -/
def results : Instr → List Value
  | .alloca slot _ => [slot]
  | .load result .. | .binary result .. | .icmp result .. | .phi result _ | .zext result _ =>
    [result]
  | .call result .. => result.toList
  | .functionBegin _ _ params => params
  | .store .. | .jump _ | .branch .. | .label _ | .ret _ | .functionEnd => []

/-- The values that an instruction reads where it stands. -/
def operands : Instr → List Value
  | .store value slot _ => [value, slot]
  | .load _ slot _ => [slot]
  | .binary _ _ lhs rhs | .icmp _ _ lhs rhs => [lhs, rhs]
  | .branch condition .. => [condition]
  | .zext _ value => [value]
  | .call _ _ _ arguments => arguments
  | .ret value => value.toList
  | .alloca .. | .jump _ | .label _ | .phi .. | .functionBegin .. | .functionEnd => []

/-- The values that a `phi` chooses from, each beside the block it comes from. -/
def incoming : Instr → List (Value × Label)
  | .phi _ incoming => incoming
  | _ => []

/-- All values that an instruction reads, here or at the end of another block. -/
def used (i : Instr) : List Value := i.operands ++ i.incoming.map Prod.fst

variable (f : Label → Label) (i : Instr)

@[simp] lemma results_relabel : (i.relabel f).results = i.results := by
  cases i with
  | phi result incoming => rw [relabel_phi]; rfl
  | _ => rfl

@[simp] lemma operands_relabel : (i.relabel f).operands = i.operands := by
  cases i with
  | phi result incoming => rw [relabel_phi]; rfl
  | _ => rfl

@[simp] lemma incoming_relabel : (i.relabel f).incoming = i.incoming.map (Prod.map id f) := by
  cases i with
  | phi result incoming => rw [relabel_phi]; rfl
  | _ => rfl

@[simp] lemma used_relabel : (i.relabel f).used = i.used := by
  rw [used, used, operands_relabel, incoming_relabel, List.map_map]
  rfl

/-- Every result has its number among the definitions. -/
lemma mem_definitions_of_mem_results {i : Instr} {v : Value} (h : v ∈ i.results) :
    v.id? ∈ i.definitions := by
  cases i with
  | call result callee returnTy arguments => exact List.mem_map_of_mem h
  | functionBegin name returnTy params => exact List.mem_map_of_mem h
  | _ => simp_all [results, definitions]

/-- Results that share no number are told apart by their numbers. -/
lemma filter_results {i : Instr} (hnodup : i.definitions.Nodup) {v : Value} (h : v ∈ i.results) :
    i.results.filter (fun w => w.id? = v.id?) = [v] := by
  have hids : (i.results.map Value.id?).Nodup := by
    cases i with
    | call | functionBegin => exact hnodup
    | _ => simp [results]
  obtain ⟨front, back, hsplit⟩ := List.append_of_mem h
  rw [hsplit, List.map_append, List.map_cons, List.nodup_middle, List.nodup_cons,
    ← List.map_append] at hids
  rw [hsplit]
  refine filter_eq_singleton (by simp) fun w hw => ?_
  simp only [decide_eq_false_iff_not]
  intro heq
  exact hids.1 (heq ▸ List.mem_map_of_mem hw)

end Instr

namespace Code

/-- The values that code defines, in the order of its text. -/
def results (code : Code) : List Value := code.flatMap Instr.results

@[simp] lemma results_nil : results [] = [] := rfl

@[simp] lemma results_cons (i : Instr) (code : Code) :
    results (i :: code) = i.results ++ results code := rfl

@[simp] lemma results_append (code code' : Code) :
    results (code ++ code') = results code ++ results code' := List.flatMap_append

@[simp] lemma results_relabel (f : Label → Label) (code : Code) :
    results (code.map (Instr.relabel f)) = results code := by
  simp [results, List.flatMap_map]

/-- Where no number is defined twice, a number belongs to one instruction. -/
lemma filter_definitions {code : Code} (hnodup : (definitions code).Nodup) {i : Instr}
    (hi : i ∈ code) {number : Option Nat} (h : number ∈ i.definitions) :
    code.filter (fun j => number ∈ j.definitions) = [i] := by
  obtain ⟨front, back, rfl⟩ := List.append_of_mem hi
  rw [definitions_append, definitions_cons] at hnodup
  refine filter_eq_singleton (by simpa using h) fun j hj => ?_
  simp only [decide_eq_false_iff_not]
  intro hmem
  rcases List.mem_append.mp hj with hj | hj
  · have hfront : number ∈ definitions front := List.mem_flatMap.mpr ⟨j, hj, hmem⟩
    exact List.disjoint_of_nodup_append hnodup hfront (List.mem_append_left _ h)
  · have hback : number ∈ definitions back := List.mem_flatMap.mpr ⟨j, hj, hmem⟩
    exact List.disjoint_of_nodup_append (List.nodup_append.mp hnodup).2.1 h hback

/-- Whether one instruction of the code alone defines the number of `v`, and defines it as `v`. A
slot is defined by an allocation, and a temporary by anything else. -/
def DefinesOnce (code : Code) (v : Value) : Prop :=
  ∃ i, code.filter (fun j => v.id? ∈ j.definitions) = [i] ∧
    i.results.filter (fun w => w.id? = v.id?) = [v] ∧
    (v.isSlot = true ↔ ∃ align, i = .alloca v align)

/-- Whether the instruction of `code` that defines `v` is among those that are `done`. It is the
only one that defines a value with the number of `v`. -/
def DefinedBy (code done : Code) (v : Value) : Prop :=
  ∃ i ∈ done, v ∈ i.results ∧ code.filter (fun j => v.id? ∈ j.definitions) = [i]

/-- Dense numbers define every value once. -/
lemma definesOnce_of_mem {code : Code} {count : Nat}
    (hdense : definitions code = (List.range count).map some) {v : Value} {i : Instr}
    (hi : i ∈ code) (hv : v ∈ i.results) (hslot : v.isSlot = true ↔ ∃ align, i = .alloca v align) :
    code.DefinesOnce v := by
  have hnodup := nodup_of_dense hdense
  refine ⟨i, filter_definitions hnodup hi (Instr.mem_definitions_of_mem_results hv), ?_, hslot⟩
  exact Instr.filter_results ((List.nodup_flatMap.mp hnodup).1 i hi) hv

end Code

end MiniC
