import Mathlib.Tactic.Common
import MiniC.Segment

/-!
# Resolving labels

A table in which every label has a name replaces each label of code by its named form and changes
nothing else.
-/

namespace MiniC

namespace Instr

variable (f : Label → Label)

/-- The instruction with every label replaced. -/
def relabel (i : Instr) : Instr := i.withLabels (i.labels.map f)

@[simp] lemma relabel_jump (l : Label) : (jump l).relabel f = jump (f l) := rfl

@[simp] lemma relabel_branch (v : Value) (l m : Label) :
    (branch v l m).relabel f = branch v (f l) (f m) := rfl

@[simp] lemma relabel_label (l : Label) : (label l).relabel f = label (f l) := rfl

@[simp] lemma relabel_phi (result : Value) (incoming : List (Value × Label)) :
    (phi result incoming).relabel f = phi result (incoming.map (Prod.map id f)) := by
  simp only [relabel, withLabels, labels, List.map_map]
  congr 1
  induction incoming with
  | nil => rfl
  | cons head rest ih => exact congrArg₂ List.cons rfl ih

@[simp] lemma labels_relabel (i : Instr) : (i.relabel f).labels = i.labels.map f := by
  cases i with
  | phi result incoming =>
    simp only [relabel_phi, labels, List.map_map]
    rfl
  | _ => rfl

@[simp] lemma isTerminator_relabel (i : Instr) : (i.relabel f).isTerminator = i.isTerminator := by
  cases i with
  | phi result incoming => rw [relabel_phi]; rfl
  | _ => rfl

end Instr

namespace LabelTable

variable (t : LabelTable)

/-- Whether the label with this number has a name. -/
def Fixes (id : Nat) : Prop := ∃ name, t.names[id]? = some (some name)

/-- The label with its name in the table. -/
def named (l : Label) : Label := .fixed l.id (t.names[l.id]?.join.getD 0)

variable {t}

lemma named_of_name {l : Label} {name : Nat} (h : t.names[l.id]? = some (some name)) :
    t.named l = .fixed l.id name := by
  simp [named, h]

lemma resolve_of_fixes {l : Label} (h : t.Fixes l.id) : t.resolve l = .ok (t.named l) := by
  obtain ⟨name, hname⟩ := h
  rw [named_of_name hname, resolve, hname]

lemma resolveList_of_fixes {ls : List Label} (h : ∀ l ∈ ls, t.Fixes l.id) :
    t.resolveList ls = (ls.map t.named, none) := by
  induction ls with
  | nil => rfl
  | cons l rest ih =>
    have hrest := ih fun m hm => h m (List.mem_cons_of_mem l hm)
    rw [resolveList, resolve_of_fixes (h l List.mem_cons_self)]
    simp [hrest]

/-- Resolving code succeeds where all its labels have names. -/
theorem resolveCode_of_fixes {code : Code} (h : ∀ i ∈ code, ∀ l ∈ i.labels, t.Fixes l.id) :
    t.resolveCode code = (code.map (Instr.relabel t.named), none) := by
  induction code with
  | nil => rfl
  | cons i rest ih =>
    have hrest := ih fun j hj => h j (List.mem_cons_of_mem i hj)
    rw [resolveCode, resolveList_of_fixes (h i List.mem_cons_self)]
    simp [hrest, Instr.relabel]

lemma checkAllFixed_ok : t.checkAllFixed = .ok () ↔ ∀ id < t.size, t.Fixes id := by
  rw [checkAllFixed]
  cases hfind : t.names.findIdx? Option.isNone with
  | none =>
    simp only [List.findIdx?_eq_none_iff] at hfind
    refine iff_of_true rfl ?_
    intro id hid
    have hmem := hfind _ (List.getElem_mem hid)
    obtain ⟨name, hname⟩ := Option.isSome_iff_exists.mp (by simpa using hmem)
    exact ⟨name, by rw [List.getElem?_eq_getElem hid, hname]⟩
  | some id =>
    obtain ⟨hid, hnone, -⟩ := List.findIdx?_eq_some_iff_getElem.mp hfind
    refine iff_of_false (by simp) ?_
    intro hall
    obtain ⟨name, hname⟩ := hall id hid
    rw [List.getElem?_eq_getElem hid, Option.some.injEq] at hname
    rw [hname] at hnone
    cases hnone

end LabelTable

end MiniC
