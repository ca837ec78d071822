import Mathlib.Data.Set.Insert
import MiniC.Proofs.Operands

/-!
# Values that control brings along

Code is read from left to right with an account of the values that have been defined wherever
control can be. A plan says what control brings to the start of each block, and for a block with a
`phi` also which value it takes from which block. `Flows slots P p code q` says that the code from
`p` to `q` keeps to the plan `P`: an instruction reads what is there, a jump brings what its target
asks for, and the labels in a `phi` are those of blocks that jump to it. The account is of the slots
or of the temporaries, as `slots` tells.
-/

namespace MiniC

namespace Instr

/-- The labels that control can go on to. -/
def targets : Instr → List Label
  | .jump target => [target]
  | .branch _ onTrue onFalse => [onTrue, onFalse]
  | _ => []

/-- Whether control goes on to the next instruction in the same block, whatever block it came
from. -/
def isPlain : Instr → Bool
  | .ret _ | .jump _ | .branch .. | .label _ | .phi .. => false
  | _ => true

/-- The number of the block behind the instruction, in block `b`. -/
def enter (b : Nat) (i : Instr) : Nat := (i.marker?.map Label.id).getD b

variable {i : Instr} {f : Label → Label}

lemma isTerminator_of_mem_targets {l : Label} (h : l ∈ i.targets) : i.isTerminator = true := by
  cases i with
  | jump | branch => rfl
  | _ => cases h

lemma marker?_of_isPlain (h : i.isPlain = true) : i.marker? = none := by
  cases i with
  | label => cases h
  | _ => rfl

lemma marker?_of_isTerminator (h : i.isTerminator = true) : i.marker? = none := by
  cases i with
  | label => cases h
  | _ => rfl

lemma isTerminator_of_isPlain (h : i.isPlain = true) : i.isTerminator = false := by
  cases i with
  | ret | jump | branch => cases h
  | _ => rfl

@[simp] lemma targets_relabel : (i.relabel f).targets = i.targets.map f := by
  cases i with
  | phi result incoming => rw [relabel_phi]; rfl
  | _ => rfl

@[simp] lemma isPlain_relabel : (i.relabel f).isPlain = i.isPlain := by
  cases i with
  | phi result incoming => rw [relabel_phi]; rfl
  | _ => rfl

lemma enter_relabel (hf : ∀ l, (f l).id = l.id) (b : Nat) : (i.relabel f).enter b = i.enter b := by
  cases i with
  | label l => exact hf l
  | phi result incoming => rw [relabel_phi]; rfl
  | _ => rfl

end Instr

namespace Code

/-- The number of the block in which code ends that begins in block `b`. -/
def lastBlock (b : Nat) (code : Code) : Nat := code.foldl Instr.enter b

/-- The jumps in code that begins in block `b`, as numbers: the block of the jump and its target. -/
def edges : (b : Nat) → Code → List (Nat × Nat)
  | _, [] => []
  | b, i :: rest => i.targets.map (fun l => (b, l.id)) ++ edges (i.enter b) rest

variable {b : Nat} {code code' : Code}

@[simp] lemma lastBlock_nil : lastBlock b [] = b := rfl

@[simp] lemma lastBlock_cons (i : Instr) :
    lastBlock b (i :: code) = lastBlock (i.enter b) code := rfl

@[simp] lemma lastBlock_append : lastBlock b (code ++ code') = lastBlock (lastBlock b code) code' :=
  List.foldl_append

lemma edges_append :
    edges b (code ++ code') = edges b code ++ edges (lastBlock b code) code' := by
  induction code generalizing b with
  | nil => rfl
  | cons i rest ih => rw [List.cons_append, edges, ih, edges, lastBlock_cons, List.append_assoc]

lemma edges_append_left {e : Nat × Nat} (h : e ∈ edges b code) : e ∈ edges b (code ++ code') := by
  rw [edges_append]
  exact List.mem_append_left _ h

lemma edges_relabel {f : Label → Label} (hf : ∀ l, (f l).id = l.id) :
    edges b (code.map (Instr.relabel f)) = edges b code := by
  induction code generalizing b with
  | nil => rfl
  | cons i rest ih =>
    rw [List.map_cons, edges, edges, Instr.enter_relabel hf, ih, Instr.targets_relabel,
      List.map_map]
    simp only [Function.comp_def, hf]

/-- A jump leads from the block it stands in to its target. -/
lemma mem_edges {m l : Nat} : (m, l) ∈ edges b code ↔
    ∃ front i back, code = front ++ i :: back ∧ lastBlock b front = m ∧
      ∃ t ∈ i.targets, t.id = l := by
  constructor
  · intro h
    induction code generalizing b with
    | nil => cases h
    | cons i rest ih =>
      rcases List.mem_append.mp h with h | h
      · obtain ⟨t, ht, heq⟩ := List.mem_map.mp h
        rw [Prod.mk.injEq] at heq
        exact ⟨[], i, rest, rfl, heq.1, t, ht, heq.2⟩
      · obtain ⟨front, j, back, rfl, hblock, ht⟩ := ih h
        exact ⟨i :: front, j, back, rfl, hblock, ht⟩
  · rintro ⟨front, i, back, rfl, rfl, t, ht, rfl⟩
    rw [edges_append]
    refine List.mem_append_right _ (List.mem_append_left _ ?_)
    exact List.mem_map_of_mem ht

end Code

/-- What control brings to the start of a block, and the value that it takes from each block it can
come from if the block starts with a `phi`. -/
structure Entry where
  values : Set Value
  incoming : List (Value × Nat) := []

/-- An account of control: what it brings to each block, and the jumps that there are. -/
structure Plan where
  entry : Nat → Entry
  edges : Set (Nat × Nat)

/-- Whether the value is one of those that are accounted for. -/
def Value.Counts (slots : Bool) (v : Value) : Prop := v.isLiteral = false ∧ v.isSlot = slots

/-- Whether control can go on from the end of block `b`, with the values `A`. -/
structure Entry.Accepts (slots : Bool) (b : Nat) (A : Set Value) (e : Entry) : Prop where
  values_subset : e.values ⊆ A
  listed : e.incoming = [] ∨ ∃ v, (v, b) ∈ e.incoming
  brought : ∀ v, (v, b) ∈ e.incoming → v.Counts slots → v ∈ A

/-- A place in code: the block it belongs to, with the values that are there if control comes by. -/
inductive Point where
  | live (b : Nat) (A : Set Value)
  | dead (b : Nat)

def Point.block : Point → Nat
  | .live b _ | .dead b => b

/-- Code from `p` to `q` that keeps to the plan `P`. -/
inductive Flows (slots : Bool) (P : Plan) : Point → Code → Point → Prop where
  | nil (p : Point) : Flows slots P p [] p
  | plain {b : Nat} {A : Set Value} {i : Instr} {code : Code} {q : Point} (hi : i.isPlain = true)
      (reads : ∀ v ∈ i.operands, v.Counts slots → v ∈ A)
      (rest : Flows slots P (.live b (A ∪ {v | v ∈ i.results})) code q) :
      Flows slots P (.live b A) (i :: code) q
  | leave {b : Nat} {A : Set Value} {i : Instr} {code : Code} {q : Point}
      (hi : i.isTerminator = true) (reads : ∀ v ∈ i.operands, v.Counts slots → v ∈ A)
      (goes : ∀ l ∈ i.targets, (P.entry l.id).Accepts slots b A)
      (rest : Flows slots P (.dead b) code q) : Flows slots P (.live b A) (i :: code) q
  /-- Control does not come by, but a `phi` must not be told of a jump here. -/
  | skip {b : Nat} {i : Instr} {code : Code} {q : Point}
      (hi : i.isPlain = true ∨ i.isTerminator = true)
      (goes : ∀ l ∈ i.targets, (P.entry l.id).incoming = [])
      (rest : Flows slots P (.dead b) code q) : Flows slots P (.dead b) (i :: code) q
  | label {b : Nat} (l : Label) {code : Code} {q : Point}
      (rest : Flows slots P (.live l.id (P.entry l.id).values) code q) :
      Flows slots P (.dead b) (.label l :: code) q
  | join {b : Nat} {l m₁ m₂ : Label} {r v₁ v₂ : Value} {code : Code} {q : Point}
      (hne : m₁.id ≠ m₂.id) (hincoming : (P.entry l.id).incoming = [(v₁, m₁.id), (v₂, m₂.id)])
      (hedge₁ : (m₁.id, l.id) ∈ P.edges) (hedge₂ : (m₂.id, l.id) ∈ P.edges)
      (rest : Flows slots P (.live l.id (insert r (P.entry l.id).values)) code q) :
      Flows slots P (.dead b) (.label l :: .phi r [(v₁, m₁), (v₂, m₂)] :: code) q

/-- Whether the values of a `phi` behind the label `l` come from two blocks, as the plan has them.
-/
structure Plan.Joins (P : Plan) (l : Label) (incoming : List (Value × Label)) : Prop where
  incoming_eq : ∃ v₁ m₁ v₂ m₂, incoming = [(v₁, m₁), (v₂, m₂)] ∧ m₁.id ≠ m₂.id
  entry_eq : (P.entry l.id).incoming = incoming.map (Prod.map id Label.id)
  edge : ∀ x ∈ incoming, (x.2.id, l.id) ∈ P.edges

namespace Flows

variable {slots : Bool} {P : Plan} {p q r : Point} {code code' : Code}

lemma append (h : Flows slots P p code q) (h' : Flows slots P q code' r) :
    Flows slots P p (code ++ code') r := by
  induction h with
  | nil p => exact h'
  | plain hi reads rest ih => exact .plain hi reads (ih h')
  | leave hi reads goes rest ih => exact .leave hi reads goes (ih h')
  | skip hi goes rest ih => exact .skip hi goes (ih h')
  | label l rest ih => exact .label l (ih h')
  | join hne hincoming hedge₁ hedge₂ rest ih => exact .join hne hincoming hedge₁ hedge₂ (ih h')

lemma block_eq (h : Flows slots P p code q) : q.block = code.lastBlock p.block := by
  induction h with
  | nil p => rfl
  | plain hi reads rest ih =>
    rw [ih, Code.lastBlock_cons, Instr.enter, Instr.marker?_of_isPlain hi]
    rfl
  | leave hi reads goes rest ih =>
    rw [ih, Code.lastBlock_cons, Instr.enter, Instr.marker?_of_isTerminator hi]
    rfl
  | skip hi goes rest ih =>
    have hmarker := hi.elim Instr.marker?_of_isPlain Instr.marker?_of_isTerminator
    rw [ih, Code.lastBlock_cons, Instr.enter, hmarker]
    rfl
  | label l rest ih => exact ih
  | join hne hincoming hedge₁ hedge₂ rest ih => exact ih

/-- The account is the same for other labels with the same numbers. -/
lemma relabel {f : Label → Label} (hf : ∀ l, (f l).id = l.id) (h : Flows slots P p code q) :
    Flows slots P p (code.map (Instr.relabel f)) q := by
  induction h with
  | nil p => exact .nil p
  | plain hi reads rest ih =>
    refine .plain (by simpa using hi) (by simpa using reads) ?_
    simpa using ih
  | leave hi reads goes rest ih =>
    refine .leave (by simpa using hi) (by simpa using reads) ?_ ih
    simpa [hf] using goes
  | skip hi goes rest ih =>
    refine .skip (by simpa using hi) ?_ ih
    simpa [hf] using goes
  | label l rest ih =>
    refine .label (f l) ?_
    rwa [hf]
  | @join b l m₁ m₂ r v₁ v₂ code q hne hincoming hedge₁ hedge₂ rest ih =>
    rw [List.map_cons, List.map_cons, Instr.relabel_label, Instr.relabel_phi]
    refine .join (l := f l) (by rwa [hf, hf]) ?_ ?_ ?_ ?_
    · rw [hf, hf, hf, hincoming]
      rfl
    · rwa [hf, hf]
    · rwa [hf, hf]
    · rwa [hf]

/-- Code can be cut anywhere but in front of a `phi`. -/
lemma split (hphi : ∀ result incoming back, code' ≠ .phi result incoming :: back) :
    ∀ (code : Code) {p q : Point}, Flows slots P p (code ++ code') q →
      ∃ m, Flows slots P p code m ∧ Flows slots P m code' q
  | [], p, _, h => ⟨p, .nil p, h⟩
  | i :: code, p, q, h => by
    rw [List.cons_append] at h
    generalize hwhole : code ++ code' = whole at h
    cases h with
    | plain hi reads rest =>
      obtain ⟨m, h₁, h₂⟩ := split hphi code (hwhole ▸ rest)
      exact ⟨m, .plain hi reads h₁, h₂⟩
    | leave hi reads goes rest =>
      obtain ⟨m, h₁, h₂⟩ := split hphi code (hwhole ▸ rest)
      exact ⟨m, .leave hi reads goes h₁, h₂⟩
    | skip hi goes rest =>
      obtain ⟨m, h₁, h₂⟩ := split hphi code (hwhole ▸ rest)
      exact ⟨m, .skip hi goes h₁, h₂⟩
    | label l rest =>
      obtain ⟨m, h₁, h₂⟩ := split hphi code (hwhole ▸ rest)
      exact ⟨m, .label l h₁, h₂⟩
    | join hne hincoming hedge₁ hedge₂ rest =>
      cases code with
      | nil => exact absurd hwhole (hphi _ _ _)
      | cons j code =>
        obtain ⟨rfl, hrest⟩ := List.cons_eq_cons.mp hwhole
        obtain ⟨m, h₁, h₂⟩ := split hphi code (hrest ▸ rest)
        exact ⟨m, .join hne hincoming hedge₁ hedge₂ h₁, h₂⟩

lemma ne_phi_of_isTerminator {t : Instr} (ht : t.isTerminator = true) (back : Code) (result : Value)
    (incoming : List (Value × Label)) (more : Code) : t :: back ≠ .phi result incoming :: more := by
  rintro ⟨⟩
  cases ht

/-- Control comes by only in the block that it is in and in blocks that the code starts. -/
lemma mem_markers_of_live {b : Nat} {A : Set Value} (h : Flows slots P p code (.live b A)) :
    (∃ A', p = .live b A') ∨ b ∈ code.markers.map Label.id := by
  generalize hq : Point.live b A = q at h
  induction h with
  | nil p => exact Or.inl ⟨A, hq.symm⟩
  | plain hi reads rest ih =>
    rw [Code.markers_cons_of_none (Instr.marker?_of_isPlain hi)]
    refine (ih hq).imp_left ?_
    rintro ⟨A', heq⟩
    injection heq with hb
    exact ⟨_, by rw [hb]⟩
  | leave hi reads goes rest ih =>
    rw [Code.markers_cons_of_none (Instr.marker?_of_isTerminator hi)]
    exact Or.inr ((ih hq).resolve_left (by simp))
  | skip hi goes rest ih =>
    rw [Code.markers_cons_of_none (hi.elim Instr.marker?_of_isPlain Instr.marker?_of_isTerminator)]
    exact (ih hq).imp_left (by simp)
  | label l rest ih =>
    rw [Code.markers_label, List.map_cons, List.mem_cons]
    refine Or.inr ((ih hq).imp_left ?_)
    rintro ⟨A', heq⟩
    injection heq with hb
    exact hb.symm
  | join hne hincoming hedge₁ hedge₂ rest ih =>
    rw [Code.markers_label, Code.markers_cons_of_none rfl, List.map_cons, List.mem_cons]
    refine Or.inr ((ih hq).imp_left ?_)
    rintro ⟨A', heq⟩
    injection heq with hb
    exact hb.symm

/-- Behind a terminator, control does not come by again in the same block. -/
lemma not_live_again {s b : Nat} {A A' : Set Value} {t : Instr} {back : Code}
    (h : Flows slots P (.dead s) code (.live b A)) (ht : t.isTerminator = true)
    (h' : Flows slots P (.dead s) (code ++ t :: back) (.live b A'))
    (hnodup : ((code ++ t :: back).markers.map Label.id).Nodup) : False := by
  -- The label of block `b` would stand in front of the terminator and again behind it.
  obtain ⟨m, hm, hback⟩ := split (ne_phi_of_isTerminator ht back) code h'
  have hb : m.block = b := hm.block_eq.trans h.block_eq.symm
  have hagain : b ∈ back.markers.map Label.id := by
    cases hback with
    | plain hi =>
      rw [Instr.isTerminator_of_isPlain hi] at ht
      cases ht
    | leave hi reads goes rest => exact rest.mem_markers_of_live.resolve_left (by simp)
    | skip hi goes rest => exact rest.mem_markers_of_live.resolve_left (by simp)
    | label l rest => cases ht
    | join => cases ht
  have hfirst : b ∈ code.markers.map Label.id := h.mem_markers_of_live.resolve_left (by simp)
  rw [Code.markers_append, List.map_append,
    Code.markers_cons_of_none (Instr.marker?_of_isTerminator ht)] at hnodup
  exact List.disjoint_of_nodup_append hnodup hfirst hagain

/-- Control leaves a block in one place. -/
lemma exit_unique {s b : Nat} {A A' : Set Value} {front front' back back' : Code} {t t' : Instr}
    (hcode : front ++ t :: back = front' ++ t' :: back')
    (hnodup : ((front ++ t :: back).markers.map Label.id).Nodup)
    (ht : t.isTerminator = true) (h : Flows slots P (.dead s) front (.live b A))
    (ht' : t'.isTerminator = true) (h' : Flows slots P (.dead s) front' (.live b A')) : t = t' := by
  have hsublist : ∀ {part part' : Code}, front ++ t :: back = part ++ part' →
      (part.markers.map Label.id).Nodup := by
    intro part part' heq
    rw [heq, Code.markers_append, List.map_append] at hnodup
    exact hnodup.of_append_left
  rcases List.append_eq_append_iff.mp hcode with ⟨mid, rfl, hmid⟩ | ⟨mid, rfl, hmid⟩
  · cases mid with
    | nil => exact (List.cons_eq_cons.mp hmid).1
    | cons i mid =>
      obtain ⟨rfl, -⟩ := List.cons_eq_cons.mp hmid
      exact (not_live_again h ht h' (hsublist hcode)).elim
  · cases mid with
    | nil => exact (List.cons_eq_cons.mp hmid).1.symm
    | cons i mid =>
      obtain ⟨rfl, -⟩ := List.cons_eq_cons.mp hmid
      exact (not_live_again h' ht' h (hsublist rfl)).elim

/-- A jump to a block with a `phi` stands where control comes by. -/
lemma accepts_of_edge {m l : Nat} (h : Flows slots P p code q) (he : (m, l) ∈ code.edges p.block) :
    (P.entry l).incoming = [] ∨ ∃ front t back A, code = front ++ t :: back ∧
      t.isTerminator = true ∧ (∃ l' ∈ t.targets, l'.id = l) ∧ Flows slots P p front (.live m A) ∧
      (P.entry l).Accepts slots m A := by
  obtain ⟨front, t, back, rfl, hm, l', hl', rfl⟩ := Code.mem_edges.mp he
  have ht := Instr.isTerminator_of_mem_targets hl'
  obtain ⟨r, hfront, hback⟩ := split (ne_phi_of_isTerminator ht back) front h
  have hblock : r.block = m := hfront.block_eq.trans hm
  cases hback with
  | plain hi =>
    rw [Instr.isTerminator_of_isPlain hi] at ht
    cases ht
  | leave hi reads goes rest =>
    subst hblock
    exact Or.inr ⟨front, t, back, _, rfl, ht, ⟨l', hl', rfl⟩, hfront, goes l' hl'⟩
  | skip hi goes rest => exact Or.inl (goes l' hl')
  | label l rest => cases hl'
  | join => cases hl'

/-- A `phi` stands behind the label of its block, and the plan knows what it takes. -/
lemma joins_of_phi {r : Value} {incoming : List (Value × Label)} {back : Code} :
    ∀ (front : Code) {p q : Point}, Flows slots P p (front ++ .phi r incoming :: back) q →
      ∃ front' l, front = front' ++ [.label l] ∧ P.Joins l incoming
  | [], p, q, h => by
    cases h with
    | plain hi => cases hi
    | leave hi => cases hi
    | skip hi => cases hi with
      | inl hi => cases hi
      | inr hi => cases hi
  | i :: front, p, q, h => by
    have hmore : ∀ {p q : Point}, Flows slots P p (front ++ .phi r incoming :: back) q →
        ∃ front' l, i :: front = front' ++ [.label l] ∧ P.Joins l incoming := by
      intro p q h
      obtain ⟨front', l, rfl, hl⟩ := joins_of_phi front h
      exact ⟨i :: front', l, rfl, hl⟩
    rw [List.cons_append] at h
    generalize hwhole : front ++ .phi r incoming :: back = whole at h
    cases h with
    | plain hi reads rest => exact hmore (hwhole ▸ rest)
    | leave hi reads goes rest => exact hmore (hwhole ▸ rest)
    | skip hi goes rest => exact hmore (hwhole ▸ rest)
    | label l rest => exact hmore (hwhole ▸ rest)
    | @join _ l m₁ m₂ r' v₁ v₂ _ _ hne hincoming hedge₁ hedge₂ rest =>
      cases front with
      | nil =>
        obtain ⟨hhead, rfl⟩ := List.cons_eq_cons.mp hwhole
        cases hhead
        exact ⟨[], l, rfl, ⟨v₁, m₁, v₂, m₂, rfl, hne⟩, hincoming, by simpa using ⟨hedge₁, hedge₂⟩⟩
      | cons j front =>
        obtain ⟨rfl, hrest⟩ := List.cons_eq_cons.mp hwhole
        obtain ⟨front', l', rfl, hl'⟩ := joins_of_phi front (hrest ▸ rest)
        exact ⟨.label l :: .phi r' [(v₁, m₁), (v₂, m₂)] :: front', l', rfl, hl'⟩

end Flows

end MiniC
