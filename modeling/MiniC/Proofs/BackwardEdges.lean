import Mathlib.Data.List.Dedup
import MiniC.Proofs.LoopLayout
import MiniC.Proofs.Machine

/-!
# Backward edges

In the code of a definition, control goes back only to the checks of loops. The way back stands in
front of the end of the loop, so there are at most as many labels to go back to as there are loops.
Without a loop every step of a run leaves less code to go, and the run comes to an end.
-/

namespace MiniC

namespace Code

/-- The labels that later instructions go back to, in the order of their markers. -/
def backwardTargets : Code → List Label
  | [] => []
  | i :: rest =>
    (i.marker?.toList.filter fun l => ∃ j ∈ rest, l ∈ j.targets) ++ backwardTargets rest

lemma mem_backwardTargets {code : Code} {l : Label} : l ∈ backwardTargets code ↔
    ∃ pre i post, code = pre ++ i :: post ∧ l ∈ i.targets ∧ .label l ∈ pre := by
  induction code with
  | nil => simp [backwardTargets]
  | cons i rest ih =>
    rw [backwardTargets, List.mem_append, ih, List.mem_filter, Option.mem_toList,
      decide_eq_true_iff]
    constructor
    · rintro (⟨hmark, j, hj, hl⟩ | ⟨pre, j, post, rfl, hl, hpre⟩)
      · obtain ⟨pre, post, rfl⟩ := List.append_of_mem hj
        rw [Instr.eq_label_of_marker? hmark]
        exact ⟨.label l :: pre, j, post, rfl, hl, List.mem_cons_self⟩
      · exact ⟨i :: pre, j, post, rfl, hl, List.mem_cons_of_mem i hpre⟩
    · rintro ⟨pre, j, post, heq, hl, hpre⟩
      cases pre with
      | nil => cases hpre
      | cons i' pre =>
        obtain ⟨rfl, rfl⟩ := List.cons.inj heq
        rcases List.mem_cons.mp hpre with rfl | hpre
        · exact .inl ⟨rfl, j, List.mem_append_right pre List.mem_cons_self, hl⟩
        · exact .inr ⟨pre, j, post, rfl, hl, hpre⟩

variable {loops : List LoopLabels} {pre post : Code} {i : Instr} {l : Label}

/-- Control goes forward, or from a jump to the check of a loop that ends further on. -/
lemma Goes.target (h : Goes [] loops (pre ++ i :: post)) (hl : l ∈ i.targets) :
    .label l ∈ post ∨
      i = .jump l ∧ ∃ loop ∈ loops, loop.check = l ∧ .label loop.exit ∈ post := by
  have hi := h.of_split
  cases i with
  | jump m =>
    obtain rfl := List.mem_singleton.mp hl
    refine hi.imp Label.ahead_nil.mp ?_
    rintro ⟨loop, hloop, hcheck, hexit⟩
    exact ⟨rfl, loop, hloop, hcheck, Label.ahead_nil.mp hexit⟩
  | _ => exact .inl (Label.ahead_nil.mp (hi l hl))

/-- Both ways of a branch go forward. -/
lemma Goes.branch {v : Value} {m : Label} (h : Goes [] loops (pre ++ .branch v l m :: post)) :
    .label l ∈ post ∧ .label m ∈ post := by
  have htargets (k : Label) (hk : k ∈ (Instr.branch v l m).targets) : .label k ∈ post :=
    Label.ahead_nil.mp (h.of_split k hk)
  exact ⟨htargets l List.mem_cons_self, htargets m (List.mem_cons_of_mem l List.mem_cons_self)⟩

/-- A label whose block started before does not start another one. -/
lemma not_mem_of_nodup (hnodup : (markers (pre ++ i :: post)).Nodup) (hl : .label l ∈ pre) :
    .label l ∉ post := by
  intro hpost
  rw [markers_append, List.nodup_append] at hnodup
  have hmem : l ∈ markers (i :: post) := mem_markers.mpr (List.mem_cons_of_mem i hpost)
  exact hnodup.2.2 l (mem_markers.mpr hl) l hmem rfl

/-- Control goes back only from a jump to the check of a loop that ends further on. -/
lemma Goes.back (h : Goes [] loops (pre ++ i :: post))
    (hnodup : (markers (pre ++ i :: post)).Nodup) (htarget : l ∈ i.targets) (hl : .label l ∈ pre) :
    ∃ loop ∈ loops, loop.check = l ∧ .label loop.exit ∈ post := by
  rcases h.target htarget with hpost | ⟨-, hloop⟩
  · exact (not_mem_of_nodup hnodup hl hpost).elim
  · exact hloop

/-- There are at most as many labels to go back to as there are loops. -/
lemma Goes.backwardTargets_le {code : Code} (h : Goes [] loops code)
    (hnodup : (markers code).Nodup) : (backwardTargets code).dedup.length ≤ loops.length := by
  have hsubset : (backwardTargets code).dedup ⊆ loops.map LoopLabels.check := by
    intro l hl
    obtain ⟨pre, i, post, rfl, htarget, hpre⟩ := mem_backwardTargets.mp (List.mem_dedup.mp hl)
    obtain ⟨loop, hloop, rfl, -⟩ := h.back hnodup htarget hpre
    exact List.mem_map_of_mem hloop
  have hle := ((List.nodup_dedup _).subperm hsubset).length_le
  rwa [List.length_map] at hle

lemma Forward.target (h : Forward (pre ++ i :: post)) (hl : l ∈ i.targets) : .label l ∈ post := by
  rcases Goes.target h hl with hpost | ⟨-, loop, hloop, -⟩
  · exact hpost
  · cases hloop

end Code

namespace Machine

variable {callees : String → List Val → Val} {program : Code} {M M' : Machine}

lemma goto_rest {l : Label} (h : M.goto program l = some M') :
    Code.behind l program = some M'.rest := by
  simp only [goto, Option.bind_eq_bind, Option.bind_eq_some_iff] at h
  obtain ⟨k, hk, h⟩ := h
  obtain rfl := Option.some.inj h
  exact hk

/-- A step goes on behind an instruction, or behind one of the labels that control can go to. -/
lemma step_cases (h : M.step callees program = some M') :
    ∃ i k, M.rest = i :: k ∧
      (M'.rest = k ∨ ∃ l ∈ i.targets, Code.behind l program = some M'.rest) := by
  rw [step] at h
  simp only [Option.bind_eq_bind, Option.pure_def] at h
  -- One case for each instruction that the machine can execute; what it reads does not matter.
  split at h <;> rename_i hrest <;>
    try simp only [Option.bind_eq_some_iff, Option.some.injEq] at h
  case h_1 =>
    obtain rfl := h
    exact ⟨_, _, hrest, .inl rfl⟩
  case h_2 =>
    obtain ⟨x, -, h⟩ := h
    split at h
    · obtain rfl := Option.some.inj h
      exact ⟨_, _, hrest, .inl rfl⟩
    · cases h
  case h_3 =>
    obtain ⟨x, -, rfl⟩ := h
    exact ⟨_, _, hrest, .inl rfl⟩
  case h_4 =>
    obtain ⟨a, -, b, -, c, -, rfl⟩ := h
    exact ⟨_, _, hrest, .inl rfl⟩
  case h_5 =>
    obtain ⟨a, -, b, -, rfl⟩ := h
    exact ⟨_, _, hrest, .inl rfl⟩
  case h_6 => exact ⟨_, _, hrest, .inr ⟨_, List.mem_cons_self, goto_rest h⟩⟩
  case h_7 =>
    obtain ⟨n, -, h⟩ := h
    split at h
    · exact ⟨_, _, hrest, .inr ⟨_, List.mem_cons_self, goto_rest h⟩⟩
    · split at h
      · exact ⟨_, _, hrest, .inr ⟨_, List.mem_cons_of_mem _ List.mem_cons_self, goto_rest h⟩⟩
      · cases h
  case h_8 =>
    obtain ⟨block, -, v, -, x, -, rfl⟩ := h
    exact ⟨_, _, hrest, .inl rfl⟩
  case h_9 =>
    obtain ⟨n, -, width, -, rfl⟩ := h
    exact ⟨_, _, hrest, .inl rfl⟩
  case h_10 =>
    obtain ⟨vs, -, h⟩ := h
    split at h
    · obtain rfl := Option.some.inj h
      exact ⟨_, _, hrest, .inl rfl⟩
    · cases h
    · obtain rfl := Option.some.inj h
      exact ⟨_, _, hrest, .inl rfl⟩
  case h_11 => cases h

/-- In code in which control goes forward, a step leaves less code to go. -/
lemma step_shortens (hforward : Code.Forward program) (hnodup : (Code.markers program).Nodup)
    (hrest : M.rest <:+ program) (h : M.step callees program = some M') :
    M'.rest <:+ program ∧ M'.rest.length < M.rest.length := by
  obtain ⟨i, k, hcons, hk | ⟨l, hl, hbehind⟩⟩ := step_cases h
  · rw [hcons] at hrest
    rw [hk, hcons]
    exact ⟨(List.suffix_cons i k).trans hrest, Nat.lt_succ_self k.length⟩
  · rw [hcons] at hrest
    obtain ⟨pre, rfl⟩ := hrest
    obtain ⟨front, back, rfl⟩ := List.append_of_mem (hforward.target hl)
    have hsuffix : .label l :: back <:+ pre ++ i :: (front ++ .label l :: back) :=
      ⟨pre ++ i :: front, by simp⟩
    rw [Code.behind_of_suffix hnodup hsuffix] at hbehind
    obtain rfl := Option.some.inj hbehind
    refine ⟨(List.suffix_cons _ _).trans hsuffix, ?_⟩
    rw [hcons, List.length_cons, List.length_append, List.length_cons]
    omega

/-- The machine after `n` steps, if it gets so far. -/
def steps (callees : String → List Val → Val) (program : Code) : Nat → Machine → Option Machine
  | 0, M => some M
  | n + 1, M => (M.step callees program).bind (steps callees program n)

/-- Whether the machine comes to an end after at most `n` steps. -/
def HaltsWithin (callees : String → List Val → Val) (program : Code) (n : Nat) (M : Machine) :
    Prop :=
  ∃ k ≤ n, ∃ M', M.steps callees program k = some M' ∧ M'.step callees program = none

/-- Code in which control goes forward is left after at most one step for each instruction. -/
lemma haltsWithin_of_forward (hforward : Code.Forward program)
    (hnodup : (Code.markers program).Nodup) {n : Nat} (hrest : M.rest <:+ program)
    (hn : M.rest.length ≤ n) : M.HaltsWithin callees program n := by
  induction n generalizing M with
  | zero =>
    cases hstep : M.step callees program with
    | none => exact ⟨0, Nat.le_refl 0, M, rfl, hstep⟩
    | some M' => exact absurd (step_shortens hforward hnodup hrest hstep).2 (by omega)
  | succ n ih =>
    cases hstep : M.step callees program with
    | none => exact ⟨0, Nat.zero_le _, M, rfl, hstep⟩
    | some M' =>
      obtain ⟨hrest', hlt⟩ := step_shortens hforward hnodup hrest hstep
      obtain ⟨k, hk, M'', hsteps, hend⟩ := ih hrest' (by omega)
      refine ⟨k + 1, Nat.succ_le_succ hk, M'', ?_, hend⟩
      rw [steps, hstep]
      exact hsteps

end Machine

/-- Code that is laid out as that of a definition can be run. -/
lemma Definition.Laid.start {d : Definition} {seg : Segment} {loops : List LoopLabels}
    (h : d.Laid seg.instructions loops) (args : List Val) :
    ∃ M, seg.start args = some M ∧ M.rest <:+ seg.instructions := by
  obtain ⟨params, entry, paramCode, body, ending, hcode, -⟩ := h
  rw [Segment.start, hcode]
  exact ⟨_, rfl, [.functionBegin d.name d.returnTy params, .label entry], rfl⟩

/-- In the code of an accepted definition, both ways of every branch go forward, and every jump to
an earlier label goes to the check of a loop whose end is still to come. The loops are laid out as
in the definition, so there are at most as many labels to go back to as it has loops. Without a loop
control only goes forward, and every run comes to an end. -/
theorem Compiler.lowerDefinition_backward_edges {c : Compiler} {d : Definition} {seg : Segment}
    (h : (c.lowerDefinition d).result = .ok seg) :
    ∃ loops, d.Laid seg.instructions loops ∧ loops.length = d.loopCount ∧
      (∀ pre v l m post, seg.instructions = pre ++ .branch v l m :: post →
        .label l ∈ post ∧ .label m ∈ post) ∧
      (∀ pre l post, seg.instructions = pre ++ .jump l :: post → .label l ∈ pre →
        ∃ loop ∈ loops, loop.check = l ∧ .label loop.exit ∈ post) ∧
      (Code.backwardTargets seg.instructions).dedup.length ≤ d.loopCount ∧
      (d.loopCount = 0 →
        (∀ pre i post, seg.instructions = pre ++ i :: post → ∀ l ∈ i.targets, .label l ∈ post) ∧
        ∀ callees args, ∃ M, seg.start args = some M ∧
          M.HaltsWithin callees seg.instructions seg.size) := by
  obtain ⟨loops, hlaid⟩ := lowerDefinition_laid h
  obtain ⟨env, -, w, -⟩ := lowerDefinition_lowered h
  have hnodup : (Code.markers seg.instructions).Nodup := List.Nodup.of_map _ w.nodup_ids
  have hgoes := hlaid.goes
  refine ⟨loops, hlaid, hlaid.length_eq, ?branches, ?jumps, ?count, ?loopFree⟩
  case branches =>
    intro pre v l m post hcode
    rw [hcode] at hgoes
    exact hgoes.branch
  case jumps =>
    intro pre l post hcode hl
    rw [hcode] at hgoes hnodup
    exact hgoes.back hnodup List.mem_cons_self hl
  case count =>
    rw [← hlaid.length_eq]
    exact hgoes.backwardTargets_le hnodup
  case loopFree =>
    intro hcount
    obtain rfl : loops = [] := List.eq_nil_of_length_eq_zero (hlaid.length_eq.trans hcount)
    refine ⟨fun pre i post hcode l hl => Code.Forward.target (hcode ▸ hgoes) hl, ?_⟩
    intro callees args
    obtain ⟨M, hstart, hrest⟩ := hlaid.start args
    exact ⟨M, hstart, Machine.haltsWithin_of_forward hgoes hnodup hrest hrest.length_le⟩

/-- A definition without loops: it puts `n` between 0 and 7. -/
def Definition.clamp : Definition where
  name := "clamp"
  returnTy := .i32
  params := [⟨"n", .i32⟩]
  body := [
    .ifElse (.compare .less (.var "n") (.int 0)) (.ret (some (.int 0))) none,
    .ret (some (.conditional (.compare .greater (.var "n") (.int 7)) (.int 7) (.var "n")))]

/-- The sum goes back to one label, and `clamp` ends for all arguments. -/
theorem Compiler.sumUpTo_clamp_edges :
    (∃ seg, (Compiler.lowerDefinition {} Definition.sumUpTo).result = .ok seg ∧
      (Code.backwardTargets seg.instructions).dedup.length ≤ 1) ∧
    ∃ seg, (Compiler.lowerDefinition {} Definition.clamp).result = .ok seg ∧
      ∀ callees args, ∃ M, seg.start args = some M ∧
        M.HaltsWithin callees seg.instructions seg.size := by
  constructor
  · obtain ⟨seg, h⟩ := Definition.sumUpTo_accepted
    obtain ⟨loops, -, -, -, -, hcount, -⟩ := lowerDefinition_backward_edges h
    exact ⟨seg, h, hcount⟩
  · have hok : (Compiler.lowerDefinition {} Definition.clamp).result.isOk = true := by
      decide +kernel
    cases h : (Compiler.lowerDefinition {} Definition.clamp).result with
    | ok seg =>
      obtain ⟨loops, -, -, -, -, -, hends⟩ := lowerDefinition_backward_edges h
      exact ⟨seg, rfl, (hends rfl).2⟩
    | error e =>
      rw [h] at hok
      cases hok

end MiniC
