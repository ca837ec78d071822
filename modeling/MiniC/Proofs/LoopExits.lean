import MiniC.Proofs.ErrorPhases
import MiniC.Proofs.LoopLayout

/-!
# Leaving loops

A `break` or `continue` belongs to the innermost loop whose body it stands in. `Stmt.leaves` finds
this loop in the tree, by its number in the order of starts. In code that is laid out, the statements
have become jumps in the same order: each goes to the exit or the check of its loop and stands between
the marks of both. One that stands in no body has no such jump, so its definition is refused.
-/

namespace MiniC

/-- The label to which a statement jumps that leaves the body of this loop. -/
def Leave.target (loop : LoopLabels) : Leave → Label
  | .brk => loop.exit
  | .cont => loop.check

namespace Stmt

mutual

/-- The statements inside a statement that leave a loop, each with the number of the innermost loop
whose body it stands in. The loops of the statement are numbered from `n` in the order of their starts,
the first part of a header ahead of its loop, and `around` is the loop whose body the statement
stands in. -/
def leaves (around : Option Nat) (n : Nat) : Stmt → List (Leave × Option Nat)
  | .compound body => leavesAll around n body
  | .ifElse _ onTrue none => onTrue.leaves around n
  | .ifElse _ onTrue (some onFalse) =>
    onTrue.leaves around n ++ onFalse.leaves around (n + onTrue.loopCount)
  | .whileLoop _ body => body.leaves (some n) (n + 1)
  | .forLoop none _ _ body => body.leaves (some n) (n + 1)
  | .forLoop (some init) _ _ body =>
    init.leaves around n ++ body.leaves (some (n + init.loopCount)) (n + init.loopCount + 1)
  | .brk => [(.brk, around)]
  | .cont => [(.cont, around)]
  | _ => []

def leavesAll (around : Option Nat) (n : Nat) : List Stmt → List (Leave × Option Nat)
  | [] => []
  | x :: rest => x.leaves around n ++ leavesAll around (n + x.loopCount) rest

end

lemma leaves_forLoop (around : Option Nat) (n : Nat) (init : Option Stmt)
    (condition step : Option Expr) (body : Stmt) :
    (Stmt.forLoop init condition step body).leaves around n =
      leavesAll around n init.toList ++ body.leaves (some (n + loopCountAll init.toList))
        (n + loopCountAll init.toList + 1) := by
  cases init with
  | none => rfl
  | some init => simp [leaves, leavesAll, loopCountAll]

/-- The statements without a loop are those that stand in the body of none. -/
lemma mem_leaves_none (x : Stmt) (leave : Leave) (around : Option Nat) (n : Nat) :
    (leave, none) ∈ x.leaves around n ↔ around = none ∧ leave ∈ x.strays := by
  induction x using Stmt.induction generalizing around n with
  | compound body hbody =>
    rw [leaves, strays]
    induction body generalizing n with
    | nil => simp [leavesAll, straysAll]
    | cons x rest ih =>
      have hfirst := hbody x List.mem_cons_self around n
      have hrest := ih (fun y hy => hbody y (List.mem_cons_of_mem x hy)) (n + x.loopCount)
      simp only [leavesAll, straysAll, List.mem_append, hfirst, hrest, and_or_left]
  | ifElse condition onTrue onFalse htrue hfalse =>
    cases onFalse with
    | none => exact htrue around n
    | some onFalse =>
      simp only [leaves, strays, List.mem_append, htrue, hfalse onFalse rfl, and_or_left]
  | whileLoop condition body hbody => simp [leaves, strays, hbody]
  | forLoop init condition step body hinit hbody =>
    cases init with
    | none => simp [leaves, strays, hbody]
    | some init => simp [leaves, strays, hbody, hinit init rfl]
  | brk => simp [leaves, strays, and_comm, eq_comm]
  | cont => simp [leaves, strays, and_comm, eq_comm]
  | _ => simp [leaves, strays]

end Stmt

/-- Whether the statements have become jumps of the code, in the same order. A jump goes to the target
of its loop, behind the mark of its check and in front of that of its exit, in the code or in what
stands before and after it. -/
def Code.Leaves (loops : List LoopLabels) :
    (before code after : Code) → List (Leave × Option Nat) → Prop
  | _, _, _, [] => True
  | before, code, after, (leave, n) :: rest =>
    ∃ (front back : Code) (m : Nat) (loop : LoopLabels),
      code = front ++ .jump (leave.target loop) :: back ∧ n = some m ∧ loops[m]? = some loop ∧
      .label loop.check ∈ before ++ front ∧ .label loop.exit ∈ back ++ after ∧
      Leaves loops (before ++ front ++ [.jump (leave.target loop)]) back after rest

namespace Code.Leaves

variable {loops : List LoopLabels} {before code after : Code} {ls ms : List (Leave × Option Nat)}

/-- Code in front may count as standing before. -/
lemma behind (c : Code) (h : Leaves loops (before ++ c) code after ls) :
    Leaves loops before (c ++ code) after ls := by
  cases ls with
  | nil => trivial
  | cons l rest =>
    obtain ⟨front, back, m, loop, rfl, hn, hloop, hcheck, hexit, hrest⟩ := h
    refine ⟨c ++ front, back, m, loop, (List.append_assoc ..).symm, hn, hloop, ?_, hexit, ?_⟩
    · rwa [← List.append_assoc]
    · rwa [← List.append_assoc]

lemma append {c : Code} (h : Leaves loops before code (c ++ after) ls)
    (h' : Leaves loops (before ++ code) c after ms) :
    Leaves loops before (code ++ c) after (ls ++ ms) := by
  induction ls generalizing before code with
  | nil => exact behind code h'
  | cons l rest ih =>
    obtain ⟨front, back, m, loop, rfl, hn, hloop, hcheck, hexit, hrest⟩ := h
    refine ⟨front, back ++ c, m, loop, by simp, hn, hloop, hcheck, ?_, ih hrest ?_⟩
    · rwa [List.append_assoc]
    · simpa using h'

/-- The code around the jumps is of no importance. -/
lemma within {front back : Code} (h : Leaves loops (before ++ front) code (back ++ after) ls) :
    Leaves loops before (front ++ code ++ back) after ls := by
  have hbehind : Leaves loops before (front ++ code) (back ++ after) ls := behind front h
  rw [← List.append_nil ls]
  exact append hbehind trivial

/-- Two parts of code with jumps, and other code around them. -/
lemma within_two {c front middle back : Code}
    (h : Leaves loops (before ++ front) code (middle ++ c ++ back ++ after) ls)
    (h' : Leaves loops (before ++ front ++ code ++ middle) c (back ++ after) ms) :
    Leaves loops before (front ++ code ++ middle ++ c ++ back) after (ls ++ ms) := by
  have hsecond : Leaves loops (before ++ front ++ code) (middle ++ c ++ back) after ms :=
    within h'
  have hboth : Leaves loops (before ++ front) (code ++ (middle ++ c ++ back)) after (ls ++ ms) :=
    append h hsecond
  simpa only [List.append_assoc] using behind front hboth

end Code.Leaves

/-- Whether the loop around has the number `n` among `loops`, and the place is between its marks. -/
def LoopLabels.Encloses (loops : List LoopLabels) (before after : Code)
    (around : Option LoopLabels) (n : Option Nat) : Prop :=
  ∀ loop ∈ around, ∃ m, n = some m ∧ loops[m]? = some loop ∧ .label loop.check ∈ before ∧
    .label loop.exit ∈ after

namespace LoopLabels

variable {loops part part' : List LoopLabels} {before before' after after' : Code}
  {around : Option LoopLabels} {n : Option Nat} {m : Nat}

lemma Encloses.mono (h : Encloses loops before after around n) (hbefore : before ⊆ before')
    (hafter : after ⊆ after') : Encloses loops before' after' around n := by
  intro loop hloop
  obtain ⟨m, hn, hm, hcheck, hexit⟩ := h loop hloop
  exact ⟨m, hn, hm, hbefore hcheck, hafter hexit⟩

lemma encloses_some {loop : LoopLabels} (hm : loops[m]? = some loop)
    (hcheck : .label loop.check ∈ before) (hexit : .label loop.exit ∈ after) :
    Encloses loops before after (some loop) (some m) := by
  rintro _ ⟨⟩
  exact ⟨m, rfl, hm, hcheck, hexit⟩

/-- Whether `part` are the loops with the numbers from `m` on. -/
def From (loops : List LoopLabels) (m : Nat) (part : List LoopLabels) : Prop :=
  part <+: loops.drop m

lemma From.left (h : From loops m (part ++ part')) : From loops m part :=
  (List.prefix_append part part').trans h

lemma From.right (h : From loops m (part ++ part')) : From loops (m + part.length) part' := by
  obtain ⟨rest, hrest⟩ := h
  refine ⟨rest, ?_⟩
  rw [← List.drop_drop, ← hrest, List.append_assoc, List.drop_left]

lemma From.head {loop : LoopLabels} (h : From loops m (loop :: part)) : loops[m]? = some loop := by
  obtain ⟨rest, hrest⟩ := h
  rw [← Nat.add_zero m, ← List.getElem?_drop, ← hrest]
  rfl

lemma From.tail {loop : LoopLabels} (h : From loops m (loop :: part)) :
    From loops (m + 1) part := by
  have hsplit : From loops m ([loop] ++ part) := h
  exact hsplit.right

end LoopLabels

namespace Stmt

open Code LoopLabels

mutual

/-- In the code of a statement, the statements inside that leave loops have become jumps. -/
theorem Laid.leaves {around : Option LoopLabels} {x : Stmt} {code before after : Code}
    {part loops : List LoopLabels} {outer : Option Nat} {n : Nat}
    (haround : Encloses loops before after around outer) :
    Laid around x code part → From loops n part →
      Code.Leaves loops before code after (x.leaves outer n)
  | .expression _, _ => trivial
  | .declaration _, _ => trivial
  | .ret _, _ => trivial
  | .compound h, hpart => h.leaves haround hpart
  | @Laid.ifThen _ _ _ v l behind test _ jump _ _ htrue _, hpart => by
    let front := test ++ [.branch v l behind, .label l]
    let back := jump ++ [.label behind]
    have haround : Encloses loops (before ++ front) (back ++ after) around outer :=
      haround.mono (List.subset_append_left _ _) (List.subset_append_right _ _)
    have hwithin := (htrue.leaves haround hpart).within
    simpa only [leaves, front, back, List.append_assoc] using hwithin
  | @Laid.ifElse _ _ _ _ v l m behind test trueCode trueJump falseCode falseJump _ _ _ htrue _
      hfalse _, hpart => by
    let front := test ++ [.branch v l m, .label l]
    let middle := trueJump ++ [.label m]
    let back := falseJump ++ [.label behind]
    have htrueAround : Encloses loops (before ++ front) (middle ++ falseCode ++ back ++ after)
        around outer := haround.mono (List.subset_append_left _ _) (List.subset_append_right _ _)
    have hfalseAround : Encloses loops (before ++ front ++ trueCode ++ middle) (back ++ after)
        around outer := haround.mono (by simp) (List.subset_append_right _ _)
    have hfalseLeaves := hfalse.leaves hfalseAround hpart.right
    rw [htrue.length_eq] at hfalseLeaves
    have hwithin := (htrue.leaves htrueAround hpart.left).within_two hfalseLeaves
    simpa only [leaves, front, middle, back, List.append_assoc] using hwithin
  | @Laid.whileLoop _ _ _ loop l test _ back _ _ hbody _, hpart => by
    let front := [.jump loop.check, .label loop.check] ++ test ++ [.label l]
    have haround : Encloses loops (before ++ front) (back ++ [.label loop.exit] ++ after)
        (some loop) (some n) := encloses_some hpart.head (by simp [front]) (by simp)
    have hwithin := (hbody.leaves haround hpart.tail).within
    simpa only [leaves, front, List.append_assoc] using hwithin
  | @Laid.forLoop _ _ _ _ _ loop l initCode entering test bodyCode opened stepCode back part part'
      hinit _ _ hbody _ _ _, hpart => by
    let middle := entering ++ [.label loop.check] ++ test ++ [.label l]
    let behind := opened ++ stepCode ++ back ++ [.label loop.exit]
    have hinitAround : Encloses loops (before ++ []) (middle ++ bodyCode ++ behind ++ after)
        around outer := haround.mono (List.subset_append_left _ _) (List.subset_append_right _ _)
    have hbodyAround : Encloses loops (before ++ [] ++ initCode ++ middle) (behind ++ after)
        (some loop) (some (n + part.length)) :=
      encloses_some hpart.right.head (by simp [middle]) (by simp [behind])
    have hbodyLeaves := hbody.leaves hbodyAround hpart.right.tail
    have hwithin := (hinit.leaves hinitAround hpart.left).within_two hbodyLeaves
    rw [leaves_forLoop, ← hinit.length_eq]
    simpa only [middle, behind, List.append_assoc, List.nil_append] using hwithin
  | .brk loop, _ => by
    obtain ⟨m, rfl, hm, hcheck, hexit⟩ := haround loop rfl
    exact ⟨[], [], m, loop, rfl, rfl, hm, by simpa using hcheck, hexit, trivial⟩
  | .cont loop, _ => by
    obtain ⟨m, rfl, hm, hcheck, hexit⟩ := haround loop rfl
    exact ⟨[], [], m, loop, rfl, rfl, hm, by simpa using hcheck, hexit, trivial⟩

theorem LaidAll.leaves {around : Option LoopLabels} {body : List Stmt} {code before after : Code}
    {part loops : List LoopLabels} {outer : Option Nat} {n : Nat}
    (haround : Encloses loops before after around outer) :
    LaidAll around body code part → From loops n part →
      Code.Leaves loops before code after (leavesAll outer n body)
  | .nil, _ => trivial
  | @LaidAll.cons _ _ _ opened first rest _ _ _ h hrest, hpart => by
    have hfirstAround : Encloses loops (before ++ opened) ([] ++ rest ++ [] ++ after) around outer :=
      haround.mono (List.subset_append_left _ _) (List.subset_append_right _ _)
    have hrestAround : Encloses loops (before ++ opened ++ first ++ []) ([] ++ after) around outer :=
      haround.mono (by simp) (List.subset_append_right _ _)
    have hrestLeaves := hrest.leaves hrestAround hpart.right
    rw [h.length_eq] at hrestLeaves
    have hwithin := (h.leaves hfirstAround hpart.left).within_two hrestLeaves
    simpa only [leavesAll, List.append_nil] using hwithin

end

end Stmt

namespace Definition

/-- The statements of a definition that leave a loop, each with the number of its loop. -/
def leaves (d : Definition) : List (Leave × Option Nat) := Stmt.leavesAll none 0 d.body

lemma mem_leaves_none (d : Definition) {leave : Leave} :
    (leave, none) ∈ d.leaves ↔ leave ∈ d.strays := by
  have hbody := Stmt.mem_leaves_none (.compound d.body) leave none 0
  rw [leaves, strays]
  simpa [Stmt.leaves, Stmt.strays] using hbody

lemma Laid.leaves {d : Definition} {code : Code} {loops : List LoopLabels} (h : d.Laid code loops) :
    Code.Leaves loops [] code [] d.leaves := by
  obtain ⟨params, entry, paramCode, body, ending, rfl, -, hbody, -⟩ := h
  let front := .functionBegin d.name d.returnTy params :: .label entry :: paramCode
  let back := ending ++ [.functionEnd]
  have hnone : LoopLabels.Encloses loops ([] ++ front) (back ++ []) none none := nofun
  have hall : LoopLabels.From loops 0 loops := List.prefix_refl loops
  rw [Definition.leaves]
  simpa [front, back] using (hbody.leaves hnone hall).within

end Definition

/-- Every one of the statements has a loop. -/
lemma Code.Leaves.some_of_mem {loops : List LoopLabels} {before code after : Code}
    {ls : List (Leave × Option Nat)} (h : Leaves loops before code after ls) {leave : Leave}
    {n : Option Nat} (hmem : (leave, n) ∈ ls) : n ≠ none := by
  induction ls generalizing before code with
  | nil => cases hmem
  | cons l rest ih =>
    obtain ⟨front, back, m, loop, -, hn, -, -, -, hrest⟩ := h
    rcases List.mem_cons.mp hmem with rfl | hmem
    · exact Option.ne_none_iff_exists'.mpr ⟨m, hn⟩
    · exact ih hrest hmem

/-- A definition with a `break` or `continue` in the body of no loop is refused, and only such a
definition is refused because of one. In the code of an accepted definition all of them have become
jumps, in their order: a `break` goes to the exit and a `continue` to the check of the innermost loop
whose body it stands in, and the jump stands between the marks of both. -/
theorem Compiler.lowerDefinition_leaves (c : Compiler) (d : Definition) :
    (∀ leave ∈ d.strays, ∃ e, (c.lowerDefinition d).result = .error e) ∧
    (∀ leave : Leave, (c.lowerDefinition d).result = .error (.lowering leave.outside) →
      leave ∈ d.strays) ∧
    ∀ seg, (c.lowerDefinition d).result = .ok seg →
      ∃ loops, d.Laid seg.instructions loops ∧ loops.length = d.loopCount ∧
        Code.Leaves loops [] seg.instructions [] d.leaves := by
  refine ⟨?refused, ?reason, ?accepted⟩
  case refused =>
    intro leave hleave
    cases hresult : (c.lowerDefinition d).result with
    | error e => exact ⟨e, rfl⟩
    | ok seg =>
      obtain ⟨loops, hlaid⟩ := lowerDefinition_laid hresult
      exact absurd rfl (hlaid.leaves.some_of_mem (d.mem_leaves_none.mpr hleave))
  case reason =>
    intro leave hresult
    exact lowerDefinition_among hresult leave leave.leave?_outside
  case accepted =>
    intro seg hresult
    obtain ⟨loops, hlaid⟩ := lowerDefinition_laid hresult
    exact ⟨loops, hlaid, hlaid.length_eq, hlaid.leaves⟩

/-- A loop in whose body there is another one, with a third one in its header. -/
def Definition.nestedLoops : Definition where
  name := "nestedLoops"
  returnTy := .void
  params := [⟨"n", .i32⟩]
  body := [
    .whileLoop (.boolCast (.var "n")) (.compound [
      .forLoop (some (.whileLoop (.boolCast (.var "n")) .cont)) none none
        (.compound [.ifElse (.boolCast (.var "n")) .cont none, .brk]),
      .brk])]

/-- The first `continue` belongs to the loop in the header, which starts ahead of the one that it stands
in the header of, and the last `break` to the loop around both. -/
theorem Compiler.nestedLoops_leaves : ∃ seg loops,
    (Compiler.lowerDefinition {} Definition.nestedLoops).result = .ok seg ∧
      Definition.nestedLoops.leaves =
        [(.cont, some 1), (.cont, some 2), (.brk, some 2), (.brk, some 0)] ∧
      Code.Leaves loops [] seg.instructions [] Definition.nestedLoops.leaves := by
  have hok : (Compiler.lowerDefinition {} Definition.nestedLoops).result.isOk = true := by
    decide +kernel
  cases hresult : (Compiler.lowerDefinition {} Definition.nestedLoops).result with
  | ok seg =>
    obtain ⟨-, -, haccepted⟩ := lowerDefinition_leaves {} Definition.nestedLoops
    obtain ⟨loops, -, -, hleaves⟩ := haccepted seg hresult
    exact ⟨seg, loops, rfl, by decide, hleaves⟩
  | error e =>
    rw [hresult] at hok
    cases hok

end MiniC
