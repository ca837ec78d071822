import Mathlib
import MiniC.Proofs.Evaluation
import MiniC.Proofs.Markers

/-!
# Running code

A machine runs the code of a function from its entry label. Its slots are fresh when they are
allocated, numbers of the type `i1` are 0 and 1, and a `phi` takes the value that stands beside the
block from which control came. The machine is stuck where code has no meaning: at the end of an
unfinished block, where a slot without a value is read, and where a division has no result.
-/

namespace MiniC

/-- The state of a run. `rest` is the code that follows, `block` is the label of the block that runs,
and `previous` that of the block before it. -/
structure Machine where
  rest : Code
  block : Label
  previous : Option Label := none
  temps : Nat → Option Val
  slots : Nat → Option (Option Val) := fun _ => none
  calls : List Call := []

/-- The code behind the marker of a label. -/
def Code.behind (l : Label) : Code → Option Code
  | [] => none
  | i :: rest => if i.marker? = some l then some rest else behind l rest

/-- The result of an operation on numbers of an integer type. The logical operations are those on
booleans. -/
def BinaryOp.apply (ty : Ty) : BinaryOp → Int → Int → Option Int
  | .add, a, b => some (ty.wrap (a + b))
  | .sub, a, b => some (ty.wrap (a - b))
  | .mul, a, b => some (ty.wrap (a * b))
  | .sdiv, a, b => if b ≠ 0 ∧ ty.wrap (a.tdiv b) = a.tdiv b then some (a.tdiv b) else none
  | .srem, a, b => if b ≠ 0 ∧ ty.wrap (a.tdiv b) = a.tdiv b then some (a.tmod b) else none
  | .and, a, b => if ty = .bool then some (if a = 1 ∧ b = 1 then 1 else 0) else none
  | .or, a, b => if ty = .bool then some (if a = 1 ∨ b = 1 then 1 else 0) else none

def Relation.holds : Relation → Int → Int → Bool
  | .eq, a, b => a = b
  | .ne, a, b => a ≠ b
  | .slt, a, b => a < b
  | .sle, a, b => a ≤ b
  | .sgt, a, b => a > b
  | .sge, a, b => a ≥ b

namespace Machine

/-- The value of an operand. -/
def value (M : Machine) : Value → Option Val
  | .temp id _ => M.temps id
  | .int n ty => some (.int (ty.wrap n))
  | .float b _ => some (.float b)
  | .slot .. => none

def integer (M : Machine) (v : Value) : Option Int :=
  match M.value v with
  | some (.int n) => some n
  | _ => none

def record (M : Machine) (c : Call) : Machine := { M with calls := M.calls ++ [c] }

/-- Goes on behind an instruction. -/
def proceed (M : Machine) (k : Code) : Machine := { M with rest := k }

/-- Gives a temporary its value and goes on. -/
def define (M : Machine) (k : Code) (id : Nat) (v : Val) : Machine :=
  { M with rest := k, temps := fun i => if i = id then some v else M.temps i }

/-- Changes a slot and goes on. -/
def setSlot (M : Machine) (k : Code) (id : Nat) (content : Option Val) : Machine :=
  { M with rest := k, slots := fun i => if i = id then some content else M.slots i }

/-- Enters the block of a label. -/
def goto (program : Code) (M : Machine) (l : Label) : Option Machine := do
  let k ← Code.behind l program
  return { M with rest := k, block := l, previous := some M.block }

/-- One instruction of a program. -/
def step (callees : String → List Val → Val) (program : Code) (M : Machine) : Option Machine :=
  match M.rest with
  | .alloca (.slot id _) _ :: k => some (M.setSlot k id none)
  | .store v (.slot id _) _ :: k => do
    let x ← M.value v
    if (M.slots id).isSome then return M.setSlot k id (some x) else none
  | .load (.temp id _) (.slot slot _) _ :: k => do
    let x ← (M.slots slot).join
    return M.define k id x
  | .binary (.temp id ty) op lhs rhs :: k => do
    let a ← M.integer lhs
    let b ← M.integer rhs
    let c ← op.apply ty a b
    return M.define k id (.int c)
  | .icmp (.temp id _) relation lhs rhs :: k => do
    let a ← M.integer lhs
    let b ← M.integer rhs
    return M.define k id (.ofBool (relation.holds a b))
  | .jump l :: _ => goto program M l
  | .branch condition onTrue onFalse :: _ => do
    let n ← M.integer condition
    if n = 1 then goto program M onTrue else if n = 0 then goto program M onFalse else none
  | .phi (.temp id _) incoming :: k => do
    let block ← M.previous
    let v ← incoming.find? fun entry => entry.2 = block
    let x ← M.value v.1
    return M.define k id x
  | .zext (.temp id _) v :: k => do
    let n ← M.integer v
    let width ← v.ty.bitWidth?
    return M.define k id (.int (n % 2 ^ width))
  | .call result callee _ arguments :: k => do
    let vs ← arguments.mapM M.value
    match result with
    | some (.temp id _) => return (M.record ⟨callee, vs⟩).define k id (callees callee vs)
    | some _ => none
    | none => return (M.record ⟨callee, vs⟩).proceed k
  | _ => none

/-- What the machine returns, if a `ret` follows. -/
def returned (M : Machine) : Option (Option Val × List Call) :=
  match M.rest with
  | .ret none :: _ => some (none, M.calls)
  | .ret (some v) :: _ => (M.value v).map fun x => (some x, M.calls)
  | _ => none

/-- Runs up to a `ret`, over at most `n` instructions. -/
def run (callees : String → List Val → Val) (program : Code) :
    Nat → Machine → Option (Option Val × List Call)
  | 0, M => M.returned
  | n + 1, M =>
    match M.returned with
    | some r => some r
    | none => (M.step callees program).bind (run callees program n)

end Machine

namespace Segment

/-- The state behind the entry label of a function, with its arguments. -/
def start (s : Segment) (args : List Val) : Option Machine :=
  match s.instructions with
  | .functionBegin _ _ params :: .label entry :: rest =>
    some { rest, block := entry, temps := fun id => (params.map Value.id?).zip args |>.lookup (some id) }
  | _ => none

/-- What the function returns for arguments, and the calls that it makes. -/
def run (s : Segment) (callees : String → List Val → Val) (n : Nat) (args : List Val) :
    Option (Option Val × List Call) := do
  (← s.start args).run callees s.instructions n

end Segment

namespace Code

variable {l : Label} {code k : Code}

/-- What stands behind a block stands in the program too. -/
lemma suffix_of_block {l : Label} {block k program : Code} {i : Instr}
    (h : .label l :: (block ++ i :: k) <:+ program) : k <:+ program := by
  have hk : .label l :: (block ++ i :: k) = (.label l :: block ++ [i]) ++ k := by simp
  rw [hk] at h
  exact (List.suffix_append _ k).trans h

/-- A marker that stands in the code once is found. -/
lemma behind_of_suffix (hnodup : (markers code).Nodup) (h : .label l :: k <:+ code) :
    behind l code = some k := by
  obtain ⟨front, rfl⟩ := h
  induction front with
  | nil =>
    rw [List.nil_append, behind]
    exact if_pos rfl
  | cons i front ih =>
    have hmem : l ∈ markers (front ++ .label l :: k) := by
      rw [mem_markers]
      exact List.mem_append_right front List.mem_cons_self
    rw [List.cons_append] at hnodup ⊢
    cases hm : i.marker? with
    | none =>
      rw [markers_cons_of_none hm] at hnodup
      rw [behind, hm, if_neg (by simp)]
      exact ih hnodup
    | some l' =>
      have hcons : markers (i :: (front ++ .label l :: k)) =
          l' :: markers (front ++ .label l :: k) := List.filterMap_cons_some hm
      rw [hcons, List.nodup_cons] at hnodup
      rw [behind, hm, if_neg]
      · exact ih hnodup.2
      · rintro ⟨⟩
        exact hnodup.1 hmem

end Code

namespace Machine

variable {callees : String → List Val → Val} {program : Code} {M : Machine} {k : Code}

lemma step_binary {id : Nat} {ty : Ty} {op : BinaryOp} {lhs rhs : Value} {a b c : Int}
    (hrest : M.rest = .binary (.temp id ty) op lhs rhs :: k) (ha : M.integer lhs = some a)
    (hb : M.integer rhs = some b) (hc : op.apply ty a b = some c) :
    M.step callees program = some (M.define k id (.int c)) := by
  simp only [step, hrest, ha, hb, hc, Option.bind_eq_bind, Option.bind_some]
  rfl

lemma step_icmp {id : Nat} {ty : Ty} {relation : Relation} {lhs rhs : Value} {a b : Int}
    (hrest : M.rest = .icmp (.temp id ty) relation lhs rhs :: k) (ha : M.integer lhs = some a)
    (hb : M.integer rhs = some b) :
    M.step callees program = some (M.define k id (.ofBool (relation.holds a b))) := by
  simp only [step, hrest, ha, hb, Option.bind_eq_bind, Option.bind_some]
  rfl

lemma step_jump {l : Label} (hrest : M.rest = .jump l :: k) :
    M.step callees program = M.goto program l := by
  simp only [step, hrest]

/-- A branch goes to its first label if the condition is true. -/
lemma step_branch {condition : Value} {onTrue onFalse : Label} {n : Int}
    (hrest : M.rest = .branch condition onTrue onFalse :: k) (hn : M.integer condition = some n)
    (hbool : n = 0 ∨ n = 1) :
    M.step callees program = M.goto program (if n ≠ 0 then onTrue else onFalse) := by
  simp only [step, hrest, hn, Option.bind_eq_bind, Option.bind_some]
  rcases hbool with rfl | rfl <;> rfl

end Machine

/-- A run that comes to a `ret` gives what is returned there. -/
lemma Machine.run_of_steps {callees : String → List Val → Val} {program : Code} {M M' : Machine}
    {r : Option Val × List Call}
    (h : Relation.ReflTransGen (fun A B => Machine.step callees program A = some B) M M')
    (hreturned : M'.returned = some r) : ∃ n, M.run callees program n = some r := by
  induction h using Relation.ReflTransGen.head_induction_on with
  | refl => exact ⟨0, hreturned⟩
  | head hstep _ ih =>
    obtain ⟨n, hn⟩ := ih
    refine ⟨n + 1, ?_⟩
    rename_i A B _
    have hnot : A.returned = none := by
      rw [returned]
      split
      · rename_i hrest
        simp [step, hrest] at hstep
      · rename_i hrest
        simp [step, hrest] at hstep
      · rfl
    rw [run, hnot, hstep]
    exact hn

end MiniC
