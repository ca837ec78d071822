import Mathlib.Data.List.Forall2
import MiniC.Proofs.Machine
import MiniC.Proofs.Numbering
import MiniC.Proofs.Visibility

/-!
# States of a tree and of its code

Evaluation of a tree and the run of its code go side by side. Between them stands the state in which
the code was lowered: it knows which slot belongs to which variable, which numbers are free, and the
block that is being filled. This file relates the three and says what single instructions keep of the
relation.
-/

namespace MiniC

namespace Ty

lemma wrap_wrap (ty : Ty) (n : Int) : ty.wrap (ty.wrap n) = ty.wrap n := by
  cases ty <;> simp [wrap]

lemma wrap_add_wrap (ty : Ty) (a b : Int) : ty.wrap (a + ty.wrap b) = ty.wrap (a + b) := by
  cases ty <;> simp [wrap]

lemma bounds_of_bmod {m : Nat} {n : Int} (hm : 0 < m) (h : n.bmod m = n) :
    -(m / 2 : Int) ≤ n ∧ n < (m + 1) / 2 := by
  have hle := Int.le_bmod (x := n) hm
  have hlt := Int.bmod_lt (x := n) hm
  rw [h] at hle hlt
  exact ⟨hle, hlt⟩

/-- Numbers of any integer type have 64 bits. -/
lemma wrap_i64_of_wrap {ty : Ty} {n : Int} (hty : ty.isInteger = true) (hn : ty.wrap n = n) :
    Ty.wrap .i64 n = n := by
  have hrange : -0x8000000000000000 ≤ n ∧ n < 0x8000000000000000 := by
    cases ty with
    | void | float | double => cases hty
    | bool =>
      rw [wrap] at hn
      omega
    | i8 | i16 | i32 | i64 =>
      have hbounds := bounds_of_bmod (by decide) hn
      omega
  exact Int.bmod_eq_of_le (by omega) (by omega)

/-- A number of one integer type that fits another one is of that type too. -/
lemma wrap_of_fits {ty target : Ty} {n : Int} (hty : ty.isInteger = true) (hn : ty.wrap n = n)
    (htarget : target.isInteger = true) (hfits : target.fits n = true) : target.wrap n = n := by
  cases target with
  | void | float | double => cases htarget
  | bool =>
    simp only [fits, Bool.or_eq_true, beq_iff_eq] at hfits
    rcases hfits with rfl | rfl <;> rfl
  | i8 | i16 | i32 =>
    simp only [fits, Bool.and_eq_true, decide_eq_true_eq] at hfits
    exact Int.bmod_eq_of_le (by omega) (by omega)
  | i64 => exact wrap_i64_of_wrap hty hn

lemma wrap_i32_iff {n : Int} : Ty.wrap .i32 n = n ↔ -0x80000000 ≤ n ∧ n < 0x80000000 := by
  constructor
  · intro h
    have hbounds := bounds_of_bmod (by decide) h
    omega
  · rintro ⟨hle, hlt⟩
    exact Int.bmod_eq_of_le (by omega) (by omega)

/-- A remainder lies between zero and the number that was divided. -/
lemma wrap_tmod {a : Int} (b : Int) (ha : Ty.wrap .i32 a = a) :
    Ty.wrap .i32 (a.tmod b) = a.tmod b := by
  rw [wrap_i32_iff] at ha ⊢
  have habs := Int.natAbs_tmod a b
  have hle : a.natAbs % b.natAbs ≤ a.natAbs := Nat.mod_le _ _
  rcases Int.le_total 0 a with hpos | hneg
  · have := Int.tmod_nonneg b hpos
    omega
  · have := Int.tmod_nonneg b (Int.neg_nonneg_of_nonpos hneg)
    rw [Int.neg_tmod] at this
    omega

lemma wrap_bool_iff {n : Int} : Ty.wrap .bool n = n ↔ n = 0 ∨ n = 1 := by
  rw [wrap]
  omega

lemma wrap_of_boolean {ty : Ty} {n : Int} (hn : n = 0 ∨ n = 1) : ty.wrap n = n := by
  rcases hn with rfl | rfl <;> cases ty <;> rfl

/-- A value of the type stays as it is. -/
lemma convert_of_hasTy {ty : Ty} {x : Val} (h : x.HasTy ty) : ty.convert x = x := by
  cases x with
  | int n => rw [convert, h.2]
  | float b => rfl

end Ty

namespace Val

lemma hasTy_wrap {ty : Ty} (hty : ty.isInteger = true) (n : Int) : (int (ty.wrap n)).HasTy ty :=
  ⟨hty, ty.wrap_wrap n⟩

lemma ofBool_hasTy (b : Bool) : (ofBool b).HasTy .bool := by
  refine ⟨rfl, Ty.wrap_bool_iff.mpr ?_⟩
  cases b <;> simp

/-- A value of an integer type is a number. -/
lemma HasTy.exists_int {x : Val} {ty : Ty} (h : x.HasTy ty) (hty : ty.isInteger = true) :
    ∃ n, x = int n := by
  cases x with
  | int n => exact ⟨n, rfl⟩
  | float b =>
    rw [HasTy] at h
    cases ty <;> simp_all [Ty.isInteger, Ty.isFloating]

end Val

/-- Whether a variable of a scope is the given one at run time. Its slot holds what was stored in it,
and this is a value of its type. -/
structure Bound (M : Machine) (b : String × Value) (x : String × Cell) : Prop where
  name : b.1 = x.1
  slot : ∃ id, b.2 = .slot id x.2.ty ∧ M.slots id = some x.2.value
  typed : ∀ v, x.2.value = some v → v.HasTy x.2.ty

/-- Whether variables have different slots, with numbers below `n`. -/
structure Numbered (vis : List (String × Value)) (n : Nat) : Prop where
  nodup : (vis.map fun b => b.2.id?).Nodup
  below : ∀ b ∈ vis, ∀ id, b.2.id? = some id → id < n

lemma Numbered.mono {vis : List (String × Value)} {n n' : Nat} (h : Numbered vis n) (hle : n ≤ n') :
    Numbered vis n' :=
  ⟨h.nodup, fun b hb id hid => Nat.lt_of_lt_of_le (h.below b hb id hid) hle⟩

lemma Numbered.of_append {vis new : List (String × Value)} {n : Nat} (h : Numbered (new ++ vis) n) :
    Numbered vis n where
  nodup := by
    have hnodup := h.nodup
    rw [List.map_append] at hnodup
    exact hnodup.of_append_right
  below b hb := h.below b (List.mem_append_right new hb)

/-- The variable that a name means has the slot that lowering found for it. -/
lemma exists_cell {M : Machine} {vis : List (String × Value)} {vars : List (String × Cell)}
    (h : List.Forall₂ (Bound M) vis vars) {name : String} {v : Value}
    (hv : vis.lookup name = some v) : ∃ cell id, vars.lookup name = some cell ∧
      v = .slot id cell.ty ∧ M.slots id = some cell.value ∧
      ∀ x, cell.value = some x → x.HasTy cell.ty := by
  induction h with
  | nil => cases hv
  | @cons b x vis vars hb _ ih =>
    rw [List.lookup_cons] at hv ⊢
    rw [← hb.name]
    split at hv
    · cases hv
      obtain ⟨id, hslot, hcontent⟩ := hb.slot
      exact ⟨x.2, id, rfl, hslot, hcontent, hb.typed⟩
    · exact ih hv

/-- What happens to slots of other numbers keeps variables as they are. -/
lemma bound_of_slots {M M' : Machine} {vis : List (String × Value)} {vars : List (String × Cell)}
    (h : List.Forall₂ (Bound M) vis vars)
    (hslots : ∀ b ∈ vis, ∀ id, b.2.id? = some id → M'.slots id = M.slots id) :
    List.Forall₂ (Bound M') vis vars := by
  induction h with
  | nil => exact .nil
  | @cons b x vis vars hb _ ih =>
    refine .cons ⟨hb.name, ?_, hb.typed⟩ (ih fun b hb => hslots b (List.mem_cons_of_mem _ hb))
    obtain ⟨id, hslot, hcontent⟩ := hb.slot
    exact ⟨id, hslot, by rw [hslots b List.mem_cons_self id (by rw [hslot]; rfl), hcontent]⟩

/-- A store to the slot of a variable is an assignment to it. -/
lemma bound_assign {M M' : Machine} {vis : List (String × Value)} {vars : List (String × Cell)}
    (h : List.Forall₂ (Bound M) vis vars) (hnodup : (vis.map fun b => b.2.id?).Nodup)
    {name : String} {id : Nat} {ty : Ty} (hv : vis.lookup name = some (.slot id ty)) {x : Val}
    (hx : x.HasTy ty) (hslot : M'.slots id = some (some x))
    (hslots : ∀ i ≠ id, M'.slots i = M.slots i) :
    List.Forall₂ (Bound M') vis (Memory.assign name x vars) := by
  induction h with
  | nil => cases hv
  | @cons b y vis vars hb hrest ih =>
    obtain ⟨b₁, b₂⟩ := b
    obtain ⟨y₁, y₂⟩ := y
    obtain rfl : b₁ = y₁ := hb.name
    obtain ⟨id', rfl, hcontent⟩ := hb.slot
    rw [List.map_cons, List.nodup_cons] at hnodup
    rw [List.lookup_cons] at hv
    rw [Memory.assign]
    by_cases hname : name == b₁
    · simp only [hname, Option.some.injEq, Value.slot.injEq] at hv
      obtain ⟨rfl, rfl⟩ := hv
      rw [if_pos hname]
      refine .cons ⟨rfl, ⟨id', rfl, hslot⟩, ?_⟩ (bound_of_slots hrest ?_)
      · rintro v ⟨⟩
        exact hx
      · intro c hc i hi
        refine hslots i ?_
        rintro rfl
        exact hnodup.1 (List.mem_map.mpr ⟨c, hc, hi⟩)
    · simp only [Bool.not_eq_true] at hname
      simp only [hname] at hv
      rw [hname, if_neg Bool.false_ne_true]
      refine .cons ⟨rfl, ⟨id', rfl, ?_⟩, hb.typed⟩ (ih hnodup.2 hv)
      rw [hslots id' ?_, hcontent]
      rintro rfl
      obtain ⟨front, back, rfl, -⟩ := List.lookup_eq_some_iff.mp hv
      exact hnodup.1 (List.mem_map.mpr ⟨_, List.mem_append_right front List.mem_cons_self, rfl⟩)

/-- Whether memory and the machine went through the same calls and have the same variables, where
`vis` says which slots belong to them. -/
structure Agrees (vis : List (String × Value)) (m : Memory) (M : Machine) : Prop where
  calls : M.calls = m.calls
  vars : List.Forall₂ (Bound M) vis m.vars

lemma Agrees.of_slots {vis : List (String × Value)} {m : Memory} {M M' : Machine}
    (h : Agrees vis m M) (hslots : M'.slots = M.slots) (hcalls : M'.calls = M.calls) :
    Agrees vis m M' where
  calls := by rw [hcalls, h.calls]
  vars := bound_of_slots h.vars fun b _ id _ => by rw [hslots]

/-- Code that runs, the names of its labels, and what functions give. -/
structure Program where
  labels : LabelTable
  code : Code
  result : String → List Val → Val
  nodup : (Code.markers code).Nodup

namespace Program

variable (W : Program)

/-- Code as it stands in the program. -/
def resolved (code : Code) : Code := code.map (Instr.relabel W.labels.named)

@[simp] lemma resolved_append (code code' : Code) :
    W.resolved (code ++ code') = W.resolved code ++ W.resolved code' := List.map_append

@[simp] lemma resolved_cons (i : Instr) (code : Code) :
    W.resolved (i :: code) = i.relabel W.labels.named :: W.resolved code := rfl

@[simp] lemma resolved_nil : W.resolved [] = [] := rfl

def Steps : Machine → Machine → Prop :=
  Relation.ReflTransGen fun M M' => M.step W.result W.code = some M'

lemma Steps.single {M M' : Machine} (h : M.step W.result W.code = some M') : W.Steps M M' :=
  Relation.ReflTransGen.single h

/-- What the machine has in common with memory, where lowering is in the state `s` and looks up names
in `scope`. -/
structure Matches (s : LowerState) (scope : ScopeId) (m : Memory) (M : Machine) : Prop
    extends Agrees (s.scopes.visible scope) m M where
  suffix : M.rest <:+ W.code
  block : M.block = W.labels.named s.block
  numbered : Numbered (s.scopes.visible scope) s.next

/-- The machine came from `M` to `M'`, where `k` follows. -/
structure Arrives (M : Machine) (k : Code) (s' : LowerState) (scope : ScopeId) (m' : Memory)
    (M' : Machine) : Prop where
  steps : W.Steps M M'
  rest : M'.rest = k
  matched : W.Matches s' scope m' M'

/-- On its way, the machine kept temporaries with numbers below `n`. -/
structure Reached (M : Machine) (n : Nat) (k : Code) (s' : LowerState) (scope : ScopeId)
    (m' : Memory) (M' : Machine) : Prop extends W.Arrives M k s' scope m' M' where
  next_le : n ≤ s'.next
  kept : ∀ id < n, M'.temps id = M.temps id

variable {W} {s s' : LowerState} {scope : ScopeId} {m m' : Memory} {M M' : Machine} {k : Code}

/-- A state of lowering that sees the same variables matches too. -/
lemma Matches.of_same (h : W.Matches s scope m M)
    (hvisible : s'.scopes.visible scope = s.scopes.visible scope) (hnext : s.next ≤ s'.next)
    (hblock : M'.block = W.labels.named s'.block) (hslots : M'.slots = M.slots)
    (hcalls : M'.calls = M.calls) (hrest : M'.rest <:+ W.code) : W.Matches s' scope m M' where
  toAgrees := by
    rw [hvisible]
    exact h.toAgrees.of_slots hslots hcalls
  suffix := hrest
  block := hblock
  numbered := by
    rw [hvisible]
    exact h.numbered.mono hnext

/-- What stands further behind is code of the program too. -/
lemma Matches.suffix_of_append {front : Code} (h : W.Matches s scope m M)
    (hrest : M.rest = front ++ k) : k <:+ W.code := by
  have hsuffix := h.suffix
  rw [hrest] at hsuffix
  exact (List.suffix_append front k).trans hsuffix

lemma Matches.suffix_of_rest {i : Instr} (h : W.Matches s scope m M) (hrest : M.rest = i :: k) :
    k <:+ W.code := h.suffix_of_append (show M.rest = [i] ++ k from hrest)

/-- A call is noted on both sides. -/
lemma Matches.record (h : W.Matches s scope m M) (c : Call) :
    W.Matches s scope { m with calls := m.calls ++ [c] } (M.record c) where
  calls := congrArg (· ++ [c]) h.calls
  vars := bound_of_slots h.vars fun _ _ _ _ => rfl
  suffix := h.suffix
  block := h.block
  numbered := h.numbered

lemma Arrives.of_steps {M₀ : Machine} (h : W.Arrives M k s' scope m' M') (h₀ : W.Steps M₀ M) :
    W.Arrives M₀ k s' scope m' M' :=
  ⟨Relation.ReflTransGen.trans h₀ h.steps, h.rest, h.matched⟩

/-- A jump to a label whose block stands in the program. Lowering may have been anywhere when it
started the block, if it saw the same variables there. -/
lemma exists_goto (s' : LowerState) {vis : List (String × Value)} {l : Label} (h : Agrees vis m M)
    (hstep : M.step W.result W.code = M.goto W.code (W.labels.named l))
    (hlabel : .label (W.labels.named l) :: k <:+ W.code)
    (hvisible : s'.scopes.visible scope = vis) (hnumbered : Numbered vis s'.next)
    (hblock : W.labels.named s'.block = W.labels.named l) :
    ∃ M', W.Arrives M k s' scope m M' ∧ M'.previous = some M.block ∧ M'.temps = M.temps := by
  have hgoto : M.goto W.code (W.labels.named l) = some
      { M with rest := k, block := W.labels.named l, previous := some M.block } := by
    rw [Machine.goto, Code.behind_of_suffix W.nodup hlabel]
    rfl
  rw [hgoto] at hstep
  refine ⟨_, ⟨Steps.single W hstep, rfl, ⟨?_, (List.suffix_cons _ _).trans hlabel, hblock.symm, ?_⟩⟩,
    rfl, rfl⟩
  · rw [hvisible]
    exact h.of_slots rfl rfl
  · rw [hvisible]
    exact hnumbered

namespace Reached

lemma refl (h : W.Matches s scope m M) (hrest : M.rest = k) :
    W.Reached M s.next k s scope m M :=
  ⟨⟨.refl, hrest, h⟩, Nat.le_refl _, fun _ _ => rfl⟩

/-- From the state in which one part ends, the next part goes on. -/
lemma next {n : Nat} {k' : Code} {t : LowerState} {m₁ : Memory} {M₁ : Machine}
    (h : W.Reached M n k' t scope m₁ M₁) (h' : W.Reached M₁ t.next k s' scope m' M') :
    W.Reached M n k s' scope m' M' where
  toArrives := h'.toArrives.of_steps h.steps
  next_le := Nat.le_trans h.next_le h'.next_le
  kept id hid := by rw [h'.kept id (Nat.lt_of_lt_of_le hid h.next_le), h.kept id hid]

/-- An instruction that gives the next temporary a value. -/
lemma define {i : Instr} {x : Val} (h : W.Matches s scope m M) (hrest : M.rest = i :: k)
    (hstep : M.step W.result W.code = some (M.define k s.next x)) :
    W.Reached M s.next k s.drawn scope m (M.define k s.next x) where
  steps := Steps.single W hstep
  rest := rfl
  matched := h.of_same (Scopes.visible_of_scopes_eq rfl) (Nat.le_succ _) h.block rfl rfl
    (h.suffix_of_rest hrest)
  next_le := Nat.le_succ _
  kept _ hid := if_neg (Nat.ne_of_lt hid)

lemma goto (s' : LowerState) {l : Label} (h : W.Matches s scope m M)
    (hstep : M.step W.result W.code = M.goto W.code (W.labels.named l))
    (hlabel : .label (W.labels.named l) :: k <:+ W.code)
    (hvisible : s'.scopes.visible scope = s.scopes.visible scope) (hnext : s.next ≤ s'.next)
    (hblock : W.labels.named s'.block = W.labels.named l) :
    ∃ M', W.Reached M s.next k s' scope m M' ∧ M'.previous = some M.block ∧ M'.temps = M.temps := by
  obtain ⟨M', harrives, hprevious, htemps⟩ :=
    exists_goto s' h.toAgrees hstep hlabel hvisible (h.numbered.mono hnext) hblock
  exact ⟨M', ⟨harrives, hnext, fun _ _ => by rw [htemps]⟩, hprevious, htemps⟩

end Reached

end Program

/-- Whether an operand, a temporary with a number below `n` or a literal, has a value of its type. -/
structure Denotes (M : Machine) (n : Nat) (v : Value) (x : Val) : Prop where
  value : M.value v = some x
  typed : x.HasTy v.ty
  literal : ∀ k ty, v = .int k ty → ty.wrap k = k
  below : ∀ id ty, v = .temp id ty → id < n

namespace Denotes

variable {M M' : Machine} {n n' : Nat} {v : Value} {x : Val}

lemma mono (h : Denotes M n v x) (hkept : ∀ id < n, M'.temps id = M.temps id) (hle : n ≤ n') :
    Denotes M' n' v x where
  value := by
    rw [← h.value]
    cases v with
    | temp id ty => exact hkept id (h.below id ty rfl)
    | _ => rfl
  typed := h.typed
  literal := h.literal
  below id ty hv := Nat.lt_of_lt_of_le (h.below id ty hv) hle

lemma temp {ty : Ty} {k : Code} {id : Nat} (hx : x.HasTy ty) (hid : id < n) :
    Denotes (M.define k id x) n (.temp id ty) x where
  value := if_pos rfl
  typed := hx
  literal := by simp
  below := by
    rintro _ _ ⟨⟩
    exact hid

/-- An operand of an integer type is a number of that type. -/
lemma exists_integer (h : Denotes M n v x) (hty : v.ty.isInteger = true) :
    ∃ a, x = .int a ∧ M.integer v = some a ∧ v.ty.wrap a = a := by
  obtain ⟨a, rfl⟩ := h.typed.exists_int hty
  refine ⟨a, rfl, ?_, h.typed.2⟩
  rw [Machine.integer, h.value]

/-- A literal that may change its type keeps its value. -/
lemma retype {target : Ty} {context : String} {w : Value} (h : Denotes M n v x)
    (hw : Lower.retypeLiteral v target context = .ok w) : Denotes M n w x ∧ w.ty = target := by
  rcases Lower.retypeLiteral_ok.mp hw with ⟨hty, rfl⟩ | ⟨-, ⟨k, ty, rfl, hint, hfits, rfl⟩ |
    ⟨b, ty, rfl, hfloat, rfl⟩⟩
  · exact ⟨h, hty⟩
  · have hk := h.literal k ty rfl
    obtain rfl : x = .int k := by
      have := h.value
      rw [Machine.value, hk] at this
      exact (Option.some.inj this).symm
    have hwrap := Ty.wrap_of_fits h.typed.1 hk hint hfits
    refine ⟨⟨by rw [Machine.value, hwrap], ⟨hint, hwrap⟩, ?_, by simp⟩, rfl⟩
    rintro _ _ ⟨⟩
    exact hwrap
  · obtain rfl : x = .float b := (Option.some.inj h.value).symm
    exact ⟨⟨rfl, hfloat, by simp, by simp⟩, rfl⟩

/-- Extending a boolean keeps its value. -/
lemma step_zext {callees : String → List Val → Val} {program k : Code} {id : Nat} {ty : Ty}
    (h : Denotes M n v x) (hbool : v.ty = .bool) (hint : ty.isInteger = true)
    (hrest : M.rest = .zext (.temp id ty) v :: k) :
    x.HasTy ty ∧ M.step callees program = some (M.define k id x) := by
  obtain ⟨a, rfl, ha, hwrap⟩ := h.exists_integer (by rw [hbool]; rfl)
  rw [hbool, Ty.wrap_bool_iff] at hwrap
  have hmod : a % 2 ^ 1 = a := by omega
  refine ⟨⟨hint, Ty.wrap_of_boolean hwrap⟩, ?_⟩
  simp only [Machine.step, hrest, ha, hbool, Ty.bitWidth?, Option.bind_eq_bind, Option.bind_some,
    hmod]
  rfl

end Denotes

/-- A store to the slot of a variable leaves memory as an assignment does. -/
lemma Program.Reached.store {W : Program} {s : LowerState} {scope : ScopeId} {m : Memory}
    {M : Machine} {k : Code} {name : String} {v : Value} {id align : Nat} {ty : Ty} {x : Val}
    (h : W.Matches s scope m M) (hrest : M.rest = .store v (.slot id ty) align :: k)
    (hslot : (s.scopes.visible scope).lookup name = some (.slot id ty))
    (hx : Denotes M s.next v x) (hty : v.ty = ty) :
    W.Reached M s.next k s scope { m with vars := Memory.assign name x m.vars }
      (M.setSlot k id (some x)) := by
  obtain ⟨cell, id', -, hid, hcontent, -⟩ := exists_cell h.vars hslot
  cases hid
  have hstep : M.step W.result W.code = some (M.setSlot k id (some x)) := by
    simp only [Machine.step, hrest, hx.value, hcontent, Option.bind_eq_bind, Option.bind_some]
    rfl
  have hvars : List.Forall₂ (Bound (M.setSlot k id (some x))) (s.scopes.visible scope)
      (Memory.assign name x m.vars) :=
    bound_assign h.vars h.numbered.nodup hslot (hty ▸ hx.typed) (if_pos rfl) fun i hi => if_neg hi
  exact ⟨⟨Steps.single W hstep, rfl,
    ⟨⟨h.calls, hvars⟩, h.suffix_of_rest hrest, h.block, h.numbered⟩⟩, Nat.le_refl _, fun _ _ => rfl⟩

/-- Whether the result of code, if it has one, is the value of an expression. -/
def Gives (M : Machine) (n : Nat) : Option Value → Option Val → Prop
  | some v, some x => Denotes M n v x
  | none, none => True
  | _, _ => False

end MiniC
