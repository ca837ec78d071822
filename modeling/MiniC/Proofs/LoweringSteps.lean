import Mathlib.Tactic.Common
import MiniC.Definition.Lower

/-!
# What a successful step of lowering did

A step that ended with code went through the steps of its parts, one after the other. The lemmas
here name the states between them and the code that each part gave, so that later files never open
the definitions of the steps.
-/

namespace MiniC

/-- What stands where in a list that got one more item at its end. -/
lemma getElem?_concat {α : Type} (l : List α) (a : α) (i : Nat) :
    (l ++ [a])[i]? = if i = l.length then some a else l[i]? := by
  rcases Nat.lt_trichotomy i l.length with hlt | rfl | hgt
  · rw [if_neg (Nat.ne_of_lt hlt), List.getElem?_append_left hlt]
  · rw [if_pos rfl, List.getElem?_concat_length]
  · have hbehind : (l ++ [a]).length ≤ i := List.length_append ▸ hgt
    rw [if_neg (Nat.ne_of_gt hgt), List.getElem?_eq_none hbehind,
      List.getElem?_eq_none (Nat.le_of_lt hgt)]

/-- The label that is allocated has no name, and no other label changes. -/
lemma LabelTable.getElem?_allocate (t : LabelTable) (id : Nat) :
    t.allocate.2.names[id]? = if id = t.size then some none else t.names[id]? :=
  getElem?_concat t.names none id

/-- The scope that is opened binds nothing, and no other scope changes. -/
lemma Scopes.getElem?_openChild (s : Scopes) (parent id : ScopeId) :
    (s.openChild parent).2.scopes[id]? =
      if id = s.scopes.length then some ⟨some parent, []⟩ else s.scopes[id]? :=
  getElem?_concat s.scopes ⟨some parent, []⟩ id

namespace LowerState

/-- The next number that was not drawn yet. -/
def next (s : LowerState) : Nat := s.scopes.nextNumber

/-- The state after one number was drawn. -/
def drawn (s : LowerState) : LowerState := { s with scopes := s.scopes.freshNumber.2 }

/-- The state after one label was allocated. -/
def allocated (s : LowerState) : LowerState := { s with labels := s.labels.allocate.2 }

/-- The state after a scope was opened inside `parent`. -/
def opened (s : LowerState) (parent : ScopeId) : LowerState :=
  { s with scopes := (s.scopes.openChild parent).2 }

/-- The state after the pending label `l` got the next number and its block was started. -/
def placed (s : LowerState) (l : Label) : LowerState where
  scopes := s.scopes.freshNumber.2
  labels := ⟨s.labels.names.set l.id (some s.next)⟩
  block := .fixed l.id s.next
  log := .labelFixed l.id s.next :: s.log

/-- The state with another log. -/
def logged (s : LowerState) (log : List Event) : LowerState := { s with log }

variable (s : LowerState) (l : Label) (scope : ScopeId) (log : List Event)

@[simp] lemma drawn_next : s.drawn.next = s.next + 1 := rfl

@[simp] lemma drawn_labels : s.drawn.labels = s.labels := rfl

@[simp] lemma drawn_block : s.drawn.block = s.block := rfl

@[simp] lemma drawn_scopes : s.drawn.scopes.scopes = s.scopes.scopes := rfl

@[simp] lemma allocated_next : s.allocated.next = s.next := rfl

@[simp] lemma allocated_size : s.allocated.labels.size = s.labels.size + 1 := by
  simp [allocated, LabelTable.allocate, LabelTable.size]

lemma getElem?_allocated (id : Nat) : s.allocated.labels.names[id]? =
    if id = s.labels.size then some none else s.labels.names[id]? :=
  s.labels.getElem?_allocate id

@[simp] lemma allocated_block : s.allocated.block = s.block := rfl

@[simp] lemma allocated_scopes : s.allocated.scopes = s.scopes := rfl

@[simp] lemma opened_next : (s.opened scope).next = s.next := rfl

@[simp] lemma opened_labels : (s.opened scope).labels = s.labels := rfl

@[simp] lemma opened_block : (s.opened scope).block = s.block := rfl

/-- A new scope takes the next number. -/
lemma length_lt_opened : s.scopes.scopes.length < (s.opened scope).scopes.scopes.length := by
  simp [opened, Scopes.openChild]

@[simp] lemma placed_next : (s.placed l).next = s.next + 1 := rfl

@[simp] lemma placed_size : (s.placed l).labels.size = s.labels.size := by
  simp [placed, LabelTable.size]

@[simp] lemma placed_block : (s.placed l).block = .fixed l.id s.next := rfl

@[simp] lemma placed_scopes : (s.placed l).scopes.scopes = s.scopes.scopes := rfl

@[simp] lemma logged_next : (s.logged log).next = s.next := rfl

@[simp] lemma logged_labels : (s.logged log).labels = s.labels := rfl

@[simp] lemma logged_block : (s.logged log).block = s.block := rfl

@[simp] lemma logged_scopes : (s.logged log).scopes = s.scopes := rfl

end LowerState

namespace Instr

lemma except_bind_ok {ε α β : Type} {x : Except ε α} {f : α → Except ε β} {b : β} :
    (x >>= f) = .ok b ↔ ∃ a, x = .ok a ∧ f a = .ok b := by
  cases x with
  | error e => simp [Bind.bind, Except.bind]
  | ok a => simp [Bind.bind, Except.bind]

lemma expectTy_ok {found expected : Ty} {context : String} {u : Unit} :
    expectTy found expected context = .ok u ↔ found = expected := by
  rw [expectTy]
  split <;> simp_all

lemma expectInteger_ok {ty : Ty} {context : String} {u : Unit} :
    expectInteger ty context = .ok u ↔ ty.isInteger = true := by
  rw [expectInteger]
  split <;> simp_all

lemma expectSlot_ok {slot : Value} {context : String} {u : Unit} :
    expectSlot slot context = .ok u ↔ ∃ id ty, slot = .slot id ty ∧ ty ≠ .void := by
  cases slot with
  | slot id ty => cases ty <;> simp [expectSlot, Ty.size?]
  | _ => simp [expectSlot]

lemma mkAlloca_ok {slot : Value} {align : Nat} {i : Instr} :
    mkAlloca slot align = .ok i ↔
      (∃ id ty, slot = .slot id ty ∧ ty ≠ .void) ∧ .alloca slot align = i := by
  simp only [mkAlloca, except_bind_ok, expectSlot_ok, pure, Except.pure, Except.ok.injEq,
    exists_const]

lemma mkStore_ok {value slot : Value} {align : Nat} {i : Instr} :
    mkStore value slot align = .ok i ↔
      (∃ id ty, slot = .slot id ty ∧ ty ≠ .void) ∧ value.ty = slot.ty ∧
        .store value slot align = i := by
  simp only [mkStore, except_bind_ok, expectSlot_ok, expectTy_ok, pure, Except.pure,
    Except.ok.injEq, exists_const]

lemma mkLoad_ok {result slot : Value} {align : Nat} {i : Instr} :
    mkLoad result slot align = .ok i ↔
      (∃ id ty, slot = .slot id ty ∧ ty ≠ .void) ∧ result.ty = slot.ty ∧
        .load result slot align = i := by
  simp only [mkLoad, except_bind_ok, expectSlot_ok, expectTy_ok, pure, Except.pure,
    Except.ok.injEq, exists_const]

lemma mkBinary_ok {result lhs rhs : Value} {op : BinaryOp} {i : Instr} :
    mkBinary result op lhs rhs = .ok i ↔
      result.ty.isInteger = true ∧ lhs.ty = result.ty ∧ rhs.ty = result.ty ∧
        .binary result op lhs rhs = i := by
  simp only [mkBinary, except_bind_ok, expectInteger_ok, expectTy_ok, pure, Except.pure,
    Except.ok.injEq, exists_const]

lemma mkIcmp_ok {result lhs rhs : Value} {relation : Relation} {i : Instr} :
    mkIcmp result relation lhs rhs = .ok i ↔
      result.ty = .bool ∧ lhs.ty.isInteger = true ∧ rhs.ty = lhs.ty ∧
        .icmp result relation lhs rhs = i := by
  simp only [mkIcmp, except_bind_ok, expectInteger_ok, expectTy_ok, pure, Except.pure,
    Except.ok.injEq, exists_const]

lemma mkBranch_ok {condition : Value} {onTrue onFalse : Label} {i : Instr} :
    mkBranch condition onTrue onFalse = .ok i ↔
      condition.ty = .bool ∧ .branch condition onTrue onFalse = i := by
  simp only [mkBranch, except_bind_ok, expectTy_ok, pure, Except.pure, Except.ok.injEq,
    exists_const]

lemma mkPhi_ok {result v w : Value} {l m : Label} {i : Instr} :
    mkPhi result [(v, l), (w, m)] = .ok i ↔
      v.ty = result.ty ∧ w.ty = result.ty ∧ .phi result [(v, l), (w, m)] = i := by
  simp only [mkPhi, List.length_cons, List.length_nil, Nat.reduceAdd, Nat.lt_irrefl, ↓reduceIte,
    List.forM_eq_forM, List.forM_cons, List.forM_nil, except_bind_ok, expectTy_ok, pure,
    Except.pure, Except.ok.injEq]
  simp [and_assoc]

lemma mkZext_ok {result value : Value} {i : Instr} :
    mkZext result value = .ok i ↔
      value.ty.isInteger = true ∧ result.ty.isInteger = true ∧
        value.ty.bitWidth?.getD 0 < result.ty.bitWidth?.getD 0 ∧ .zext result value = i := by
  simp only [mkZext, except_bind_ok, expectInteger_ok, exists_const]
  split
  · rename_i hwidth
    simp [hwidth, pure, Except.pure]
  · rename_i hwidth
    simp [hwidth, throw, throwThe, MonadExceptOf.throw]

lemma mkCall_ok {result : Option Value} {callee : String} {returnTy : Ty} {arguments : List Value}
    {i : Instr} :
    mkCall result callee returnTy arguments = .ok i ↔
      (result.map Value.ty).getD .void = returnTy ∧ .call result callee returnTy arguments = i := by
  simp only [mkCall, except_bind_ok, expectTy_ok, pure, Except.pure, Except.ok.injEq, exists_const]

end Instr
namespace Lower

variable {α β : Type} {s s' : LowerState} {env : LowerEnv}

lemma pure_ok {a b : α} : (pure a : Lower α) s = .ok b s' ↔ a = b ∧ s = s' := by
  change EStateM.Result.ok a s = .ok b s' ↔ _
  simp

lemma throw_ok {e : CompileError} {b : α} : (throw e : Lower α) s = .ok b s' ↔ False := by
  change EStateM.Result.error e s = .ok b s' ↔ _
  simp

/-- A sequence of two steps that succeeded consists of two steps that succeeded. -/
lemma bind_ok {x : Lower α} {f : α → Lower β} {b : β} :
    (x >>= f) s = .ok b s' ↔ ∃ a t, x s = .ok a t ∧ f a t = .ok b s' := by
  change EStateM.bind x f s = .ok b s' ↔ _
  rw [EStateM.bind]
  cases x s <;> simp

lemma ofLowering_ok {x : Except LoweringError α} {a : α} :
    ofLowering x s = .ok a s' ↔ x = .ok a ∧ s = s' := by
  cases x with
  | ok b => rw [ofLowering, pure_ok, Except.ok.injEq]
  | error e => simp [ofLowering, throw_ok]

lemma ofScope_ok {x : Except ScopeError α} {a : α} :
    ofScope x s = .ok a s' ↔ x = .ok a ∧ s = s' := by
  cases x with
  | ok b => rw [ofScope, pure_ok, Except.ok.injEq]
  | error e => simp [ofScope, throw_ok]

lemma get_ok {a : LowerState} : (get : Lower LowerState) s = .ok a s' ↔ s = a ∧ s = s' := by
  change EStateM.Result.ok s s = .ok a s' ↔ _
  simp

lemma modify_ok {f : LowerState → LowerState} {a : Unit} :
    (modify f : Lower Unit) s = .ok a s' ↔ f s = s' := by
  change EStateM.Result.ok () (f s) = .ok a s' ↔ _
  simp

lemma emit_ok {e : Event} {a : Unit} :
    emit e s = .ok a s' ↔ s.logged (e :: s.log) = s' := by
  rw [emit, modify_ok, LowerState.logged]

lemma freshNumber_ok {n : Nat} :
    freshNumber s = .ok n s' ↔ s.next = n ∧ s.drawn = s' := by
  change EStateM.Result.ok s.next s.drawn = .ok n s' ↔ _
  simp

lemma newTemp_ok {ty : Ty} {v : Value} :
    newTemp ty s = .ok v s' ↔ .temp s.next ty = v ∧ s.drawn = s' := by
  change EStateM.Result.ok (Value.temp s.next ty) s.drawn = .ok v s' ↔ _
  simp

lemma newSlot_ok {ty : Ty} {v : Value} :
    newSlot ty s = .ok v s' ↔ .slot s.next ty = v ∧ s.drawn = s' := by
  change EStateM.Result.ok (Value.slot s.next ty) s.drawn = .ok v s' ↔ _
  simp

lemma newLabel_ok {l : Label} :
    newLabel s = .ok l s' ↔ .pending s.labels.size = l ∧ s.allocated = s' := by
  change EStateM.Result.ok (Label.pending s.labels.size) s.allocated = .ok l s' ↔ _
  simp

lemma openScope_ok {parent id : ScopeId} :
    openScope parent s = .ok id s' ↔ s.scopes.scopes.length = id ∧ s.opened parent = s' := by
  change EStateM.Result.ok s.scopes.scopes.length (s.opened parent) = .ok id s' ↔ _
  simp

lemma currentBlock_ok {l : Label} : currentBlock s = .ok l s' ↔ s.block = l ∧ s = s' := by
  change EStateM.Result.ok s.block s = .ok l s' ↔ _
  simp

lemma lookup_ok {scope : ScopeId} {name : String} {v : Value} :
    lookup scope name s = .ok v s' ↔ s.scopes.lookup scope name = .ok v ∧ s = s' := by
  simp only [lookup, bind_ok, get_ok, ofScope_ok]
  grind

/-- Only a pending label that the function allocated can be placed. -/
lemma placeLabel_ok {l : Label} {i : Instr} :
    placeLabel l s = .ok i s' ↔
      (∃ id, l = .pending id ∧ s.labels.names[id]? = some none) ∧
        .label (.fixed l.id s.next) = i ∧ s.placed l = s' := by
  simp only [placeLabel, bind_ok, freshNumber_ok, get_ok, ofLowering_ok, modify_ok, pure_ok,
    LabelTable.fix]
  cases l with
  | pending id =>
    change _ ↔ (∃ k, Label.pending id = .pending k ∧ _) ∧ _
    cases h : s.labels.names[id]? with
    | none => simp [LowerState.drawn, Label.id, h]
    | some state =>
      cases state with
      | none => simp [LowerState.drawn, LowerState.placed, Label.id, Label.isFixed, h]
      | some name => simp [LowerState.drawn, Label.id, h]
  | fixed id name =>
    cases h : s.labels.names[id]? <;> simp [LowerState.drawn, Label.id, Label.isFixed, h]

/-- A jump is left out only behind a terminator, and only if the options say so. -/
lemma jumpAfter_ok {code jump : Code} {target : Label}
    (h : jumpAfter env code target s = .ok jump s') :
    (∃ log, s.logged log = s') ∧ jump =
      if env.options.elideUnreachableJumps && Code.endsWithTerminator code then []
      else [.jump target] := by
  rw [jumpAfter] at h
  split at h <;> simp only [bind_ok, emit_ok, pure_ok] at h
  · rename_i hc
    obtain ⟨u, t, rfl, rfl, rfl⟩ := h
    exact ⟨⟨_, rfl⟩, by rw [if_pos hc]⟩
  · rename_i hc
    obtain ⟨rfl, rfl⟩ := h
    exact ⟨⟨s.log, rfl⟩, by rw [if_neg hc]⟩

/-- A new block stands behind a terminator, and nothing behind other code. -/
lemma openBlockAfter_ok {code opened : Code} (h : openBlockAfter code s = .ok opened s') :
    (Code.endsWithTerminator code = false ∧ opened = [] ∧ s = s') ∨
      Code.endsWithTerminator code = true ∧ opened = [.label (.fixed s.labels.size s.next)] ∧
        ∃ log, (s.logged log).allocated.placed (.pending s.labels.size) = s' := by
  rw [openBlockAfter] at h
  split at h
  · rename_i hc
    simp only [bind_ok, emit_ok, newLabel_ok, placeLabel_ok, pure_ok] at h
    obtain ⟨u, t, rfl, l, t', ⟨rfl, rfl⟩, i, t'', ⟨-, rfl, rfl⟩, rfl, rfl⟩ := h
    exact Or.inr ⟨hc, rfl, _, rfl⟩
  · rename_i hc
    rw [pure_ok] at h
    exact Or.inl ⟨by simpa using hc, h.1.symm, h.2⟩

lemma load_ok {slot : Value} {r : Code × Value} (h : load env slot s = .ok r s') :
    (∃ id ty, slot = .slot id ty ∧ ty ≠ .void) ∧ s.drawn = s' ∧
      r = ([.load (.temp s.next slot.ty) slot (env.options.alignmentFor slot.ty)],
        .temp s.next slot.ty) := by
  simp only [load, bind_ok, newTemp_ok, ofLowering_ok, Instr.mkLoad_ok, pure_ok] at h
  obtain ⟨v, t, ⟨rfl, rfl⟩, i, t', ⟨⟨hslot, -, rfl⟩, rfl⟩, rfl, rfl⟩ := h
  exact ⟨hslot, rfl, rfl⟩

lemma store_ok {value slot : Value} {code : Code} (h : store env value slot s = .ok code s') :
    (∃ id ty, slot = .slot id ty ∧ ty ≠ .void) ∧ value.ty = slot.ty ∧ s = s' ∧
      code = [.store value slot (env.options.alignmentFor slot.ty)] := by
  simp only [store, bind_ok, ofLowering_ok, Instr.mkStore_ok, pure_ok] at h
  obtain ⟨i, t, ⟨⟨hslot, hty, rfl⟩, rfl⟩, rfl, rfl⟩ := h
  exact ⟨hslot, hty, rfl, rfl⟩

lemma declareSlot_ok {scope : ScopeId} {name : String} {ty : Ty} {r : Code × Value}
    (h : declareSlot env scope name ty s = .ok r s') :
    ty ≠ .void ∧ (∃ scopes, s.drawn.scopes.declare scope name (.slot s.next ty) = .ok scopes ∧
        s' = { s with scopes }) ∧
      r = ([.alloca (.slot s.next ty) (env.options.alignmentFor ty)], .slot s.next ty) := by
  simp only [declareSlot, bind_ok, newSlot_ok, get_ok, ofScope_ok, modify_ok, ofLowering_ok,
    Instr.mkAlloca_ok, pure_ok] at h
  obtain ⟨v, t, ⟨rfl, rfl⟩, a, t', ⟨rfl, rfl⟩, scopes, t'', ⟨hs, rfl⟩, u, t₃, rfl, i, t₄, ⟨⟨hv, rfl⟩, rfl⟩, rfl, rfl⟩ := h
  obtain ⟨id, ty', he, hty⟩ := hv
  simp only [Value.slot.injEq] at he
  exact ⟨he.2 ▸ hty, ⟨scopes, hs, rfl⟩, rfl⟩

lemma retypeLiteral_ok {v w : Value} {target : Ty} {context : String} :
    retypeLiteral v target context = .ok w ↔
      (v.ty = target ∧ v = w) ∨ v.ty ≠ target ∧
        ((∃ n ty, v = .int n ty ∧ target.isInteger = true ∧ target.fits n = true ∧
          .int n target = w) ∨
        ∃ b ty, v = .float b ty ∧ target.isFloating = true ∧ .float b target = w) := by
  by_cases hty : v.ty = target
  · simp [retypeLiteral, hty]
  · cases v with
    | int n ty => by_cases hi : target.isInteger <;> by_cases hf : target.fits n <;>
        simp [retypeLiteral, hty, hi, hf]
    | float b ty => by_cases hf : target.isFloating <;> simp [retypeLiteral, hty, hf]
    | _ => simp [retypeLiteral, hty]

/-- A value is converted by changing the type of a literal or by extending a computed boolean. -/
lemma coerce_ok {value : Value} {target : Ty} {context : String} {r : Code × Value}
    (h : coerce value target context s = .ok r s') :
    (∃ v, retypeLiteral value target context = .ok v ∧ r = ([], v) ∧ s = s') ∨
      value.ty = .bool ∧ value.isLiteral = false ∧ target.isInteger = true ∧ target ≠ .bool ∧
        s.drawn = s' ∧ r = ([.zext (.temp s.next target) value], .temp s.next target) := by
  rw [coerce] at h
  split at h
  · rename_i hty
    obtain ⟨rfl, rfl⟩ := pure_ok.mp h
    exact Or.inl ⟨value, retypeLiteral_ok.mpr (Or.inl ⟨hty, rfl⟩), rfl, rfl⟩
  · rename_i hty
    split at h
    · simp only [bind_ok, ofLowering_ok, pure_ok] at h
      obtain ⟨v, t, ⟨hv, rfl⟩, rfl, rfl⟩ := h
      exact Or.inl ⟨v, hv, rfl, rfl⟩
    · rename_i hlit
      split at h
      · rename_i hb
        simp only [bind_ok, newTemp_ok, ofLowering_ok, Instr.mkZext_ok, pure_ok] at h
        obtain ⟨v, t, ⟨rfl, rfl⟩, i, t', ⟨⟨-, -, -, rfl⟩, rfl⟩, rfl, rfl⟩ := h
        refine Or.inr ⟨hb.1, by simpa using hlit, hb.2, ?_, rfl, rfl⟩
        rintro rfl
        exact hty hb.1
      · exact (throw_ok.mp h).elim

lemma operand_ok {lowered : Lower Segment} {context : String} {r : Code × Value} :
    operand lowered context s = .ok r s' ↔ lowered s = .ok ⟨r.1, some r.2⟩ s' := by
  rw [operand, bind_ok]
  constructor
  · rintro ⟨⟨code, result⟩, t, hx, h⟩
    cases result with
    | none => exact (throw_ok.mp h).elim
    | some v =>
      obtain ⟨rfl, rfl⟩ := pure_ok.mp h
      exact hx
  · intro h
    exact ⟨_, s', h, pure_ok.mpr ⟨rfl, rfl⟩⟩

lemma operandAs_ok {lowered : Lower Segment} {ty : Ty} {context : String} {r : Code × Value}
    (h : operandAs lowered ty context s = .ok r s') :
    ∃ code v conversion t, lowered s = .ok ⟨code, some v⟩ t ∧
      coerce v ty context t = .ok (conversion, r.2) s' ∧ r.1 = code ++ conversion := by
  simp only [operandAs, bind_ok, operand_ok, pure_ok] at h
  obtain ⟨⟨code, v⟩, t, hx, ⟨conversion, w⟩, t', hc, rfl, rfl⟩ := h
  exact ⟨code, v, conversion, t, hx, hc, rfl⟩

end Lower

end MiniC
