import MiniC.Proofs.Operands
import MiniC.Proofs.Visibility

/-!
# Typed code

Every instruction of emitted code obeys the typing rule of its kind, and reads nothing but literals
and values that the code of the function defines, with the types that they are defined with. The
parts of a construct share the values of the whole function: `Code.Sound env values code` is about
code whose results are among `values`, so that it holds of code if it holds of its parts.
-/

namespace MiniC

/-- Whether the value is a temporary or a literal of the type. -/
def Value.Holds : Value → Ty → Prop
  | .slot .., _ => False
  | v, ty => v.ty = ty

/-- The typing rule of each instruction, in a function that returns `returnTy`. -/
def Instr.Typed (functions : FunctionTable) (options : Options) (returnTy : Ty) : Instr → Prop
  | .alloca slot align =>
    ∃ id ty, slot = .slot id ty ∧ ty ≠ .void ∧ align = options.alignmentFor ty
  | .store value slot align =>
    ∃ id ty, slot = .slot id ty ∧ ty ≠ .void ∧ value.Holds ty ∧ align = options.alignmentFor ty
  | .load result slot align =>
    ∃ n id ty, result = .temp n ty ∧ slot = .slot id ty ∧ ty ≠ .void ∧
      align = options.alignmentFor ty
  | .binary result _ lhs rhs =>
    ∃ n ty, result = .temp n ty ∧ ty.isInteger = true ∧ lhs.Holds ty ∧ rhs.Holds ty
  | .icmp result _ lhs rhs =>
    ∃ n ty, result = .temp n .bool ∧ ty.isInteger = true ∧ lhs.Holds ty ∧ rhs.Holds ty
  | .branch condition _ _ => condition.Holds .bool
  | .phi result incoming => ∃ n ty, result = .temp n ty ∧ ∀ x ∈ incoming, x.1.Holds ty
  | .zext result value =>
    ∃ n narrow wide, result = .temp n wide ∧ value.Holds narrow ∧ narrow.isInteger = true ∧
      wide.isInteger = true ∧ narrow.bitWidth?.getD 0 < wide.bitWidth?.getD 0
  | .call result callee ty arguments =>
    ∃ params, functions.find? callee = some ⟨ty, params⟩ ∧
      List.Forall₂ Value.Holds arguments params ∧
      (ty = .void ∧ result = none ∨ ty ≠ .void ∧ ∃ n, result = some (.temp n ty))
  | .ret none => returnTy = .void
  | .ret (some value) => returnTy ≠ .void ∧ value.Holds returnTy
  | .functionBegin _ ty params => ty = returnTy ∧ ∀ v ∈ params, ∃ n t, v = .temp n t
  | .jump _ | .label _ | .functionEnd => True

lemma Instr.Typed.relabel {functions : FunctionTable} {options : Options} {returnTy : Ty}
    {i : Instr} (f : Label → Label) (h : i.Typed functions options returnTy) :
    (i.relabel f).Typed functions options returnTy := by
  cases i with
  | phi result incoming =>
    obtain ⟨n, ty, hresult, hincoming⟩ := h
    rw [relabel_phi]
    refine ⟨n, ty, hresult, ?_⟩
    intro x hx
    obtain ⟨y, hy, rfl⟩ := List.mem_map.mp hx
    exact hincoming y hy
  | _ => exact h

/-- Only allocations make slots. -/
lemma Instr.Typed.isSlot_iff {functions : FunctionTable} {options : Options} {returnTy : Ty}
    {i : Instr} (h : i.Typed functions options returnTy) {v : Value} (hv : v ∈ i.results) :
    v.isSlot = true ↔ ∃ align, i = .alloca v align := by
  cases i with
  | alloca slot align =>
    obtain ⟨id, ty, rfl, -, -⟩ := h
    rw [List.mem_singleton.mp hv]
    simp [Value.isSlot]
  | load | zext =>
    obtain ⟨n, _, _, rfl, -⟩ := h
    rw [List.mem_singleton.mp hv]
    simp [Value.isSlot]
  | binary | icmp | phi =>
    obtain ⟨n, _, rfl, -⟩ := h
    rw [List.mem_singleton.mp hv]
    simp [Value.isSlot]
  | call result callee ty arguments =>
    obtain ⟨params, -, -, ⟨-, rfl⟩ | ⟨-, n, rfl⟩⟩ := h
    · cases hv
    · rw [List.mem_singleton.mp hv]
      simp [Value.isSlot]
  | functionBegin name ty params =>
    obtain ⟨n, ty, rfl⟩ := h.2 v hv
    simp [Value.isSlot]
  | _ => cases hv

/-- Whether the value is a literal or a temporary among `values`. -/
def Value.Given (values : List Value) : Value → Prop
  | .temp id ty => .temp id ty ∈ values
  | .slot .. => False
  | _ => True

namespace Value.Given

variable {values : List Value} {v : Value}

lemma holds (h : v.Given values) {ty : Ty} (hty : v.ty = ty) : v.Holds ty := by
  cases v with
  | slot id ty => cases h
  | _ => exact hty

lemma literal_or_mem (h : v.Given values) : v.isLiteral = true ∨ v ∈ values := by
  cases v with
  | temp id ty => exact Or.inr h
  | slot id ty => cases h
  | _ => exact Or.inl rfl

/-- Another type of a literal does not matter. -/
lemma retype (h : v.Given values) {w : Value} {ty : Ty} {context : String}
    (hw : Lower.retypeLiteral v ty context = .ok w) : w.Given values ∧ w.ty = ty := by
  rcases Lower.retypeLiteral_ok.mp hw with
    ⟨hty, rfl⟩ | ⟨-, ⟨n, ty', -, -, -, rfl⟩ | ⟨b, ty', -, -, rfl⟩⟩
  · exact ⟨h, hty⟩
  · exact ⟨trivial, rfl⟩
  · exact ⟨trivial, rfl⟩

end Value.Given

/-- Whether the instruction obeys its typing rule and reads only literals and members of `values`.
-/
def Instr.Sound (env : LowerEnv) (values : List Value) (i : Instr) : Prop :=
  i.Typed env.functions env.options env.returnTy ∧
    ∀ v ∈ i.used, v.isLiteral = true ∨ v ∈ values

def Code.Sound (env : LowerEnv) (values : List Value) (code : Code) : Prop :=
  ∀ i ∈ code, i.Sound env values

namespace Code

variable {env : LowerEnv} {values : List Value}

@[simp] lemma sound_nil : Sound env values [] := by
  intro i hi
  cases hi

@[simp] lemma sound_append {code code' : Code} :
    Sound env values (code ++ code') ↔ Sound env values code ∧ Sound env values code' :=
  List.forall_mem_append

@[simp] lemma sound_cons {i : Instr} {code : Code} :
    Sound env values (i :: code) ↔ i.Sound env values ∧ Sound env values code :=
  List.forall_mem_cons

end Code

namespace Instr

variable {env : LowerEnv} {values : List Value}

@[simp] lemma sound_label (l : Label) : (label l).Sound env values :=
  ⟨trivial, by simp [used, operands, incoming]⟩

@[simp] lemma sound_jump (l : Label) : (jump l).Sound env values :=
  ⟨trivial, by simp [used, operands, incoming]⟩

lemma sound_branch {v : Value} (hv : v.Given values) (hty : v.ty = .bool) (l m : Label) :
    (branch v l m).Sound env values := by
  refine ⟨hv.holds hty, ?_⟩
  simpa [used, operands, incoming] using hv.literal_or_mem

lemma sound_alloca {id : Nat} {ty : Ty} (hty : ty ≠ .void) :
    (alloca (.slot id ty) (env.options.alignmentFor ty)).Sound env values :=
  ⟨⟨id, ty, rfl, hty, rfl⟩, by simp [used, operands, incoming]⟩

lemma sound_load {n id : Nat} {ty : Ty} (hty : ty ≠ .void) (hslot : .slot id ty ∈ values) :
    (load (.temp n ty) (.slot id ty) (env.options.alignmentFor ty)).Sound env values :=
  ⟨⟨n, id, ty, rfl, rfl, hty, rfl⟩, by simp [used, operands, incoming, hslot]⟩

lemma sound_store {v : Value} {id : Nat} {ty : Ty} (hty : ty ≠ .void) (hv : v.Given values)
    (hvty : v.ty = ty) (hslot : .slot id ty ∈ values) :
    (store v (.slot id ty) (env.options.alignmentFor ty)).Sound env values := by
  refine ⟨⟨id, ty, rfl, hty, hv.holds hvty, rfl⟩, ?_⟩
  simpa [used, operands, incoming, hslot] using hv.literal_or_mem

lemma sound_binary {n : Nat} {ty : Ty} (op : BinaryOp) {v w : Value} (hty : ty.isInteger = true)
    (hv : v.Given values) (hvty : v.ty = ty) (hw : w.Given values) (hwty : w.ty = ty) :
    (binary (.temp n ty) op v w).Sound env values := by
  refine ⟨⟨n, ty, rfl, hty, hv.holds hvty, hw.holds hwty⟩, ?_⟩
  simpa [used, operands, incoming] using ⟨hv.literal_or_mem, hw.literal_or_mem⟩

lemma sound_icmp {n : Nat} (relation : Relation) {v w : Value} (hty : v.ty.isInteger = true)
    (hv : v.Given values) (hw : w.Given values) (hwty : w.ty = v.ty) :
    (icmp (.temp n .bool) relation v w).Sound env values := by
  refine ⟨⟨n, v.ty, rfl, hty, hv.holds rfl, hw.holds hwty⟩, ?_⟩
  simpa [used, operands, incoming] using ⟨hv.literal_or_mem, hw.literal_or_mem⟩

/-- Only a boolean is extended, and every other integer type is wider. -/
lemma sound_zext {n : Nat} {ty : Ty} {v : Value} (hv : v.Given values) (hvty : v.ty = .bool)
    (hint : ty.isInteger = true) (hne : ty ≠ .bool) : (zext (.temp n ty) v).Sound env values := by
  have hwider : Ty.bool.bitWidth?.getD 0 < ty.bitWidth?.getD 0 := by
    cases ty <;> simp_all [Ty.isInteger, Ty.bitWidth?]
  refine ⟨⟨n, .bool, ty, rfl, hv.holds hvty, rfl, hint, hwider⟩, ?_⟩
  simpa [used, operands, incoming] using hv.literal_or_mem

lemma sound_phi {n : Nat} {ty : Ty} {v w : Value} (l m : Label) (hv : v.Given values)
    (hvty : v.ty = ty) (hw : w.Given values) (hwty : w.ty = ty) :
    (phi (.temp n ty) [(v, l), (w, m)]).Sound env values := by
  refine ⟨⟨n, ty, rfl, ?_⟩, ?_⟩
  · simpa using ⟨hv.holds hvty, hw.holds hwty⟩
  · simpa [used, operands, incoming] using ⟨hv.literal_or_mem, hw.literal_or_mem⟩

lemma sound_call {result : Option Value} {callee : String} {ty : Ty} {params : List Ty}
    {arguments : List Value} (hfind : env.functions.find? callee = some ⟨ty, params⟩)
    (hargs : List.Forall₂ (fun v ty => v.Given values ∧ v.ty = ty) arguments params)
    (hresult : ty = .void ∧ result = none ∨ ty ≠ .void ∧ ∃ n, result = some (.temp n ty)) :
    (call result callee ty arguments).Sound env values := by
  refine ⟨⟨params, hfind, hargs.imp fun v ty hv => hv.1.holds hv.2, hresult⟩, ?_⟩
  intro v hv
  have hmem : v ∈ arguments := by simpa [used, operands, incoming] using hv
  obtain ⟨k, hk, rfl⟩ := List.mem_iff_getElem.mp hmem
  have hk' : k < params.length := hargs.length_eq ▸ hk
  exact (List.forall₂_iff_get.mp hargs).2 k hk hk' |>.1.literal_or_mem

lemma sound_ret {v : Value} (hv : v.Given values) (hty : v.ty = env.returnTy)
    (hret : env.returnTy ≠ .void) : (ret (some v)).Sound env values := by
  refine ⟨⟨hret, hv.holds hty⟩, ?_⟩
  simpa [used, operands, incoming] using hv.literal_or_mem

lemma sound_ret_none (hret : env.returnTy = .void) : (ret none).Sound env values :=
  ⟨hret, by simp [used, operands, incoming]⟩

end Instr

/-- Whether every variable stands for a slot among `values` that holds something. -/
def Scopes.Within (values : List Value) (s : Scopes) : Prop :=
  ∀ scope ∈ s.scopes, ∀ b ∈ scope.bindings, b.2 ∈ values ∧ b.2.ty ≠ .void

namespace Scopes.Within

variable {values : List Value} {s s' : Scopes}

lemma of_eq (h : s.Within values) (heq : s'.scopes = s.scopes) : s'.Within values := by
  rwa [Within, heq]

lemma lookup (h : s.Within values) {scope : ScopeId} {name : String} {slot : Value}
    (hl : s.lookup scope name = .ok slot) : slot ∈ values ∧ slot.ty ≠ .void :=
  Binds.lookup (P := fun v => v ∈ values ∧ v.ty ≠ .void) h hl

lemma openChild (h : s.Within values) (scope : ScopeId) : (s.openChild scope).2.Within values :=
  Binds.openChild (P := fun v => v ∈ values ∧ v.ty ≠ .void) h scope

lemma declare (h : s.Within values) {scope : ScopeId} {name : String} {slot : Value}
    (hs : s.declare scope name slot = .ok s') (hslot : slot ∈ values) (hty : slot.ty ≠ .void) :
    s'.Within values :=
  Binds.declare (P := fun v => v ∈ values ∧ v.ty ≠ .void) h hs ⟨hslot, hty⟩

end Scopes.Within

namespace Lower

variable {s s' : LowerState} {env : LowerEnv} {scope : ScopeId} {values : List Value}

/-- Whether a lowering of an expression gives sound code and a result that can be read. -/
def SegmentSound (env : LowerEnv) (x : Lower Segment) : Prop :=
  ∀ ⦃s seg s' values⦄, x s = .ok seg s' → s.scopes.Within values →
    Code.results seg.instructions ⊆ values →
    Code.Sound env values seg.instructions ∧ s'.scopes.Within values ∧
      ∀ v ∈ seg.result, v.Given values

lemma coerce_sound {v : Value} {ty : Ty} {context : String} {r : Code × Value}
    (h : coerce v ty context s = .ok r s') (hs : s.scopes.Within values) (hv : v.Given values)
    (hresults : Code.results r.1 ⊆ values) :
    Code.Sound env values r.1 ∧ s'.scopes.Within values ∧ r.2.Given values ∧ r.2.ty = ty := by
  have hs' := hs.of_eq (coerce_keeps h)
  rcases coerce_ok h with ⟨w, hw, rfl, rfl⟩ | ⟨hbool, -, hint, hne, rfl, rfl⟩
  · exact ⟨Code.sound_nil, hs', hv.retype hw⟩
  · have hgiven : Value.Given values (.temp s.next ty) := hresults List.mem_cons_self
    exact ⟨by simpa using Instr.sound_zext hv hbool hint hne, hs', hgiven, rfl⟩

lemma operandAs_sound {x : Lower Segment} (hx : SegmentSound env x) {ty : Ty} {context : String}
    {r : Code × Value} (h : operandAs x ty context s = .ok r s') (hs : s.scopes.Within values)
    (hresults : Code.results r.1 ⊆ values) :
    Code.Sound env values r.1 ∧ s'.scopes.Within values ∧ r.2.Given values ∧ r.2.ty = ty := by
  obtain ⟨code, v, conversion, t, hlow, hc, hr⟩ := operandAs_ok h
  rw [hr, Code.results_append, List.append_subset] at hresults
  obtain ⟨hcode, ht, hv⟩ := hx hlow hs hresults.1
  obtain ⟨hconversion, hgiven⟩ := coerce_sound hc ht (hv v rfl) hresults.2
  rw [hr]
  exact ⟨Code.sound_append.mpr ⟨hcode, hconversion⟩, hgiven⟩

lemma arm_sound {x : Lower Segment} (hx : SegmentSound env x) {keepBoolean : Bool}
    {r : Code × Value} (h : arm keepBoolean x s = .ok r s') (hs : s.scopes.Within values)
    (hresults : Code.results r.1 ⊆ values) :
    Code.Sound env values r.1 ∧ s'.scopes.Within values ∧ r.2.Given values := by
  obtain ⟨code, v, conversion, t, hlow, hr, harm⟩ := arm_ok h
  rw [hr, Code.results_append, List.append_subset] at hresults
  obtain ⟨hcode, ht, hv⟩ := hx hlow hs hresults.1
  rw [hr, Code.sound_append]
  rcases harm with ⟨-, rfl, hr₂, rfl⟩ | ⟨-, -, hc⟩
  · rw [hr₂]
    exact ⟨⟨hcode, Code.sound_nil⟩, ht, hv v rfl⟩
  · obtain ⟨hconversion, hs', hgiven, -⟩ := coerce_sound hc ht (hv v rfl) hresults.2
    exact ⟨⟨hcode, hconversion⟩, hs', hgiven⟩

lemma optionalJump_sound {omitted : Bool} {l : Label} :
    Code.Sound env values (if omitted then [] else [.jump l]) := by
  cases omitted <;> simp

lemma conditional_sound {keepBoolean : Bool} {condition onTrue onFalse : Lower Segment}
    (hcond : SegmentSound env condition) (htrue : SegmentSound env onTrue)
    (hfalse : SegmentSound env onFalse) :
    SegmentSound env (conditional env keepBoolean condition onTrue onFalse) := by
  intro s seg s' values h hs hresults
  obtain ⟨test, v, trueCode, trueValue, trueJump, falseCode, falseValue, falseJump, trueValue',
    falseValue', ty, t, t₁, t₂, log₁, log₂, n, -, hc, hvty, ht, -, hf, -, -, hretype₁, hretype₂, -,
    -, hj₁, hj₂, rfl, rfl⟩ := conditional_ok h
  simp only [Code.results_append, Code.results_cons, Code.results_nil, Instr.results,
    List.append_subset, List.nil_subset, List.cons_subset, true_and, and_true] at hresults
  obtain ⟨⟨⟨⟨⟨htest, htrueCode⟩, -⟩, hfalseCode⟩, -⟩, hphi⟩ := hresults
  obtain ⟨h₁, hst, hv, -⟩ := operandAs_sound hcond hc hs htest
  obtain ⟨h₂, hst₁, hv₁⟩ := arm_sound htrue ht (hst.of_eq rfl) htrueCode
  obtain ⟨h₃, hst₂, hv₂⟩ := arm_sound hfalse hf (hst₁.of_eq rfl) hfalseCode
  obtain ⟨hv₁', hty₁⟩ := hv₁.retype hretype₁
  obtain ⟨hv₂', hty₂⟩ := hv₂.retype hretype₂
  have hjump₁ : Code.Sound env values trueJump := hj₁ ▸ optionalJump_sound
  have hjump₂ : Code.Sound env values falseJump := hj₂ ▸ optionalJump_sound
  refine ⟨?_, hst₂.of_eq rfl, ?_⟩
  · simp only [Code.sound_append, Code.sound_cons, Code.sound_nil, Instr.sound_label, true_and,
      and_true]
    exact ⟨⟨⟨⟨⟨h₁, Instr.sound_branch hv hvty _ _, h₂⟩, hjump₁⟩, h₃⟩, hjump₂⟩,
      Instr.sound_phi _ _ hv₁' hty₁ hv₂' hty₂⟩
  · rintro w ⟨⟩
    exact hphi

lemma arguments_sound {args : List (Lower Segment)} (hargs : ∀ x ∈ args, SegmentSound env x)
    {tys : List Ty} (harity : tys.length = args.length) {r : Code × List Value}
    (h : arguments args tys s = .ok r s') (hs : s.scopes.Within values)
    (hresults : Code.results r.1 ⊆ values) :
    Code.Sound env values r.1 ∧ s'.scopes.Within values ∧
      List.Forall₂ (fun v ty => v.Given values ∧ v.ty = ty) r.2 tys := by
  induction args generalizing tys s r with
  | nil =>
    obtain ⟨rfl, rfl⟩ := pure_ok.mp h
    rw [List.length_nil, List.length_eq_zero_iff] at harity
    rw [harity]
    exact ⟨Code.sound_nil, hs, .nil⟩
  | cons x rest ih =>
    cases tys with
    | nil => cases harity
    | cons ty tys =>
      obtain ⟨code, v, more, vs, t, hx, hrest, rfl⟩ := arguments_cons_ok h
      rw [Code.results_append, List.append_subset] at hresults
      obtain ⟨hcode, ht, hv⟩ := operandAs_sound (hargs x List.mem_cons_self) hx hs hresults.1
      obtain ⟨hmore, hs', hvs⟩ := ih (fun y hy => hargs y (List.mem_cons_of_mem x hy))
        (Nat.succ.inj harity) hrest ht hresults.2
      exact ⟨Code.sound_append.mpr ⟨hcode, hmore⟩, hs', .cons hv hvs⟩

lemma call_sound {callee : String} {args : List (Lower Segment)}
    (hargs : ∀ x ∈ args, SegmentSound env x) : SegmentSound env (call env callee args) := by
  intro s seg s' values h hs hresults
  obtain ⟨⟨returnTy, params⟩, code, values', t, hfind, harity, ha, h⟩ := call_ok h
  rcases h with ⟨rfl, rfl, rfl⟩ | ⟨hret, rfl, rfl⟩
  · rw [Code.results_append, List.append_subset] at hresults
    obtain ⟨hcode, ht, hvs⟩ := arguments_sound hargs harity ha hs hresults.1
    have hcall : (Instr.call none callee .void values').Sound env values :=
      Instr.sound_call hfind hvs (Or.inl ⟨rfl, rfl⟩)
    exact ⟨by simpa using ⟨hcode, hcall⟩, ht, by simp⟩
  · rw [Code.results_append, List.append_subset] at hresults
    obtain ⟨hcode, ht, hvs⟩ := arguments_sound hargs harity ha hs hresults.1
    have hcall : (Instr.call (some (.temp t.next returnTy)) callee returnTy values').Sound env
        values := Instr.sound_call hfind hvs (Or.inr ⟨hret, t.next, rfl⟩)
    refine ⟨by simpa using ⟨hcode, hcall⟩, ht.of_eq rfl, ?_⟩
    rintro v ⟨⟩
    exact hresults.2 List.mem_cons_self

end Lower

open Lower in
/-- Expressions give sound code. -/
theorem Expr.lower_sound {env : LowerEnv} {scope : ScopeId} (e : Expr) :
    SegmentSound env (e.lower env scope) := by
  refine Expr.lower_induction (Φ := SegmentSound env) ?constant ?readVariable ?increment ?binary
    ?comparison ?booleanCast ?conditional ?assignment ?call e
  case constant =>
    intro v hv s seg s' values h hs hresults
    obtain ⟨rfl, rfl⟩ := pure_ok.mp h
    refine ⟨Code.sound_nil, hs, ?_⟩
    rintro w ⟨⟩
    cases v with
    | int | float => trivial
    | temp | slot => cases hv
  case readVariable =>
    intro name s seg s' values h hs hresults
    obtain ⟨id, ty, hl, rfl, rfl⟩ := readVariable_ok h
    obtain ⟨hslot, hty⟩ := hs.lookup hl
    have hload : (Instr.load (.temp s.next ty) (.slot id ty)
        (env.options.alignmentFor ty)).Sound env values := Instr.sound_load hty hslot
    refine ⟨by simpa using hload, hs.of_eq rfl, ?_⟩
    rintro v ⟨⟩
    exact hresults List.mem_cons_self
  case increment =>
    intro name delta before s seg s' values h hs hresults
    obtain ⟨id, ty, hl, hint, rfl, rfl⟩ := increment_ok h
    obtain ⟨hslot, hty⟩ := hs.lookup hl
    have hold : Value.Given values (.temp s.next ty) := hresults (by simp [Instr.results])
    have hnew : Value.Given values (.temp (s.next + 1) ty) := hresults (by simp [Instr.results])
    have hsum : (Instr.binary (.temp (s.next + 1) ty) .add (.temp s.next ty) (.int delta ty)).Sound
        env values := Instr.sound_binary .add hint hold rfl trivial rfl
    refine ⟨?_, hs.of_eq rfl, ?_⟩
    · simpa using ⟨Instr.sound_load hty hslot, hsum, Instr.sound_store hty hnew rfl hslot⟩
    · rintro v ⟨⟩
      cases before
      · exact hold
      · exact hnew
  case binary =>
    intro op ty left right hl hr s seg s' values h hs hresults
    obtain ⟨leftCode, lhs, rightCode, rhs, t, t', hleft, hright, rfl, hint, hlty, hrty, rfl⟩ :=
      binary_ok h
    simp only [Code.results_append, List.append_subset] at hresults
    obtain ⟨h₁, ht, hv₁, -⟩ := operandAs_sound hl hleft hs hresults.1.1
    obtain ⟨h₂, ht', hv₂, -⟩ := operandAs_sound hr hright ht hresults.1.2
    refine ⟨?_, ht'.of_eq rfl, ?_⟩
    · simpa using ⟨h₁, h₂, Instr.sound_binary op hint hv₁ hlty hv₂ hrty⟩
    · rintro v ⟨⟩
      exact hresults.2 List.mem_cons_self
  case comparison =>
    intro relation left right hl hr s seg s' values h hs hresults
    obtain ⟨leftCode, lhs, rightCode, rhs, leftConversion, lhs', rightConversion, rhs', ty, t₁, t₂,
      t₃, t₄, hleft, hright, -, hcl, hcr, rfl, hint, heq, rfl⟩ := comparison_ok h
    simp only [Code.results_append, List.append_subset] at hresults
    obtain ⟨⟨⟨⟨hr₁, hr₂⟩, hr₃⟩, hr₄⟩, hr₅⟩ := hresults
    obtain ⟨h₁, hs₁, hv₁⟩ := hl hleft hs hr₁
    obtain ⟨h₂, hs₂, hv₂⟩ := hr hright hs₁ hr₂
    obtain ⟨h₃, hs₃, hv₃, -⟩ := coerce_sound hcl hs₂ (hv₁ lhs rfl) hr₃
    obtain ⟨h₄, hs₄, hv₄, -⟩ := coerce_sound hcr hs₃ (hv₂ rhs rfl) hr₄
    refine ⟨?_, hs₄.of_eq rfl, ?_⟩
    · simpa using ⟨h₁, h₂, h₃, h₄, Instr.sound_icmp relation hint hv₃ hv₄ heq⟩
    · rintro v ⟨⟩
      exact hr₅ List.mem_cons_self
  case booleanCast =>
    intro inner hx s seg s' values h hs hresults
    obtain ⟨code, v, t, hlow, ⟨-, rfl, rfl⟩ | ⟨-, hint, rfl, rfl⟩⟩ := booleanCast_ok h
    · exact hx hlow hs hresults
    · simp only [Code.results_append, List.append_subset] at hresults
      obtain ⟨h₁, ht, hv⟩ := hx hlow hs hresults.1
      refine ⟨?_, ht.of_eq rfl, ?_⟩
      · simpa using ⟨h₁, Instr.sound_icmp .ne hint (hv v rfl) trivial rfl⟩
      · rintro w ⟨⟩
        exact hresults.2 List.mem_cons_self
  case conditional =>
    intro keepBoolean condition onTrue onFalse hc ht hf
    exact conditional_sound hc ht hf
  case assignment =>
    intro target value hx s seg s' values h hs hresults
    obtain ⟨id, ty, code, v, hl, hty, hv, hvty, rfl⟩ := assignment_ok h
    obtain ⟨hslot, -⟩ := hs.lookup hl
    rw [Code.results_append, List.append_subset] at hresults
    obtain ⟨h₁, hs', hgiven, -⟩ := operandAs_sound hx hv hs hresults.1
    refine ⟨by simpa using ⟨h₁, Instr.sound_store hty hgiven hvty hslot⟩, hs', ?_⟩
    rintro w ⟨⟩
    exact hgiven
  case call =>
    intro callee args hargs
    exact call_sound hargs

namespace Lower

variable {s s' : LowerState} {env : LowerEnv} {scope : ScopeId} {ctx : Context} {code : Code}
  {values : List Value}

/-- Whether a lowering of a statement gives sound code and only slots that can be used. -/
def CodeSound (env : LowerEnv) (x : Lower Code) : Prop :=
  ∀ ⦃s code s' values⦄, x s = .ok code s' → s.scopes.Within values → Code.results code ⊆ values →
    Code.Sound env values code ∧ s'.scopes.Within values

/-- A declared variable stands for the slot that is allocated for it. -/
lemma declare_within {name : String} {ty : Ty} {scopes : Scopes} (hs : s.scopes.Within values)
    (h : s.drawn.scopes.declare scope name (.slot s.next ty) = .ok scopes)
    (hslot : .slot s.next ty ∈ values) (hty : ty ≠ .void) : scopes.Within values := by
  have hdrawn : s.drawn.scopes.Within values := hs.of_eq rfl
  exact hdrawn.declare h hslot hty

lemma declarator_sound {d : Declarator} : CodeSound env (declarator env scope d) := by
  intro s code s' values h hs hresults
  obtain ⟨hty, scopes, hdeclare, h⟩ := declarator_ok h
  rcases h with ⟨-, rfl, rfl⟩ | ⟨e, init, v, -, hv, hvty, rfl⟩
  · have hslot : Value.slot s.next d.ty ∈ values := hresults List.mem_cons_self
    exact ⟨by simpa using Instr.sound_alloca hty, declare_within hs hdeclare hslot hty⟩
  · simp only [Code.results_append, Code.results_cons, List.append_subset] at hresults
    have hslot : Value.slot s.next d.ty ∈ values := hresults.1.1 List.mem_cons_self
    have hs₁ : scopes.Within values := declare_within hs hdeclare hslot hty
    obtain ⟨h₁, hs', hgiven, -⟩ := operandAs_sound e.lower_sound hv hs₁ hresults.1.2
    refine ⟨?_, hs'⟩
    simpa using ⟨Instr.sound_alloca hty, h₁, Instr.sound_store hty hgiven hvty hslot⟩

lemma declaration_sound (ds : List Declarator) : CodeSound env (declaration env scope ds) := by
  induction ds with
  | nil =>
    intro s code s' values h hs hresults
    obtain ⟨rfl, rfl⟩ := pure_ok.mp h
    exact ⟨Code.sound_nil, hs⟩
  | cons d rest ih =>
    intro s code s' values h hs hresults
    obtain ⟨first, more, t, hd, hrest, rfl⟩ := declaration_cons_ok h
    rw [Code.results_append, List.append_subset] at hresults
    obtain ⟨h₁, ht⟩ := declarator_sound hd hs hresults.1
    obtain ⟨h₂, hs'⟩ := ih hrest ht hresults.2
    exact ⟨Code.sound_append.mpr ⟨h₁, h₂⟩, hs'⟩

lemma branchOn_sound {condition : Lower Segment} (hcond : SegmentSound env condition)
    (onTrue onFalse : Label) : CodeSound env (branchOn condition onTrue onFalse) := by
  intro s code s' values h hs hresults
  obtain ⟨test, v, hv, hvty, rfl⟩ := branchOn_ok h
  rw [Code.results_append, List.append_subset] at hresults
  obtain ⟨h₁, hs', hgiven, -⟩ := operandAs_sound hcond hv hs hresults.1
  exact ⟨by simpa using ⟨h₁, Instr.sound_branch hgiven hvty onTrue onFalse⟩, hs'⟩

lemma ifElse_none_sound {condition : Lower Segment} (hcond : SegmentSound env condition)
    {onTrue : Lower Code} (htrue : CodeSound env onTrue) :
    CodeSound env (ifElse env condition onTrue none) := by
  intro s code s' values h hs hresults
  obtain ⟨test, trueCode, jump, t, t₁, log, n, -, htest, -, ht, -, hj, rfl, rfl⟩ := ifElse_none_ok h
  simp only [Code.results_append, Code.results_cons, Instr.results, List.append_subset] at hresults
  obtain ⟨⟨⟨htestCode, -, htrueCode⟩, -⟩, -⟩ := hresults
  obtain ⟨h₁, hst⟩ := branchOn_sound hcond _ _ htest (hs.of_eq rfl) htestCode
  obtain ⟨h₂, hst₁⟩ := htrue ht (hst.of_eq rfl) htrueCode
  have h₃ : Code.Sound env values jump := hj ▸ optionalJump_sound
  exact ⟨by simpa using ⟨h₁, h₂, h₃⟩, hst₁.of_eq rfl⟩

lemma ifElse_some_sound {condition : Lower Segment} (hcond : SegmentSound env condition)
    {onTrue onFalse : Lower Code} (htrue : CodeSound env onTrue) (hfalse : CodeSound env onFalse) :
    CodeSound env (ifElse env condition onTrue (some onFalse)) := by
  intro s code s' values h hs hresults
  obtain ⟨test, trueCode, trueJump, falseCode, falseJump, t, t₁, t₂, log₁, log₂, n, m, -, htest, -,
    ht, -, -, hf, -, hj₁, hj₂, rfl, rfl⟩ := ifElse_some_ok h
  simp only [Code.results_append, Code.results_cons, Instr.results, List.append_subset] at hresults
  obtain ⟨⟨⟨⟨⟨htestCode, -, htrueCode⟩, -⟩, -, hfalseCode⟩, -⟩, -⟩ := hresults
  obtain ⟨h₁, hst⟩ := branchOn_sound hcond _ _ htest (hs.of_eq rfl) htestCode
  obtain ⟨h₂, hst₁⟩ := htrue ht (hst.of_eq rfl) htrueCode
  obtain ⟨h₃, hst₂⟩ := hfalse hf (hst₁.of_eq rfl) hfalseCode
  have h₄ : Code.Sound env values trueJump := hj₁ ▸ optionalJump_sound
  have h₅ : Code.Sound env values falseJump := hj₂ ▸ optionalJump_sound
  exact ⟨by simpa using ⟨h₁, h₂, h₄, h₃, h₅⟩, hst₂.of_eq rfl⟩

lemma whileLoop_sound {condition : Lower Segment} (hcond : SegmentSound env condition)
    {body : Context → Lower Code} (hbody : ∀ ctx, CodeSound env (body ctx)) :
    CodeSound env (whileLoop env ctx condition body) := by
  intro s code s' values h hs hresults
  obtain ⟨test, bodyCode, back, t, t₁, log₀, log, n, -, htest, -, hb, -, hback, rfl, rfl⟩ :=
    whileLoop_ok h
  simp only [Code.results_append, Code.results_cons, Instr.results, List.append_subset] at hresults
  obtain ⟨⟨⟨⟨-, -, htestCode⟩, -, hbodyCode⟩, -⟩, -⟩ := hresults
  obtain ⟨h₁, hst⟩ := branchOn_sound hcond _ _ htest (hs.of_eq rfl) htestCode
  obtain ⟨h₂, hst₁⟩ := hbody _ hb (hst.of_eq rfl) hbodyCode
  have h₃ : Code.Sound env values back := hback ▸ optionalJump_sound
  exact ⟨by simpa using ⟨h₁, h₂, h₃⟩, hst₁.of_eq rfl⟩

lemma openBlockAfter_sound {opened : Code} (h : openBlockAfter code s = .ok opened s') :
    Code.Sound env values opened := by
  rcases openBlockAfter_ok h with ⟨-, rfl, -⟩ | ⟨-, rfl, -⟩ <;> simp

lemma stepAfter_sound {step : Option (Lower Segment)} (hstep : ∀ x ∈ step, SegmentSound env x)
    {code' : Code} (h : stepAfter code step s = .ok code' s') :
    ∃ added, code' = code ++ added ∧ ∀ ⦃values⦄, s.scopes.Within values →
      Code.results added ⊆ values → Code.Sound env values added ∧ s'.scopes.Within values := by
  rcases stepAfter_ok h with ⟨-, rfl, rfl⟩ | ⟨x, opened, seg, t, rfl, ho, hx, rfl⟩
  · exact ⟨[], (List.append_nil _).symm, fun _ hs _ => ⟨Code.sound_nil, hs⟩⟩
  · refine ⟨opened ++ seg.instructions, List.append_assoc .., ?_⟩
    intro values hs hresults
    rw [Code.results_append, List.append_subset] at hresults
    obtain ⟨h₁, hs', -⟩ := hstep x rfl hx (hs.of_eq (openBlockAfter_keeps ho)) hresults.2
    exact ⟨Code.sound_append.mpr ⟨openBlockAfter_sound ho, h₁⟩, hs'⟩

lemma initial_sound {init : Option (Context → Lower Code)}
    (hinit : ∀ x ∈ init, CodeSound env (x ctx)) : CodeSound env (initial init ctx) := by
  intro s code s' values h hs hresults
  rcases initial_ok h with ⟨-, rfl, rfl⟩ | ⟨x, rfl, hx⟩
  · exact ⟨Code.sound_nil, hs⟩
  · exact hinit x rfl hx hs hresults

lemma loopTest_sound {before : Code} {condition : Option (Lower Segment)}
    (hcond : ∀ x ∈ condition, SegmentSound env x) {bodyLabel exitLabel : Label} :
    CodeSound env (loopTest env before condition bodyLabel exitLabel) := by
  intro s code s' values h hs hresults
  rcases loopTest_ok h with ⟨-, ⟨log, rfl⟩, rfl⟩ | ⟨c, rfl, hc⟩
  · exact ⟨optionalJump_sound, hs.of_eq rfl⟩
  · exact branchOn_sound (hcond c rfl) _ _ hc hs hresults

lemma forLoop_sound {init : Option (Context → Lower Code)}
    (hinit : ∀ x ∈ init, ∀ ctx, CodeSound env (x ctx))
    {condition step : Option (ScopeId → Lower Segment)}
    (hcond : ∀ x ∈ condition, ∀ scope, SegmentSound env (x scope))
    (hstep : ∀ x ∈ step, ∀ scope, SegmentSound env (x scope))
    {body : Context → Lower Code} (hbody : ∀ ctx, CodeSound env (body ctx)) :
    CodeSound env (forLoop env ctx init condition step body) := by
  intro s code s' values h hs hresults
  obtain ⟨initCode, entering, test, bodyCode, stepped, back, t₀, t, t₁, t₂, log₀, log, n, scope,
    -, hi, -, hentering, htest, -, hb, hst, -, hback, rfl, rfl⟩ := forLoop_ok h
  obtain ⟨added, rfl, hadded⟩ := stepAfter_sound
    (Option.forall_mem_map.mpr fun x hx => hstep x hx _) hst
  simp only [Code.results_append, Code.results_cons, Instr.results, List.append_subset] at hresults
  obtain ⟨⟨⟨⟨⟨⟨⟨hinitCode, -⟩, -⟩, htestCode⟩, -, hbodyCode⟩, haddedCode⟩, -⟩, -⟩ := hresults
  obtain ⟨h₁, hst₀⟩ := initial_sound (fun x hx => hinit x hx _) hi (hs.openChild _) hinitCode
  obtain ⟨h₂, hst⟩ := loopTest_sound (Option.forall_mem_map.mpr fun x hx => hcond x hx _) htest
    (hst₀.of_eq rfl) htestCode
  obtain ⟨h₃, hst₁⟩ := hbody _ hb (hst.of_eq rfl) hbodyCode
  obtain ⟨h₄, hst₂⟩ := hadded hst₁ haddedCode
  have h₅ : Code.Sound env values entering := hentering ▸ optionalJump_sound
  have h₆ : Code.Sound env values back := hback ▸ optionalJump_sound
  exact ⟨by simpa using ⟨h₁, h₅, h₂, h₃, h₄, h₆⟩, hst₂.of_eq rfl⟩

lemma ret_sound {value : Option (Lower Segment)} (hvalue : ∀ x ∈ value, SegmentSound env x) :
    CodeSound env (ret env value) := by
  intro s code s' values h hs hresults
  rcases ret_ok h with ⟨-, hret, rfl, rfl⟩ | ⟨x, first, v, conversion, w, t, rfl, hret, hx, hc, rfl⟩
  · exact ⟨by simpa using Instr.sound_ret_none hret, hs⟩
  · simp only [Code.results_append, List.append_subset] at hresults
    obtain ⟨h₁, ht, hv⟩ := hvalue x rfl hx hs hresults.1.1
    obtain ⟨h₂, hs', hw, hwty⟩ := coerce_sound hc ht (hv v rfl) hresults.1.2
    exact ⟨by simpa using ⟨h₁, h₂, Instr.sound_ret hw hwty hret⟩, hs'⟩

lemma leave_sound {target : Option Label} {outside : LoweringError} :
    CodeSound env (leave target outside) := by
  intro s code s' values h hs hresults
  obtain ⟨l, -, rfl, rfl⟩ := leave_ok h
  exact ⟨by simp, hs⟩

end Lower

namespace Stmt

open Lower

variable {env : LowerEnv}

lemma lowerAll_sound {body : List Stmt} {ctx : Context}
    (hbody : ∀ x ∈ body, CodeSound env (x.lower env ctx)) {before code : Code} {s s' : LowerState}
    (h : lowerAll env body ctx before s = .ok code s') :
    ∃ added, code = before ++ added ∧ ∀ ⦃values⦄, s.scopes.Within values →
      Code.results added ⊆ values → Code.Sound env values added ∧ s'.scopes.Within values := by
  induction body generalizing before s with
  | nil =>
    obtain ⟨rfl, rfl⟩ := lowerAll_nil_ok h
    exact ⟨[], (List.append_nil _).symm, fun _ hs _ => ⟨Code.sound_nil, hs⟩⟩
  | cons x rest ih =>
    obtain ⟨opened, added, t, t', ho, hx, hrest⟩ := lowerAll_cons_ok h
    obtain ⟨more, rfl, hmore⟩ := ih (fun y hy => hbody y (List.mem_cons_of_mem x hy)) hrest
    refine ⟨opened ++ added ++ more, by simp, ?_⟩
    intro values hs hresults
    simp only [Code.results_append, List.append_subset] at hresults
    obtain ⟨h₁, ht'⟩ := hbody x List.mem_cons_self hx (hs.of_eq (openBlockAfter_keeps ho))
      hresults.1.2
    obtain ⟨h₂, hs'⟩ := hmore ht' hresults.2
    exact ⟨by simpa using ⟨openBlockAfter_sound ho, h₁, h₂⟩, hs'⟩

/-- Statements give sound code. -/
theorem lower_sound (x : Stmt) : ∀ ctx, CodeSound env (x.lower env ctx) := by
  have hpart : ∀ (part : Option Expr), ∀ x ∈ part.map (fun e scope => e.lower env scope),
      ∀ scope, SegmentSound env (x scope) := fun part =>
    Option.forall_mem_map.mpr fun e _ scope => e.lower_sound
  induction x using Stmt.induction with
  | expression e =>
    intro ctx s code s' values h hs hresults
    obtain ⟨seg, he, rfl⟩ := lower_expression_ok h
    obtain ⟨hcode, hs', -⟩ := e.lower_sound he hs hresults
    exact ⟨hcode, hs'⟩
  | declaration ds =>
    intro ctx
    exact declaration_sound ds
  | compound body hbody =>
    intro ctx s code s' values h hs hresults
    obtain ⟨added, rfl, hadded⟩ := lowerAll_sound (fun x hx => hbody x hx _)
      (lower_compound_ok h)
    exact hadded (hs.openChild _) hresults
  | ifElse condition onTrue onFalse htrue hfalse =>
    intro ctx
    cases onFalse with
    | none => exact ifElse_none_sound condition.lower_sound (htrue ctx)
    | some onFalse =>
      exact ifElse_some_sound condition.lower_sound (htrue ctx) (hfalse onFalse rfl ctx)
  | whileLoop condition body hbody =>
    intro ctx
    exact whileLoop_sound condition.lower_sound hbody
  | forLoop init condition step body hinit hbody =>
    intro ctx
    cases init with
    | none =>
      rw [lower]
      exact forLoop_sound (by simp) (hpart condition) (hpart step) hbody
    | some init =>
      rw [lower]
      refine forLoop_sound ?_ (hpart condition) (hpart step) hbody
      rintro x ⟨⟩
      exact hinit init rfl
  | ret value =>
    intro ctx
    exact ret_sound (Option.forall_mem_map.mpr fun e _ => e.lower_sound)
  | brk | cont =>
    intro ctx
    exact leave_sound

end Stmt

lemma Instr.Sound.relabel {env : LowerEnv} {values : List Value} {i : Instr} (f : Label → Label)
    (h : i.Sound env values) : (i.relabel f).Sound env values :=
  ⟨h.1.relabel f, by simpa using h.2⟩

lemma Lower.paramSlots_sound {env : LowerEnv} {pairs : List (Param × Value)} {s s' : LowerState}
    {code : Code} {values : List Value} (h : paramSlots env pairs s = .ok code s')
    (hpairs : ∀ pair ∈ pairs, pair.2.Given values) (hs : s.scopes.Within values)
    (hresults : Code.results code ⊆ values) :
    Code.Sound env values code ∧ s'.scopes.Within values := by
  induction pairs generalizing s code with
  | nil =>
    obtain ⟨rfl, rfl⟩ := pure_ok.mp h
    exact ⟨Code.sound_nil, hs⟩
  | cons pair rest ih =>
    obtain ⟨hty, harg, scopes, more, hdeclare, hrest, rfl⟩ := paramSlots_cons_ok h
    rw [Code.results_cons, Code.results_cons, List.append_subset, List.append_subset] at hresults
    have hslot : Value.slot s.next pair.1.ty ∈ values := hresults.1 List.mem_cons_self
    have hgiven := hpairs pair List.mem_cons_self
    obtain ⟨hmore, hs'⟩ := ih hrest (fun x hx => hpairs x (List.mem_cons_of_mem pair hx))
      (declare_within hs hdeclare hslot hty) hresults.2.2
    exact ⟨by simpa using ⟨Instr.sound_alloca hty, Instr.sound_store hty hgiven harg hslot, hmore⟩,
      hs'⟩

/-- All code of a function is sound for the values that the function defines. -/
theorem Definition.Lowered.sound {d : Definition} {env : LowerEnv} {seg : Segment}
    (w : d.Lowered env seg) (hret : env.returnTy = d.returnTy)
    (hparams : ∀ v ∈ env.params, ∃ n ty, v = .temp n ty) :
    Code.Sound env (Code.results seg.instructions) seg.instructions := by
  have hresults : Code.results seg.instructions =
      Code.results (d.wholeCode env w.paramCode w.body) := by
    rw [w.code, Code.results_relabel]
  have hending : ∀ code, Code.Sound env (Code.results seg.instructions)
      (Lower.ending env.returnTy code) := by
    intro code
    rw [Lower.ending]
    split
    · rename_i hvoid
      simpa using Instr.sound_ret_none hvoid.2
    · exact Code.sound_nil
  have hsubset := List.Subset.refl (Code.results seg.instructions)
  nth_rewrite 1 [hresults] at hsubset
  simp only [wholeCode, frame, Code.results_append, Code.results_cons,
    List.append_subset] at hsubset
  obtain ⟨⟨⟨⟨hfunction, -, hparamCode⟩, hbody⟩, -⟩, -⟩ := hsubset
  have hgiven : ∀ v ∈ env.params, v.Given (Code.results seg.instructions) := by
    intro v hv
    obtain ⟨n, ty, rfl⟩ := hparams v hv
    exact hfunction hv
  have hbegin : (Instr.functionBegin d.name d.returnTy env.params).Sound env
      (Code.results seg.instructions) :=
    ⟨⟨hret.symm, hparams⟩, by simp [Instr.used, Instr.operands, Instr.incoming]⟩
  have hend : Instr.functionEnd.Sound env (Code.results seg.instructions) :=
    ⟨trivial, by simp [Instr.used, Instr.operands, Instr.incoming]⟩
  have hstart : env.start.scopes.Within (Code.results seg.instructions) := by
    intro scope hscope b hb
    rw [List.mem_singleton.mp hscope] at hb
    cases hb
  obtain ⟨h₁, hdeclared⟩ := Lower.paramSlots_sound w.params_ok
    (fun pair hpair => hgiven pair.2 (List.of_mem_zip hpair).2) hstart hparamCode
  obtain ⟨added, hadded, hsound⟩ := Stmt.lowerAll_sound (fun x _ => x.lower_sound _) w.body_ok
  rw [List.nil_append] at hadded
  obtain ⟨h₂, -⟩ := hsound (hdeclared.openChild _) (hadded ▸ hbody)
  have hwhole : Code.Sound env (Code.results seg.instructions)
      (d.wholeCode env w.paramCode w.body) := by
    simp only [wholeCode, frame, Code.sound_append, Code.sound_cons, Code.sound_nil,
      Instr.sound_label, true_and, and_true]
    exact ⟨⟨⟨⟨hbegin, h₁⟩, hadded ▸ h₂⟩, hending _⟩, hend⟩
  intro i hi
  rw [w.code] at hi
  obtain ⟨j, hj, rfl⟩ := List.mem_map.mp hi
  exact (hwhole j hj).relabel _

lemma LowerEnv.params_temps (functions : FunctionTable) (options : Options) (s : Signature) :
    ∀ v ∈ (ofSignature functions options s).params, ∃ n ty, v = .temp n ty := by
  intro v hv
  obtain ⟨p, -, rfl⟩ := List.mem_map.mp hv
  exact ⟨p.2, p.1, rfl⟩

/-- The code of a function is well typed. The function itself is in the table that its calls are
checked against, every instruction obeys its typing rule, and whatever it reads is a literal or
is defined once in the code of the function, with the type it is read with. -/
theorem Compiler.lowerDefinition_typed {c : Compiler} {d : Definition} {seg : Segment}
    (h : (c.lowerDefinition d).result = .ok seg) :
    (c.lowerDefinition d).compiler.functions.find? d.name = some d.signature ∧
      ∀ i ∈ seg.instructions,
        i.Typed (c.lowerDefinition d).compiler.functions c.options d.returnTy ∧
          ∀ v ∈ i.used, v.isLiteral = true ∨ Code.DefinesOnce seg.instructions v := by
  obtain ⟨functions, s', hregister, hfunctions, -, -⟩ := lowerDefinition_ok h
  have hfind : functions.find? d.name = some d.signature := by
    rw [FunctionTable.register] at hregister
    split at hregister
    · cases hregister
    · cases hregister
      simp [FunctionTable.find?]
  obtain ⟨env, rfl, w, -⟩ := lowerDefinition_lowered h
  obtain ⟨count, hdense⟩ := w.definitions_eq (LowerEnv.definitions_params _ _ _)
  have hsound := w.sound rfl (LowerEnv.params_temps _ _ _)
  refine ⟨hfunctions ▸ hfind, fun i hi => ⟨(hsound i hi).1, ?_⟩⟩
  intro v hv
  refine ((hsound i hi).2 v hv).imp_right fun hmem => ?_
  obtain ⟨j, hj, hvj⟩ := List.mem_flatMap.mp hmem
  exact Code.definesOnce_of_mem hdense hj hvj ((hsound j hj).1.isSlot_iff hvj)

theorem sumUpTo_well_typed : ∃ seg,
    (Compiler.lowerDefinition {} Definition.sumUpTo).result = .ok seg ∧
      ((Compiler.lowerDefinition {} Definition.sumUpTo).compiler.functions.find? "sum" =
          some ⟨.i32, [.i32]⟩ ∧
        ∀ i ∈ seg.instructions,
          i.Typed (Compiler.lowerDefinition {} Definition.sumUpTo).compiler.functions {} .i32 ∧
            ∀ v ∈ i.used, v.isLiteral = true ∨ Code.DefinesOnce seg.instructions v) := by
  obtain ⟨seg, h⟩ := Definition.sumUpTo_accepted
  exact ⟨seg, h, Compiler.lowerDefinition_typed h⟩

end MiniC
