import MiniC.Proofs.LexicalScopes
import MiniC.Proofs.OperandChecks

/-!
# Steps that fail

A caller of the steps of lowering may go on after one of them failed, so it matters what a failed step
leaves behind. Most of them check before they change anything: at most a number was drawn that nothing
will use. Declaring a variable is the exception. It binds the name first and asks for the slot
afterwards, which fails if the type holds nothing, and then the name stays bound to a slot that was
never made. As long as no such variable is declared, every name stands for a slot that the code
allocates, whatever else failed on the way.
-/

namespace MiniC

/-- Only a type that holds nothing has no slots. -/
lemma Instr.mkAlloca_error {id : Nat} {ty : Ty} {align : Nat} {e : LoweringError} :
    mkAlloca (.slot id ty) align = .error e ↔ ty = .void ∧ .unsupportedType .void "alloca" = e := by
  rw [mkAlloca, except_bind_error]
  cases ty <;> simp [expectSlot, Ty.size?, pure, Except.pure]

namespace Scopes

variable {s : Scopes} {id : ScopeId} {name : String} {slot : Value}

/-- Lookups start in the scope itself. -/
lemma lookup_of_binding? (h : s.binding? id name = some slot) : s.lookup id name = .ok slot := by
  have hchain : ∃ rest, s.chain id = id :: rest := by
    rw [chain, chainFrom]
    cases s.parent? id with
    | none => exact ⟨[], rfl⟩
    | some parent => exact ⟨_, rfl⟩
  obtain ⟨rest, hchain⟩ := hchain
  rw [lookup, hchain, List.findSome?_cons, h]

lemma afterDeclare_next : (s.afterDeclare id name slot).nextNumber = s.nextNumber := by
  rw [afterDeclare]
  cases h : s.declare id name slot with
  | ok s' => exact declare_next h
  | error e => rfl

/-- A free name means what it was declared as. -/
lemma lookup_afterDeclare (hid : id < s.scopes.length) (hfree : s.binding? id name = none) :
    (s.afterDeclare id name slot).lookup id name = .ok slot := by
  cases h : s.declare id name slot with
  | ok s' =>
    refine lookup_of_binding? ?_
    rw [afterDeclare, h, declare_binding? h hid, if_pos ⟨rfl, rfl⟩]
  | error e =>
    have hbound := (declare_error_iff.mp h).2
    rw [hfree] at hbound
    cases hbound

end Scopes

namespace Lower

variable {α β : Type} {s s' : LowerState} {env : LowerEnv} {e : CompileError}

lemma pure_error {a : α} : (pure a : Lower α) s = .error e s' ↔ False := by
  change EStateM.Result.ok a s = .error e s' ↔ _
  simp

lemma throw_error {e' : CompileError} :
    (throw e' : Lower α) s = .error e s' ↔ e' = e ∧ s = s' := by
  change EStateM.Result.error e' s = .error e s' ↔ _
  simp

/-- A sequence of two steps fails in the first one or, after that one succeeded, in the second. -/
lemma bind_error {x : Lower α} {f : α → Lower β} :
    (x >>= f) s = .error e s' ↔
      x s = .error e s' ∨ ∃ a t, x s = .ok a t ∧ f a t = .error e s' := by
  rw [bind_run]
  cases x s <;> simp

lemma map_error {f : α → β} {x : Lower α} :
    (f <$> x) s = .error e s' ↔ x s = .error e s' := by
  change EStateM.map f x s = .error e s' ↔ _
  rw [EStateM.map]
  cases x s <;> simp

lemma map_ok {f : α → β} {x : Lower α} {b : β} :
    (f <$> x) s = .ok b s' ↔ ∃ a, x s = .ok a s' ∧ f a = b := by
  change EStateM.map f x s = .ok b s' ↔ _
  rw [EStateM.map]
  cases x s <;> simp [and_comm]

lemma ofLowering_error {x : Except LoweringError α} :
    ofLowering x s = .error e s' ↔ ∃ cause, x = .error cause ∧ .lowering cause = e ∧ s = s' := by
  cases x with
  | ok a => simp [ofLowering, pure_error]
  | error cause => simp [ofLowering, throw_error]

lemma ofScope_error {x : Except ScopeError α} :
    ofScope x s = .error e s' ↔ ∃ cause, x = .error cause ∧ .scope cause = e ∧ s = s' := by
  cases x with
  | ok a => simp [ofScope, pure_error]
  | error cause => simp [ofScope, throw_error]

lemma get_error : (get : Lower LowerState) s = .error e s' ↔ False := by
  change EStateM.Result.ok s s = .error e s' ↔ _
  simp

lemma modify_error {f : LowerState → LowerState} :
    (modify f : Lower Unit) s = .error e s' ↔ False := by
  change EStateM.Result.ok () (f s) = .error e s' ↔ _
  simp

lemma emit_error {event : Event} : emit event s = .error e s' ↔ False := modify_error

lemma freshNumber_error : freshNumber s = .error e s' ↔ False := by
  change EStateM.Result.ok s.next s.drawn = .error e s' ↔ _
  simp

lemma newTemp_error {ty : Ty} : newTemp ty s = .error e s' ↔ False := by
  change EStateM.Result.ok (Value.temp s.next ty) s.drawn = .error e s' ↔ _
  simp

lemma newSlot_error {ty : Ty} : newSlot ty s = .error e s' ↔ False := by
  change EStateM.Result.ok (Value.slot s.next ty) s.drawn = .error e s' ↔ _
  simp

lemma newLabel_error : newLabel s = .error e s' ↔ False := by
  change EStateM.Result.ok (Label.pending s.labels.size) s.allocated = .error e s' ↔ _
  simp

/-- The number of a load is drawn before its slot is checked. -/
lemma load_error {slot : Value} (h : load env slot s = .error e s') : s' = s.drawn := by
  simp only [load, bind_error, newTemp_error, newTemp_ok, ofLowering_error, pure_error, and_false,
    exists_false, or_false, false_or] at h
  obtain ⟨v, t, ⟨-, rfl⟩, cause, -, -, rfl⟩ := h
  rfl

lemma store_error {value slot : Value} (h : store env value slot s = .error e s') : s' = s := by
  simp only [store, bind_error, ofLowering_error, pure_error, and_false, exists_false,
    or_false] at h
  obtain ⟨cause, -, -, rfl⟩ := h
  rfl

/-- The name of a label is drawn before the table is asked whether the label can have it. -/
lemma placeLabel_error {l : Label} (h : placeLabel l s = .error e s') : s' = s.drawn := by
  simp only [placeLabel, bind_error, freshNumber_error, freshNumber_ok, get_error, get_ok,
    ofLowering_error, modify_error, pure_error, and_false, exists_false, or_false, false_or] at h
  obtain ⟨name, t, ⟨-, rfl⟩, u, t', ⟨rfl, rfl⟩, cause, -, -, rfl⟩ := h
  rfl

/-- A label that was just allocated can be placed. -/
lemma openBlockAfter_error {code : Code} : openBlockAfter code s = .error e s' ↔ False := by
  refine iff_of_false (fun h => ?_) id
  rw [openBlockAfter] at h
  split at h
  · simp only [bind_error, emit_error, emit_ok, newLabel_error, newLabel_ok, pure_error, and_false,
      exists_false, or_false, false_or] at h
    obtain ⟨u, t, rfl, l, t', ⟨rfl, rfl⟩, hplace⟩ := h
    have hpending : (s.logged (.unreachable :: s.log)).allocated.labels.names[s.labels.size]? =
        some none := by
      simp [LowerState.allocated, LabelTable.allocate, LabelTable.size]
    have hplaced := placeLabel_ok.mpr ⟨⟨_, rfl, hpending⟩, rfl, rfl⟩
    cases hplaced.symm.trans hplace
  · exact pure_error.mp h

/-- A literal is checked without a number, and extending a computed boolean never fails. -/
lemma coerce_error {value : Value} {target : Ty} {context : String}
    (h : coerce value target context s = .error e s') : s' = s := by
  rw [coerce] at h
  split at h
  · exact (pure_error.mp h).elim
  · split at h
    · simp only [bind_error, ofLowering_error, pure_error, and_false, exists_false, or_false] at h
      obtain ⟨cause, -, -, rfl⟩ := h
      rfl
    · next hty _ =>
      split at h
      · next hext =>
        simp only [bind_error, newTemp_error, newTemp_ok, ofLowering_error, pure_error, and_false,
          exists_false, or_false, false_or] at h
        obtain ⟨v, t, ⟨rfl, rfl⟩, cause, hzext, -, -⟩ := h
        have hne : target ≠ .bool := fun hbool => hty (hext.1.trans hbool.symm)
        have hpasses : Instr.mkZext (.temp s.next target) value =
            .ok (.zext (.temp s.next target) value) := Instr.mkZext_of_bool hext.1 hext.2 hne
        cases hpasses.symm.trans hzext
      · exact (throw_error.mp h).2.symm

/-- A declaration fails because of its name, before it changed anything, or because of its type, with
the name already bound. -/
lemma declareSlot_error {scope : ScopeId} {name : String} {ty : Ty}
    (h : declareSlot env scope name ty s = .error e s') :
    ((s.scopes.binding? scope name).isSome ∧ e = .scope (.redeclared name) ∧ s' = s.drawn) ∨
      s.scopes.binding? scope name = none ∧ ty = .void ∧
        e = .lowering (.unsupportedType .void "alloca") ∧
        s' = { s with scopes := s.drawn.scopes.afterDeclare scope name (.slot s.next .void) } := by
  simp only [declareSlot, bind_error, newSlot_error, newSlot_ok, get_error, get_ok, ofScope_error,
    ofScope_ok, modify_error, modify_ok, ofLowering_error, pure_error, and_false, exists_false,
    or_false, false_or] at h
  obtain ⟨v, t, ⟨rfl, rfl⟩, u, t', ⟨rfl, rfl⟩, h⟩ := h
  rcases h with ⟨cause, hdeclare, rfl, rfl⟩ |
    ⟨scopes, t'', ⟨hdeclare, rfl⟩, _, _, rfl, cause, halloca, rfl, rfl⟩
  · obtain ⟨rfl, hbound⟩ := Scopes.declare_error_iff.mp hdeclare
    exact .inl ⟨hbound, rfl, rfl⟩
  · have hfree : s.scopes.binding? scope name = none := by
      by_contra hne
      have hbound : (s.drawn.scopes.binding? scope name).isSome := Option.isSome_iff_ne_none.mpr hne
      cases hdeclare.symm.trans (Scopes.declare_error_iff.mpr ⟨rfl, hbound⟩)
    obtain ⟨rfl, rfl⟩ := Instr.mkAlloca_error.mp halloca
    refine .inr ⟨hfree, rfl, rfl, ?_⟩
    rw [Scopes.afterDeclare, hdeclare]
    rfl

end Lower

/-- A function under construction: the state of its lowering and the segment that is being filled. -/
structure Assembly where
  state : LowerState
  segment : Segment := {}

namespace Assembly

/-- What can be asked of a function under construction. -/
inductive Request where
  | load (slot : Value)
  | store (value slot : Value)
  | declareSlot (scope : ScopeId) (name : String) (ty : Ty)
  | placeLabel (l : Label)
  | openBlock
  | coerce (value : Value) (target : Ty) (context : String)
  deriving DecidableEq

/-- The step that a request takes behind `code`: what it adds, and the value that it gives. -/
def Request.step (env : LowerEnv) (code : Code) : Request → Lower (Code × Option Value)
  | .load slot => Prod.map id some <$> Lower.load env slot
  | .store value slot => (·, none) <$> Lower.store env value slot
  | .declareSlot scope name ty => Prod.map id some <$> Lower.declareSlot env scope name ty
  | .placeLabel l => ([·], none) <$> Lower.placeLabel l
  | .openBlock => (·, none) <$> Lower.openBlockAfter code
  | .coerce value target context => Prod.map id some <$> Lower.coerce value target context

/-- The function after a request, and the value that the request gives or the error with which it
failed. -/
def serve (env : LowerEnv) (a : Assembly) (r : Request) :
    Assembly × Except CompileError (Option Value) :=
  match r.step env a.segment.instructions a.state with
  | .ok (added, v) state =>
    (⟨state, { a.segment with instructions := a.segment.instructions ++ added }⟩, .ok v)
  | .error e state => (⟨state, a.segment⟩, .error e)

/-- Whether a request is to declare a variable of type `void`, under a name that is still free. -/
def Request.DeclaresVoid (s : Scopes) : Request → Prop
  | .declareSlot scope name ty => ty = .void ∧ s.binding? scope name = none
  | _ => False

variable {env : LowerEnv} {a : Assembly} {r : Request} {s s' : LowerState} {e : CompileError}
  {code : Code}

/-- A step fails in one of two ways: it drew at most a number, or it was to declare a variable of type
`void` and bound its name. -/
lemma Request.step_error (h : r.step env code s = .error e s') :
    r ≠ .openBlock ∧
      ((¬ r.DeclaresVoid s.scopes ∧ (s' = s ∨ s' = s.drawn)) ∨
        ∃ scope name, r = .declareSlot scope name .void ∧ s.scopes.binding? scope name = none ∧
          e = .lowering (.unsupportedType .void "alloca") ∧
          s' = { s with scopes := s.drawn.scopes.afterDeclare scope name (.slot s.next .void) }) := by
  cases r with
  | load slot => exact ⟨nofun, .inl ⟨id, .inr (Lower.load_error (Lower.map_error.mp h))⟩⟩
  | store value slot => exact ⟨nofun, .inl ⟨id, .inl (Lower.store_error (Lower.map_error.mp h))⟩⟩
  | placeLabel l => exact ⟨nofun, .inl ⟨id, .inr (Lower.placeLabel_error (Lower.map_error.mp h))⟩⟩
  | openBlock => exact (Lower.openBlockAfter_error.mp (Lower.map_error.mp h)).elim
  | coerce value target context =>
    exact ⟨nofun, .inl ⟨id, .inl (Lower.coerce_error (Lower.map_error.mp h))⟩⟩
  | declareSlot scope name ty =>
    refine ⟨nofun, ?_⟩
    rcases Lower.declareSlot_error (Lower.map_error.mp h) with
      ⟨hbound, -, hs'⟩ | ⟨hfree, rfl, he, hs'⟩
    · refine .inl ⟨fun hvoid => ?_, .inr hs'⟩
      exact Option.isSome_iff_ne_none.mp hbound hvoid.2
    · exact .inr ⟨scope, name, rfl, hfree, he, hs'⟩

/-- A step that succeeds leaves the scopes as they are, unless it declares a variable. -/
lemma Request.step_ok {added : Code} {v : Option Value}
    (h : r.step env code s = .ok (added, v) s') :
    s'.scopes.scopes = s.scopes.scopes ∨ ∃ scope name slot align,
      s.drawn.scopes.declare scope name slot = .ok s'.scopes ∧ added = [.alloca slot align] := by
  cases r with
  | load slot =>
    obtain ⟨out, hload, -⟩ := Lower.map_ok.mp h
    obtain ⟨-, rfl, -⟩ := Lower.load_ok hload
    exact .inl rfl
  | store value slot =>
    obtain ⟨out, hstore, -⟩ := Lower.map_ok.mp h
    obtain ⟨-, -, rfl, -⟩ := Lower.store_ok hstore
    exact .inl rfl
  | placeLabel l =>
    obtain ⟨out, hplace, -⟩ := Lower.map_ok.mp h
    obtain ⟨-, -, rfl⟩ := Lower.placeLabel_ok.mp hplace
    exact .inl rfl
  | openBlock =>
    obtain ⟨out, hopen, -⟩ := Lower.map_ok.mp h
    exact .inl (Lower.openBlockAfter_keeps hopen)
  | coerce value target context =>
    obtain ⟨out, hcoerce, -⟩ := Lower.map_ok.mp h
    exact .inl (Lower.coerce_keeps hcoerce)
  | declareSlot scope name ty =>
    obtain ⟨out, hdeclare, hout⟩ := Lower.map_ok.mp h
    obtain ⟨-, ⟨scopes, hscopes, rfl⟩, rfl⟩ := Lower.declareSlot_ok hdeclare
    exact .inr ⟨scope, name, _, _, hscopes, (congrArg Prod.fst hout).symm⟩

/-- Whether every name is bound to a slot that the segment allocates. -/
def Allocated (a : Assembly) : Prop :=
  a.state.scopes.Binds fun slot => ∃ align, .alloca slot align ∈ a.segment.instructions

/-- The function after requests, whether they failed or not. -/
def after (env : LowerEnv) (a : Assembly) (requests : List Request) : Assembly :=
  requests.foldl (fun a r => (a.serve env r).1) a

lemma serve_allocated (ha : a.Allocated) (hr : ¬ r.DeclaresVoid a.state.scopes) :
    (a.serve env r).1.Allocated := by
  rw [serve]
  cases hstep : r.step env a.segment.instructions a.state with
  | ok out s' =>
    have hgrown : a.state.scopes.Binds fun slot =>
        ∃ align, .alloca slot align ∈ a.segment.instructions ++ out.1 := by
      intro scope hscope b hb
      obtain ⟨align, hmem⟩ := ha scope hscope b hb
      exact ⟨align, List.mem_append_left out.1 hmem⟩
    rcases Request.step_ok hstep with hscopes | ⟨scope, name, slot, align, hdeclare, hadded⟩
    · exact hgrown.of_eq hscopes
    · have hslot : .alloca slot align ∈ a.segment.instructions ++ out.1 := by
        rw [hadded]
        exact List.mem_append_right _ List.mem_cons_self
      have hdrawn : a.state.drawn.scopes.Binds fun slot =>
          ∃ align, .alloca slot align ∈ a.segment.instructions ++ out.1 := hgrown.of_eq rfl
      exact hdrawn.declare hdeclare ⟨align, hslot⟩
  | error e s' =>
    obtain ⟨-, ⟨-, rfl | rfl⟩ | ⟨scope, name, rfl, hfree, -⟩⟩ := Request.step_error hstep
    · exact ha
    · exact ha.of_eq rfl
    · exact absurd ⟨rfl, hfree⟩ hr

/-- A caller who goes on after failures, but declares no variable of type `void`, finds only variables
that have their slots. -/
theorem after_allocated (env : LowerEnv) (a : Assembly) (requests : List Request) (ha : a.Allocated)
    (hrequests : ∀ scope name, .declareSlot scope name .void ∉ requests) :
    (a.after env requests).Allocated := by
  induction requests generalizing a with
  | nil => exact ha
  | cons r rest ih =>
    have hfirst : ¬ r.DeclaresVoid a.state.scopes := by
      intro hvoid
      cases r with
      | declareSlot scope name ty => exact hrequests scope name (hvoid.1 ▸ List.mem_cons_self)
      | _ => exact hvoid
    refine ih (a.serve env r).1 (serve_allocated ha hfirst) fun scope name hmem => ?_
    exact hrequests scope name (List.mem_cons_of_mem r hmem)

/-- A request that fails leaves the segment, the labels and the current block as they were, and at most
one number was drawn. All names mean what they meant, unless the request was to declare a variable of
type `void` under a free name: then the slot was refused, and the name is bound to it all the same.
Opening a block never fails. -/
theorem serve_failed (env : LowerEnv) (a : Assembly) (r : Request) (e : CompileError)
    (h : (a.serve env r).2 = .error e) :
    r ≠ .openBlock ∧
    (a.serve env r).1.segment = a.segment ∧
    (a.serve env r).1.state.labels = a.state.labels ∧
    (a.serve env r).1.state.block = a.state.block ∧
    (a.serve env r).1.state.log = a.state.log ∧
    ((a.serve env r).1.state.next = a.state.next ∨
      (a.serve env r).1.state.next = a.state.next + 1) ∧
    (¬ r.DeclaresVoid a.state.scopes →
      (a.serve env r).1.state.scopes.scopes = a.state.scopes.scopes ∧
      ∀ scope name, (a.serve env r).1.state.scopes.lookup scope name =
        a.state.scopes.lookup scope name) ∧
    ∀ scope name, r = .declareSlot scope name .void → a.state.scopes.binding? scope name = none →
      e = .lowering (.unsupportedType .void "alloca") ∧
      (a.serve env r).1.state.scopes =
        a.state.drawn.scopes.afterDeclare scope name (.slot a.state.next .void) ∧
      (scope < a.state.scopes.scopes.length →
        (a.serve env r).1.state.scopes.lookup scope name = .ok (.slot a.state.next .void)) := by
  rw [serve] at h ⊢
  cases hstep : r.step env a.segment.instructions a.state with
  | ok out s' =>
    rw [hstep] at h
    cases h
  | error e' s' =>
    rw [hstep] at h
    obtain rfl : e' = e := by simpa using h
    obtain ⟨hopen, ⟨hvoid, hs'⟩ | ⟨scope, name, rfl, hfree, he, rfl⟩⟩ := Request.step_error hstep
    case inl =>
      obtain ⟨hscopes, hlabels, hblock, hlog⟩ : s'.scopes.scopes = a.state.scopes.scopes ∧
          s'.labels = a.state.labels ∧ s'.block = a.state.block ∧ s'.log = a.state.log := by
        rcases hs' with rfl | rfl <;> exact ⟨rfl, rfl, rfl, rfl⟩
      refine ⟨hopen, rfl, hlabels, hblock, hlog, ?next, ?lookups, ?void⟩
      case next => exact hs'.imp (congrArg LowerState.next) (congrArg LowerState.next)
      case lookups =>
        intro _
        refine ⟨hscopes, fun scope name => ?_⟩
        exact Scopes.lookup_congr (Scopes.visible_of_scopes_eq hscopes) name
      case void =>
        rintro scope name rfl hfree
        exact absurd ⟨rfl, hfree⟩ hvoid
    case inr =>
      refine ⟨hopen, rfl, rfl, rfl, rfl, .inr Scopes.afterDeclare_next, ?lookups, ?void⟩
      case lookups => exact fun hvoid => (hvoid ⟨rfl, hfree⟩).elim
      case void =>
        intro scope' name' hr _
        obtain ⟨rfl, rfl⟩ : scope = scope' ∧ name = name' := by simpa using hr
        exact ⟨he, rfl, fun hid => Scopes.lookup_afterDeclare hid hfree⟩

/-- The start of a function `void f()`. -/
def emptyFunction : LowerEnv := .ofSignature {} {} ⟨.void, []⟩

/-- A variable of type `void` is refused, and its name is bound afterwards. -/
theorem void_variable_stays_bound :
    (serve emptyFunction ⟨emptyFunction.start, {}⟩ (.declareSlot 0 "x" .void)).2 =
      .error (.lowering (.unsupportedType .void "alloca")) ∧
    emptyFunction.start.scopes.lookup 0 "x" = .error (.undeclaredVariable "x") ∧
    (serve emptyFunction ⟨emptyFunction.start, {}⟩ (.declareSlot 0 "x" .void)).1.state.scopes.lookup
      0 "x" = .ok (.slot 1 .void) :=
  ⟨rfl, rfl, rfl⟩

/-- A function `void f()` in which a variable `x` of type `int` was declared. -/
def oneVariable : Assembly :=
  (serve emptyFunction ⟨emptyFunction.start, {}⟩ (.declareSlot 0 "x" .i32)).1

/-- Declared once more, the variable stays the one that it was, even though the new type is `void`. -/
theorem oneVariable_redeclared :
    (oneVariable.serve emptyFunction (.declareSlot 0 "x" .void)).2 =
      .error (.scope (.redeclared "x")) ∧
    (oneVariable.serve emptyFunction (.declareSlot 0 "x" .void)).1.segment.instructions =
      [.alloca (.slot 1 .i32) 4] ∧
    (oneVariable.serve emptyFunction (.declareSlot 0 "x" .void)).1.state.scopes.lookup 0 "x" =
      .ok (.slot 1 .i32) := by
  have hrefused : (oneVariable.serve emptyFunction (.declareSlot 0 "x" .void)).2 =
      .error (.scope (.redeclared "x")) := rfl
  have hvoid : ¬ (Request.declareSlot 0 "x" .void).DeclaresVoid oneVariable.state.scopes :=
    fun hfree => nomatch hfree.2
  obtain ⟨-, hsegment, -, -, -, -, hlookups, -⟩ := serve_failed _ _ _ _ hrefused
  exact ⟨hrefused, congrArg Segment.instructions hsegment, (hlookups hvoid).2 0 "x"⟩

end Assembly

end MiniC
