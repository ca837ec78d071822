import MiniC.Proofs.Dominance

/-!
# Slots are allocated before they are used

A variable is in scope from its declaration to the end of the block of statements it stands in, and
the code of the declaration allocates its slot. So a path to a use of the slot has come by the
allocation. This fails where the declaration is a whole part of an `if` or the whole body of a
`while` loop: such a declaration is in the scope of the statements around, though control may have
gone past it.
-/

namespace MiniC

/-- Whether on every path to an instruction, the slots that it uses have been allocated. -/
def Code.AllocatesFirst (code : Code) : Prop :=
  ∀ done i rest, code.Path done (i :: rest) → ∀ id ty, .slot id ty ∈ i.operands →
    ∃ align, .alloca (.slot id ty) align ∈ done

namespace Parser

variable {n : Nat} {s s' s'' : TokenStream}

lemma translationUnit_eq (s : TokenStream) :
    translationUnit s = definitionsFrom s.pending.length s := rfl

lemma bind_of_ok {α β : Type} {x : Parser α} {f : α → Parser β} {a : α} (h : x s = .ok a s') :
    (x >>= f) s = f a s' := by
  change EStateM.bind x f s = f a s'
  rw [EStateM.bind, h]

lemma definitionsFrom_atEnd (h : s.atEnd = true) : definitionsFrom (n + 1) s = .ok [] s := by
  have hend : atEnd s = .ok true s := by rw [← h]; rfl
  rw [definitionsFrom, bind_of_ok hend]
  rfl

lemma definitionsFrom_cons {d : Definition} {ds : List Definition} (h : s.atEnd = false)
    (hd : definition s = .ok d s') (hds : definitionsFrom n s' = .ok ds s'') :
    definitionsFrom (n + 1) s = .ok (d :: ds) s'' := by
  have hend : atEnd s = .ok false s := by rw [← h]; rfl
  rw [definitionsFrom, bind_of_ok hend, if_neg Bool.false_ne_true, bind_of_ok hd, bind_of_ok hds]
  rfl

end Parser

namespace Compiler

lemma lowerDefinition_allocates {c : Compiler} {d : Definition} {seg : Segment}
    (h : (c.lowerDefinition d).result = .ok seg) (hscoped : Stmt.allArmsScoped d.body = true) :
    Code.AllocatesFirst seg.instructions := by
  obtain ⟨env, rfl, w, -⟩ := lowerDefinition_lowered h
  obtain ⟨P, first, entry, rest₀, hcharts⟩ :=
    w.charts true fun _ => (Stmt.allArmsScoped_iff).mp hscoped
  intro done i rest path id ty hv
  obtain ⟨j, hj, hvj⟩ := List.mem_flatMap.mp (hcharts.mem_results_of_path path hv ⟨rfl, rfl⟩)
  have htyped := (w.sound rfl (LowerEnv.params_temps _ _ _) j (path.done_subset hj)).1
  obtain ⟨align, rfl⟩ := (htyped.isSlot_iff hvj).mp rfl
  exact ⟨align, hj⟩

/-- The code of a source text is the code of its definitions, in their order. -/
lemma compileFrom_ok {n : Nat} {c : Compiler} {s : TokenStream} {segs : List Segment}
    (h : (compileFrom n c s).result = .ok segs) :
    ∃ ds s', Parser.definitionsFrom n s = .ok ds s' ∧
      List.Forall₂ (fun d seg => ∃ c', (lowerDefinition c' d).result = .ok seg) ds segs := by
  induction n generalizing c s segs with
  | zero =>
    cases h
    exact ⟨[], s, rfl, .nil⟩
  | succ n ih =>
    rw [compileFrom] at h
    cases hend : s.atEnd with
    | true =>
      rw [if_pos hend] at h
      cases h
      exact ⟨[], s, Parser.definitionsFrom_atEnd hend, .nil⟩
    | false =>
      rw [if_neg (Bool.not_eq_true _ ▸ hend)] at h
      cases hparse : Parser.definition s with
      | error e s' => simp [hparse] at h
      | ok d s' =>
        cases hlower : (c.lowerDefinition d).result with
        | error e => simp [hparse, hlower] at h
        | ok seg =>
          simp only [hparse, hlower] at h
          cases hmore : (compileFrom n (c.lowerDefinition d).compiler s').result with
          | error e =>
            rw [hmore] at h
            cases h
          | ok more =>
            rw [hmore] at h
            cases h
            obtain ⟨ds, s'', hds, hsegs⟩ := ih hmore
            exact ⟨d :: ds, s'', Parser.definitionsFrom_cons hend hparse hds,
              .cons ⟨c, hlower⟩ hsegs⟩

lemma compile_result (c : Compiler) (source : String) : (c.compile source).result =
    (compileFrom (TokenStream.ofText source).pending.length c (.ofText source)).result := by
  rw [compile]

end Compiler

/-- Slots are allocated before they are used. In the code of every source text, this holds for each
definition in which no part of an `if` and no body of a `while` loop is a declaration. -/
theorem compileSource_allocates {options : Options} {source : String} {segs : List Segment}
    (h : compileSource options source = .ok segs) :
    ∃ ds, parseSource source = .ok ds ∧ List.Forall₂ (fun d seg =>
      Stmt.allArmsScoped d.body = true → Code.AllocatesFirst seg.instructions) ds segs := by
  rw [compileSource, Compiler.compile_result] at h
  obtain ⟨ds, s', hparse, hsegs⟩ := Compiler.compileFrom_ok h
  rw [← Parser.translationUnit_eq] at hparse
  refine ⟨ds, ?_, hsegs.imp fun d seg ⟨c, hlower⟩ => Compiler.lowerDefinition_allocates hlower⟩
  rw [parseSource, hparse]

/-- A declaration in braces is in a scope of its own. -/
theorem braces_allocate_first : ∃ seg,
    compileSource {} "int f(int a) { if (a) { int x = 1; a = x; } return a; }" = .ok [seg] ∧
      Code.AllocatesFirst seg.instructions := by
  have hone : (compileSource {} "int f(int a) { if (a) { int x = 1; a = x; } return a; }").map
      List.length = .ok 1 := by decide +kernel
  have hscoped : (parseSource "int f(int a) { if (a) { int x = 1; a = x; } return a; }").map
      (fun ds => ds.map fun d => Stmt.allArmsScoped d.body) = .ok [true] := by decide +kernel
  cases hsegs : compileSource {} "int f(int a) { if (a) { int x = 1; a = x; } return a; }" with
  | error e =>
    rw [hsegs] at hone
    cases hone
  | ok segs =>
    obtain ⟨ds, hparse, hallocates⟩ := compileSource_allocates hsegs
    rw [hsegs] at hone
    rw [hparse] at hscoped
    obtain ⟨seg, rfl⟩ := List.length_eq_one_iff.mp (Except.ok.inj hone)
    cases hallocates with
    | cons hd htail => exact ⟨seg, rfl, hd (List.cons_eq_cons.mp (Except.ok.inj hscoped)).1⟩

/-- The code for a function in which a declaration is the whole body of an `if`. -/
def Code.leaky : Code := [
  .functionBegin "f" .i32 [.temp 0 .i32],
  .label (.fixed 0 1),
  .alloca (.slot 2 .i32) 4,
  .store (.temp 0 .i32) (.slot 2 .i32) 4,
  .load (.temp 3 .i32) (.slot 2 .i32) 4,
  .icmp (.temp 4 .bool) .ne (.temp 3 .i32) (.int 0 .i32),
  .branch (.temp 4 .bool) (.fixed 1 5) (.fixed 2 7),
  .label (.fixed 1 5),
  .alloca (.slot 6 .i32) 4,
  .store (.int 1 .i32) (.slot 6 .i32) 4,
  .jump (.fixed 2 7),
  .label (.fixed 2 7),
  .load (.temp 8 .i32) (.slot 6 .i32) 4,
  .ret (some (.temp 8 .i32)),
  .functionEnd]

/-- Control can go past a declaration that is the whole body of an `if`, to a use of its variable.
-/
theorem bare_declaration_unallocated : ∃ seg,
    compileSource {} "int f(int a) { if (a) int x = 1; return x; }" = .ok [seg] ∧
      ¬Code.AllocatesFirst seg.instructions := by
  refine ⟨⟨Code.leaky, none⟩, by decide +kernel, fun h => ?_⟩
  have hbranch : Code.leaky.Path (Code.leaky.take 6).reverse (Code.leaky.drop 6) :=
    .next (.next (.next (.next (.next (.next .start rfl) rfl) rfl) rfl) rfl) rfl
  have hload : Code.leaky.Path (.label (.fixed 2 7) :: (Code.leaky.take 7).reverse)
      (.load (.temp 8 .i32) (.slot 6 .i32) 4 :: Code.leaky.drop 13) :=
    .next (.jump hbranch (by decide) ⟨Code.leaky.take 11, rfl⟩) rfl
  obtain ⟨align, hmem⟩ := h _ _ _ hload 6 .i32 (by decide)
  simp [Code.leaky] at hmem

end MiniC
