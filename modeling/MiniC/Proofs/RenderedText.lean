import MiniC.Proofs.InstrReading
import MiniC.Proofs.OptionIndependence
import MiniC.Proofs.Staging

/-!
# The text determines the code

The text of compiled code has one line for each instruction. Every line can be read on its own, so
code without float literals is read back from its text, up to the numbers of labels: two segments
with the same text are the same but for these.
-/

namespace MiniC

namespace Code

/-- An instruction that is no jump is in the core, without its alignment. -/
lemma unaligned_mem_coreFrom {i : Instr} {code : Code} (hi : i ∈ code) (hjump : i.isJump = false)
    (dead : Bool) : i.unaligned ∈ coreFrom dead code := by
  induction code generalizing dead with
  | nil => cases hi
  | cons j rest ih =>
    rw [coreFrom]
    rcases List.mem_cons.mp hi with rfl | hi
    · simp [hjump]
    · split
      · exact ih hi true
      · exact List.mem_cons_of_mem _ (ih hi j.isTerminator)

/-- The core holds nothing else. -/
lemma exists_of_mem_coreFrom {i : Instr} {code : Code} {dead : Bool} (hi : i ∈ coreFrom dead code) :
    ∃ j ∈ code, j.unaligned = i := by
  induction code generalizing dead with
  | nil => cases hi
  | cons j rest ih =>
    rw [coreFrom] at hi
    split at hi
    · obtain ⟨k, hk, heq⟩ := ih hi
      exact ⟨k, List.mem_cons_of_mem j hk, heq⟩
    · rcases List.mem_cons.mp hi with rfl | hi
      · exact ⟨j, List.mem_cons_self, rfl⟩
      · obtain ⟨k, hk, heq⟩ := ih hi
        exact ⟨k, List.mem_cons_of_mem j hk, heq⟩

end Code

/-- No function begins among blocks. -/
lemma Fills.functionBegin_notMem {before after : Bool} {code : Code} (h : Fills before code after)
    (name : String) (ty : Ty) (params : List Value) : .functionBegin name ty params ∉ code := by
  induction h with
  | nil opened => exact List.not_mem_nil
  | ordinary hi rest ih | terminator hi rest ih =>
    refine fun hmem => (List.mem_cons.mp hmem).elim ?_ ih
    rintro rfl
    cases hi
  | label l rest ih =>
    refine fun hmem => (List.mem_cons.mp hmem).elim ?_ ih
    rintro ⟨⟩

namespace Compiler

/-- The code of a definition begins no function but this one. Options have no say in this, so the
code may be taken to be that without dead jumps. -/
lemma name_of_functionBegin_mem {c : Compiler} {d : Definition} {seg : Segment} {name : String}
    {ty : Ty} {params : List Value} (h : (c.lowerDefinition d).result = .ok seg)
    (hmem : .functionBegin name ty params ∈ seg.instructions) : name = d.name := by
  obtain ⟨functions, s', hregister, -, -, hrun⟩ := lowerDefinition_ok h
  let options : Options := { c.options with elideUnreachableJumps := true }
  have hsame := Definition.lowerIn_sameOutcome (d := d) functions c.options options rfl rfl
  rw [hrun] at hsame
  cases hrun' : d.lowerIn (.ofSignature functions options d.signature)
      (LowerEnv.ofSignature functions options d.signature).start with
  | error e t =>
    rw [hrun'] at hsame
    exact hsame.elim
  | ok seg' t =>
    rw [hrun'] at hsame
    have h' : (lowerDefinition ⟨c.functions, options⟩ d).result = .ok seg' := by
      simp only [lowerDefinition, hregister, Definition.lower, hrun']
    obtain ⟨env, henv, w, -⟩ := lowerDefinition_lowered h'
    have helide : env.options.elideUnreachableJumps = true := by
      rw [henv]
      rfl
    obtain ⟨code, opened, hwhole, hfills, -⟩ := w.fills helide
    have hcore := Code.unaligned_mem_coreFrom hmem rfl false
    rw [hsame.1.1 false] at hcore
    obtain ⟨j, hj, hunaligned⟩ := Code.exists_of_mem_coreFrom hcore
    obtain rfl : j = .functionBegin name ty params := by
      cases j <;> first | exact hunaligned | cases hunaligned
    have hseg' : seg'.instructions = .functionBegin d.name d.returnTy env.params ::
        code.map (Instr.relabel w.final.labels.named) ++ [.functionEnd] := by
      rw [w.code, hwhole, List.map_append, List.map_cons]
      rfl
    rw [hseg', List.cons_append, List.mem_cons, List.mem_append] at hj
    rcases hj with hhead | hmiddle | hlast
    · exact (Instr.functionBegin.inj hhead).1
    · exact absurd hmiddle ((hfills.relabel _).functionBegin_notMem name ty params)
    · cases List.mem_singleton.mp hlast

end Compiler

/-- Whether all functions in the table are called by names. -/
def FunctionTable.Named (t : FunctionTable) : Prop :=
  ∀ name signature, t.find? name = some signature → IsName name

/-- Whether an instruction obeys a typing rule and can be spelled. -/
structure Instr.Legible (i : Instr) : Prop where
  typed : ∃ functions options returnTy, i.Typed functions options returnTy
  spelled : i.Spelled

namespace Compiler

/-- Lowering a definition with a name gives legible code, and the functions keep to names. -/
lemma lowerDefinition_legible {c : Compiler} {d : Definition} {seg : Segment} (hd : IsName d.name)
    (hc : c.functions.Named) (h : (c.lowerDefinition d).result = .ok seg) :
    (seg.instructions ≠ [] ∧ ∀ i ∈ seg.instructions, i.Legible) ∧
      (c.lowerDefinition d).compiler.functions.Named := by
  have hfunctions : (c.lowerDefinition d).compiler.functions.Named := by
    obtain ⟨functions, s', hregister, hfunctions, -, -⟩ := lowerDefinition_ok h
    rw [FunctionTable.register] at hregister
    split at hregister <;> cases hregister
    rw [hfunctions]
    intro name signature hfind
    rw [FunctionTable.find?, List.lookup_cons] at hfind
    split at hfind
    · rename_i heq
      rw [beq_iff_eq.mp heq]
      exact hd
    · exact hc name signature hfind
  refine ⟨⟨?_, fun i hi => ?_⟩, hfunctions⟩
  · obtain ⟨env, -, w, -⟩ := lowerDefinition_lowered h
    rw [w.code]
    exact List.cons_ne_nil _ _
  · obtain ⟨env, rfl, w, -⟩ := lowerDefinition_lowered h
    have htyped := (w.sound rfl (LowerEnv.params_temps _ _ _) i hi).1
    refine ⟨⟨_, _, _, htyped⟩, ⟨?_, ?_⟩⟩
    · intro l hl
      obtain ⟨id, name, rfl, -⟩ := w.mem_markers_iff.mp (w.labels_subset_markers hi hl)
      rfl
    · intro name hname
      cases i with
      | call result callee ty arguments =>
        obtain ⟨params, hfind, -⟩ := htyped
        rw [List.mem_singleton.mp hname]
        exact hfunctions callee _ hfind
      | functionBegin own ty params =>
        rw [List.mem_singleton.mp hname, name_of_functionBegin_mem h hi]
        exact hd
      | _ => cases hname

end Compiler

/-- The lines of a text. -/
def linesOf (text : String) : List String := (text.split '\n').toList.map (·.copy)

/-- The code that a text is the text of, with the names of its labels alone. -/
def Code.ofText? (text : String) : Option Code :=
  (linesOf text).mapM fun line => Instr.ofWords? (wordsOf line)

namespace Segment

/-- Whether a float literal is used in the code. -/
def usesFloat (seg : Segment) : Bool := seg.instructions.any fun i => i.used.any Value.isFloat

/-- The margin in front of an instruction has no words. -/
lemma wordsOf_line (i : Instr) : wordsOf (line i) = wordsOf i.text := by
  have hmargin : wordsOf ("  " ++ i.text) = wordsOf i.text := wordsOf_append (.inl rfl)
  cases i with
  | label | functionBegin | functionEnd => rfl
  | _ => exact hmargin

lemma isLine_line {i : Instr} (h : i.Spelled) : IsLine (line i) := by
  have hmargin : IsLine ("  " ++ i.text) := isLine_append.mpr ⟨by decide, Instr.isLine_text h⟩
  cases i with
  | label | functionBegin | functionEnd => exact Instr.isLine_text h
  | _ => exact hmargin

variable {seg : Segment}

/-- Legible code has a text, with a line for each instruction. -/
lemma linesOf_render (hne : seg.instructions ≠ []) (h : ∀ i ∈ seg.instructions, i.Legible) :
    ∃ text, seg.render = .ok text ∧ linesOf text = seg.instructions.map line := by
  refine ⟨_, render_eq fun i hi => (h i hi).spelled.labels, ?_⟩
  have hlines : ∀ text ∈ seg.instructions.map line, '\n' ∉ text.toList :=
    List.forall_mem_map.mpr fun i hi => isLine_line (h i hi).spelled
  have hsplit := String.toList_split_intercalate hlines
  rwa [if_neg (by simpa using hne)] at hsplit

/-- Legible code without float literals is read back from its text, up to the numbers of labels. -/
lemma ofText?_render (hne : seg.instructions ≠ []) (h : ∀ i ∈ seg.instructions, i.Legible)
    (hfloat : seg.usesFloat = false) {text : String} (htext : seg.render = .ok text) :
    Code.ofText? text = some (seg.instructions.map (Instr.relabel Label.withoutId)) := by
  obtain ⟨text', hrender, hlines⟩ := linesOf_render hne h
  obtain rfl : text' = text := Except.ok.inj (hrender.symm.trans htext)
  have hread : ∀ i ∈ seg.instructions,
      Instr.ofWords? (wordsOf (line i)) = some (i.relabel Label.withoutId) := by
    intro i hi
    obtain ⟨⟨functions, options, returnTy, htyped⟩, hspelled⟩ := h i hi
    rw [wordsOf_line, Instr.wordsOf_text hspelled]
    refine Instr.ofWords?_words htyped hspelled fun v hv => Bool.eq_false_iff.mpr fun hv' => ?_
    have huses : seg.usesFloat = true :=
      List.any_eq_true.mpr ⟨i, hi, List.any_eq_true.mpr ⟨v, hv, hv'⟩⟩
    rw [hfloat] at huses
    cases huses
  rw [Code.ofText?, hlines]
  generalize seg.instructions = code at hread
  induction code with
  | nil => rfl
  | cons i rest ih =>
    obtain ⟨hi, hrest⟩ := List.forall_mem_cons.mp hread
    rw [List.map_cons, List.mapM_cons, hi, ih hrest]
    rfl

end Segment

/-- All code of a source text is legible. -/
lemma compileSource_legible {options : Options} {source : String} {segs : List Segment}
    (h : compileSource options source = .ok segs) :
    ∀ seg ∈ segs, seg.instructions ≠ [] ∧ ∀ i ∈ seg.instructions, i.Legible := by
  refine compileSource_forall (I := FunctionTable.Named) h ?_ ?_
  · intro name signature hfind
    cases hfind
  · intro ds hds d hd c seg hc hlower
    have hlexed : Lexed (sourceTokens source) := (scans_tokenize source).lexed_dropLast
    have hprogram : Grammar.Program true (sourceTokens source) ds := program_of_parseSource hds
    exact Compiler.lowerDefinition_legible (hprogram.shaped hlexed d hd).name hc hlower

/-- The text of compiled code determines it. There is a text for the code of every function, with
exactly one line for each instruction, and where the code of two functions, from any sources and
under any options, has the same text and no float literals, it is the same but for the numbers of
its labels. -/
theorem compileSource_render_injective {options options' : Options} {source source' : String}
    {segs segs' : List Segment} (h : compileSource options source = .ok segs)
    (h' : compileSource options' source' = .ok segs') {seg seg' : Segment} (hseg : seg ∈ segs)
    (hseg' : seg' ∈ segs') :
    (∃ text, seg.render = .ok text ∧ (linesOf text).length = seg.size ∧
      linesOf text = seg.instructions.map Segment.line) ∧
    (seg.usesFloat = false → seg'.usesFloat = false → seg.render = seg'.render →
      seg.instructions.map (Instr.relabel Label.withoutId) =
        seg'.instructions.map (Instr.relabel Label.withoutId)) := by
  obtain ⟨hne, hlegible⟩ := compileSource_legible h seg hseg
  obtain ⟨hne', hlegible'⟩ := compileSource_legible h' seg' hseg'
  obtain ⟨text, hrender, hlines⟩ := Segment.linesOf_render hne hlegible
  refine ⟨⟨text, hrender, ?_, hlines⟩, fun hfloat hfloat' hsame => ?_⟩
  · rw [hlines, List.length_map, Segment.size]
  · have hread := Segment.ofText?_render hne hlegible hfloat hrender
    have hread' := Segment.ofText?_render hne' hlegible' hfloat' (hsame.symm.trans hrender)
    exact Option.some.inj (hread.symm.trans hread')

/-- A `while` loop and a `for` loop with another variable and under other options. -/
theorem loops_same_text : ∃ seg seg',
    compileSource {} "int f(char c) \x7b while (c < 3) ++c; return f(c); \x7d" = .ok [seg] ∧
      compileSource ⟨none, false⟩
          "int f(char d) \x7b for (; d < 3; ++d) \x7b\x7d return f(d); \x7d" = .ok [seg'] ∧
      (∃ text, seg.render = .ok text ∧ (linesOf text).length = seg.size ∧
        linesOf text = seg.instructions.map Segment.line) ∧
      seg.usesFloat = false ∧ seg'.usesFloat = false ∧ seg.render = seg'.render ∧
      seg.instructions.map (Instr.relabel Label.withoutId) =
        seg'.instructions.map (Instr.relabel Label.withoutId) := by
  have hfloat : (compileSource {} "int f(char c) \x7b while (c < 3) ++c; return f(c); \x7d").map
      (List.map Segment.usesFloat) = .ok [false] := by decide +kernel
  have hsame : (compileSource {} "int f(char c) \x7b while (c < 3) ++c; return f(c); \x7d").map
        (List.map fun seg => (seg.usesFloat, seg.render)) =
      (compileSource ⟨none, false⟩
          "int f(char d) \x7b for (; d < 3; ++d) \x7b\x7d return f(d); \x7d").map
        (List.map fun seg => (seg.usesFloat, seg.render)) := by decide +kernel
  cases hsegs : compileSource {} "int f(char c) \x7b while (c < 3) ++c; return f(c); \x7d" with
  | error e =>
    rw [hsegs] at hfloat
    cases hfloat
  | ok segs =>
    cases hsegs' : compileSource ⟨none, false⟩
        "int f(char d) \x7b for (; d < 3; ++d) \x7b\x7d return f(d); \x7d" with
    | error e =>
      rw [hsegs, hsegs'] at hsame
      cases hsame
    | ok segs' =>
      rw [hsegs] at hfloat
      rw [hsegs, hsegs'] at hsame
      obtain ⟨seg, rfl, huses⟩ := List.map_eq_singleton_iff.mp (Except.ok.inj hfloat)
      obtain ⟨seg', rfl, hsummary⟩ := List.map_eq_singleton_iff.mp (Except.ok.inj hsame).symm
      obtain ⟨huses', hrender⟩ := Prod.mk.inj hsummary
      obtain ⟨hlines, hinjective⟩ := compileSource_render_injective hsegs hsegs' List.mem_cons_self
        List.mem_cons_self
      have hfloat' : seg'.usesFloat = false := huses'.trans huses
      exact ⟨seg, seg', rfl, rfl, hlines, huses, hfloat', hrender.symm,
        hinjective huses hfloat' hrender.symm⟩

end MiniC
