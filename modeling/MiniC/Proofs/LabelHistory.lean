import MiniC.Proofs.LabelPlacement

/-!
# Label tables over time

Code whose labels wait for their names can be resolved at any time and more than once, while its table
goes on allocating and fixing labels. A label takes part in resolving only with its number, so an
attempt that stopped halfway leaves nothing behind that a later one would see, and a name that the
table has given stays. `Draft.after_spec` says what follows for code and a table that nothing is known
about: the labels of the code may be pending, named otherwise or unknown to the table.
-/

namespace MiniC

namespace Instr

lemma labels_withLabels {i : Instr} {ls : List Label} (h : ls.length = i.labels.length) :
    (i.withLabels ls).labels = ls := by
  match i, ls, h with
  | jump _, [_], _ => rfl
  | branch .., [_, _], _ => rfl
  | label _, [_], _ => rfl
  | phi _ incoming, ls, h =>
    have hlength : ls.length ≤ (incoming.map Prod.fst).length := by
      simpa [labels] using Nat.le_of_eq h
    exact List.map_snd_zip hlength
  | alloca .., [], _ | store .., [], _ | load .., [], _ | binary .., [], _ | icmp .., [], _ => rfl
  | zext .., [], _ | call .., [], _ | functionBegin .., [], _ | functionEnd, [], _ | ret _, [], _ =>
    rfl

/-- Of two exchanges of all labels the second one counts. -/
lemma withLabels_withLabels {i : Instr} {ls ms : List Label} (hls : ls.length = i.labels.length)
    (hms : ms.length = i.labels.length) : (i.withLabels ls).withLabels ms = i.withLabels ms := by
  match i, ls, ms, hls, hms with
  | jump _, [_], [_], _, _ => rfl
  | branch .., [_, _], [_, _], _, _ => rfl
  | label _, [_], [_], _, _ => rfl
  | phi result incoming, ls, ms, hls, _ =>
    have hlength : (incoming.map Prod.fst).length ≤ ls.length := by
      simpa [labels] using Nat.le_of_eq hls.symm
    simp only [withLabels, List.map_fst_zip hlength]
  | alloca .., [], _, _, _ | store .., [], _, _, _ | load .., [], _, _, _ => rfl
  | binary .., [], _, _, _ | icmp .., [], _, _, _ | zext .., [], _, _, _ => rfl
  | call .., [], _, _, _ | functionBegin .., [], _, _, _ => rfl
  | functionEnd, [], _, _, _ | ret _, [], _, _, _ => rfl

lemma withLabels_labels (i : Instr) : i.withLabels i.labels = i := by
  cases i with
  | phi result incoming =>
    simp only [withLabels, labels]
    rw [← List.unzip_fst, ← List.unzip_snd, List.zip_unzip]
  | _ => rfl

/-- Nothing but the labels of an instruction changes, as putting them back shows. -/
lemma withLabels_relabel (f : Label → Label) (i : Instr) :
    (i.relabel f).withLabels i.labels = i := by
  rw [relabel, withLabels_withLabels (List.length_map f) rfl, withLabels_labels]

end Instr

namespace LabelTable

variable {t t' : LabelTable}

lemma fix_ok {l fixed : Label} {name : Nat} : t.fix l name = .ok (fixed, t') ↔
    ∃ id, l = .pending id ∧ t.names[id]? = some none ∧ .fixed id name = fixed ∧
      ⟨t.names.set id (some name)⟩ = t' := by
  cases l with
  | fixed id old =>
    rw [fix]
    cases t.names[(Label.fixed id old).id]? <;> simp [Label.isFixed]
  | pending id =>
    cases hname : t.names[id]? with
    | none => simp [fix, Label.id, hname]
    | some state => cases state <;> simp [fix, Label.id, Label.isFixed, hname]

/-- The label that is fixed has the name, and no other label changes. -/
lemma getElem?_fix {l fixed : Label} {name : Nat} (h : t.fix l name = .ok (fixed, t')) (id : Nat) :
    t'.names[id]? = if id = l.id then some (some name) else t.names[id]? := by
  obtain ⟨id', rfl, hnone, -, rfl⟩ := fix_ok.mp h
  have hid : id' < t.names.length := (List.getElem?_eq_some_iff.mp hnone).1
  by_cases hsame : id = id'
  · subst hsame
    rw [Label.id, if_pos rfl, List.getElem?_set_self hid]
  · rw [Label.id, if_neg hsame, List.getElem?_set_ne (Ne.symm hsame)]

lemma resolve_error_or_fixes (t : LabelTable) (l : Label) :
    (∃ e, t.resolve l = .error e ∧ ¬ t.Fixes l.id) ∨ (t.Fixes l.id ∧ t.resolve l = .ok (t.named l)) := by
  by_cases h : t.Fixes l.id
  · exact .inr ⟨h, resolve_of_fixes h⟩
  · rcases hname : t.names[l.id]? with _ | _ | name
    · exact .inl ⟨_, by rw [resolve, hname], h⟩
    · exact .inl ⟨_, by rw [resolve, hname], h⟩
    · exact absurd ⟨name, hname⟩ h

/-- Whether every name that the table has is the same in another one. -/
def Keeps (t t' : LabelTable) : Prop :=
  ∀ (id name : Nat), t.names[id]? = some (some name) → t'.names[id]? = some (some name)

namespace Keeps

variable {t'' : LabelTable}

lemma rfl : Keeps t t := fun _ _ h => h

lemma trans (h : Keeps t t') (h' : Keeps t' t'') : Keeps t t'' :=
  fun id name hname => h' id name (h id name hname)

lemma allocate (t : LabelTable) : Keeps t t.allocate.2 := by
  intro id name hname
  have hid : id < t.size := (List.getElem?_eq_some_iff.mp hname).1
  rw [getElem?_allocate, if_neg (Nat.ne_of_lt hid), hname]

/-- A label that gets its name had none. -/
lemma fix {l fixed : Label} {name : Nat} (h : t.fix l name = .ok (fixed, t')) : Keeps t t' := by
  obtain ⟨id, rfl, hnone, -, -⟩ := fix_ok.mp h
  intro id' name' hname
  have hne : id' ≠ id := by
    rintro rfl
    rw [hnone] at hname
    cases hname
  rw [getElem?_fix h, Label.id, if_neg hne, hname]

lemma fixes (h : Keeps t t') {id : Nat} (hfixes : t.Fixes id) : t'.Fixes id := by
  obtain ⟨name, hname⟩ := hfixes
  exact ⟨name, h id name hname⟩

lemma named (h : Keeps t t') {l : Label} (hfixes : t.Fixes l.id) : t'.named l = t.named l := by
  obtain ⟨name, hname⟩ := hfixes
  rw [named_of_name hname, named_of_name (h l.id name hname)]

end Keeps

/-- Resolving labels anew goes as if nobody had tried before with a younger table. -/
lemma resolveList_resolveList (h : t.Keeps t') (ls : List Label) :
    t'.resolveList (t.resolveList ls).1 = t'.resolveList ls := by
  induction ls with
  | nil => rfl
  | cons l rest ih =>
    rw [resolveList.eq_2 t]
    rcases resolve_error_or_fixes t l with ⟨e, herror, -⟩ | ⟨hfixes, hok⟩
    · rw [herror]
    · have hlater : t'.resolve l = .ok (t'.named l) := resolve_of_fixes (h.fixes hfixes)
      have hagain : t'.resolve (t.named l) = .ok (t'.named l) := hlater
      rw [hok]
      simp only [resolveList, hlater, hagain, ih]

lemma resolveList_length (t : LabelTable) (ls : List Label) :
    (t.resolveList ls).1.length = ls.length := by
  induction ls with
  | nil => rfl
  | cons l rest ih =>
    rw [resolveList]
    rcases resolve_error_or_fixes t l with ⟨e, herror, -⟩ | ⟨-, hok⟩
    · rw [herror]
    · rw [hok]
      exact congrArg Nat.succ ih

lemma resolveList_none {ls : List Label} :
    (t.resolveList ls).2 = none ↔ ∀ l ∈ ls, t.Fixes l.id := by
  refine ⟨?_, fun h => by rw [resolveList_of_fixes h]⟩
  intro h
  induction ls with
  | nil => simp
  | cons l rest ih =>
    rw [resolveList] at h
    rcases resolve_error_or_fixes t l with ⟨e, herror, -⟩ | ⟨hfixes, hok⟩
    · rw [herror] at h
      cases h
    · rw [hok] at h
      exact List.forall_mem_cons.mpr ⟨hfixes, ih h⟩

/-- Resolving code anew goes as if nobody had tried before with a younger table: the instruction at
which an attempt stopped has some of its labels replaced by others of the same number. -/
lemma resolveCode_resolveCode (h : t.Keeps t') (code : Code) :
    t'.resolveCode (t.resolveCode code).1 = t'.resolveCode code := by
  induction code with
  | nil => rfl
  | cons i rest ih =>
    have hlength := resolveList_length t i.labels
    have hlabels : (i.withLabels (t.resolveList i.labels).1).labels = (t.resolveList i.labels).1 :=
      Instr.labels_withLabels hlength
    have hagain : t'.resolveList (i.withLabels (t.resolveList i.labels).1).labels =
        t'.resolveList i.labels := by
      rw [hlabels, resolveList_resolveList h]
    have hwith : (i.withLabels (t.resolveList i.labels).1).withLabels (t'.resolveList i.labels).1 =
        i.withLabels (t'.resolveList i.labels).1 :=
      Instr.withLabels_withLabels hlength (resolveList_length t' i.labels)
    cases hlist : (t.resolveList i.labels).2 with
    | some e => simp only [resolveCode, hlist, hagain, hwith]
    | none =>
      have hlater : (t'.resolveList i.labels).2 = none :=
        resolveList_none.mpr fun l hl => h.fixes (resolveList_none.mp hlist l hl)
      simp only [resolveCode, hlist, hagain, hwith, hlater, ih]

lemma resolveCode_none {code : Code} :
    (t.resolveCode code).2 = none ↔ ∀ i ∈ code, ∀ l ∈ i.labels, t.Fixes l.id := by
  refine ⟨?_, fun h => by rw [resolveCode_of_fixes h]⟩
  intro h
  induction code with
  | nil => simp
  | cons i rest ih =>
    cases hlist : (t.resolveList i.labels).2 with
    | some e =>
      simp only [resolveCode, hlist] at h
      cases h
    | none =>
      simp only [resolveCode, hlist] at h
      exact List.forall_mem_cons.mpr ⟨resolveList_none.mp hlist, ih h⟩

end LabelTable

/-- Code under construction beside the table of its labels. -/
structure Draft where
  labels : LabelTable := {}
  segment : Segment := {}
  deriving DecidableEq

namespace Draft

/-- What can be asked of a draft. -/
inductive Request where
  | allocate
  | fix (l : Label) (name : Nat)
  | resolve

/-- The draft after a request, and the answer: the label that was allocated or fixed, or the error
with which the request failed. -/
def serve (d : Draft) : Request → Draft × Except LoweringError (Option Label)
  | .allocate =>
    let (l, labels) := d.labels.allocate
    ({ d with labels }, .ok (some l))
  | .fix l name =>
    match d.labels.fix l name with
    | .ok (fixed, labels) => ({ d with labels }, .ok (some fixed))
    | .error e => (d, .error e)
  | .resolve =>
    let (segment, e) := d.labels.resolveSegment d.segment
    ({ d with segment }, e.elim (.ok none) .error)

/-- The draft after requests, whether they failed or not. -/
def after (d : Draft) (requests : List Request) : Draft :=
  requests.foldl (fun d request => (d.serve request).1) d

/-- Whether every label of the code has a name in the table. -/
def Ready (d : Draft) : Prop := ∀ i ∈ d.segment.instructions, ∀ l ∈ i.labels, d.labels.Fixes l.id

/-- The code with the names of the table. -/
def resolved (d : Draft) : Segment :=
  { d.segment with instructions := d.segment.instructions.map (Instr.relabel d.labels.named) }

variable {d : Draft}

lemma keeps_serve (d : Draft) (request : Request) : d.labels.Keeps (d.serve request).1.labels := by
  cases request with
  | allocate => exact .allocate d.labels
  | fix l name =>
    rw [serve]
    cases hfix : d.labels.fix l name with
    | ok r => exact .fix hfix
    | error e => exact .rfl
  | resolve => exact .rfl

lemma keeps_after (d : Draft) (requests : List Request) :
    d.labels.Keeps (d.after requests).labels := by
  induction requests generalizing d with
  | nil => exact .rfl
  | cons request rest ih => exact (keeps_serve d request).trans (ih (d.serve request).1)

/-- Requests make no difference to what a younger table gives for the code. -/
lemma resolveSegment_serve {t : LabelTable} (h : d.labels.Keeps t) (request : Request) :
    t.resolveSegment (d.serve request).1.segment = t.resolveSegment d.segment := by
  cases request with
  | allocate => rfl
  | fix l name =>
    rw [serve]
    cases d.labels.fix l name <;> rfl
  | resolve =>
    simp only [serve, LabelTable.resolveSegment, LabelTable.resolveCode_resolveCode h]

lemma resolveSegment_after {t : LabelTable} (requests : List Request)
    (h : (d.after requests).labels.Keeps t) :
    t.resolveSegment (d.after requests).segment = t.resolveSegment d.segment := by
  induction requests generalizing d with
  | nil => rfl
  | cons request rest ih =>
    have hrest : t.resolveSegment ((d.serve request).1.after rest).segment =
        t.resolveSegment (d.serve request).1.segment := ih h
    have hkeeps : d.labels.Keeps t :=
      ((keeps_serve d request).trans (keeps_after _ rest)).trans h
    exact hrest.trans (resolveSegment_serve hkeeps request)

lemma resolveSegment_of_keeps (hready : d.Ready) {t : LabelTable} (h : d.labels.Keeps t) :
    t.resolveSegment d.segment = (d.resolved, none) := by
  have hcode := LabelTable.resolveCode_of_fixes fun i hi l hl => h.fixes (hready i hi l hl)
  have hsame : ∀ i ∈ d.segment.instructions, i.relabel t.named = i.relabel d.labels.named := by
    intro i hi
    have hlabels : i.labels.map t.named = i.labels.map d.labels.named :=
      List.map_congr_left fun l hl => h.named (hready i hi l hl)
    rw [Instr.relabel, Instr.relabel, hlabels]
  rw [LabelTable.resolveSegment, hcode, List.map_congr_left hsame]
  rfl

section

variable {l : Label} {name : Nat}

lemma serve_fix_ok {answer : Option Label} (h : (d.serve (.fix l name)).2 = .ok answer) :
    ∃ fixed labels, d.labels.fix l name = .ok (fixed, labels) ∧ answer = some fixed ∧
      (d.serve (.fix l name)).1 = { d with labels } := by
  rw [serve] at h ⊢
  cases hfix : d.labels.fix l name with
  | ok r =>
    rw [hfix] at h
    cases h
    exact ⟨r.1, r.2, rfl, rfl, rfl⟩
  | error e =>
    rw [hfix] at h
    cases h

lemma exists_serve_fix_ok : (∃ answer, (d.serve (.fix l name)).2 = .ok answer) ↔
    ∃ id, l = .pending id ∧ d.labels.names[id]? = some none := by
  constructor
  · rintro ⟨answer, hanswer⟩
    obtain ⟨fixed, labels, hfix, -, -⟩ := serve_fix_ok hanswer
    obtain ⟨id, hpending, hnone, -, -⟩ := LabelTable.fix_ok.mp hfix
    exact ⟨id, hpending, hnone⟩
  · rintro ⟨id, hpending, hnone⟩
    have hok : d.labels.fix l name = .ok _ :=
      LabelTable.fix_ok.mpr ⟨id, hpending, hnone, rfl, rfl⟩
    exact ⟨_, by rw [serve, hok]⟩

lemma serve_fix_error {e : LoweringError} (h : (d.serve (.fix l name)).2 = .error e) :
    (d.serve (.fix l name)).1 = d := by
  rw [serve] at h ⊢
  cases hfix : d.labels.fix l name with
  | ok r =>
    rw [hfix] at h
    cases h
  | error e => rfl

end

lemma serve_resolve_ok : (d.serve .resolve).2 = .ok none ↔ d.Ready := by
  have hanswer : (d.serve .resolve).2 =
      (d.labels.resolveCode d.segment.instructions).2.elim (.ok none) .error := rfl
  rw [Ready, ← LabelTable.resolveCode_none, hanswer]
  cases (d.labels.resolveCode d.segment.instructions).2 <;> simp

lemma serve_resolve (hready : d.Ready) :
    d.serve .resolve = ({ d with segment := d.resolved }, .ok none) := by
  rw [serve, resolveSegment_of_keeps hready .rfl]
  rfl

/-- Code that is resolved already stays as it is. -/
lemma resolveSegment_resolved (hready : d.Ready) {t : LabelTable} (h : d.labels.Keeps t) :
    t.resolveSegment d.resolved = (d.resolved, none) := by
  have hretry : t.resolveSegment (d.serve .resolve).1.segment = t.resolveSegment d.segment :=
    resolveSegment_serve h .resolve
  rwa [serve_resolve hready, resolveSegment_of_keeps hready h] at hretry

lemma isFixed_resolved (d : Draft) :
    ∀ i ∈ d.resolved.instructions, ∀ l ∈ i.labels, l.isFixed = true := by
  intro i hi l hl
  obtain ⟨j, -, rfl⟩ := List.mem_map.mp hi
  rw [Instr.labels_relabel] at hl
  obtain ⟨m, -, rfl⟩ := List.mem_map.mp hl
  rfl

/-- What holds of any table and any code, and after any requests. Names never change. A label that is
allocated is pending and new to the table, which then has it without a name. A label gets a name
exactly if it is pending, allocated and without one. Then the table records the name and changes
nowhere else, and a request for a name that fails changes nothing. Resolving succeeds exactly if all
labels of the code have names. Then every label becomes the fixed one with the name in the table,
nothing else changes, the result can be rendered, and it is the same however often and after whatever
requests the code is resolved. Attempts that failed on the way, in the middle of the code or of an
instruction, do not show in what a later one gives. -/
theorem after_spec (d : Draft) (requests : List Request) :
    d.labels.Keeps (d.after requests).labels ∧
    (∃ id, (d.serve .allocate).2 = .ok (some (.pending id)) ∧ d.labels.names[id]? = none ∧
      (d.serve .allocate).1.segment = d.segment ∧
      ∀ id', (d.serve .allocate).1.labels.names[id']? =
        if id' = id then some none else d.labels.names[id']?) ∧
    (∀ l name, (∃ answer, (d.serve (.fix l name)).2 = .ok answer) ↔
      ∃ id, l = .pending id ∧ d.labels.names[id]? = some none) ∧
    (∀ l name answer, (d.serve (.fix l name)).2 = .ok answer →
      answer = some (.fixed l.id name) ∧ (d.serve (.fix l name)).1.segment = d.segment ∧
      ∀ id', (d.serve (.fix l name)).1.labels.names[id']? =
        if id' = l.id then some (some name) else d.labels.names[id']?) ∧
    (∀ l name e, (d.serve (.fix l name)).2 = .error e → (d.serve (.fix l name)).1 = d) ∧
    ((d.serve .resolve).2 = .ok none ↔ d.Ready) ∧
    (d.Ready →
      (d.serve .resolve).1 = { d with segment := d.resolved } ∧
      (∀ i ∈ d.segment.instructions,
        (i.relabel d.labels.named).labels = i.labels.map d.labels.named ∧
        (i.relabel d.labels.named).withLabels i.labels = i ∧
        ∀ l ∈ i.labels, ∃ name, d.labels.names[l.id]? = some (some name) ∧
          d.labels.named l = .fixed l.id name) ∧
      (∃ text, d.resolved.render = .ok text) ∧
      (d.after requests).labels.resolveSegment d.resolved = (d.resolved, none) ∧
      (d.after requests).labels.resolveSegment d.segment = (d.resolved, none)) ∧
    (d.after requests).labels.resolveSegment (d.after requests).segment =
      (d.after requests).labels.resolveSegment d.segment := by
  have hkeeps := keeps_after d requests
  refine ⟨hkeeps, ?allocates, fun l name => exists_serve_fix_ok, ?records,
    fun l name e => serve_fix_error, serve_resolve_ok, ?ready, resolveSegment_after requests .rfl⟩
  case allocates =>
    exact ⟨d.labels.size, rfl, List.getElem?_eq_none (Nat.le_refl _), rfl,
      d.labels.getElem?_allocate⟩
  case records =>
    intro l name answer hanswer
    obtain ⟨fixed, labels, hfix, rfl, hdraft⟩ := serve_fix_ok hanswer
    obtain ⟨id, rfl, -, rfl, -⟩ := LabelTable.fix_ok.mp hfix
    rw [hdraft]
    exact ⟨rfl, rfl, LabelTable.getElem?_fix hfix⟩
  case ready =>
    intro hready
    refine ⟨by rw [serve_resolve hready], fun i hi => ?_, Segment.render_ok d.isFixed_resolved,
      resolveSegment_resolved hready hkeeps, resolveSegment_of_keeps hready hkeeps⟩
    refine ⟨i.labels_relabel _, i.withLabels_relabel _, fun l hl => ?_⟩
    obtain ⟨name, hname⟩ := hready i hi l hl
    exact ⟨name, hname, LabelTable.named_of_name hname⟩

/-- A branch of which one label has a name and the other one is named otherwise. -/
def halfway : Draft where
  labels := ⟨[some 3, none]⟩
  segment := { instructions := [.branch (.temp 0 .bool) (.pending 0) (.fixed 1 9)] }

/-- Resolving it stops between the two labels. When the second one has its name, resolving the half
that is left gives what resolving the branch at the start would have given then. -/
theorem halfway_resolved_later :
    (halfway.serve .resolve).2 = .error (.unfixedLabel 1) ∧
    (halfway.after [.resolve]).segment.instructions =
      [.branch (.temp 0 .bool) (.fixed 0 3) (.fixed 1 9)] ∧
    (halfway.after [.resolve, .fix (.pending 1) 7, .resolve]).segment.instructions =
      [.branch (.temp 0 .bool) (.fixed 0 3) (.fixed 1 7)] ∧
    (⟨[some 3, some 7]⟩ : LabelTable).resolveSegment
        (halfway.after [.resolve, .fix (.pending 1) 7]).segment =
      (⟨[some 3, some 7]⟩ : LabelTable).resolveSegment halfway.segment :=
  ⟨rfl, by decide, by decide,
    (after_spec halfway [.resolve, .fix (.pending 1) 7]).2.2.2.2.2.2.2⟩

end Draft

end MiniC
