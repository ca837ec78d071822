import MiniC.Form.Tree
import MiniC.Proofs.CastErasure
import MiniC.Proofs.Decoding
import MiniC.Proofs.Operands

/-!
# Documents are read back

Every segment and every definition can be written as a document, and its decoder gives the same
value back. Numbers must have the width of their field, and doubles must be finite: all other ones
are written as `null`. A tree is read level by level, so one lemma says that a level is read back
where its parts are, and the induction is over the levels that are left.
-/

namespace MiniC

open Decoder

namespace Value

/-- Whether the numbers of the value have 32 and 64 bits, and a double is finite. -/
def isBounded : Value → Bool
  | .temp id _ | .slot id _ => decide (id < wordLimit)
  | .int value _ => decide (-0x8000000000000000 ≤ value ∧ value < 0x8000000000000000)
  | .float value _ => value.isFinite

end Value

def Label.isBounded : Label → Bool
  | .pending id => decide (id < wordLimit)
  | .fixed id name => decide (id < wordLimit) && decide (name < wordLimit)

namespace Instr

def align? : Instr → Option Nat
  | .alloca _ align | .store _ _ align | .load _ _ align => some align
  | _ => none

/-- Whether all numbers in the instruction have the widths of their fields. -/
def isBounded (i : Instr) : Bool :=
  i.results.all Value.isBounded && i.used.all Value.isBounded && i.labels.all Label.isBounded &&
    i.align?.all fun align => decide (align < alignLimit)

end Instr

def Segment.isBounded (s : Segment) : Bool :=
  s.instructions.all Instr.isBounded && s.result.all Value.isBounded

lemma Ty.decode_toJson (t : Ty) : Ty.decode.Recovers t.toJson t := by
  cases t <;> exact .unit _ rfl

lemma BinaryOp.decode_toJson (op : BinaryOp) : BinaryOp.decode.Recovers op.toJson op := by
  cases op <;> exact .unit _ rfl

lemma Relation.decode_toJson (relation : Relation) :
    Relation.decode.Recovers relation.toJson relation := by
  cases relation <;> exact .unit _ rfl

namespace Value

lemma toJson_ne_null (v : Value) : v.toJson ≠ .null := by
  cases v <;> exact Json.noConfusion

lemma decode_toJson {v : Value} (h : v.isBounded = true) : Value.decode.Recovers v.toJson v := by
  cases v with
  | temp id ty | slot id ty =>
    have hid : id < wordLimit := of_decide_eq_true h
    exact .tagged rfl rfl (.body (.record2 (by decide) (.required (.natBelow hid) _)
      (.required ty.decode_toJson _)))
  | int value ty =>
    exact .tagged rfl rfl (.body (.record2 (by decide) (.required (.intIn (of_decide_eq_true h)) _)
      (.required ty.decode_toJson _)))
  | float value ty =>
    exact .tagged rfl rfl (.body (.record2 (by decide) (.required (.real h) _)
      (.required ty.decode_toJson _)))

end Value

lemma Label.decode_toJson {l : Label} (h : l.isBounded = true) :
    Label.decode.Recovers l.toJson l := by
  cases l with
  | pending id => exact .tagged rfl rfl (.map _ (.natBelow (of_decide_eq_true h)))
  | fixed id name =>
    obtain ⟨hid, hname⟩ := Bool.and_eq_true_iff.mp h
    exact .tagged rfl rfl (.body (.record2 (by decide)
      (.required (.natBelow (of_decide_eq_true hid)) _)
      (.required (.natBelow (of_decide_eq_true hname)) _)))

lemma Instr.decode_toJson {i : Instr} (h : i.isBounded = true) :
    Instr.decode.Recovers i.toJson i := by
  simp only [isBounded, Bool.and_eq_true, List.all_eq_true, Option.all_eq_true,
    decide_eq_true_eq] at h
  obtain ⟨⟨⟨hresults, hused⟩, hlabels⟩, halign⟩ := h
  have result {v : Value} (hv : v ∈ i.results) (name : String) :
      (Member.required name Value.decode).Recovers v.toJson v :=
    .required (Value.decode_toJson (hresults v hv)) name
  have operand {v : Value} (hv : v ∈ i.used) (name : String) :
      (Member.required name Value.decode).Recovers v.toJson v :=
    .required (Value.decode_toJson (hused v hv)) name
  have target {l : Label} (hl : l ∈ i.labels) (name : String) :
      (Member.required name Label.decode).Recovers l.toJson l :=
    .required (Label.decode_toJson (hlabels l hl)) name
  have alignment {n : Nat} (hn : n ∈ i.align?) :
      (Member.required "align" align).Recovers (.nat n) n :=
    .required (.natBelow (halign n hn)) _
  cases i with
  | alloca slot align =>
    exact .tagged rfl rfl (.body (.record2 (by decide) (result (by simp [results]) _)
      (alignment rfl)))
  | store value slot align =>
    exact .tagged rfl rfl (.body (.record3 (by decide) (operand (by simp [used, operands]) _)
      (operand (by simp [used, operands]) _) (alignment rfl)))
  | load value slot align =>
    exact .tagged rfl rfl (.body (.record3 (by decide) (result (by simp [results]) _)
      (operand (by simp [used, operands]) _) (alignment rfl)))
  | binary value op lhs rhs =>
    exact .tagged rfl rfl (.body (.record4 (by decide) (result (by simp [results]) _)
      (.required op.decode_toJson _) (operand (by simp [used, operands]) _)
      (operand (by simp [used, operands]) _)))
  | icmp value relation lhs rhs =>
    exact .tagged rfl rfl (.body (.record4 (by decide) (result (by simp [results]) _)
      (.required relation.decode_toJson _) (operand (by simp [used, operands]) _)
      (operand (by simp [used, operands]) _)))
  | jump l => exact .tagged rfl rfl (.body (.record1 (target (by simp [labels]) _)))
  | branch condition onTrue onFalse =>
    exact .tagged rfl rfl (.body (.record3 (by decide) (operand (by simp [used, operands]) _)
      (target (by simp [labels]) _) (target (by simp [labels]) _)))
  | label l => exact .tagged rfl rfl (.map _ (Label.decode_toJson (hlabels l (by simp [labels]))))
  | phi value choices =>
    have hchoices : ∀ p ∈ choices,
        (pair Value.decode Label.decode).Recovers (incomingToJson p) p := fun p hp =>
      .pair (Value.decode_toJson (hused _ (List.mem_map_of_mem hp)))
        (Label.decode_toJson (hlabels _ (List.mem_map_of_mem hp)))
    exact .tagged rfl rfl (.body (.record2 (by decide) (result (by simp [results]) _)
      (.required (.list hchoices) _)))
  | zext value operand' =>
    exact .tagged rfl rfl (.body (.record2 (by decide) (result (by simp [results]) _)
      (operand (by simp [used, operands]) _)))
  | call value callee returnTy arguments =>
    have harguments : ∀ v ∈ arguments, Value.decode.Recovers v.toJson v := fun v hv =>
      Value.decode_toJson (hused v (List.mem_append_left _ hv))
    have hvalue : ∀ v ∈ value, Value.decode.Recovers v.toJson v := fun v hv =>
      Value.decode_toJson (hresults v (Option.mem_toList.mpr hv))
    exact .tagged rfl rfl (.body (.record4 (by decide) (.optional _ Value.toJson_ne_null hvalue)
      (.required (.string callee) _) (.required returnTy.decode_toJson _)
      (.required (.list harguments) _)))
  | functionBegin name returnTy params =>
    have hparams : ∀ v ∈ params, Value.decode.Recovers v.toJson v := fun v hv =>
      Value.decode_toJson (hresults v hv)
    exact .tagged rfl rfl (.body (.record3 (by decide) (.required (.string name) _)
      (.required returnTy.decode_toJson _) (.required (.list hparams) _)))
  | functionEnd => exact .unit _ rfl
  | ret value =>
    have hvalue : ∀ v ∈ value, Value.decode.Recovers v.toJson v := fun v hv =>
      Value.decode_toJson (hused v (List.mem_append_left _ (Option.mem_toList.mpr hv)))
    exact .tagged rfl rfl (.body (.record1 (.optional _ Value.toJson_ne_null hvalue)))

lemma Segment.decode_toJson {s : Segment} (h : s.isBounded = true) :
    Segment.decode.Recovers s.toJson s := by
  simp only [isBounded, Bool.and_eq_true, List.all_eq_true, Option.all_eq_true] at h
  exact .record2 (by decide) (.required (.list fun i hi => Instr.decode_toJson (h.1 i hi)) _)
    (.optional _ Value.toJson_ne_null fun v hv => Value.decode_toJson (h.2 v hv))

lemma ArithOp.decode_toJson (op : ArithOp) : ArithOp.decode.Recovers op.toJson op := by
  cases op <;> exact .unit _ rfl

lemma CompareOp.decode_toJson (op : CompareOp) : CompareOp.decode.Recovers op.toJson op := by
  cases op <;> exact .unit _ rfl

namespace Expr

/-- Whether the expression itself is a number that no document holds: an integer of more than 32
bits, or a double that is not finite. -/
def isUnbounded : Expr → Bool
  | .int value => !decide (-0x80000000 ≤ value ∧ value < 0x80000000)
  | .preIncrement _ delta | .postIncrement _ delta =>
    !decide (-0x80000000 ≤ delta ∧ delta < 0x80000000)
  | .float value => !value.isFinite
  | _ => false

lemma listToJson_eq_map (es : List Expr) : listToJson es = es.map toJson := by
  induction es with
  | nil => rfl
  | cons e es ih => rw [listToJson, ih, List.map_cons]

lemma toJson_ne_null (e : Expr) : e.toJson ≠ .null := by
  cases e <;> simp [toJson, Json.tagged]

/-- The expressions right below an expression. -/
def parts : Expr → List Expr
  | .arith _ left right | .compare _ left right | .logicalAnd left right
  | .logicalOr left right => [left, right]
  | .boolCast e | .assign _ e => [e]
  | .conditional condition onTrue onFalse => [condition, onTrue, onFalse]
  | .call _ arguments => arguments
  | .int _ | .float _ | .var _ | .preIncrement .. | .postIncrement .. => []

lemma any_eq (p : Expr → Bool) (e : Expr) : e.any p = (p e || e.parts.any (any p)) := by
  cases e <;> simp [any, parts, listAny_eq_any, Bool.or_assoc]

lemma depth_toJson_pos (e : Expr) : 0 < e.toJson.depth := by
  cases e <;> simp [toJson]

/-- The parts of an expression stand inside of its own object. -/
lemma depth_toJson_lt {e part : Expr} (h : part ∈ e.parts) :
    part.toJson.depth < e.toJson.depth := by
  cases e with
  | int | float | var | preIncrement | postIncrement => cases h
  | call callee arguments =>
    have hle : part.toJson.depth ≤ Json.depthOfItems (listToJson arguments) := by
      rw [listToJson_eq_map]
      exact Json.depth_le_of_mem (List.mem_map_of_mem h)
    simp only [toJson, Json.depth_tagged, Json.depth_obj, Json.depth_arr, Json.depthOfMembers]
    omega
  | _ =>
    simp only [parts, List.mem_cons, List.not_mem_nil, or_false] at h
    simp only [toJson, Json.depth_tagged, Json.depth_obj, Json.depthOfMembers]
    rcases h with rfl | rfl | rfl <;> omega

/-- One level of an expression is read back where its parts are. -/
lemma decodeWith_toJson {nested : Decoder Expr} {e : Expr} (h : e.isUnbounded = false)
    (hparts : ∀ part ∈ e.parts, nested.Recovers part.toJson part) :
    (decodeWith nested).Recovers e.toJson e := by
  have part {e' : Expr} (he : e' ∈ e.parts) (name : String) :
      (Member.required name nested).Recovers e'.toJson e' := .required (hparts e' he) name
  cases e with
  | int value => exact .tagged rfl rfl (.map _ (.intIn (by simpa [isUnbounded] using h)))
  | float value => exact .tagged rfl rfl (.map _ (.real (by simpa [isUnbounded] using h)))
  | var name => exact .tagged rfl rfl (.map _ (.string name))
  | preIncrement name delta | postIncrement name delta =>
    exact .tagged rfl rfl (.body (.record2 (by simp) (.required (.string name) _)
      (.required (.intIn (by simpa [isUnbounded] using h)) _)))
  | arith op left right | compare op left right =>
    exact .tagged rfl rfl (.body (.record3 (by simp) (.required op.decode_toJson _)
      (part (by simp [parts]) _) (part (by simp [parts]) _)))
  | logicalAnd left right | logicalOr left right =>
    exact .tagged rfl rfl (.body (.record2 (by simp) (part (by simp [parts]) _)
      (part (by simp [parts]) _)))
  | boolCast operand => exact .tagged rfl rfl (.map _ (hparts operand (by simp [parts])))
  | conditional condition onTrue onFalse =>
    exact .tagged rfl rfl (.body (.record3 (by simp) (part (by simp [parts]) _)
      (part (by simp [parts]) _) (part (by simp [parts]) _)))
  | assign target value =>
    exact .tagged rfl rfl (.body (.record2 (by simp) (.required (.string target) _)
      (part (by simp [parts]) _)))
  | call callee arguments =>
    rw [toJson, listToJson_eq_map]
    exact .tagged rfl rfl (.body (.record2 (by simp) (.required (.string callee) _)
      (.required (.list hparts) _)))

lemma decodeIn_toJson {levels : Nat} {e : Expr} (h : e.any isUnbounded = false)
    (hlevels : e.toJson.depth ≤ levels) : (decodeIn levels).Recovers e.toJson e := by
  induction levels generalizing e with
  | zero => exact absurd hlevels (Nat.not_le_of_gt e.depth_toJson_pos)
  | succ levels ih =>
    rw [any_eq, Bool.or_eq_false_iff, List.any_eq_false] at h
    refine decodeWith_toJson h.1 fun part hpart => ih (Bool.eq_false_iff.mpr (h.2 part hpart)) ?_
    have hlt := depth_toJson_lt hpart
    omega

lemma decode_toJson {e : Expr} (h : e.any isUnbounded = false) : decode.Recovers e.toJson e :=
  fun here hroom => decodeIn_toJson h hroom here hroom

end Expr

lemma Declarator.decode_toJson {d : Declarator} (h : d.any Expr.isUnbounded = false) :
    Declarator.decode.Recovers d.toJson d := by
  have hinitializer : ∀ e ∈ d.initializer, Expr.decode.Recovers e.toJson e := fun e he =>
    Expr.decode_toJson ((Option.any_eq_false _ _).mp h e he)
  exact .record3 (by simp) (.required (.string _) _) (.required d.ty.decode_toJson _)
    (.optional _ Expr.toJson_ne_null hinitializer)

lemma any_toList {α : Type} (p : α → Bool) (o : Option α) : o.toList.any p = o.any p := by
  cases o <;> simp

namespace Stmt

lemma listToJson_eq_map (body : List Stmt) : listToJson body = body.map toJson := by
  induction body with
  | nil => rfl
  | cons s body ih => rw [listToJson, ih, List.map_cons]

lemma optionToJson_eq (o : Option Stmt) : optionToJson o = Json.option toJson o := by
  cases o <;> rfl

lemma toJson_ne_null (s : Stmt) : s.toJson ≠ .null := by
  cases s <;> simp [toJson, Json.tagged]

/-- The statements right below a statement. -/
def parts : Stmt → List Stmt
  | .compound body => body
  | .ifElse _ onTrue onFalse => onTrue :: onFalse.toList
  | .whileLoop _ body => [body]
  | .forLoop init _ _ body => body :: init.toList
  | .expression _ | .declaration _ | .ret _ | .brk | .cont => []

/-- The expressions right below a statement. -/
def exprs : Stmt → List Expr
  | .expression e | .ifElse e .. | .whileLoop e _ => [e]
  | .declaration ds => ds.flatMap fun d => d.initializer.toList
  | .forLoop _ condition step _ => condition.toList ++ step.toList
  | .ret value => value.toList
  | .compound _ | .brk | .cont => []

lemma any_eq (p : Expr → Bool) (s : Stmt) :
    s.any p = (s.exprs.any (Expr.any p) || s.parts.any (any p)) := by
  cases s with
  | declaration ds =>
    simp only [any, exprs, parts, List.any_flatMap, any_toList, List.any_nil, Bool.or_false]
    rfl
  | compound body => simp [any, exprs, parts, listAny_eq_any]
  | ifElse condition onTrue onFalse =>
    cases onFalse <;> simp [any, exprs, parts, Bool.or_assoc]
  | forLoop init condition step body =>
    simp only [any_forLoop, exprs, parts, List.any_append, List.any_cons, any_toList]
    ac_rfl
  | _ => simp [any, exprs, parts, any_toList]

lemma depth_toJson_lt {s part : Stmt} (h : part ∈ s.parts) :
    part.toJson.depth < s.toJson.depth := by
  cases s with
  | expression | declaration | ret | brk | cont => cases h
  | compound body =>
    have hle : part.toJson.depth ≤ Json.depthOfItems (listToJson body) := by
      rw [listToJson_eq_map]
      exact Json.depth_le_of_mem (List.mem_map_of_mem h)
    simp only [toJson, Json.depth_tagged, Json.depth_arr]
    omega
  | whileLoop condition body =>
    rw [parts, List.mem_singleton] at h
    simp only [toJson, Json.depth_tagged, Json.depth_obj, Json.depthOfMembers, h]
    omega
  | ifElse condition onTrue onFalse =>
    simp only [toJson, Json.depth_tagged, Json.depth_obj, Json.depthOfMembers]
    rcases List.mem_cons.mp h with rfl | h
    · omega
    · rw [Option.mem_toList.mp h, optionToJson]
      omega
  | forLoop init condition step body =>
    simp only [toJson, Json.depth_tagged, Json.depth_obj, Json.depthOfMembers]
    rcases List.mem_cons.mp h with rfl | h
    · omega
    · rw [Option.mem_toList.mp h, optionToJson]
      omega

/-- One level of a statement is read back where its parts are. -/
lemma decodeWith_toJson {nested : Decoder Stmt} {s : Stmt}
    (hexprs : ∀ e ∈ s.exprs, e.any Expr.isUnbounded = false)
    (hparts : ∀ part ∈ s.parts, nested.Recovers part.toJson part) :
    (decodeWith nested).Recovers s.toJson s := by
  have expr {e : Expr} (he : e ∈ s.exprs) : Expr.decode.Recovers e.toJson e :=
    Expr.decode_toJson (hexprs e he)
  cases s with
  | expression e => exact .tagged rfl rfl (.map _ (expr (by simp [exprs])))
  | declaration ds =>
    have hds : ∀ d ∈ ds, Declarator.decode.Recovers d.toJson d := fun d hd =>
      Declarator.decode_toJson ((Option.any_eq_false _ _).mpr fun e he =>
        hexprs e (List.mem_flatMap.mpr ⟨d, hd, Option.mem_toList.mpr he⟩))
    exact .tagged rfl rfl (.map _ (.list hds))
  | compound body =>
    rw [toJson, listToJson_eq_map]
    exact .tagged rfl rfl (.map _ (.list hparts))
  | ifElse condition onTrue onFalse =>
    have hfalse : ∀ x ∈ onFalse, nested.Recovers x.toJson x := fun x hx =>
      hparts x (List.mem_cons_of_mem _ (Option.mem_toList.mpr hx))
    rw [toJson, optionToJson_eq]
    exact .tagged rfl rfl (.body (.record3 (by simp) (.required (expr (by simp [exprs])) _)
      (.required (hparts onTrue (by simp [parts])) _) (.optional _ toJson_ne_null hfalse)))
  | whileLoop condition body =>
    exact .tagged rfl rfl (.body (.record2 (by simp) (.required (expr (by simp [exprs])) _)
      (.required (hparts body (by simp [parts])) _)))
  | forLoop init condition step body =>
    have hinit : ∀ x ∈ init, nested.Recovers x.toJson x := fun x hx =>
      hparts x (List.mem_cons_of_mem _ (Option.mem_toList.mpr hx))
    have hcondition : ∀ e ∈ condition, Expr.decode.Recovers e.toJson e := fun e he =>
      expr (List.mem_append_left _ (Option.mem_toList.mpr he))
    have hstep : ∀ e ∈ step, Expr.decode.Recovers e.toJson e := fun e he =>
      expr (List.mem_append_right _ (Option.mem_toList.mpr he))
    rw [toJson, optionToJson_eq]
    exact .tagged rfl rfl (.body (.record4 (by simp) (.optional _ toJson_ne_null hinit)
      (.optional _ Expr.toJson_ne_null hcondition) (.optional _ Expr.toJson_ne_null hstep)
      (.required (hparts body (by simp [parts])) _)))
  | ret value =>
    have hvalue : ∀ e ∈ value, Expr.decode.Recovers e.toJson e := fun e he =>
      expr (Option.mem_toList.mpr he)
    exact .tagged rfl rfl (.map _ (.option Expr.toJson_ne_null hvalue))
  | brk | cont => exact .unit _ rfl

lemma decodeIn_toJson {levels : Nat} {s : Stmt} (h : s.any Expr.isUnbounded = false)
    (hlevels : s.toJson.depth < levels) : (decodeIn levels).Recovers s.toJson s := by
  induction levels generalizing s with
  | zero => cases hlevels
  | succ levels ih =>
    rw [any_eq, Bool.or_eq_false_iff, List.any_eq_false, List.any_eq_false] at h
    refine decodeWith_toJson (fun e he => Bool.eq_false_iff.mpr (h.1 e he)) fun part hpart =>
      ih (Bool.eq_false_iff.mpr (h.2 part hpart)) ?_
    have hlt := depth_toJson_lt hpart
    omega

lemma decode_toJson {s : Stmt} (h : s.any Expr.isUnbounded = false) : decode.Recovers s.toJson s :=
  fun here hroom => decodeIn_toJson h (Nat.lt_succ_of_le hroom) here hroom

end Stmt

/-- Whether all numbers in the definition have 32 bits or are finite doubles. -/
def Definition.isBounded (d : Definition) : Bool := !d.any Expr.isUnbounded

lemma Param.decode_toJson (p : Param) : Param.decode.Recovers p.toJson p :=
  .record2 (by decide) (.required (.string _) _) (.required p.ty.decode_toJson _)

lemma Definition.decode_toJson {d : Definition} (h : d.isBounded = true) :
    Definition.decode.Recovers d.toJson d := by
  rw [isBounded, Bool.not_eq_true', any, Stmt.listAny_eq_any, List.any_eq_false] at h
  have hbody : ∀ s ∈ d.body, Stmt.decode.Recovers s.toJson s := fun s hs =>
    Stmt.decode_toJson (Bool.eq_false_iff.mpr (h s hs))
  rw [toJson, Stmt.listToJson_eq_map]
  exact .record4 (by simp) (.required (.string _) _) (.required d.returnTy.decode_toJson _)
    (.required (.list fun p _ => p.decode_toJson) _) (.required (.list hbody) _)

/-- Segments and definitions whose numbers have the widths of their fields, and whose doubles are
finite, come back from their documents: from one held in memory however deep it is, and from a text
as long as it is not deeper than texts may be. -/
theorem documents_read_back :
    (∀ s : Segment, s.isBounded = true →
      Segment.decode.ofDocument? s.toJson = some s ∧
      ∀ text, Json.parse? text = some s.toJson → s.toJson.depth ≤ Json.maxDepth →
        Segment.decode.ofText? text = some s) ∧
    ∀ d : Definition, d.isBounded = true →
      Definition.decode.ofDocument? d.toJson = some d ∧
      ∀ text, Json.parse? text = some d.toJson → d.toJson.depth ≤ Json.maxDepth →
        Definition.decode.ofText? text = some d := by
  refine ⟨fun s hs => ?_, fun d hd => ?_⟩
  · have h := Segment.decode_toJson hs
    exact ⟨h.ofDocument?, fun text => h.ofText?⟩
  · have h := Definition.decode_toJson hd
    exact ⟨h.ofDocument?, fun text => h.ofText?⟩

/-- A segment with labels of both kinds, and with numbers at the ends of their ranges. -/
def extremeSegment : Segment where
  instructions :=
    [.functionBegin "f\"" .void [.slot 0 .float],
      .phi (.temp 0xffffffff .i64) [(.int (-0x8000000000000000) .i64, .pending 0xffffffff),
        (.int 0x7fffffffffffffff .i64, .fixed 0 7)],
      .call none "puts" .void [.float ⟨0xbff8000000000000⟩ .double],
      .ret none, .functionEnd]
  result := some (.temp 3 .bool)

def nestedDefinition : Definition where
  name := "f"
  returnTy := .void
  params := [⟨"a", .i8⟩]
  body :=
    [.ifElse (.boolCast (.call "g" [.int (-0x80000000), .float ⟨0x3ff8000000000000⟩]))
      (.forLoop (some (.declaration [⟨"b", .double, none⟩])) none (some (.postIncrement "a" (-1)))
        (.compound [.ret none, .brk]))
      none]

theorem extremes_read_back : extremeSegment.isBounded = true ∧ nestedDefinition.isBounded = true ∧
    Segment.decode.ofDocument? extremeSegment.toJson = some extremeSegment ∧
    Definition.decode.ofDocument? nestedDefinition.toJson = some nestedDefinition ∧
    Segment.decode.ofText? "\x7b\"instructions\":[\"FunctionEnd\"],\"result\":null\x7d" =
      some ⟨[.functionEnd], none⟩ := by
  have hs : extremeSegment.isBounded = true := by decide
  have hd : nestedDefinition.isBounded = true := by decide
  obtain ⟨hsegments, hdefinitions⟩ := documents_read_back
  exact ⟨hs, hd, (hsegments _ hs).1, (hdefinitions _ hd).1,
    (hsegments ⟨[.functionEnd], none⟩ (by decide)).2 _ (by cbv) (by decide)⟩

end MiniC
