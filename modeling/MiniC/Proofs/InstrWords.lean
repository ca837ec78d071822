import MiniC.Instr
import MiniC.Proofs.TreeShapes

/-!
# The words of instructions

The text of an instruction is one line, which falls into words: the texts of its operands, types and
labels and the words of its own, with blanks, commas, brackets and the sign of functions between
them. `Instr.words` lists them, and `Instr.wordsOf_text` says that these are the words of the text,
if labels have names and functions are called by names.
-/

namespace MiniC

/-- Whether the character stands between words. -/
def isSpacing (c : Char) : Bool :=
  c == ' ' || c == '\n' || c == ',' || c == '(' || c == ')' || c == '@'

/-- What stands between the spacing of a text. -/
def wordsOf (text : String) : List String :=
  ((text.toList.splitOnP isSpacing).filter (· ≠ [])).map String.ofList

structure IsWord (text : String) : Prop where
  nonempty : text.toList ≠ []
  solid : ∀ c ∈ text.toList, isSpacing c = false

/-- Whether the text holds no line end. -/
def IsLine (text : String) : Prop := '\n' ∉ text.toList

instance (text : String) : Decidable (IsLine text) :=
  inferInstanceAs (Decidable ('\n' ∉ text.toList))

lemma isLine_append {a b : String} : IsLine (a ++ b) ↔ IsLine a ∧ IsLine b := by
  simp [IsLine, String.toList_append]

lemma IsLine.intercalate {sep : String} (hsep : IsLine sep) {parts : List String}
    (h : ∀ part ∈ parts, IsLine part) : IsLine (String.intercalate sep parts) := by
  induction parts with
  | nil => simp [IsLine]
  | cons part rest ih =>
    obtain ⟨hpart, hrest⟩ := List.forall_mem_cons.mp h
    cases rest with
    | nil => rwa [String.intercalate_singleton]
    | cons next rest =>
      rw [String.intercalate_cons_cons, isLine_append, isLine_append]
      exact ⟨⟨hpart, hsep⟩, ih hrest⟩

/-- Spacing on one side of the border separates the words of two texts. -/
lemma wordsOf_append {a b : String}
    (h : a.toList.getLast?.any isSpacing = true ∨ b.toList.head?.any isSpacing = true) :
    wordsOf (a ++ b) = wordsOf a ++ wordsOf b := by
  have hsplit : ∀ (xs ys : List Char) {c : Char}, isSpacing c = true →
      ((xs ++ c :: ys).splitOnP isSpacing).filter (· ≠ []) =
        (xs.splitOnP isSpacing).filter (· ≠ []) ++ (ys.splitOnP isSpacing).filter (· ≠ []) := by
    intro xs ys c hc
    rw [List.splitOnP_append_cons xs ys hc, List.filter_append]
  unfold wordsOf
  rw [String.toList_append, ← List.map_append]
  apply congrArg (List.map String.ofList)
  rcases h with h | h
  · obtain ⟨c, hlast, hc⟩ := (Option.any_eq_true _ _).mp h
    obtain ⟨front, ha⟩ := List.getLast?_eq_some_iff.mp hlast
    have hfront := hsplit front [] hc
    rw [ha, List.append_assoc, List.singleton_append, hsplit front b.toList hc, hfront]
    simp
  · obtain ⟨c, hhead, hc⟩ := (Option.any_eq_true _ _).mp h
    obtain ⟨back, hb⟩ := List.head?_eq_some_iff.mp hhead
    have hback := hsplit [] back hc
    rw [List.nil_append] at hback
    rw [hb, hsplit a.toList back hc, hback]
    simp

/-- A text that begins and ends with spacing separates its neighbours. -/
lemma wordsOf_between {a b : String} (s : String)
    (h : (s.toList.head?.any isSpacing && s.toList.getLast?.any isSpacing) = true) :
    wordsOf (a ++ s ++ b) = wordsOf a ++ wordsOf s ++ wordsOf b := by
  obtain ⟨hfirst, hlast⟩ := Bool.and_eq_true_iff.mp h
  have hends : (a ++ s).toList.getLast?.any isSpacing = true := by
    obtain ⟨c, hc, hspacing⟩ := (Option.any_eq_true _ _).mp hlast
    rw [String.toList_append, List.getLast?_append, hc]
    exact hspacing
  rw [wordsOf_append (.inl hends), wordsOf_append (.inr hfirst)]

lemma isSpacing_of_isDigit {c : Char} (h : c.isDigit = true) : isSpacing c = false := by
  refine Bool.eq_false_iff.mpr fun hspacing => ?_
  simp only [isSpacing, Bool.or_eq_true, beq_iff_eq] at hspacing
  rcases hspacing with ((((rfl | rfl) | rfl) | rfl) | rfl) | rfl <;> cases h

namespace IsWord

variable {a b : String}

lemma wordsOf (h : IsWord a) : wordsOf a = [a] := by
  rw [MiniC.wordsOf, List.splitOnP_eq_singleton h.solid, List.filter_cons_of_pos]
  · simp
  · simpa using h.nonempty

lemma isLine (h : IsWord a) : IsLine a := by
  intro hmem
  cases h.solid _ hmem

lemma append (ha : IsWord a) (hb : IsWord b) : IsWord (a ++ b) where
  nonempty := by simp [ha.nonempty]
  solid := by
    rw [String.toList_append]
    exact List.forall_mem_append.mpr ⟨ha.solid, hb.solid⟩

/-- Texts of a few characters are checked one by one. -/
lemma of_check (h : (!a.toList.isEmpty && a.toList.all fun c => !isSpacing c) = true) :
    IsWord a := by
  simp only [Bool.and_eq_true, Bool.not_eq_true', List.isEmpty_eq_false_iff, List.all_eq_true] at h
  exact ⟨h.1, h.2⟩

lemma nat (n : Nat) : IsWord (toString n) where
  nonempty := by
    rw [Nat.toString_eq_ofList_toDigits, String.toList_ofList]
    exact Nat.toDigits_ne_nil
  solid := by
    rw [Nat.toString_eq_ofList_toDigits, String.toList_ofList]
    intro c hc
    exact isSpacing_of_isDigit (Nat.isDigit_of_mem_toDigits (by decide) (by decide) hc)

lemma int (n : Int) : IsWord (toString n) := by
  cases n with
  | ofNat n => exact nat n
  | negSucc n => exact (of_check (a := "-") rfl).append (nat (n + 1))

/-- Names hold letters and underscores only. -/
lemma name {name : String} (h : IsName name) : IsWord name where
  nonempty := h.nonempty
  solid c hc := by
    refine Bool.eq_false_iff.mpr fun hspacing => ?_
    have hword := h.word c hc
    simp only [isSpacing, Bool.or_eq_true, beq_iff_eq] at hspacing
    rcases hspacing with ((((rfl | rfl) | rfl) | rfl) | rfl) | rfl <;> simp at hword

lemma ty (ty : Ty) : IsWord ty.text := of_check (by cases ty <;> rfl)

lemma binaryOp (op : BinaryOp) : IsWord op.text := of_check (by cases op <;> rfl)

lemma relation (relation : Relation) : IsWord relation.text := of_check (by cases relation <;> rfl)

/-- Doubles are written with digits, a point, signs, the `e` of an exponent, or as words. -/
lemma binary64 (places : Nat) (x : Binary64) : IsWord (x.scientificText places) := by
  have hdigits (n : Nat) : ∀ c ∈ Nat.toDigits 10 n, isSpacing c = false := fun c hc =>
    isSpacing_of_isDigit (Nat.isDigit_of_mem_toDigits (by decide) (by decide) hc)
  have hchars (d : Digits) : ∀ c ∈ d.chars, isSpacing c = false := by
    intro c hc
    rcases List.mem_append.mp hc with hc | hc
    · rw [(List.mem_replicate.mp hc).2]
      rfl
    · exact hdigits d.value c hc
  have hscientific (d : Digits) : ∀ c ∈ d.scientific, isSpacing c = false := by
    intro c hc
    simp only [Digits.scientific, List.mem_append, List.mem_cons] at hc
    rcases hc with (hc | hc) | rfl | hc
    · exact hchars d c (List.mem_of_mem_take hc)
    · split at hc
      · cases hc
      · rcases List.mem_cons.mp hc with rfl | hc
        · rfl
        · exact hchars d c (List.mem_of_mem_drop hc)
    · rfl
    · exact (int (d.point - 1)).solid c hc
  have hsigned (d : Digits) : IsWord (x.signed d.scientific) := by
    have hne : d.scientific ≠ [] := by simp [Digits.scientific]
    unfold Binary64.signed
    constructor <;> rw [String.toList_ofList]
    · split <;> split <;> simp [hne]
      split <;> simp
    · have hbody : ∀ c ∈ (if x.isFinite then d.scientific
          else if x.isInfinite then "inf".toList else "NaN".toList), isSpacing c = false := by
        split
        · exact hscientific d
        · split
          · exact (of_check (a := "inf") rfl).solid
          · exact (of_check (a := "NaN") rfl).solid
      split
      · exact List.forall_mem_cons.mpr ⟨rfl, hbody⟩
      · exact hbody
  unfold Binary64.scientificText
  split
  · exact hsigned _
  · exact hsigned _

lemma value (v : Value) : IsWord v.text := by
  cases v with
  | temp id ty | slot id ty => exact (of_check (a := "%") rfl).append (nat id)
  | int n ty => exact int n
  | float x ty => exact binary64 _ x

lemma label {l : Label} (h : l.isFixed = true) : IsWord l.text := by
  cases l with
  | fixed id name => exact nat name
  | pending id => cases h

/-- A label that is named as a target. -/
lemma target {l : Label} (h : l.isFixed = true) : IsWord ("%" ++ l.text) :=
  (of_check rfl).append (label h)

end IsWord

lemma Ty.isLine_text (ty : Ty) : IsLine ty.text := (IsWord.ty ty).isLine

lemma Value.isLine_text (v : Value) : IsLine v.text := (IsWord.value v).isLine

lemma Value.isLine_typedText (v : Value) : IsLine v.typedText := by
  rw [typedText, isLine_append, isLine_append]
  exact ⟨⟨v.ty.isLine_text, by decide⟩, v.isLine_text⟩

/-- The words of operands, each behind its type. -/
def typedWords (values : List Value) : List String :=
  values.flatMap fun v => [v.ty.text, v.text]

lemma Value.wordsOf_typedText (v : Value) : wordsOf v.typedText = [v.ty.text, v.text] := by
  rw [typedText, wordsOf_between " " rfl, (IsWord.ty v.ty).wordsOf, (IsWord.value v).wordsOf]
  rfl

/-- Spacing between the parts of a list separates their words. -/
lemma wordsOf_intercalate {sep : String}
    (h : (sep.toList.head?.any isSpacing && sep.toList.getLast?.any isSpacing) = true)
    (hsep : wordsOf sep = []) (parts : List String) :
    wordsOf (String.intercalate sep parts) = parts.flatMap wordsOf := by
  induction parts with
  | nil => rfl
  | cons part rest ih =>
    cases rest with
    | nil => simp
    | cons next rest =>
      rw [String.intercalate_cons_cons, wordsOf_between sep h, ih, hsep, List.append_nil]
      rfl

namespace Instr

lemma wordsOf_argumentsText (values : List Value) :
    wordsOf (argumentsText values) = typedWords values := by
  unfold argumentsText typedWords
  rw [wordsOf_intercalate rfl rfl, List.flatMap_map]
  exact List.flatMap_congr fun v _ => v.wordsOf_typedText

lemma wordsOf_incomingText {v : Value} {l : Label} (h : l.isFixed = true) :
    wordsOf (incomingText (v, l)) = ["[", v.text, "%" ++ l.text, "]"] := by
  have htext : incomingText (v, l) = " [ " ++ v.text ++ ", " ++ ("%" ++ l.text) ++ " ]" := by
    have hcomma : (", %" : String) = ", " ++ "%" := rfl
    rw [incomingText, hcomma]
    simp only [String.append_assoc]
  rw [htext, wordsOf_append (.inr rfl), wordsOf_between ", " rfl, wordsOf_append (.inl rfl),
    (IsWord.value v).wordsOf, (IsWord.target h).wordsOf]
  rfl

/-- The names of functions in the instruction. -/
def names : Instr → List String
  | .call _ callee .. => [callee]
  | .functionBegin name .. => [name]
  | _ => []

/-- Whether labels have names and functions are called by names. -/
structure Spelled (i : Instr) : Prop where
  labels : ∀ l ∈ i.labels, l.isFixed = true
  names : ∀ name ∈ i.names, IsName name

/-- The words of an instruction. -/
def words : Instr → List String
  | .alloca slot align => [slot.text, "=", "alloca", slot.ty.text, "align", toString align]
  | .store value slot align =>
    ["store", value.ty.text, value.text, "ptr", slot.text, "align", toString align]
  | .load result slot align =>
    [result.text, "=", "load", result.ty.text, "ptr", slot.text, "align", toString align]
  | .binary result op lhs rhs => [result.text, "=", op.text, result.ty.text, lhs.text, rhs.text]
  | .icmp result relation lhs rhs =>
    [result.text, "=", "icmp", relation.text, lhs.ty.text, lhs.text, rhs.text]
  | .jump target => ["br", "label", "%" ++ target.text]
  | .branch condition onTrue onFalse =>
    ["br", "i1", condition.text, "label", "%" ++ onTrue.text, "label", "%" ++ onFalse.text]
  | .label l => [l.text ++ ":"]
  | .phi result incoming =>
    [result.text, "=", "phi", result.ty.text] ++
      incoming.flatMap fun x => ["[", x.1.text, "%" ++ x.2.text, "]"]
  | .zext result value =>
    [result.text, "=", "zext", value.ty.text, value.text, "to", result.ty.text]
  | .call result callee returnTy arguments =>
    (result.map fun r => [r.text, "="]).getD [] ++ ["call", returnTy.text, callee] ++
      typedWords arguments
  | .functionBegin name returnTy params =>
    ["define", returnTy.text, name] ++ typedWords params ++ ["\x7b"]
  | .functionEnd => ["\x7d"]
  | .ret (some value) => ["ret", value.ty.text, value.text]
  | .ret none => ["ret", "void"]

/-- The words of an instruction are those of its text. -/
lemma wordsOf_text {i : Instr} (h : i.Spelled) : wordsOf i.text = i.words := by
  cases i with
  | alloca slot align =>
    rw [text, wordsOf_between ", align " rfl, wordsOf_between " = alloca " rfl,
      (IsWord.value slot).wordsOf, (IsWord.ty slot.ty).wordsOf, (IsWord.nat align).wordsOf]
    rfl
  | store value slot align =>
    rw [text, wordsOf_between ", align " rfl, wordsOf_between ", ptr " rfl,
      wordsOf_append (.inl rfl), value.wordsOf_typedText, (IsWord.value slot).wordsOf,
      (IsWord.nat align).wordsOf]
    rfl
  | load result slot align =>
    rw [text, wordsOf_between ", align " rfl, wordsOf_between ", ptr " rfl,
      wordsOf_between " = load " rfl, (IsWord.value result).wordsOf,
      (IsWord.ty result.ty).wordsOf, (IsWord.value slot).wordsOf, (IsWord.nat align).wordsOf]
    rfl
  | binary result op lhs rhs =>
    rw [text, wordsOf_between ", " rfl, wordsOf_between " " rfl, wordsOf_between " " rfl,
      wordsOf_between " = " rfl, (IsWord.value result).wordsOf, (IsWord.binaryOp op).wordsOf,
      (IsWord.ty result.ty).wordsOf, (IsWord.value lhs).wordsOf, (IsWord.value rhs).wordsOf]
    rfl
  | icmp result relation lhs rhs =>
    rw [text, wordsOf_between ", " rfl, wordsOf_between " " rfl, wordsOf_between " = icmp " rfl,
      (IsWord.value result).wordsOf, (IsWord.relation relation).wordsOf, lhs.wordsOf_typedText,
      (IsWord.value rhs).wordsOf]
    rfl
  | jump target =>
    have htext : (jump target).text = "br label " ++ ("%" ++ target.text) := by
      rw [text, ← String.append_assoc]
      rfl
    have htarget := h.labels target List.mem_cons_self
    rw [htext, wordsOf_append (.inl rfl), (IsWord.target htarget).wordsOf]
    rfl
  | branch condition onTrue onFalse =>
    have htext : (branch condition onTrue onFalse).text = "br i1 " ++ condition.text ++ ", label " ++
        ("%" ++ onTrue.text) ++ ", label " ++ ("%" ++ onFalse.text) := by
      have hlabel : (", label %" : String) = ", label " ++ "%" := rfl
      rw [text, hlabel]
      simp only [String.append_assoc]
    have htrue := h.labels onTrue List.mem_cons_self
    have hfalse := h.labels onFalse (List.mem_cons_of_mem _ List.mem_cons_self)
    rw [htext, wordsOf_between ", label " rfl, wordsOf_between ", label " rfl,
      wordsOf_append (.inl rfl), (IsWord.value condition).wordsOf, (IsWord.target htrue).wordsOf,
      (IsWord.target hfalse).wordsOf]
    rfl
  | label l =>
    have hl := h.labels l List.mem_cons_self
    exact ((IsWord.label hl).append (.of_check rfl)).wordsOf
  | phi result incoming =>
    have hincoming : wordsOf (String.intercalate "," (incoming.map incomingText)) =
        incoming.flatMap fun x => ["[", x.1.text, "%" ++ x.2.text, "]"] := by
      rw [wordsOf_intercalate rfl rfl, List.flatMap_map]
      refine List.flatMap_congr fun x hx => ?_
      exact wordsOf_incomingText (h.labels x.2 (List.mem_map_of_mem hx))
    have hborder : wordsOf (result.text ++ " = phi " ++ result.ty.text ++
        String.intercalate "," (incoming.map incomingText)) =
        wordsOf (result.text ++ " = phi " ++ result.ty.text) ++
          wordsOf (String.intercalate "," (incoming.map incomingText)) := by
      -- What comes from a block begins with a blank, if anything comes at all.
      cases incoming with
      | nil => simp [wordsOf]
      | cons x rest =>
        apply wordsOf_append
        right
        cases rest <;> simp [incomingText, isSpacing]
    rw [text, hborder, hincoming, wordsOf_between " = phi " rfl, (IsWord.value result).wordsOf,
      (IsWord.ty result.ty).wordsOf]
    rfl
  | zext result value =>
    rw [text, wordsOf_between " to " rfl, wordsOf_between " = zext " rfl, value.wordsOf_typedText,
      (IsWord.value result).wordsOf, (IsWord.ty result.ty).wordsOf]
    rfl
  | call result callee returnTy arguments =>
    have hcallee := IsWord.name (h.names callee List.mem_cons_self)
    have hresult : wordsOf ((result.map fun r => r.text ++ " = ").getD "" ++ "call " ++
        returnTy.text) = (result.map fun r => [r.text, "="]).getD [] ++ ["call", returnTy.text] := by
      cases result with
      | none =>
        rw [wordsOf_append (.inl rfl), (IsWord.ty returnTy).wordsOf]
        rfl
      | some r =>
        have hcall : r.text ++ " = " ++ "call " = r.text ++ " = call " := String.append_assoc
        rw [Option.map_some, Option.getD_some, hcall, wordsOf_between " = call " rfl,
          (IsWord.value r).wordsOf, (IsWord.ty returnTy).wordsOf]
        rfl
    have hat : wordsOf " @" = [] := rfl
    have hopen : wordsOf "(" = [] := rfl
    have hclose : wordsOf ")" = [] := rfl
    rw [text, wordsOf_append (.inr rfl), wordsOf_between "(" rfl, wordsOf_between " @" rfl, hresult,
      hcallee.wordsOf, wordsOf_argumentsText, hat, hopen, hclose]
    simp [words]
  | functionBegin name returnTy params =>
    have hname := IsWord.name (h.names name List.mem_cons_self)
    rw [text, wordsOf_append (.inr rfl), wordsOf_between "(" rfl, wordsOf_between " @" rfl,
      wordsOf_append (.inl rfl), (IsWord.ty returnTy).wordsOf, hname.wordsOf,
      wordsOf_argumentsText]
    rfl
  | functionEnd => rfl
  | ret value =>
    cases value with
    | none => rfl
    | some value =>
      rw [text, wordsOf_append (.inl rfl), value.wordsOf_typedText]
      rfl

/-- The text of an instruction is one line. -/
lemma isLine_text {i : Instr} (h : i.Spelled) : IsLine i.text := by
  have hlabel : ∀ l ∈ i.labels, IsLine l.text := fun l hl => (IsWord.label (h.labels l hl)).isLine
  have hname : ∀ name ∈ i.names, IsLine name := fun name hname =>
    (IsWord.name (h.names name hname)).isLine
  have hnat (n : Nat) : IsLine (toString n) := (IsWord.nat n).isLine
  have harguments (values : List Value) : IsLine (argumentsText values) :=
    .intercalate (by decide) (List.forall_mem_map.mpr fun v _ => v.isLine_typedText)
  cases i with
  | alloca | store | load =>
    simp +decide only [text, isLine_append, Value.isLine_text, Value.isLine_typedText,
      Ty.isLine_text, hnat, and_self]
  | binary result op lhs rhs =>
    have hop := (IsWord.binaryOp op).isLine
    simp +decide only [text, isLine_append, Value.isLine_text, Ty.isLine_text, hop, and_self]
  | icmp result relation lhs rhs =>
    have hrelation := (IsWord.relation relation).isLine
    simp +decide only [text, isLine_append, Value.isLine_text, Value.isLine_typedText, hrelation,
      and_self]
  | jump | branch | label =>
    simp only [labels, List.forall_mem_cons] at hlabel
    simp +decide only [text, isLine_append, Value.isLine_text, hlabel, and_self]
  | phi result incoming =>
    have hincoming : IsLine (String.intercalate "," (incoming.map incomingText)) := by
      refine .intercalate (by decide) (List.forall_mem_map.mpr fun x hx => ?_)
      have hl := hlabel x.2 (List.mem_map_of_mem hx)
      simp +decide only [incomingText, isLine_append, Value.isLine_text, hl, and_self]
    simp +decide only [text, isLine_append, Value.isLine_text, Ty.isLine_text, hincoming, and_self]
  | zext =>
    simp +decide only [text, isLine_append, Value.isLine_text, Value.isLine_typedText,
      Ty.isLine_text, and_self]
  | call result callee returnTy arguments =>
    have hcallee := hname callee List.mem_cons_self
    cases result <;>
      simp +decide only [text, isLine_append, Value.isLine_text, Ty.isLine_text, hcallee,
        harguments, Option.map_none, Option.map_some, Option.getD_none, Option.getD_some, and_self]
  | functionBegin name returnTy params =>
    have hown := hname name List.mem_cons_self
    simp +decide only [text, isLine_append, Ty.isLine_text, hown, harguments, and_self]
  | functionEnd => decide
  | ret value =>
    cases value with
    | none => decide
    | some value => simp +decide only [text, isLine_append, Value.isLine_typedText, and_self]

end Instr

end MiniC
