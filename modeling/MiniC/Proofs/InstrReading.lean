import MiniC.Form.Code
import MiniC.Proofs.InstrWords
import MiniC.Proofs.Typing

/-!
# Reading instructions back

The text of an instruction leaves out the numbers of labels, what tells a slot from a temporary, and
the types of many operands. But the typing rules say which operands are slots and of which types the
others are, so an instruction without float literals is read back from its words, up to the numbers
of its labels.
-/

namespace MiniC

/-- The label with its name alone. -/
def Label.withoutId : Label → Label
  | .fixed _ name => .fixed 0 name
  | .pending _ => .pending 0

def Value.isFloat : Value → Bool
  | .float .. => true
  | _ => false

/-- The number whose digits are in the word. -/
def numberIn (word : String) : Nat := natOfDigits (word.toList.filter Char.isDigit)

/-- What else is in a word does not count. -/
lemma numberIn_between {a b : String} (n : Nat) (ha : a.toList.filter Char.isDigit = [])
    (hb : b.toList.filter Char.isDigit = []) : numberIn (a ++ toString n ++ b) = n := by
  have hdigits : (Nat.toDigits 10 n).filter Char.isDigit = Nat.toDigits 10 n := by
    refine List.filter_eq_self.mpr fun c hc => ?_
    exact Nat.isDigit_of_mem_toDigits (by decide) (by decide) hc
  unfold numberIn
  rw [String.toList_append, String.toList_append, List.filter_append, List.filter_append, ha, hb,
    Nat.toString_eq_ofList_toDigits, String.toList_ofList, hdigits, List.nil_append,
    List.append_nil, natOfDigits_toDigits]

lemma numberIn_toString (n : Nat) : numberIn (toString n) = n := by
  have hnumber := numberIn_between (a := "") (b := "") n rfl rfl
  rwa [String.empty_append, String.append_empty] at hnumber

lemma numberIn_percent (n : Nat) : numberIn ("%" ++ toString n) = n := by
  have hnumber := numberIn_between (a := "%") (b := "") n rfl rfl
  rwa [String.append_empty] at hnumber

/-- A number begins with a digit or a minus sign. -/
lemma head?_toString_ne (n : Int) : (toString n).toList.head? ≠ some '%' := by
  intro hfirst
  cases n with
  | ofNat n =>
    have hdigits : (toString (Int.ofNat n)).toList = Nat.toDigits 10 n := Nat.toList_repr
    have hmem := List.mem_of_head? hfirst
    rw [hdigits] at hmem
    cases Nat.isDigit_of_mem_toDigits (by decide) (by decide) hmem
  | negSucc n =>
    have htext : toString (Int.negSucc n) = "-" ++ toString (n + 1) := rfl
    have hminus : (toString (Int.negSucc n)).toList.head? = some '-' := by
      rw [htext, String.toList_append]
      rfl
    rw [hminus] at hfirst
    cases hfirst

def Ty.ofText? (word : String) : Option Ty := Ty.all.find? fun ty => ty.text = word

@[simp] lemma Ty.ofText?_text (ty : Ty) : ofText? ty.text = some ty := by
  cases ty <;> rfl

def BinaryOp.ofText? (word : String) : Option BinaryOp :=
  BinaryOp.all.find? fun op => op.text = word

@[simp] lemma BinaryOp.ofText?_text (op : BinaryOp) : ofText? op.text = some op := by
  cases op <;> rfl

def Relation.ofText? (word : String) : Option Relation :=
  Relation.all.find? fun relation => relation.text = word

@[simp] lemma Relation.ofText?_text (relation : Relation) :
    ofText? relation.text = some relation := by
  cases relation <;> rfl

/-- The label with the name that the word holds. -/
def Label.ofWord (word : String) : Label := .fixed 0 (numberIn word)

lemma Label.ofWord_target {l : Label} (h : l.isFixed = true) :
    ofWord ("%" ++ l.text) = l.withoutId := by
  cases l with
  | fixed id name => exact congrArg (Label.fixed 0) (numberIn_percent name)
  | pending id => cases h

lemma Label.ofWord_marker {l : Label} (h : l.isFixed = true) :
    ofWord (l.text ++ ":") = l.withoutId := by
  cases l with
  | fixed id name =>
    have hnumber := numberIn_between (a := "") (b := ":") name rfl rfl
    rw [String.empty_append] at hnumber
    exact congrArg (Label.fixed 0) hnumber
  | pending id => cases h

namespace Value

lemma Holds.ty_eq {v : Value} {ty : Ty} (h : v.Holds ty) : v.ty = ty := by
  cases v with
  | slot id vty => cases h
  | _ => exact h

/-- The temporary or integer literal of the type that the word stands for. -/
def ofText? (ty : Ty) (word : String) : Option Value :=
  if word.toList.head? = some '%' then some (.temp (numberIn word) ty)
  else word.toInt?.map (.int · ty)

@[simp] lemma numberIn_temp (id : Nat) (ty : Ty) : numberIn (temp id ty).text = id :=
  numberIn_percent id

@[simp] lemma numberIn_slot (id : Nat) (ty : Ty) : numberIn (slot id ty).text = id :=
  numberIn_percent id

/-- An operand is read back if its type is known. -/
lemma ofText?_text {v : Value} {ty : Ty} (h : v.Holds ty) (hfloat : v.isFloat = false) :
    ofText? ty v.text = some v := by
  cases v with
  | temp id vty =>
    obtain rfl : vty = ty := h
    have hhead : (temp id vty).text.toList.head? = some '%' := by simp [text]
    rw [ofText?, if_pos hhead, numberIn_temp]
  | slot id vty => cases h
  | int n vty =>
    obtain rfl : vty = ty := h
    rw [ofText?, text, if_neg (head?_toString_ne n)]
    simp
  | float x vty => cases hfloat

/-- Operands, from words for their types and for themselves. -/
def listOfWords? : List String → Option (List Value)
  | [] => some []
  | ty :: word :: rest => do
    let ty ← Ty.ofText? ty
    let v ← ofText? ty word
    return v :: (← listOfWords? rest)
  | _ => none

lemma listOfWords?_typedWords {values : List Value} (hholds : ∀ v ∈ values, ∃ ty, v.Holds ty)
    (hfloat : ∀ v ∈ values, v.isFloat = false) : listOfWords? (typedWords values) = some values := by
  induction values with
  | nil => rfl
  | cons v rest ih =>
    obtain ⟨⟨ty, hv⟩, hrest⟩ := List.forall_mem_cons.mp hholds
    obtain ⟨hvfloat, hrestfloat⟩ := List.forall_mem_cons.mp hfloat
    have hwords : typedWords (v :: rest) = ty.text :: v.text :: typedWords rest := by
      rw [← hv.ty_eq]
      rfl
    rw [hwords, listOfWords?, Ty.ofText?_text, ih hrest hrestfloat]
    simp [ofText?_text hv hvfloat]

/-- What a `phi` of the type takes from blocks, from groups of four words. -/
def incomingOfWords? (ty : Ty) : List String → Option (List (Value × Label))
  | [] => some []
  | _ :: word :: block :: _ :: rest => do
    let v ← ofText? ty word
    return (v, .ofWord block) :: (← incomingOfWords? ty rest)
  | _ => none

lemma incomingOfWords?_words {ty : Ty} {incoming : List (Value × Label)}
    (hty : ∀ x ∈ incoming, x.1.Holds ty) (hfloat : ∀ x ∈ incoming, x.1.isFloat = false)
    (hlabel : ∀ x ∈ incoming, x.2.isFixed = true) :
    incomingOfWords? ty (incoming.flatMap fun x => ["[", x.1.text, "%" ++ x.2.text, "]"]) =
      some (incoming.map (Prod.map id Label.withoutId)) := by
  induction incoming with
  | nil => rfl
  | cons x rest ih =>
    obtain ⟨hx, hrest⟩ := List.forall_mem_cons.mp hty
    obtain ⟨hxfloat, hrestfloat⟩ := List.forall_mem_cons.mp hfloat
    obtain ⟨hxlabel, hrestlabel⟩ := List.forall_mem_cons.mp hlabel
    rw [List.flatMap_cons, List.cons_append, List.cons_append, List.cons_append, List.cons_append,
      List.nil_append, incomingOfWords?, ih hrest hrestfloat hrestlabel, Label.ofWord_target hxlabel]
    simp [ofText?_text hx hxfloat, Prod.map]

end Value

namespace Instr

/-- The instruction with the words behind the equals sign, or with all these words, where `result`
is the word in front of the sign. -/
def ofFields? (result : String) : List String → Option Instr
  | ["alloca", ty, _, align] => do
    let ty ← Ty.ofText? ty
    return .alloca (.slot (numberIn result) ty) (numberIn align)
  | ["store", ty, value, _, slot, _, align] => do
    let ty ← Ty.ofText? ty
    let value ← Value.ofText? ty value
    return .store value (.slot (numberIn slot) ty) (numberIn align)
  | ["load", ty, _, slot, _, align] => do
    let ty ← Ty.ofText? ty
    return .load (.temp (numberIn result) ty) (.slot (numberIn slot) ty) (numberIn align)
  | ["icmp", relation, ty, lhs, rhs] => do
    let relation ← Relation.ofText? relation
    let ty ← Ty.ofText? ty
    let lhs ← Value.ofText? ty lhs
    let rhs ← Value.ofText? ty rhs
    return .icmp (.temp (numberIn result) .bool) relation lhs rhs
  | ["br", _, target] => some (.jump (.ofWord target))
  | ["br", _, condition, _, onTrue, _, onFalse] => do
    let condition ← Value.ofText? .bool condition
    return .branch condition (.ofWord onTrue) (.ofWord onFalse)
  | "phi" :: ty :: incoming => do
    let ty ← Ty.ofText? ty
    return .phi (.temp (numberIn result) ty) (← Value.incomingOfWords? ty incoming)
  | ["zext", narrow, value, _, wide] => do
    let narrow ← Ty.ofText? narrow
    let value ← Value.ofText? narrow value
    let wide ← Ty.ofText? wide
    return .zext (.temp (numberIn result) wide) value
  | "call" :: ty :: callee :: arguments => do
    let ty ← Ty.ofText? ty
    let arguments ← Value.listOfWords? arguments
    return .call (if ty = .void then none else some (.temp (numberIn result) ty)) callee ty arguments
  | "define" :: ty :: name :: params => do
    let ty ← Ty.ofText? ty
    return .functionBegin name ty (← Value.listOfWords? params.dropLast)
  | ["ret", ty, value] => do
    let ty ← Ty.ofText? ty
    let value ← Value.ofText? ty value
    return .ret (some value)
  | ["ret", _] => some (.ret none)
  | [op, ty, lhs, rhs] => do
    let op ← BinaryOp.ofText? op
    let ty ← Ty.ofText? ty
    let lhs ← Value.ofText? ty lhs
    let rhs ← Value.ofText? ty rhs
    return .binary (.temp (numberIn result) ty) op lhs rhs
  | [word] => some (if word = "\x7d" then .functionEnd else .label (.ofWord word))
  | _ => none

/-- The instruction with these words. -/
def ofWords? : List String → Option Instr
  | result :: "=" :: fields => ofFields? result fields
  | fields => ofFields? "" fields

lemma ofWords?_of_ne {first second : String} {rest : List String} (h : second ≠ "=") :
    ofWords? (first :: second :: rest) = ofFields? "" (first :: second :: rest) := by
  unfold ofWords?
  split
  · rename_i heq
    cases heq
    exact absurd rfl h
  · rfl

/-- An instruction is read back from its words, up to the numbers of its labels. -/
theorem ofWords?_words {functions : FunctionTable} {options : Options} {returnTy : Ty} {i : Instr}
    (h : i.Typed functions options returnTy) (hspelled : i.Spelled)
    (hfloat : ∀ v ∈ i.used, v.isFloat = false) :
    ofWords? i.words = some (i.relabel Label.withoutId) := by
  have hty (ty : Ty) : ty.text ≠ "=" := by cases ty <;> decide
  cases i with
  | alloca slot align =>
    obtain ⟨id, ty, rfl, -, -⟩ := h
    simp only [words, ofWords?, ofFields?, Value.numberIn_slot, Ty.ofText?_text, numberIn_toString]
    rfl
  | store value slot align =>
    obtain ⟨id, ty, rfl, -, hvalue, -⟩ := h
    have hread := Value.ofText?_text hvalue (hfloat value List.mem_cons_self)
    rw [words, ofWords?_of_ne (hty _), hvalue.ty_eq]
    simp only [ofFields?, Value.numberIn_slot, Ty.ofText?_text, Option.bind_eq_bind,
      Option.bind_some, hread, numberIn_toString]
    rfl
  | load result slot align =>
    obtain ⟨n, id, ty, rfl, rfl, -, -⟩ := h
    simp only [words, ofWords?, ofFields?, Value.numberIn_temp, Value.numberIn_slot,
      Ty.ofText?_text, numberIn_toString]
    rfl
  | binary result op lhs rhs =>
    obtain ⟨n, ty, rfl, -, hlhs, hrhs⟩ := h
    have hl := Value.ofText?_text hlhs (hfloat lhs List.mem_cons_self)
    have hr := Value.ofText?_text hrhs (hfloat rhs (List.mem_cons_of_mem _ List.mem_cons_self))
    have hfields : ofFields? (Value.temp n ty).text [op.text, ty.text, lhs.text, rhs.text] =
        (do
          let op ← BinaryOp.ofText? op.text
          some (.binary (.temp n ty) op lhs rhs)) := by
      cases op <;> simp [BinaryOp.text, ofFields?, hl, hr]
    exact hfields.trans (by rw [BinaryOp.ofText?_text]; rfl)
  | icmp result relation lhs rhs =>
    obtain ⟨n, ty, rfl, -, hlhs, hrhs⟩ := h
    have hl := Value.ofText?_text hlhs (hfloat lhs List.mem_cons_self)
    have hr := Value.ofText?_text hrhs (hfloat rhs (List.mem_cons_of_mem _ List.mem_cons_self))
    simp only [words, ofWords?, ofFields?, Value.numberIn_temp, Relation.ofText?_text, hlhs.ty_eq,
      Ty.ofText?_text, Option.bind_eq_bind, Option.bind_some, hl, hr]
    rfl
  | jump target =>
    have htarget := hspelled.labels target List.mem_cons_self
    rw [words, ofWords?_of_ne (by decide)]
    simp only [ofFields?, Label.ofWord_target htarget]
    rfl
  | branch condition onTrue onFalse =>
    have hread := Value.ofText?_text h (hfloat condition List.mem_cons_self)
    have htrue := hspelled.labels onTrue List.mem_cons_self
    have hfalse := hspelled.labels onFalse (List.mem_cons_of_mem _ List.mem_cons_self)
    rw [words, ofWords?_of_ne (by decide)]
    simp only [ofFields?, hread, Label.ofWord_target htrue, Label.ofWord_target hfalse]
    rfl
  | label l =>
    have hl := hspelled.labels l List.mem_cons_self
    have hne : l.text ++ ":" ≠ "\x7d" := by
      intro heq
      have hlast := congrArg (fun text : String => text.toList.getLast?) heq
      simp at hlast
    rw [words, relabel_label, ← Label.ofWord_marker hl]
    simp [ofWords?, ofFields?, hne]
  | phi result incoming =>
    obtain ⟨n, ty, rfl, hincoming⟩ := h
    have hread := Value.incomingOfWords?_words hincoming
      (fun x hx => hfloat x.1 (List.mem_append_right _ (List.mem_map_of_mem hx)))
      (fun x hx => hspelled.labels x.2 (List.mem_map_of_mem hx))
    rw [relabel_phi]
    simp only [words, List.cons_append, List.nil_append, ofWords?, ofFields?, Value.numberIn_temp,
      Ty.ofText?_text, Option.bind_eq_bind, Option.bind_some, Value.ty, hread]
    rfl
  | zext result value =>
    obtain ⟨n, narrow, wide, rfl, hvalue, -, -, -⟩ := h
    have hread := Value.ofText?_text hvalue (hfloat value List.mem_cons_self)
    simp only [words, ofWords?, ofFields?, Value.numberIn_temp, hvalue.ty_eq, Ty.ofText?_text,
      Option.bind_eq_bind, Option.bind_some, hread]
    rfl
  | call result callee ty arguments =>
    obtain ⟨params, -, harguments, hresult⟩ := h
    have hholds : ∀ v ∈ arguments, ∃ ty, v.Holds ty :=
      ((List.forall₂_and_left _ _).mp (harguments.imp fun v ty hv => ⟨⟨ty, hv⟩, hv⟩)).1
    have hread := Value.listOfWords?_typedWords hholds fun v hv =>
      hfloat v (List.mem_append_left _ hv)
    rcases hresult with ⟨rfl, rfl⟩ | ⟨hvoid, n, rfl⟩
    · simp only [words, Option.map_none, Option.getD_none, List.nil_append, List.cons_append]
      rw [ofWords?_of_ne (hty _)]
      simp only [ofFields?, Ty.ofText?_text, Option.bind_eq_bind, Option.bind_some, hread, if_true]
      rfl
    · simp only [words, Option.map_some, Option.getD_some, List.nil_append, List.cons_append,
        ofWords?, ofFields?, Ty.ofText?_text, Option.bind_eq_bind, Option.bind_some, hread,
        if_neg hvoid, Value.numberIn_temp]
      rfl
  | functionBegin name ty params =>
    have hread : Value.listOfWords? (typedWords params) = some params := by
      refine Value.listOfWords?_typedWords ?_ ?_ <;> intro v hv <;> obtain ⟨n, ty, rfl⟩ := h.2 v hv
      · exact ⟨ty, rfl⟩
      · rfl
    simp only [words, List.nil_append, List.cons_append]
    rw [ofWords?_of_ne (hty _)]
    simp only [ofFields?, Ty.ofText?_text, Option.bind_eq_bind, Option.bind_some,
      List.dropLast_concat, hread]
    rfl
  | functionEnd => rfl
  | ret value =>
    cases value with
    | none =>
      rw [words, ofWords?_of_ne (by decide)]
      rfl
    | some value =>
      obtain ⟨-, hvalue⟩ := h
      have hread := Value.ofText?_text hvalue (hfloat value List.mem_cons_self)
      rw [words, ofWords?_of_ne (hty _), hvalue.ty_eq]
      simp only [ofFields?, Ty.ofText?_text, Option.bind_eq_bind, Option.bind_some, hread]
      rfl

end Instr

end MiniC
