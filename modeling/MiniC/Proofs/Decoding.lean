import Mathlib.Data.List.Nodup
import MiniC.Form.Code

/-!
# What decoders read back

A decoder recovers a value from a document if it gives that value wherever there is room for the
document: as many arrays and objects must be allowed inside each other as it has. There is one lemma
for each way in which decoders are put together. An object with different names is a record whose
fields are read in order, and a tag leads to the decoder that stands beside it.
-/

namespace MiniC

namespace Json

@[simp] lemma depth_obj (members : List (String × Json)) :
    (obj members).depth = depthOfMembers members + 1 := by
  rw [depth]

@[simp] lemma depth_arr (items : List Json) : (arr items).depth = depthOfItems items + 1 := by
  rw [depth]

@[simp] lemma depth_tagged (tag : String) (j : Json) : (tagged tag j).depth = j.depth + 1 := by
  simp [tagged, depthOfMembers]

lemma depth_le_of_mem {items : List Json} {j : Json} (h : j ∈ items) :
    j.depth ≤ depthOfItems items := by
  induction items with
  | nil => cases h
  | cons item rest ih =>
    rw [depthOfItems]
    rcases List.mem_cons.mp h with rfl | h
    · exact Nat.le_max_left _ _
    · exact Nat.le_trans (ih h) (Nat.le_max_right _ _)

end Json

/-- Where one more level is allowed, something may be opened. -/
lemma Allowance.exists_inner {here : Allowance} {n : Nat} (h : n + 1 ≤ here.depth) :
    ∃ inner, here.inner? = some inner ∧ n ≤ inner.depth := by
  obtain ⟨depth, listedBodies⟩ := here
  cases depth with
  | zero => cases h
  | succ depth => exact ⟨⟨depth, listedBodies⟩, rfl, Nat.le_of_succ_le_succ h⟩

variable {α β γ δ ε : Type}

/-- Whether the decoder reads the value from the document, wherever there is room for it. -/
def Decoder.Recovers (d : Decoder α) (j : Json) (a : α) : Prop :=
  ∀ here : Allowance, j.depth ≤ here.depth → d here j = some a

/-- Whether the member of a record is read from the document. -/
def Member.Recovers (m : Member α) (j : Json) (a : α) : Prop :=
  ∀ here : Allowance, j.depth ≤ here.depth → m.read here (some j) = some a

@[simp] lemma Member.name_required (name : String) (d : Decoder α) :
    (Member.required name d).name = name := rfl

@[simp] lemma Member.name_optional (name : String) (d : Decoder α) :
    (Member.optional name d).name = name := rfl

lemma Member.Recovers.required {d : Decoder α} {j : Json} {a : α} (h : d.Recovers j a)
    (name : String) : (Member.required name d).Recovers j a := h

namespace Decoder

/-- The member of a name that stands in an object once. -/
lemma lookup_of_mem {members : List (String × Json)} (h : (members.map Prod.fst).Nodup)
    {m : String × Json} (hm : m ∈ members) : members.lookup m.1 = some m.2 := by
  induction members with
  | nil => cases hm
  | cons first rest ih =>
    rw [List.map_cons, List.nodup_cons] at h
    rw [List.lookup_cons]
    rcases List.mem_cons.mp hm with rfl | hm
    · rw [beq_self_eq_true]
    · have hne : (m.1 == first.1) = false :=
        beq_eq_false_iff_ne.mpr fun heq => h.1 (heq ▸ List.mem_map_of_mem hm)
      rw [hne]
      exact ih h.2 hm

/-- The fields of an object with different names, in order. -/
lemma fields?_obj (members : List (String × Json)) (h : (members.map Prod.fst).Nodup) :
    fields? (members.map Prod.fst) (.obj members) = some (members.map fun m => some m.2) := by
  have honce : (members.map Prod.fst).all
      (fun name => (members.filter fun m => m.1 == name).length ≤ 1) = true := by
    refine List.all_eq_true.mpr fun name _ => ?_
    have hcount := List.nodup_iff_count_le_one.mp h name
    rw [List.count, List.countP_map, List.countP_eq_length_filter] at hcount
    exact decide_eq_true hcount
  rw [fields?, if_pos honce, List.map_map]
  exact congrArg some (List.map_congr_left fun m hm => lookup_of_mem h hm)

lemma mapM_eq_some {f : β → Option α} {encode : α → β} {xs : List α}
    (h : ∀ x ∈ xs, f (encode x) = some x) : (xs.map encode).mapM f = some xs := by
  induction xs with
  | nil => rfl
  | cons x rest ih =>
    rw [List.forall_mem_cons] at h
    rw [List.map_cons, List.mapM_cons, h.1, ih h.2]
    rfl

namespace Recovers

variable {d : Decoder α} {j x y z w : Json} {a : α}

lemma ofDocument? (h : d.Recovers j a) : d.ofDocument? j = some a := h _ (Nat.le_refl _)

lemma ofText? (h : d.Recovers j a) {text : String} (htext : Json.parse? text = some j)
    (hdepth : j.depth ≤ Json.maxDepth) : d.ofText? text = some a := by
  rw [Decoder.ofText?, htext]
  exact h _ hdepth

lemma string (s : String) : string.Recovers (.str s) s := fun _ _ => rfl

lemma intIn {low high i : Int} (h : low ≤ i ∧ i < high) : (intIn low high).Recovers (.int i) i :=
  fun _ _ => if_pos h

lemma natBelow {limit n : Nat} (h : n < limit) : (natBelow limit).Recovers (.nat n) n := by
  intro here _
  have hrange : (0 : Int) ≤ n ∧ (n : Int) < limit := by omega
  rw [Decoder.natBelow, Json.nat, Decoder.intIn, if_pos hrange]
  rfl

lemma real {b : Binary64} (h : b.isFinite = true) : real.Recovers b.toJson b := by
  intro here _
  rw [Binary64.toJson, if_pos h, Decoder.real, if_pos h]

lemma map (f : α → β) (h : d.Recovers j a) : (d.map f).Recovers j (f a) := by
  intro here hroom
  rw [Decoder.map, h here hroom]
  rfl

lemma option {encode : α → Json} {o : Option α} (hnull : ∀ a, encode a ≠ .null)
    (h : ∀ a ∈ o, d.Recovers (encode a) a) : d.option.Recovers (Json.option encode o) o := by
  intro here hroom
  cases o with
  | none => rfl
  | some a =>
    have ha : d here (encode a) = some a := h a rfl here hroom
    rw [Json.option, Decoder.option.eq_2 _ _ _ (hnull a), ha]
    rfl

lemma list {encode : α → Json} {xs : List α} (h : ∀ x ∈ xs, d.Recovers (encode x) x) :
    d.list.Recovers (.arr (xs.map encode)) xs := by
  intro here hroom
  rw [Json.depth_arr] at hroom
  obtain ⟨inner, hinner, hle⟩ := Allowance.exists_inner hroom
  have hitems : ∀ x ∈ xs, d inner (encode x) = some x := fun x hx =>
    h x hx inner (Nat.le_trans (Json.depth_le_of_mem (List.mem_map_of_mem hx)) hle)
  rw [Decoder.list, hinner, Option.bind_some, mapM_eq_some hitems]

lemma pair {e : Decoder β} {b : β} (hx : d.Recovers x a) (hy : e.Recovers y b) :
    (pair d e).Recovers (.arr [x, y]) (a, b) := by
  intro here hroom
  simp only [Json.depth_arr, Json.depthOfItems] at hroom
  obtain ⟨inner, hinner, hle⟩ := Allowance.exists_inner hroom
  rw [Decoder.pair, hinner, Option.bind_eq_bind, Option.bind_some, hx inner (by omega),
    hy inner (by omega)]
  rfl

section Records

variable {p : Member α} {q : Member β} {r : Member γ} {s : Member δ} {b : β} {c : γ} {f : δ}

lemma record1 {build : α → ε} (hx : p.Recovers x a) :
    (record1 p build).Recovers (.obj [(p.name, x)]) (build a) := by
  intro here hroom
  simp only [Json.depth_obj, Json.depthOfMembers] at hroom
  obtain ⟨inner, hinner, hle⟩ := Allowance.exists_inner hroom
  have hfields : fields? [p.name] (.obj [(p.name, x)]) = some [some x] :=
    fields?_obj [_] (List.nodup_singleton _)
  simp only [Decoder.record1, hinner, hfields, Option.bind_eq_bind, Option.bind_some,
    hx inner (by omega)]
  rfl

lemma record2 {build : α → β → ε} (hnames : [p.name, q.name].Nodup) (hx : p.Recovers x a)
    (hy : q.Recovers y b) :
    (record2 p q build).Recovers (.obj [(p.name, x), (q.name, y)]) (build a b) := by
  intro here hroom
  simp only [Json.depth_obj, Json.depthOfMembers] at hroom
  obtain ⟨inner, hinner, hle⟩ := Allowance.exists_inner hroom
  have hfields : fields? [p.name, q.name] (.obj [(p.name, x), (q.name, y)]) =
    some [some x, some y] := fields?_obj [_, _] hnames
  simp only [Decoder.record2, hinner, hfields, Option.bind_eq_bind, Option.bind_some,
    hx inner (by omega), hy inner (by omega)]
  rfl

lemma record3 {build : α → β → γ → ε} (hnames : [p.name, q.name, r.name].Nodup)
    (hx : p.Recovers x a) (hy : q.Recovers y b) (hz : r.Recovers z c) :
    (record3 p q r build).Recovers (.obj [(p.name, x), (q.name, y), (r.name, z)])
      (build a b c) := by
  intro here hroom
  simp only [Json.depth_obj, Json.depthOfMembers] at hroom
  obtain ⟨inner, hinner, hle⟩ := Allowance.exists_inner hroom
  have hfields : fields? [p.name, q.name, r.name]
      (.obj [(p.name, x), (q.name, y), (r.name, z)]) = some [some x, some y, some z] :=
    fields?_obj [_, _, _] hnames
  simp only [Decoder.record3, hinner, hfields, Option.bind_eq_bind, Option.bind_some,
    hx inner (by omega), hy inner (by omega), hz inner (by omega)]
  rfl

lemma record4 {build : α → β → γ → δ → ε} (hnames : [p.name, q.name, r.name, s.name].Nodup)
    (hx : p.Recovers x a) (hy : q.Recovers y b) (hz : r.Recovers z c) (hw : s.Recovers w f) :
    (record4 p q r s build).Recovers
      (.obj [(p.name, x), (q.name, y), (r.name, z), (s.name, w)]) (build a b c f) := by
  intro here hroom
  simp only [Json.depth_obj, Json.depthOfMembers] at hroom
  obtain ⟨inner, hinner, hle⟩ := Allowance.exists_inner hroom
  have hfields : fields? [p.name, q.name, r.name, s.name]
      (.obj [(p.name, x), (q.name, y), (r.name, z), (s.name, w)]) =
        some [some x, some y, some z, some w] := fields?_obj [_, _, _, _] hnames
  simp only [Decoder.record4, hinner, hfields, Option.bind_eq_bind, Option.bind_some,
    hx inner (by omega), hy inner (by omega), hz inner (by omega), hw inner (by omega)]
  rfl

end Records

/-- A body is written as an object. -/
lemma body {members : List (String × Json)} (h : d.Recovers (.obj members) a) :
    (body d).Recovers (.obj members) a := h

lemma unit {units : List (String × α)} (cases : List (String × Decoder α)) {tag : String}
    (h : units.lookup tag = some a) : (union units cases).Recovers (.str tag) a := fun _ _ => h

lemma tagged {units : List (String × α)} {cases : List (String × Decoder α)} {tag : String}
    (hunit : units.lookup tag = none) (hcase : cases.lookup tag = some d) (h : d.Recovers j a) :
    (union units cases).Recovers (.tagged tag j) a := by
  intro here hroom
  rw [Json.depth_tagged] at hroom
  obtain ⟨inner, hinner, hle⟩ := Allowance.exists_inner hroom
  simp only [Json.tagged, union, hinner, hunit, hcase, Option.bind_eq_bind, Option.bind_some]
  exact h inner hle

end Recovers

end Decoder

/-- A member that may be missing is written in any case. -/
lemma Member.Recovers.optional {d : Decoder α} {encode : α → Json} {o : Option α} (name : String)
    (hnull : ∀ a, encode a ≠ .null) (h : ∀ a ∈ o, d.Recovers (encode a) a) :
    (Member.optional name d).Recovers (Json.option encode o) o := Decoder.Recovers.option hnull h

end MiniC
