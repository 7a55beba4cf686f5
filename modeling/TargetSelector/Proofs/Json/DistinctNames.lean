import TargetSelector.Proofs.Json.Soundness

/-! Objects that are read from text have distinct names, at any depth. -/
namespace TargetSelector

namespace Json

mutual

/-- No object holds a name twice. -/
def hasDistinctNames : Json → Bool
  | .array items => itemsHaveDistinctNames items
  | .object members =>
    decide (OrderedMap.keys members).Nodup && membersHaveDistinctNames members
  | .null | .bool _ | .number _ | .string _ => true
termination_by structural v => v

def itemsHaveDistinctNames : List Json → Bool
  | [] => true
  | v :: items => v.hasDistinctNames && itemsHaveDistinctNames items
termination_by structural items => items

def membersHaveDistinctNames : List (String × Json) → Bool
  | [] => true
  | (_, v) :: members => v.hasDistinctNames && membersHaveDistinctNames members
termination_by structural members => members

end

theorem itemsHaveDistinctNames_iff {items : List Json} :
    itemsHaveDistinctNames items ↔ ∀ v ∈ items, v.hasDistinctNames := by
  induction items with
  | nil => simp [itemsHaveDistinctNames]
  | cons v items ih => simp [itemsHaveDistinctNames, ih]

theorem membersHaveDistinctNames_iff {members : List (String × Json)} :
    membersHaveDistinctNames members ↔ ∀ m ∈ members, m.2.hasDistinctNames := by
  induction members with
  | nil => simp [membersHaveDistinctNames]
  | cons m members ih =>
    rw [membersHaveDistinctNames, Bool.and_eq_true, ih, List.forall_mem_cons]

theorem hasDistinctNames_array {items : List Json} :
    (array items).hasDistinctNames ↔ ∀ v ∈ items, v.hasDistinctNames := by
  rw [hasDistinctNames, itemsHaveDistinctNames_iff]

theorem hasDistinctNames_object {members : List (String × Json)} :
    (object members).hasDistinctNames ↔
      (OrderedMap.keys members).Nodup ∧ ∀ m ∈ members, m.2.hasDistinctNames := by
  rw [hasDistinctNames, Bool.and_eq_true, decide_eq_true_eq, membersHaveDistinctNames_iff]

section Items

variable {α : Type} {P : α → Prop} {item : List Char → α → Prop}

private theorem AreSeparated.forall {s : List Char} {as : List α} (h : AreSeparated item s as)
    (hitem : ∀ {s : List Char} {a : α}, item s a → P a) : ∀ a ∈ as, P a := by
  induction h with
  | single _ h _ => exact List.forall_mem_singleton.2 (hitem h)
  | cons _ h _ _ ih => exact List.forall_mem_cons.2 ⟨hitem h, ih⟩

private theorem AreItems.forall {s : List Char} {as : List α} (h : AreItems item s as)
    (hitem : ∀ {s : List Char} {a : α}, item s a → P a) : ∀ a ∈ as, P a := by
  cases h with
  | none _ => exact List.forall_mem_nil _
  | some h => exact h.forall hitem

end Items

/-- The induction is on the containers that may still open. -/
theorem IsValue.hasDistinctNames {depth : Nat} {s : List Char} {v : Json} (h : IsValue depth s v) :
    v.hasDistinctNames := by
  have hplain : ∀ {s : List Char} {v : Json}, IsPlain s v → v.hasDistinctNames := by
    intro s v h
    cases h <;> rfl
  induction depth generalizing s v with
  | zero => exact hplain h
  | succ depth ih =>
    rcases h with h | h
    · exact hplain h
    · cases h with
      | array h => exact hasDistinctNames_array.2 (h.forall ih)
      | @object s written members h hlast =>
        have hmember : ∀ {s : List Char} {m : String × Json},
            IsMember (IsValue depth) s m → m.2.hasDistinctNames := by
          rintro _ _ ⟨_, _, _, h⟩
          exact ih h
        have hwritten : ∀ m ∈ written, m.2.hasDistinctNames := h.forall hmember
        rw [OrderedMap.eq_ofList hlast]
        exact hasDistinctNames_object.2 ⟨OrderedMap.nodup_keys_ofList _,
          OrderedMap.forall_ofList (P := fun v : Json => v.hasDistinctNames) hwritten⟩

theorem hasDistinctNames_of_parse {text : String} {v : Json} (h : parse text = .ok v) :
    v.hasDistinctNames := by
  cases parse_eq_ok_iff.1 h with
  | mk _ hvalue _ => exact hvalue.hasDistinctNames

end Json

end TargetSelector
