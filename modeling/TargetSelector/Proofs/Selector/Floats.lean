import TargetSelector.Proofs.Argument.Admission
import TargetSelector.Selector.Basic

/-! The floating-point numbers of a value, wherever they stand in it. -/
namespace TargetSelector

def Binary.isNumber {F : FloatFormat} : Binary F → Bool
  | .nan => false
  | _ => true

theorem Binary.isNumber_iff {F : FloatFormat} {x : Binary F} : x.isNumber ↔ x ≠ .nan := by
  cases x <;> simp [isNumber]

section

variable (p : (F : FloatFormat) → Binary F → Bool)

namespace Nbt

mutual

/-- All floating-point numbers of a tree pass a test. -/
def everyFloat : Nbt → Bool
  | .float v => p _ v
  | .double v => p _ v
  | .list items => everyFloatOfItems items
  | .compound fields => everyFloatOfFields fields
  | .byte _ | .short _ | .int _ | .long _ | .string _ | .byteArray _ | .intArray _
  | .longArray _ => true
termination_by structural n => n

def everyFloatOfItems : List Nbt → Bool
  | [] => true
  | n :: items => n.everyFloat && everyFloatOfItems items
termination_by structural items => items

def everyFloatOfFields : List (String × Nbt) → Bool
  | [] => true
  | (_, n) :: fields => n.everyFloat && everyFloatOfFields fields
termination_by structural fields => fields

end

theorem everyFloat_list {items : List Nbt} :
    (list items).everyFloat p ↔ ∀ n ∈ items, n.everyFloat p := by
  change everyFloatOfItems p items = true ↔ _
  induction items with
  | nil => simp [everyFloatOfItems]
  | cons n items ih => rw [everyFloatOfItems, Bool.and_eq_true, ih, List.forall_mem_cons]

theorem everyFloat_compound {fields : List (String × Nbt)} :
    (compound fields).everyFloat p ↔ ∀ f ∈ fields, f.2.everyFloat p := by
  change everyFloatOfFields p fields = true ↔ _
  induction fields with
  | nil => simp [everyFloatOfFields]
  | cons f fields ih => rw [everyFloatOfFields, Bool.and_eq_true, ih, List.forall_mem_cons]

end Nbt

def ArgumentValue.everyFloat : ArgumentValue → Bool
  | .float v => p _ v
  | .range r => r.bounds.all (p _)
  | .scores m => m.all fun e => e.2.bounds.all (p _)
  | .nbt n => n.everyFloat p
  | .int _ | .text _ | .bool _ | .flags _ | .advancements _ => true

theorem ArgumentValue.everyFloat_scores {m : OrderedMap String Range} :
    (scores m).everyFloat p ↔ ∀ e ∈ m, ∀ x ∈ e.2.bounds, p _ x := by
  simp only [everyFloat, List.all_eq_true]

def Selector.everyFloat (s : Selector) : Bool :=
  s.arguments.all fun a => a.2.everyFloat p

theorem Selector.everyFloat_iff {s : Selector} :
    s.everyFloat p ↔ ∀ a ∈ s.arguments, a.2.everyFloat p := List.all_eq_true

end

end TargetSelector
