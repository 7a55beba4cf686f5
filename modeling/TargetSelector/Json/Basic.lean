import TargetSelector.Json.Number
import TargetSelector.OrderedMap

/-! JSON values. An object keeps its members in order. -/
namespace TargetSelector

inductive Json where
  | null
  | bool (value : Bool)
  | number (value : JsonNumber)
  | string (value : String)
  | array (items : List Json)
  | object (members : List (String × Json))

namespace Json

/-- Induction over values. An array and an object come with the hypothesis for each of their parts. -/
@[elab_as_elim, induction_eliminator]
theorem ind {motive : Json → Prop} (null : motive .null) (bool : ∀ b, motive (.bool b))
    (number : ∀ n, motive (.number n)) (string : ∀ s, motive (.string s))
    (array : ∀ items, (∀ v ∈ items, motive v) → motive (.array items))
    (object : ∀ members, (∀ m ∈ members, motive m.2) → motive (.object members)) (v : Json) :
    motive v := by
  refine @Json.rec motive (fun items => ∀ v ∈ items, motive v)
    (fun members => ∀ m ∈ members, motive m.2) (fun m => motive m.2) null bool number string array
    object ?_ ?_ ?_ ?_ ?_ v
  · intro v hv
    cases hv
  · intro w items hw hitems v hv
    rcases List.mem_cons.1 hv with rfl | hv
    · exact hw
    · exact hitems v hv
  · intro m hm
    cases hm
  · intro d members hd hmembers m hm
    rcases List.mem_cons.1 hm with rfl | hm
    · exact hd
    · exact hmembers m hm
  · intro name value hvalue
    exact hvalue

/-- A floating-point value as JSON; one that is not finite is null. -/
def ofBinary (x : Binary64) : Json :=
  match JsonNumber.float? x with
  | some n => .number n
  | none => .null

end Json

end TargetSelector
