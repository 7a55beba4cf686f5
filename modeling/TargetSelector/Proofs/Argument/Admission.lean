import TargetSelector.Argument.Segments

/-!
The values that a shape admits, and the texts that they get. A key has segments exactly for the values
that its shape admits.
-/
namespace TargetSelector

namespace Range

def bounds : Range → List Binary64
  | .exact v => [v]
  | .between lo hi => [lo, hi]
  | .atLeast lo => [lo]
  | .atMost hi => [hi]

theorem isFinite_iff {r : Range} : r.isFinite ↔ ∀ x ∈ r.bounds, x.isFinite := by
  cases r <;> simp [isFinite, min?, max?, bounds]

end Range

/-- Recognised keys admit one kind of value, with finite numbers where a number is written by itself
or bounds a range. -/
def Shape.admits : Shape → ArgumentValue → Bool
  | .scalar, .int _ | .scalar, .text _ => true
  | .scalar, .float x => x.isFinite
  | .scalar, .range r | .range, .range r => r.isFinite
  | .scores, .scores m => m.all fun e => e.2.isFinite
  | .flags, .flags _ | .advancements, .advancements _ | .nbt, .nbt _ => true
  | .anything, _ => true
  | _, _ => false

/-- The texts that a value gets under a shape: one for each flag, none for an empty map, and otherwise
its display. -/
def ArgumentValue.texts : Shape → ArgumentValue → List String
  | .flags, .flags m => m.map fun (name, on) => (if on then "" else "!") ++ name
  | .scores, .scores [] | .advancements, .advancements [] => []
  | _, v => [v.display]

namespace ArgumentKey

private theorem segmentsOfShape?_eq (key : ArgumentKey) (v : ArgumentValue) (sh : Shape) :
    key.segmentsOfShape? v sh =
      if sh.admits v then some ((v.texts sh).map key.assign) else none := by
  cases sh with
  | scores =>
    cases v with
    | scores m => cases m <;> rfl
    | _ => rfl
  | flags =>
    cases v with
    | flags m =>
      simp [segmentsOfShape?, Shape.admits, ArgumentValue.texts, flagSegments]
    | _ => rfl
  | advancements =>
    cases v with
    | advancements m => cases m <;> rfl
    | _ => rfl
  | scalar => cases v <;> rfl
  | range => cases v <;> rfl
  | nbt => cases v <;> rfl
  | anything => cases v <;> rfl

theorem rule_eq (key : ArgumentKey) : key.rule = key.shape := by
  cases key with
  | known k => cases k <;> rfl
  | other name unknown => rfl

theorem segments_eq (key : ArgumentKey) (v : ArgumentValue) :
    key.segments v =
      if key.shape.admits v then .ok ((v.texts key.shape).map key.assign) else .error ⟨key⟩ := by
  rw [segments, segmentsOfShape?_eq, rule_eq]
  by_cases h : key.shape.admits v
  · rw [if_pos h, if_pos h]
  · rw [if_neg h, if_neg h]

theorem segments_eq_ok {key : ArgumentKey} {v : ArgumentValue} {ss : List String} :
    key.segments v = .ok ss ↔ key.shape.admits v ∧ (v.texts key.shape).map key.assign = ss := by
  rw [segments_eq]
  split <;> simp_all

theorem exists_assign_of_mem {key : ArgumentKey} {v : ArgumentValue} {ss : List String}
    (h : key.segments v = .ok ss) {s : String} (hs : s ∈ ss) :
    ∃ text ∈ v.texts key.shape, s = key.assign text := by
  obtain ⟨-, rfl⟩ := segments_eq_ok.1 h
  obtain ⟨text, htext, rfl⟩ := List.mem_map.1 hs
  exact ⟨text, htext, rfl⟩

end ArgumentKey

end TargetSelector
