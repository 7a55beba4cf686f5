import TargetSelector.Proofs.Argument.Equality
import TargetSelector.Proofs.Selector.Modes

/-!
Equal selectors both have a text or neither has one. The text depends on the order of the arguments and
of the names in their maps, and on nothing else that equality leaves open, NBT aside.
-/
namespace TargetSelector

namespace Arguments

theorem leading_eq (args : Arguments) : args.leading =
    ((args.map fun a => a.1.segments a.2).takeWhile Except.isOk).flatMap fun r =>
      r.toOption.getD [] := by
  rw [leading, List.takeWhile_map, List.flatMap_map]
  rfl

theorem firstError?_eq_findSome? (args : Arguments) : args.firstError? =
    (args.map fun a => a.1.segments a.2).findSome? fun
      | .ok _ => none
      | .error e => some e := by
  rw [firstError?, List.findSome?_map]
  rfl

end Arguments

namespace Selector

def names (s : Selector) : List (ArgumentKey × List (String × List String)) :=
  s.arguments.map fun a => (a.1, a.2.names)

theorem format_eq_of_segments_eq {s u : Selector} (htarget : s.target = u.target)
    (h : (s.arguments.map fun a => a.1.segments a.2) = u.arguments.map fun a => a.1.segments a.2) :
    s.format = u.format := by
  have hleading : s.arguments.leading = u.arguments.leading := by
    rw [Arguments.leading_eq, h, ← Arguments.leading_eq]
  have herror : s.arguments.firstError? = u.arguments.firstError? := by
    rw [Arguments.firstError?_eq_findSome?, h, ← Arguments.firstError?_eq_findSome?]
  have hempty : s.arguments.isEmpty = u.arguments.isEmpty := by
    rw [← List.isEmpty_map, h, List.isEmpty_map]
  rw [format_eq, format_eq, Arguments.unlessMalformed, Arguments.unlessMalformed, herror, text, text,
    body, body, htarget, hleading, hempty]

theorem exists_format_iff {s : Selector} :
    (∃ t, s.format = .ok t) ↔ s.arguments.all fun a => a.1.shape.admits a.2 := by
  have hnone : s.arguments.firstError? = none ↔ s.arguments.all fun a => a.1.shape.admits a.2 := by
    rw [Arguments.firstError?_eq, Option.map_eq_none_iff, List.find?_eq_none, List.all_eq_true]
    simp
  rw [← hnone, format_eq, Arguments.unlessMalformed]
  cases s.arguments.firstError? <;> simp

/-- Equal selectors have the same target and keys, and under each key as many segments, or a malformed
argument in both. So one has a text exactly if the other has. With the keys, and the names in each map,
in the same order, and without NBT, they have the same text. -/
theorem format_of_eqv {s u : Selector} (hkeys : (OrderedMap.keys s.arguments).Nodup)
    (hvalues : ∀ a ∈ s.arguments, a.2.hasDistinctNames) (h : s.eqv u) :
    s.target = u.target ∧
    (∀ key, key ∈ OrderedMap.keys s.arguments ↔ key ∈ OrderedMap.keys u.arguments) ∧
    (∀ key v w, (key, v) ∈ s.arguments → (key, w) ∈ u.arguments →
      (key.segments v).map List.length = (key.segments w).map List.length) ∧
    ((∃ t, s.format = .ok t) ↔ ∃ t, u.format = .ok t) ∧
    (s.names = u.names → (∀ a ∈ s.arguments, ∀ n, a.2 ≠ .nbt n) → s.format = u.format) := by
  obtain ⟨htarget, hargs⟩ := Bool.and_eq_true_iff.1 h
  have htarget : s.target = u.target := of_decide_eq_true htarget
  refine ⟨htarget, fun key => (OrderedMap.perm_keys_of_eqv hkeys hargs).mem_iff, ?_, ?_, ?_⟩
  · intro key v w hv hw
    exact key.length_segments_of_eqv (hvalues _ hv) (OrderedMap.eq_of_eqv_of_mem hkeys hargs hv hw)
  · rw [exists_format_iff, exists_format_iff, OrderedMap.all_eq_of_eqv hkeys hargs]
    exact fun key v w hv hvw => (ArgumentValue.equal_of_eqv hvw).admits_eq (hvalues _ hv) key.shape
  · intro hnames hnbt
    have horder := OrderedMap.keys_eq_of_map_eq hnames
    refine format_eq_of_segments_eq htarget (OrderedMap.map_eq_of_eqv hkeys hargs horder ?_)
    intro key v w hv hw hvw
    have hparts : v.names = w.names := OrderedMap.value_eq_of_map_eq hnames hkeys hv hw
    exact key.segments_of_eqv (hvalues _ hv) hvw hparts (hnbt _ hv)

/-- Zeros of either sign in a number, a range and a map. -/
theorem format_of_eqv_zeros :
    let zero : Binary64 := .ofNat 0
    let s : Selector := ⟨.entities, [(.known .x, .float zero),
      (.known .scores, .scores [("kills", .atLeast zero), ("deaths", .between zero.neg zero)])]⟩
    let u : Selector := ⟨.entities, [(.known .x, .float zero.neg),
      (.known .scores, .scores [("kills", .atLeast zero.neg), ("deaths", .between zero zero)])]⟩
    zero ≠ zero.neg ∧ s.format = u.format := by
  intro zero s u
  have hkeys : (OrderedMap.keys s.arguments).Nodup := by decide
  have hvalues : ∀ a ∈ s.arguments, a.2.hasDistinctNames := by decide
  have hequal : s.eqv u := by decide +kernel
  have hnames : s.names = u.names := by decide +kernel
  have hnbt : ∀ a ∈ s.arguments, ∀ n, a.2 ≠ .nbt n := by simp [s]
  obtain ⟨-, -, -, -, hformat⟩ := format_of_eqv hkeys hvalues hequal
  exact ⟨by decide +kernel, hformat hnames hnbt⟩

end Selector

end TargetSelector
