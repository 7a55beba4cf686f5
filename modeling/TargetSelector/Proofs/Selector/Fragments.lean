import TargetSelector.Selector.FragmentStream

/-!
The fragments of a selector as one list. `remaining` reads off a state of the stream all that it still
gives, and a pull takes the first item of that.
-/
namespace TargetSelector

namespace Arguments

def firstError? (args : Arguments) : Option MalformedArgument :=
  args.findSome? fun a => match a.1.segments a.2 with
    | .ok _ => none
    | .error e => some e

/-- The segments of the arguments that stand before the first malformed one. -/
def leading (args : Arguments) : List String :=
  (args.takeWhile fun a => (a.1.segments a.2).isOk).flatMap fun a =>
    (a.1.segments a.2).toOption.getD []

/-- A result that the error of the first malformed argument replaces. -/
def unlessMalformed {α : Type} (args : Arguments) (a : α) : Except MalformedArgument α :=
  match firstError? args with
  | none => .ok a
  | some e => .error e

variable {key : ArgumentKey} {value : ArgumentValue} (args : Arguments)

theorem leading_cons_ok {ss : List String} (h : key.segments value = .ok ss) :
    leading ((key, value) :: args) = ss ++ leading args := by
  simp [leading, h, Except.isOk, Except.toBool, Except.toOption]

theorem leading_cons_error {e : MalformedArgument} (h : key.segments value = .error e) :
    leading ((key, value) :: args) = [] := by
  simp [leading, h, Except.isOk, Except.toBool]

theorem firstError?_eq_none_iff :
    args.firstError? = none ↔ ∀ a ∈ args, ∃ ss, a.1.segments a.2 = .ok ss := by
  rw [firstError?, List.findSome?_eq_none_iff]
  refine forall₂_congr fun a _ => ?_
  cases a.1.segments a.2 <;> simp

theorem firstError?_cons_ok {ss : List String} (h : key.segments value = .ok ss) :
    firstError? ((key, value) :: args) = firstError? args := by
  simp [firstError?, h]

theorem unlessMalformed_cons_ok {α : Type} (a : α) {ss : List String}
    (h : key.segments value = .ok ss) :
    unlessMalformed ((key, value) :: args) a = unlessMalformed args a := by
  rw [unlessMalformed, firstError?_cons_ok args h, unlessMalformed]

theorem unlessMalformed_cons_error {α : Type} (a : α) {e : MalformedArgument}
    (h : key.segments value = .error e) :
    unlessMalformed ((key, value) :: args) a = .error e := by
  simp [unlessMalformed, firstError?, h]

theorem map_unlessMalformed {α β : Type} (f : α → β) (a : α) :
    (args.unlessMalformed a).map f = args.unlessMalformed (f a) := by
  unfold unlessMalformed
  cases firstError? args with
  | none => rfl
  | some e => rfl

end Arguments

namespace Selector

/-- All fragments of a selector. An error stands where the closing bracket would. -/
def fragmentList (s : Selector) : List Fragment :=
  .ok ("@" ++ String.singleton s.target.tag) :: if s.arguments.isEmpty then [] else
    .ok "[" :: (s.arguments.leading.intersperse ",").map .ok ++ [s.arguments.unlessMalformed "]"]

end Selector

namespace FragmentStream

/-- Segments with a comma before each one but the first of all. -/
def separated : Bool → List String → List String
  | _, [] => []
  | true, s :: ss => "," :: s :: separated true ss
  | false, s :: ss => s :: separated true ss

private theorem separated_false (ss : List String) : separated false ss = ss.intersperse "," := by
  have htrue : ∀ s ss, s :: separated true ss = (s :: ss).intersperse "," := by
    intro s ss
    induction ss generalizing s with
    | nil => rfl
    | cons t ss ih =>
      rw [separated, ih]
      rfl
  cases ss with
  | nil => rfl
  | cons s ss => exact htrue s ss

/-- What a body still gives, where `pending` comes before the segments of the arguments. -/
def bodyRest (started : Bool) (pending : List String) (args : Arguments) : List Fragment :=
  (separated started (pending ++ args.leading)).map .ok ++ [args.unlessMalformed "]"]

def remaining : FragmentStream → List Fragment
  | .target s => s.fragmentList
  | .opening args => .ok "[" :: bodyRest false [] args
  | .body started pending args => bodyRest started pending args
  | .held segment pending args => .ok segment :: bodyRest true pending args
  | .ended => []

/-- A pull that takes the first of some items, if there is one, and leaves the others. -/
def Takes (pull : Option Fragment × FragmentStream) (items : List Fragment) : Prop :=
  pull.1 = items.head? ∧ pull.2.remaining = items.tail

theorem takes_emit (started : Bool) (s : String) (ss : List String) (args : Arguments) :
    Takes (emit started s ss args) (bodyRest started (s :: ss) args) := by
  cases started with
  | true => exact ⟨rfl, rfl⟩
  | false => exact ⟨rfl, rfl⟩

/-- The search for the next segment ends at the first argument that has one or is malformed. -/
theorem takes_advance (started : Bool) (args : Arguments) :
    Takes (advance started args) (bodyRest started [] args) := by
  induction args with
  | nil => cases started <;> exact ⟨rfl, rfl⟩
  | cons a args ih =>
    obtain ⟨key, value⟩ := a
    unfold advance bodyRest
    cases h : key.segments value with
    | error e =>
      rw [Arguments.leading_cons_error args h, Arguments.unlessMalformed_cons_error args _ h]
      cases started <;> exact ⟨rfl, rfl⟩
    | ok ss =>
      rw [Arguments.leading_cons_ok args h, Arguments.unlessMalformed_cons_ok args _ h]
      cases ss with
      | nil => exact ih
      | cons s ss => exact takes_emit started s ss args

theorem takes_next (f : FragmentStream) : Takes f.next f.remaining := by
  cases f with
  | target s =>
    refine ⟨rfl, ?_⟩
    change (if s.arguments.isEmpty then ended else opening s.arguments).remaining =
      if s.arguments.isEmpty then [] else _
    split
    · rfl
    · rw [remaining, bodyRest, separated_false]
      rfl
  | opening args => exact ⟨rfl, rfl⟩
  | body started pending args =>
    cases pending with
    | nil => exact takes_advance started args
    | cons s ss => exact takes_emit started s ss args
  | held s ss args => exact ⟨rfl, rfl⟩
  | ended => exact ⟨rfl, rfl⟩

theorem pulls_eq (f : FragmentStream) (n : Nat) :
    f.pulls n = (List.range n).map fun i => f.remaining[i]? := by
  induction n generalizing f with
  | zero => rfl
  | succ n ih =>
    obtain ⟨hitem, hrest⟩ := takes_next f
    rw [pulls, ih, hitem, hrest, List.range_succ_eq_map, List.map_cons, List.map_map,
      List.head?_eq_getElem?]
    simp [Function.comp_def]

theorem toList_eq (f : FragmentStream) : f.toList = f.remaining := by
  fun_induction toList f with
  | case1 f g h =>
    have hitem := (takes_next f).1
    rw [h] at hitem
    exact (List.head?_eq_none_iff.1 hitem.symm).symm
  | case2 f x g h ih =>
    obtain ⟨hitem, hrest⟩ := takes_next f
    rw [h] at hitem hrest
    obtain ⟨ys, hys⟩ := List.head?_eq_some_iff.1 hitem.symm
    rw [ih, hrest, hys, List.tail_cons]

end FragmentStream

/-- Every number of pulls on a new stream gives the fragments of the selector in order, and nothing
after them. -/
theorem Selector.pulls_fragments (s : Selector) (n : Nat) :
    s.fragments.pulls n = (List.range n).map fun i => s.fragmentList[i]? :=
  s.fragments.pulls_eq n

end TargetSelector
