import TargetSelector.Selector.Basic

/-!
The text of a selector as a stream of fragments that is pulled one at a time: the target, and then the
segments in brackets. A malformed argument is given once, as an error, and ends the stream.
-/
namespace TargetSelector

abbrev Fragment := Except MalformedArgument String

/-- Where a stream stands, with all that is still to come. In `held` a comma has been given before a
segment. -/
inductive FragmentStream where
  | target (selector : Selector)
  | opening (arguments : Arguments)
  | body (started : Bool) (pending : List String) (arguments : Arguments)
  | held (segment : String) (pending : List String) (arguments : Arguments)
  | ended

namespace FragmentStream

/-- Gives the next segment, or the comma before it. -/
def emit (started : Bool) (segment : String) (pending : List String) (args : Arguments) :
    Option Fragment × FragmentStream :=
  if started then (some (.ok ","), .held segment pending args)
  else (some (.ok segment), .body true pending args)

/-- Goes on to the next argument that has a segment. -/
def advance (started : Bool) : Arguments → Option Fragment × FragmentStream
  | [] => (some (.ok "]"), .ended)
  | (key, value) :: args =>
    match key.segments value with
    | .error e => (some (.error e), .ended)
    | .ok [] => advance started args
    | .ok (segment :: pending) => emit started segment pending args

/-- One pull: the fragment, if the stream has not ended, and the stream after it. -/
def next : FragmentStream → Option Fragment × FragmentStream
  | .target s =>
    (some (.ok s.head), if s.arguments.isEmpty then .ended else .opening s.arguments)
  | .opening args => (some (.ok "["), .body false [] args)
  | .body started (segment :: pending) args => emit started segment pending args
  | .body started [] args => advance started args
  | .held segment pending args => (some (.ok segment), .body true pending args)
  | .ended => (none, .ended)

private def load : Arguments → Nat
  | [] => 0
  | (key, value) :: args =>
    (match key.segments value with
      | .ok ss => 2 * ss.length
      | .error _ => 0) + load args

/-- A bound on the pulls that are left. -/
private def weight : FragmentStream → Nat
  | .target s => load s.arguments + 3
  | .opening args => load args + 2
  | .body _ pending args => 2 * pending.length + load args + 1
  | .held _ pending args => 2 * pending.length + load args + 2
  | .ended => 0

private theorem weight_emit (b : Bool) (s : String) (ss : List String) (args : Arguments) :
    (emit b s ss args).2.weight < 2 * (s :: ss).length + load args + 1 := by
  unfold emit
  split
  · simp only [weight, List.length_cons]
    omega
  · simp only [weight, List.length_cons]
    omega

private theorem weight_advance (b : Bool) (args : Arguments) :
    (advance b args).2.weight < load args + 1 := by
  induction args with
  | nil => simp [advance, weight]
  | cons a args ih =>
    simp only [advance, load]
    split
    · simp [weight]
    · omega
    · next h => simpa [h] using weight_emit b _ _ args

private theorem weight_next {f g : FragmentStream} {x : Fragment} (h : f.next = (some x, g)) :
    g.weight < f.weight := by
  have hg : g = f.next.2 := by rw [h]
  subst hg
  cases f with
  | target s =>
    simp only [next]
    split <;> simp [weight]
  | opening args => simp [next, weight]
  | body b ss args =>
    cases ss with
    | nil => simpa [next, weight] using weight_advance b args
    | cons s ss => exact weight_emit b s ss args
  | held s ss args => simp [next, weight]
  | ended => simp [next] at h

def toList (f : FragmentStream) : List Fragment :=
  match _h : f.next with
  | (none, _) => []
  | (some x, g) => x :: toList g
termination_by f.weight
decreasing_by exact weight_next _h

/-- The text of all fragments that are still to come, or the first error among them. -/
def collect (f : FragmentStream) : Except MalformedArgument String :=
  (f.toList.mapM id).map String.join

/-- `n` pulls, one after the other. -/
def pulls : Nat → FragmentStream → List (Option Fragment)
  | 0, _ => []
  | n + 1, f => f.next.1 :: pulls n f.next.2

end FragmentStream

namespace Selector

def fragments (s : Selector) : FragmentStream := .target s

/-- The whole text, with nothing of it where an argument is malformed. -/
def format (s : Selector) : Except MalformedArgument String := s.fragments.collect

/-- Pulls from labelled streams over one selector, in the order of the labels. A stream starts at its
first pull. -/
def interleaved {ι : Type} [DecidableEq ι] (s : Selector) (streams : OrderedMap ι FragmentStream) :
    List ι → List (Option Fragment)
  | [] => []
  | i :: ids =>
    let (item, rest) := ((OrderedMap.get? i streams).getD s.fragments).next
    item :: s.interleaved (streams.insert i rest) ids

end Selector

end TargetSelector
