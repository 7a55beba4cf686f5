import TargetSelector.Argument.Segments
import TargetSelector.Target

/-! Selectors: a target and arguments in order. -/
namespace TargetSelector

abbrev Arguments := OrderedMap ArgumentKey ArgumentValue

structure Selector where
  target : Target
  arguments : Arguments

namespace Selector

def new (t : Target) : Selector := ⟨t, []⟩

def head (s : Selector) : String := "@" ++ s.target.text

/-- The segments of all arguments, or the refusal of the first argument that is malformed. -/
def segments (s : Selector) : Except MalformedArgument (List String) := do
  let lists ← s.arguments.mapM fun (key, value) => key.segments value
  return lists.flatten

/-- The same target, and equal arguments without regard to order. -/
def eqv (s u : Selector) : Bool :=
  s.target = u.target && OrderedMap.eqv ArgumentValue.eqv s.arguments u.arguments

end Selector

end TargetSelector
