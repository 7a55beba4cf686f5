import TargetSelector.Argument.Key
import TargetSelector.Argument.Value

/-!
The segments of one argument: its pieces of selector text, or the refusal of a value that the key's rule
does not take.
-/
namespace TargetSelector

/-- A value under a key that does not accept it. -/
structure MalformedArgument where
  key : ArgumentKey
deriving DecidableEq

def MalformedArgument.message (e : MalformedArgument) : String :=
  "malformed argument `" ++ e.key.name ++ "`: expected " ++ e.key.shape.expected

namespace ArgumentKey

def assign (key : ArgumentKey) (text : String) : String := key.name ++ "=" ++ text

/-- One segment for each flag, with `!` before the name of a flag that is off. -/
def flagSegments (key : ArgumentKey) (flags : OrderedMap String Bool) : List String :=
  flags.map fun (name, on) => key.assign ((if on then "" else "!") ++ name)

/-- The segments of a value, if `shape` admits it. -/
def segmentsOfShape? (key : ArgumentKey) (v : ArgumentValue) : Shape → Option (List String)
  | .scalar => match v with
    | .int _ | .text _ => some [key.assign v.display]
    | .float x => if x.isFinite then some [key.assign v.display] else none
    | .range r => if r.isFinite then some [key.assign v.display] else none
    | _ => none
  | .scores => match v with
    | .scores m =>
      if m.all fun e => e.2.isFinite then some (if m.isEmpty then [] else [key.assign v.display])
      else none
    | _ => none
  | .range => match v with
    | .range r => if r.isFinite then some [key.assign v.display] else none
    | _ => none
  | .flags => match v with
    | .flags m => some (key.flagSegments m)
    | _ => none
  | .advancements => match v with
    | .advancements m => some (if m.isEmpty then [] else [key.assign v.display])
    | _ => none
  | .nbt => match v with
    | .nbt _ => some [key.assign v.display]
    | _ => none
  | .anything => some [key.assign v.display]

/-- The shape whose segments a key gets. -/
def rule : ArgumentKey → Shape
  | .known .x | .known .y | .known .z | .known .dx | .known .dy | .known .dz | .known .distance
  | .known .limit | .known .sort => .scalar
  | .known .scores => .scores
  | .known .level | .known .xRotation | .known .yRotation => .range
  | .known .team | .known .gamemode | .known .name | .known .type | .known .tag
  | .known .predicate => .flags
  | .known .advancements => .advancements
  | .known .nbt => .nbt
  | .other _ _ => .anything

def segments (key : ArgumentKey) (v : ArgumentValue) : Except MalformedArgument (List String) :=
  match key.segmentsOfShape? v key.rule with
  | some ss => .ok ss
  | none => .error ⟨key⟩

end ArgumentKey

end TargetSelector
