import TargetSelector.Selector.Basic
import TargetSelector.EntityType

/-!
Edits of a selector. An edit changes the values of the keys that it touches and leaves all else. Flags,
scores and advancements are merged into the map that is there; a value that is no such map gives way to
a new one.
-/
namespace TargetSelector

inductive Edit where
  | x (value : Binary64)
  | y (value : Binary64)
  | z (value : Binary64)
  | volume (dx dy dz : Binary64)
  | distance (range : Range)
  | limit (count : UInt32)
  | sort (order : SortOrder)
  | score (objective : String) (range : Range)
  | level (range : Range)
  | xRotation (range : Range)
  | yRotation (range : Range)
  | team (name : String) (on : Bool)
  | gamemode (mode : Gamemode) (on : Bool)
  | name (name : String) (on : Bool)
  | entityType (entity : EntityType) (on : Bool)
  | tag (name : String) (on : Bool)
  | predicate (name : String) (on : Bool)
  | advancement (name : String) (done : Bool)
  | criterion (advancement criterion : String) (met : Bool)
  | nbt (value : Nbt)
  | argument (key : ArgumentKey) (value : ArgumentValue)

/-- A key and its new value as a function of the value that was there. -/
abbrev Change := ArgumentKey × (Option ArgumentValue → ArgumentValue)

namespace Change

def set (key : KnownKey) (value : ArgumentValue) : Change := (.known key, fun _ => value)

def flag (key : KnownKey) (name : String) (on : Bool) : Change :=
  (.known key, fun
    | some (.flags m) => .flags (m.insert name on)
    | _ => .flags [(name, on)])

def score (objective : String) (range : Range) : Change :=
  (.known .scores, fun
    | some (.scores m) => .scores (m.insert objective range)
    | _ => .scores [(objective, range)])

/-- Changes the entry of one advancement. -/
def advancement (name : String) (f : Option Advancement → Advancement) : Change :=
  (.known .advancements, fun
    | some (.advancements m) => .advancements (m.alter name f)
    | _ => .advancements [(name, f none)])

/-- Sets one criterion; an advancement that was asked for as a whole gives way. -/
def criterion (name : String) (met : Bool) : Option Advancement → Advancement
  | some (.criteria cs) => .criteria (cs.insert name met)
  | _ => .criteria [(name, met)]

end Change

namespace Edit

def changes : Edit → List Change
  | .x v => [.set .x (.float v)]
  | .y v => [.set .y (.float v)]
  | .z v => [.set .z (.float v)]
  | .volume dx dy dz => [.set .dx (.float dx), .set .dy (.float dy), .set .dz (.float dz)]
  | .distance r => [.set .distance (.range r)]
  | .limit n => [.set .limit (.int (Int64.ofNat n.toNat))]
  | .sort o => [.set .sort (.ofSortOrder o)]
  | .score o r => [.score o r]
  | .level r => [.set .level (.range r)]
  | .xRotation r => [.set .xRotation (.range r)]
  | .yRotation r => [.set .yRotation (.range r)]
  | .team n on => [.flag .team n on]
  | .gamemode g on => [.flag .gamemode g.name on]
  | .name n on => [.flag .name n on]
  | .entityType e on => [.flag .type e.text on]
  | .tag n on => [.flag .tag n on]
  | .predicate n on => [.flag .predicate n on]
  | .advancement n done => [.advancement n fun _ => .done done]
  | .criterion n c met => [.advancement n (Change.criterion c met)]
  | .nbt v => [.set .nbt (.nbt v)]
  | .argument key v => [(key, fun _ => v)]

def touched (e : Edit) : List ArgumentKey := e.changes.map (·.1)

end Edit

namespace Selector

def apply (s : Selector) (e : Edit) : Selector :=
  ⟨s.target, e.changes.foldl (fun args c => args.alter c.1 c.2) s.arguments⟩

def run (s : Selector) (es : List Edit) : Selector := es.foldl apply s

end Selector

end TargetSelector
