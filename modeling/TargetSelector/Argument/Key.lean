/-!
Argument keys. A recognised key expects values of one shape; any other name is a key of its own that
accepts every value.
-/
namespace TargetSelector

inductive KnownKey where
  | x | y | z | dx | dy | dz | distance | limit | sort | scores | level | xRotation | yRotation
  | team | gamemode | name | type | tag | predicate | advancements | nbt
deriving DecidableEq

namespace KnownKey

def text : KnownKey → String
  | .x => "x"
  | .y => "y"
  | .z => "z"
  | .dx => "dx"
  | .dy => "dy"
  | .dz => "dz"
  | .distance => "distance"
  | .limit => "limit"
  | .sort => "sort"
  | .scores => "scores"
  | .level => "level"
  | .xRotation => "x_rotation"
  | .yRotation => "y_rotation"
  | .team => "team"
  | .gamemode => "gamemode"
  | .name => "name"
  | .type => "type"
  | .tag => "tag"
  | .predicate => "predicate"
  | .advancements => "advancements"
  | .nbt => "nbt"

/-- The recognised key of a name, in a table of its own. -/
def ofText? : String → Option KnownKey
  | "x" => some .x
  | "y" => some .y
  | "z" => some .z
  | "dx" => some .dx
  | "dy" => some .dy
  | "dz" => some .dz
  | "distance" => some .distance
  | "limit" => some .limit
  | "sort" => some .sort
  | "scores" => some .scores
  | "level" => some .level
  | "x_rotation" => some .xRotation
  | "y_rotation" => some .yRotation
  | "team" => some .team
  | "gamemode" => some .gamemode
  | "name" => some .name
  | "type" => some .type
  | "tag" => some .tag
  | "predicate" => some .predicate
  | "advancements" => some .advancements
  | "nbt" => some .nbt
  | _ => none

theorem ofText?_text (k : KnownKey) : ofText? k.text = some k := by cases k <;> rfl

theorem text_of_ofText? {s : String} {k : KnownKey} (h : ofText? s = some k) : k.text = s := by
  unfold ofText? at h
  split at h <;> cases h <;> rfl

end KnownKey

inductive ArgumentKey where
  | known (key : KnownKey)
  | other (name : String) (unknown : KnownKey.ofText? name = none)
deriving DecidableEq

/-- The families of values that a key may accept. Which shape a key has is written down three times: here
for its refusals, once more for its segments, and once more for its values from JSON. -/
inductive Shape where
  | scalar | scores | range | flags | advancements | nbt | anything
deriving DecidableEq

/-- A shape in the words of a refusal. -/
def Shape.expected : Shape → String
  | .scalar => "a finite number, string or range"
  | .scores => "a map of objective to finite range"
  | .range => "a finite range"
  | .flags => "a map of name to boolean"
  | .advancements => "a map of advancement to boolean or map of criterion to boolean"
  | .nbt => "an NBT compound"
  | .anything => "a scalar or map of name to boolean"

def KnownKey.shape : KnownKey → Shape
  | .x | .y | .z | .dx | .dy | .dz | .distance | .limit | .sort => .scalar
  | .scores => .scores
  | .level | .xRotation | .yRotation => .range
  | .team | .gamemode | .name | .type | .tag | .predicate => .flags
  | .advancements => .advancements
  | .nbt => .nbt

namespace ArgumentKey

def ofName (s : String) : ArgumentKey :=
  match h : KnownKey.ofText? s with
  | some k => .known k
  | none => .other s h

def name : ArgumentKey → String
  | .known k => k.text
  | .other s _ => s

def shape : ArgumentKey → Shape
  | .known k => k.shape
  | .other _ _ => .anything

theorem name_ofName (s : String) : (ofName s).name = s := by
  unfold ofName
  split
  · next h => exact KnownKey.text_of_ofText? h
  · rfl

theorem ofName_name (k : ArgumentKey) : ofName k.name = k := by
  cases k with
  | known k =>
    unfold ofName
    split
    · next h => rw [name, KnownKey.ofText?_text] at h; cases h; rfl
    · next h => rw [name, KnownKey.ofText?_text] at h; cases h
  | other s h =>
    unfold ofName
    split
    · next h' => rw [name, h] at h'; cases h'
    · rfl

theorem ofName_injective {s t : String} (h : ofName s = ofName t) : s = t := by
  rw [← name_ofName s, h, name_ofName]

theorem name_injective {k l : ArgumentKey} (h : k.name = l.name) : k = l := by
  rw [← ofName_name k, h, ofName_name]

end ArgumentKey

end TargetSelector
