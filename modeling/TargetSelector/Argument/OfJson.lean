import TargetSelector.Argument.Segments
import TargetSelector.Json.Forms

/-!
Argument values from JSON. Each key takes the JSON of one shape and nothing else.
-/
namespace TargetSelector

namespace Nbt

mutual

/-- Data of any nesting without null. Integers get the narrower of two widths that holds them. -/
def ofJson? : Json → Option Nbt
  | .null => none
  | .bool b => some (.ofBool b)
  | .number n => some <| match n.toInt64? with
    | some i =>
      if -0x80000000 ≤ i.toInt ∧ i.toInt < 0x80000000 then .int (Int32.ofInt i.toInt)
      else .long i
    | none => .double n.toBinary
  | .string s => some (.string s)
  | .array items => (ofItems? items).map .list
  | .object members => (ofMembers? members).map .compound
termination_by structural v => v

def ofItems? : List Json → Option (List Nbt)
  | [] => some []
  | v :: items => do return (← ofJson? v) :: (← ofItems? items)
termination_by structural items => items

def ofMembers? : List (String × Json) → Option (List (String × Nbt))
  | [] => some []
  | (name, v) :: members => do return (name, ← ofJson? v) :: (← ofMembers? members)
termination_by structural members => members

end

end Nbt

/-- The shape of which a key takes JSON. -/
def ArgumentKey.jsonShape : ArgumentKey → Shape
  | .known .x | .known .y | .known .z | .known .dx | .known .dy | .known .dz | .known .distance
  | .known .limit | .known .sort => .scalar
  | .known .scores => .scores
  | .known .level | .known .xRotation | .known .yRotation => .range
  | .known .team | .known .gamemode | .known .name | .known .type | .known .tag
  | .known .predicate => .flags
  | .known .advancements => .advancements
  | .known .nbt => .nbt
  | .other _ _ => .anything

namespace ArgumentValue

def mapMembers? {α : Type} (f : Json → Option α) :
    List (String × Json) → Option (OrderedMap String α)
  | [] => some []
  | (name, v) :: members => do return (name, ← f v) :: (← mapMembers? f members)

def bool? : Json → Option Bool
  | .bool b => some b
  | _ => none

def range? (v : Json) : Option Range := (Range.ofJson v).toOption

def flags? : Json → Option (OrderedMap String Bool)
  | .object members => mapMembers? bool? members
  | _ => none

def advancement? : Json → Option Advancement
  | .bool b => some (.done b)
  | v => (flags? v).map .criteria

/-- A number or a string. A number is an integer if it fits into 64 signed bits. -/
def scalar? : Json → Option ArgumentValue
  | .number n => some <| match n.toInt64? with
    | some i => .int i
    | none => .float n.toBinary
  | .string s => some (.text s)
  | _ => none

/-- The value that JSON gives to a key of a shape. -/
def ofShape? : Shape → Json → Option ArgumentValue
  | .scalar, .object members => (range? (.object members)).map .range
  | .scalar, v => scalar? v
  | .scores, .object members => (mapMembers? range? members).map .scores
  | .range, v => (range? v).map .range
  | .flags, v => (flags? v).map .flags
  | .advancements, .object members => (mapMembers? advancement? members).map .advancements
  | .nbt, .object members => (Nbt.ofJson? (.object members)).map .nbt
  | .anything, .object members => (flags? (.object members)).map .flags
  | .anything, .bool b => some (.bool b)
  | .anything, v => scalar? v
  | _, _ => none

def ofJson (key : ArgumentKey) (v : Json) : Except MalformedArgument ArgumentValue :=
  match ofShape? key.jsonShape v with
  | some a => .ok a
  | none => .error ⟨key⟩

end ArgumentValue

end TargetSelector
