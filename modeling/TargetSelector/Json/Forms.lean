import TargetSelector.Gamemode
import TargetSelector.Json.Decode
import TargetSelector.Range
import TargetSelector.SortOrder
import TargetSelector.Target

/-! JSON forms of targets, sort orders, gamemodes and ranges. -/
namespace TargetSelector

def Target.toJson (t : Target) : Json := .string t.text

def Target.ofJson : Json → Except DecodeError Target :=
  Json.toVariant (Target.all.map fun t => (t.text, t))

def SortOrder.toJson (o : SortOrder) : Json := .string o.name

def SortOrder.ofJson : Json → Except DecodeError SortOrder :=
  Json.toVariant (SortOrder.all.map fun o => (o.name, o))

def Gamemode.toJson (g : Gamemode) : Json := .string g.name

def Gamemode.ofJson : Json → Except DecodeError Gamemode :=
  Json.toVariant (Gamemode.all.map fun g => (g.name, g))

namespace Range

/-- A single value is a number; any other range is an object of the bounds that it has. -/
def toJson : Range → Json
  | .exact v => .ofBinary v
  | r => .object ((r.min?.map fun lo => ("min", .ofBinary lo)).toList ++
      (r.max?.map fun hi => ("max", .ofBinary hi)).toList)

/-- A bound among the members of an object. It may be null or absent. -/
def bound (name : String) (members : List (String × Json)) :
    Except DecodeError (Option Binary64) :=
  match OrderedMap.get? name members with
  | none | some .null => .ok none
  | some (.number n) => .ok (some n.toBinary)
  | some _ => .error .notRange

def ofJson : Json → Except DecodeError Range
  | .number n => .ok (.exact n.toBinary)
  | .object members => do
    let lo ← bound "min" members
    let hi ← bound "max" members
    match ofBounds? lo hi with
    | some r => return r
    | none => .error .unbounded
  | _ => .error .notRange

end Range

end TargetSelector
