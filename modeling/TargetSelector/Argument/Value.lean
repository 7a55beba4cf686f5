import TargetSelector.Nbt.Snbt
import TargetSelector.Range
import TargetSelector.SortOrder
import TargetSelector.Gamemode

/-! Argument values and their text. Maps are written in braces, in order. -/
namespace TargetSelector

/-- What is asked of an advancement: that it is done or not, or the same of its criteria. -/
inductive Advancement where
  | done (value : Bool)
  | criteria (entries : OrderedMap String Bool)
deriving DecidableEq

inductive ArgumentValue where
  | int (value : Int64)
  | float (value : Binary64)
  | text (value : String)
  | bool (value : Bool)
  | range (value : Range)
  | flags (entries : OrderedMap String Bool)
  | scores (entries : OrderedMap String Range)
  | advancements (entries : OrderedMap String Advancement)
  | nbt (value : Nbt)

def boolText (b : Bool) : String := if b then "true" else "false"

/-- Entries in braces, each a name, an equals sign and a text. -/
def braced {α : Type} (text : α → String) (entries : OrderedMap String α) : String :=
  "\x7b" ++ ",".intercalate (entries.map fun (name, a) => name ++ "=" ++ text a) ++ "\x7d"

namespace Advancement

def text : Advancement → String
  | .done b => boolText b
  | .criteria cs => braced boolText cs

def eqv : Advancement → Advancement → Bool
  | .done b, .done c => b = c
  | .criteria cs, .criteria ds => OrderedMap.eqv (· = ·) cs ds
  | _, _ => false

end Advancement

namespace ArgumentValue

def display : ArgumentValue → String
  | .int v => v.toInt.repr
  | .float v => v.canonical.text
  | .text v => v
  | .bool v => boolText v
  | .range v => v.text
  | .flags m => braced boolText m
  | .scores m => braced Range.text m
  | .advancements m => braced Advancement.text m
  | .nbt v => v.text

/-- The same kind, with numbers compared as numbers and maps without regard to order. -/
def eqv : ArgumentValue → ArgumentValue → Bool
  | .int v, .int w => v = w
  | .float v, .float w => v.ieeeEq w
  | .text v, .text w => v = w
  | .bool v, .bool w => v = w
  | .range v, .range w => v.eqv w
  | .flags m, .flags n => OrderedMap.eqv (· = ·) m n
  | .scores m, .scores n => OrderedMap.eqv Range.eqv m n
  | .advancements m, .advancements n => OrderedMap.eqv Advancement.eqv m n
  | .nbt v, .nbt w => v.eqv w
  | _, _ => false

def ofSortOrder (o : SortOrder) : ArgumentValue := .text o.name

def ofGamemode (g : Gamemode) : ArgumentValue := .text g.name

end ArgumentValue

end TargetSelector
